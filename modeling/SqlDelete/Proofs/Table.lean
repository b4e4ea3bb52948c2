import SqlDelete.Proofs.Clause
import SqlDelete.Proofs.History

/-!
# The table and its keyword

The table is the token that follows the last table keyword. It is looked up at the
position of that keyword, which also counts the tokens that were taken back after the
keyword: as many of the tokens that follow are passed over. Where no keyword stands
between the two words of a later one, nothing is passed over.
-/

namespace SqlDelete

namespace History

def latest? (h : History) (name : Text) : Option Noting :=
  h.notings.reverse.find? (·.occurrence.keyword = name)

/-- How many keywords were noted before the piece with an index. -/
def ordinal (h : History) (index : Nat) : Nat :=
  h.notings.countP (·.index < index)

def after (h : History) (index : Nat) : List Entry :=
  h.entries.filter (index < ·.index)

theorem mem_after {h : History} {index : Nat} {e : Entry} :
    e ∈ h.after index ↔ e ∈ h.entries ∧ index < e.index := by
  simp [after]

theorem latest?_eq_some_iff {h : History} {name : Text} {n : Noting} :
    h.latest? name = some n ↔ ∃ front back, h.notings = front ++ n :: back ∧
      n.occurrence.keyword = name ∧ ∀ m ∈ back, m.occurrence.keyword ≠ name := by
  rw [latest?, List.find?_eq_some_iff_append, decide_eq_true_eq]
  constructor
  · rintro ⟨hname, back, front, heq, hback⟩
    refine ⟨front.reverse, back.reverse, ?_, hname, ?_⟩
    · simpa using congrArg List.reverse heq
    · simpa using hback
  · rintro ⟨front, back, heq, hname, hback⟩
    refine ⟨hname, back.reverse, front.reverse, ?_, ?_⟩
    · simp [heq]
    · simpa using hback

theorem latest?_eq_none_iff {h : History} {name : Text} :
    h.latest? name = none ↔ ∀ n ∈ h.notings, n.occurrence.keyword ≠ name := by
  simp [latest?]

/-- An ordinal is the place among the notings. -/
theorem Ordered.ordinal_eq_length {h : History} (ho : h.Ordered) {front back : List Noting}
    {n : Noting} (heq : h.notings = front ++ n :: back) : h.ordinal n.index = front.length := by
  have hordered := ho.notings
  rw [heq] at hordered
  obtain ⟨-, hback, hfront⟩ := List.pairwise_append.mp hordered
  have hbefore : front.countP (·.index < n.index) = front.length :=
    List.countP_eq_length.mpr fun m hm => decide_eq_true (hfront m hm n List.mem_cons_self)
  have hbehind : back.countP (·.index < n.index) = 0 := by
    rw [List.countP_eq_zero]
    intro m hm
    have := List.rel_of_pairwise_cons hback hm
    simp
    omega
  simp [ordinal, heq, List.countP_append, hbefore, hbehind]

theorem Ordered.latest?_transcript {h : History} (ho : h.Ordered) (name : Text) :
    h.transcript.keywords.latest? name =
      (h.latest? name).map fun n => (h.ordinal n.index, n.occurrence.position) := by
  cases hlatest : h.latest? name with
  | none =>
      rw [latest?_eq_none_iff] at hlatest
      rw [transcript, KeywordIndex.latest?_eq_none_iff.mpr, Option.map_none]
      simpa using hlatest
  | some n =>
      obtain ⟨front, back, heq, rfl, hback⟩ := latest?_eq_some_iff.mp hlatest
      have hnoted : h.notings.map Noting.occurrence = front.map Noting.occurrence ++
          ⟨n.occurrence.keyword, n.occurrence.position⟩ :: back.map Noting.occurrence := by
        rw [heq, List.map_append, List.map_cons]
      rw [transcript, hnoted, KeywordIndex.latest?_append_cons, Option.map_some,
        ho.ordinal_eq_length heq, List.length_map]
      simpa using hback

/-- No piece becomes both a token and a keyword. -/
theorem Reachable.index_ne {h : History} (hr : h.Reachable) :
    ∀ e ∈ h.entries, ∀ n ∈ h.notings, e.index ≠ n.index := by
  induction hr with
  | start => simp
  | @push h token hr ih =>
      intro e he n hn
      rcases mem_entries_push.mp he with he | rfl
      · exact ih e he n hn
      · exact Nat.ne_of_gt (hr.ordered.notings_lt n hn)
  | note name hr ih =>
      intro e he n hn
      rcases mem_notings_note.mp hn with hn | rfl
      · exact ih e he n hn
      · exact Nat.ne_of_lt (hr.ordered.entries_lt e he)
  | @pair h rest entry name hrest hr ih =>
      intro e he n hn
      have hmem : e ∈ h.entries := by
        rw [hrest]
        exact List.mem_append_left _ he
      rcases mem_notings_note.mp hn with hn | rfl
      · exact ih e hmem n hn
      · exact Nat.ne_of_lt (hr.ordered.entries_lt e hmem)

/-- In the order of reading, what is dropped in front of an index is what comes before it. -/
theorem drop_countP {entries : List Entry} (hordered : entries.Pairwise (·.index < ·.index))
    (index : Nat) :
    entries.drop (entries.countP (·.index < index)) = entries.filter (index ≤ ·.index) := by
  induction entries with
  | nil => rfl
  | cons e rest ih =>
      obtain ⟨hhead, htail⟩ := List.pairwise_cons.mp hordered
      by_cases hlt : e.index < index
      · simp [hlt, ih htail]
      · -- the order puts everything from the first later entry on behind the index
        have hall : ∀ other ∈ e :: rest, index ≤ other.index := by
          intro other hother
          rcases List.mem_cons.mp hother with rfl | hother
          · exact Nat.not_lt.mp hlt
          · have := hhead other hother
            omega
        have hnone : (e :: rest).countP (·.index < index) = 0 := by
          rw [List.countP_eq_zero]
          intro other hother
          simpa using hall other hother
        rw [hnone, List.drop_zero, List.filter_eq_self.mpr]
        intro other hother
        exact decide_eq_true (hall other hother)

theorem Reachable.drop_before {h : History} (hr : h.Reachable) {n : Noting}
    (hn : n ∈ h.notings) : h.entries.drop (h.before n.index) = h.after n.index := by
  rw [before, drop_countP hr.ordered.entries, after]
  refine List.filter_congr fun e he => ?_
  have hne := hr.index_ne e he n hn
  rw [decide_eq_decide]
  omega

/-! ## The table -/

/-- **Where the table is found**: after the last table keyword, past as many entries as
were taken back since. -/
theorem Reachable.table_transcript {h : History} (hr : h.Reachable) (lexicon : Lexicon)
    {name : Text} :
    h.transcript.table lexicon = .ok name ↔ ∃ n e, h.latest? lexicon.tableKeyword = some n ∧
      (h.after n.index)[h.drift n.index]? = some e ∧ e.token.text = name := by
  rw [Transcript.table, KeywordIndex.position?, hr.ordered.latest?_transcript]
  cases hlatest : h.latest? lexicon.tableKeyword with
  | none => simp
  | some n =>
      obtain ⟨front, back, heq, -, -⟩ := latest?_eq_some_iff.mp hlatest
      have hn : n ∈ h.notings := by simp [heq]
      -- the position is split into what was read before and what was taken back since
      have htoken : h.transcript.tokens[n.occurrence.position]? =
          ((h.after n.index)[h.drift n.index]?).map Entry.token := by
        rw [← hr.drop_before hn, List.getElem?_drop, ← hr.position_eq n hn, transcript,
          List.getElem?_map]
      simp only [Option.map_some, Option.bind_some, htoken]
      cases hentry : (h.after n.index)[h.drift n.index]? with
      | none => simp [hentry]
      | some e => simp [hentry]

/-- The table is missing if all entries after the table keyword are passed over. -/
theorem Reachable.table_transcript_eq_error {h : History} (hr : h.Reachable)
    (lexicon : Lexicon) :
    h.transcript.table lexicon = .error .noTable ↔
      ∀ n, h.latest? lexicon.tableKeyword = some n →
        (h.after n.index).length ≤ h.drift n.index := by
  constructor
  · intro herror n hn
    by_contra hlt
    have hentry := List.getElem?_eq_getElem (Nat.not_le.mp hlt)
    have hok := (hr.table_transcript lexicon).mpr ⟨n, _, hn, hentry, rfl⟩
    rw [herror] at hok
    cases hok
  · intro hall
    cases htable : h.transcript.table lexicon with
    | error e => rw [Transcript.table_eq_error htable]
    | ok name =>
        obtain ⟨n, e, hn, hentry, -⟩ := (hr.table_transcript lexicon).mp htable
        have hlt := (List.getElem?_eq_some_iff.mp hentry).1
        exact absurd hlt (Nat.not_lt.mpr (hall n hn))

end History

/-- A source with a transcript is refused only if the transcript has no table. -/
theorem Dialect.parse_eq_error_iff {dialect : Dialect} {source : Text} {t : Transcript}
    (h : dialect.transcribe source = .ok t) {e : SourceError} :
    dialect.parse source = .error e ↔ t.table dialect.lexicon = .error e := by
  unfold parse
  rw [h]
  show t.statement dialect.lexicon source = .error e ↔ _
  unfold Transcript.statement
  cases t.table dialect.lexicon with
  | ok table => simp
  | error e => simp

namespace Statement

/-- **Which token is the table.** The table is the token that follows the last `FROM`,
past as many tokens as an `ORDER BY` took back after it, and is missing if there are no
more. It is the very next token exactly if no `ORDER BY` has its words on both sides. -/
theorem ofSource_table {source : Text} {t : Transcript}
    (ht : Dialect.mysqlDelete.transcribe source = .ok t) :
    ∃ pieces h, Alphabet.mysql.cut 0 source = .ok pieces ∧
      h = History.ofPieces Lexicon.mysqlDelete pieces ∧ t = h.transcript ∧
      h.Traces Lexicon.mysqlDelete pieces ∧
      (∀ table, (∃ statement, ofSource source = .ok statement ∧ statement.table = table) ↔
        ∃ n e, h.latest? "FROM".toList = some n ∧
          (h.after n.index)[h.drift n.index]? = some e ∧ e.token.text = table) ∧
      (ofSource source = .error .noTable ↔ ∀ n, h.latest? "FROM".toList = some n →
        (h.after n.index).length ≤ h.drift n.index) ∧
      ∀ n, h.latest? "FROM".toList = some n →
        (h.drift n.index = 0 ↔ ∀ m ∈ h.notings, ¬ m.Straddles n.index) := by
  obtain ⟨pieces, hcut, rfl⟩ := Dialect.exists_history_of_transcribe ht
  have hr := History.reachable_ofPieces Lexicon.mysqlDelete pieces
  refine ⟨pieces, _, hcut, rfl, rfl, History.traces_ofPieces _ _, ?_, ?_, ?_⟩
  · intro table
    refine Iff.trans ?_ (hr.table_transcript Lexicon.mysqlDelete)
    constructor
    · rintro ⟨statement, hstatement, rfl⟩
      obtain ⟨name, hname, rfl⟩ := (Dialect.parse_eq_ok_iff ht).mp hstatement
      exact hname
    · intro hname
      exact ⟨_, (Dialect.parse_eq_ok_iff ht).mpr ⟨table, hname, rfl⟩, rfl⟩
  · exact (Dialect.parse_eq_error_iff ht).trans
      (hr.table_transcript_eq_error Lexicon.mysqlDelete)
  · exact fun n _ => History.drift_eq_zero_iff

/-- A statement whose `FROM` stands between the words of an `ORDER BY`. -/
theorem ofSource_table_passing :
    ∃ (t : Transcript) (h : History) (n : Noting),
      Dialect.mysqlDelete.transcribe "delete order from by t u".toList = .ok t ∧
      t = h.transcript ∧ h.latest? "FROM".toList = some n ∧ h.drift n.index = 1 ∧
      (h.after n.index).map Entry.token = [.bare "t".toList, .bare "u".toList] ∧
      ∃ statement, ofSource "delete order from by t u".toList = .ok statement ∧
        statement.table = "u".toList := by
  have ht : Dialect.mysqlDelete.transcribe "delete order from by t u".toList =
      .ok ⟨[.bare "t".toList, .bare "u".toList], .ofList [⟨"DELETE".toList, 0⟩,
        ⟨"FROM".toList, 1⟩, ⟨"ORDER BY".toList, 0⟩]⟩ := by rfl
  have hpieces : Alphabet.mysql.cut 0 "delete order from by t u".toList =
      .ok [.word "delete".toList, .word "order".toList, .word "from".toList, .word "by".toList,
        .word "t".toList, .word "u".toList] := by
    rw [← Scan.pieces_start_located]
    rfl
  obtain ⟨pieces, h, hcut, rfl, hh, -, htable, -, -⟩ := ofSource_table ht
  rw [hpieces] at hcut
  cases hcut
  exact ⟨_, _, ⟨2, none, ⟨"FROM".toList, 1⟩⟩, ht, hh, by rfl, by rfl, by rfl,
    (htable _).mpr ⟨_, ⟨5, .bare "u".toList⟩, by rfl, by rfl, rfl⟩⟩

/-- The only token after `FROM` is passed over, so that no table is found. -/
theorem next_token_passed_over :
    ∃ pieces n e, Alphabet.mysql.cut 0 "delete order from by t".toList = .ok pieces ∧
      (History.ofPieces Lexicon.mysqlDelete pieces).latest? "FROM".toList = some n ∧
      ((History.ofPieces Lexicon.mysqlDelete pieces).after n.index).head? = some e ∧
      e.token = .bare "t".toList ∧
      ofSource "delete order from by t".toList = .error .noTable :=
  ⟨[.word "delete".toList, .word "order".toList, .word "from".toList, .word "by".toList,
      .word "t".toList], ⟨2, none, ⟨"FROM".toList, 1⟩⟩, ⟨4, .bare "t".toList⟩,
    (Scan.pieces_start_located 0 _).symm.trans (by rfl), by rfl, by rfl, rfl, by rfl⟩

end Statement

end SqlDelete
