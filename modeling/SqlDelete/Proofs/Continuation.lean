import Mathlib.Data.List.Forall2
import SqlDelete.Proofs.Accounting

/-!
# What has been read stays

Going on with a source adds to what it has been read into, with one exception: a keyword
of two words takes back the last token, and once that is gone another keyword may take back
the one before it. How far back this can go is seen from what is taken: a token that is
taken back is the first word of a keyword, and has a keyword of its own that took it. A
literal is never taken back, and keeps everything in front of it from being taken.
-/

namespace SqlDelete

/-- The first word of a keyword was an entry that it took back. -/
def Noting.Takes (lexicon : Lexicon) (n : Noting) (e : Entry) : Prop :=
  n.first = some e.index ∧ n.occurrence.keyword ∈ lexicon.keywords ∧
    ∃ words ∈ Lexicon.pair? n.occurrence.keyword, e.token.Spells words.1

/-- The first word of a keyword was among the first `size` pieces. -/
def Noting.ReachesBack (size : Nat) (n : Noting) : Prop :=
  ∃ first ∈ n.first, first < size

instance (size : Nat) (n : Noting) : Decidable (n.ReachesBack size) :=
  inferInstanceAs (Decidable (∃ first ∈ n.first, first < size))

theorem Noting.Takes.begins {lexicon : Lexicon} {n : Noting} {e : Entry}
    (h : n.Takes lexicon e) : lexicon.Begins e.token := by
  obtain ⟨-, hkeyword, words, hwords, hspells⟩ := h
  exact ⟨n.occurrence.keyword, hkeyword, words, hwords, hspells⟩

namespace History

/-- What has become of an earlier history: of its entries some are kept and the others were
taken back; entries were added and keywords noted. -/
structure Continues (lexicon : Lexicon) (earlier later : History)
    (kept removed added : List Entry) (noted : List Noting) : Prop where
  before : earlier.entries = kept ++ removed
  after : later.entries = kept ++ added
  notings : later.notings = earlier.notings ++ noted
  size : earlier.size ≤ later.size
  added_index : ∀ e ∈ added, earlier.size ≤ e.index
  noted_index : ∀ n ∈ noted, earlier.size ≤ n.index
  /-- The keywords that reach back took the removed entries, one each and the last first. -/
  taken : List.Forall₂ (Noting.Takes lexicon) (noted.filter (·.ReachesBack earlier.size))
    removed.reverse

variable {lexicon : Lexicon} {earlier later : History} {kept removed added : List Entry}
  {noted : List Noting}

theorem Continues.refl (lexicon : Lexicon) (h : History) :
    h.Continues lexicon h h.entries [] [] [] where
  before := by simp
  after := by simp
  notings := by simp
  size := Nat.le_refl _
  added_index := by simp
  noted_index := by simp
  taken := .nil

/-! ### One more piece -/

theorem Continues.push (hc : earlier.Continues lexicon later kept removed added noted)
    (token : Token) :
    earlier.Continues lexicon (later.push token) kept removed (added ++ [⟨later.size, token⟩])
      noted where
  before := hc.before
  after := by rw [entries_push, hc.after, List.append_assoc]
  notings := hc.notings
  size := Nat.le_succ_of_le hc.size
  added_index := by
    intro e he
    rcases List.mem_append.mp he with he | he
    · exact hc.added_index e he
    · rw [List.mem_singleton.mp he]
      exact hc.size
  noted_index := hc.noted_index
  taken := hc.taken

/-- A keyword is noted after those noted since. -/
theorem Continues.notings_note (hc : earlier.Continues lexicon later kept removed added noted)
    (entries : List Entry) (first : Option Nat) (name : Text) :
    (later.note entries first name).notings =
      earlier.notings ++ (noted ++ [⟨later.size, first, ⟨name, entries.length⟩⟩]) := by
  rw [note, hc.notings, List.append_assoc]

theorem Continues.noted_index_note
    (hc : earlier.Continues lexicon later kept removed added noted) (first : Option Nat)
    (occurrence : Occurrence) :
    ∀ n ∈ noted ++ [⟨later.size, first, occurrence⟩], earlier.size ≤ n.index := by
  intro n hn
  rcases List.mem_append.mp hn with hn | hn
  · exact hc.noted_index n hn
  · rw [List.mem_singleton.mp hn]
    exact hc.size

/-- A keyword that takes nothing of the earlier history leaves what was kept of it. -/
theorem Continues.note (hc : earlier.Continues lexicon later kept removed added noted)
    {rest : List Entry} (hrest : rest <+: added) {first : Option Nat}
    (hfirst : ∀ i ∈ first, earlier.size ≤ i) (name : Text) :
    earlier.Continues lexicon (later.note (kept ++ rest) first name) kept removed rest
      (noted ++ [⟨later.size, first, ⟨name, (kept ++ rest).length⟩⟩]) where
  before := hc.before
  after := rfl
  notings := hc.notings_note _ first name
  size := Nat.le_succ_of_le hc.size
  added_index := fun e he => hc.added_index e (hrest.subset he)
  noted_index := hc.noted_index_note first _
  taken := by
    have hnone : ¬ Noting.ReachesBack earlier.size
        ⟨later.size, first, ⟨name, (kept ++ rest).length⟩⟩ := by
      rintro ⟨i, hi, hlt⟩
      exact absurd hlt (Nat.not_lt.mpr (hfirst i hi))
    rw [List.filter_append, List.filter_singleton, decide_eq_false hnone, cond_false,
      List.append_nil]
    exact hc.taken

/-- A keyword whose first word was the last entry kept takes it back. -/
theorem Continues.take {rest : List Entry} {entry : Entry}
    (hc : earlier.Continues lexicon later (rest ++ [entry]) removed [] noted)
    (hordered : earlier.Ordered) {name : Text} {text : Text}
    (hname : lexicon.completed? entry.token text = some name) :
    earlier.Continues lexicon (later.note rest (some entry.index) name) rest (entry :: removed) []
      (noted ++ [⟨later.size, some entry.index, ⟨name, rest.length⟩⟩]) where
  before := by simp [hc.before]
  after := by simp
  notings := hc.notings_note rest (some entry.index) name
  size := Nat.le_succ_of_le hc.size
  added_index := by simp
  noted_index := hc.noted_index_note (some entry.index) _
  taken := by
    have hlt : entry.index < earlier.size :=
      hordered.entries_lt entry (by simp [hc.before])
    have hreaches : Noting.ReachesBack earlier.size
        ⟨later.size, some entry.index, ⟨name, rest.length⟩⟩ := ⟨entry.index, rfl, hlt⟩
    obtain ⟨hkeyword, first, second, hpair, hspells, -⟩ := Lexicon.exists_pair_of_completed? hname
    have htakes : Noting.Takes lexicon ⟨later.size, some entry.index, ⟨name, rest.length⟩⟩ entry :=
      ⟨rfl, hkeyword, (first, second), hpair, hspells⟩
    rw [List.filter_append, List.filter_singleton, decide_eq_true hreaches, List.reverse_cons]
    exact List.rel_append hc.taken (.cons htakes .nil)

/-- Each piece continues what came before it. -/
theorem Continues.enter (hc : earlier.Continues lexicon later kept removed added noted)
    (hordered : earlier.Ordered) (piece : Piece) :
    ∃ kept' removed' added' noted',
      earlier.Continues lexicon (later.enter lexicon piece) kept' removed' added' noted' := by
  rcases enter_cases lexicon later piece with
    h | ⟨text, name, -, -, h⟩ | ⟨text, name, rest, entry, -, hrest, hname, h⟩
  · rw [h]
    exact ⟨_, _, _, _, hc.push piece.token⟩
  · rw [h, hc.after]
    exact ⟨_, _, _, _, hc.note List.prefix_rfl (by simp) name⟩
  · rw [h]
    -- the last entry was added since, or is the last one that was kept
    cases added using List.reverseRecOn with
    | nil =>
        have hkept : kept = rest ++ [entry] := by
          rw [← hrest, hc.after, List.append_nil]
        subst hkept
        exact ⟨_, _, _, _, hc.take hordered hname⟩
    | append_singleton more last =>
        have hsplit : (kept ++ more) ++ [last] = rest ++ [entry] := by
          rw [← hrest, hc.after, List.append_assoc]
        obtain ⟨rfl, heq⟩ := List.append_inj' hsplit rfl
        cases heq
        have hindex : earlier.size ≤ entry.index := hc.added_index entry (by simp)
        exact ⟨_, _, _, _, hc.note (List.prefix_append more [entry]) (by simpa using hindex) name⟩

/-- **A history continues** the history of its first pieces. -/
theorem exists_continues (lexicon : Lexicon) (front back : List Piece) :
    ∃ kept removed added noted, (ofPieces lexicon front).Continues lexicon
      (ofPieces lexicon (front ++ back)) kept removed added noted := by
  have hordered := (reachable_ofPieces lexicon front).ordered
  induction back using List.reverseRecOn with
  | nil =>
      rw [List.append_nil]
      exact ⟨_, _, _, _, .refl lexicon _⟩
  | append_singleton back piece ih =>
      obtain ⟨kept, removed, added, noted, hc⟩ := ih
      rw [← List.append_assoc, ofPieces_snoc]
      exact hc.enter hordered piece

/-! ### What is never taken back -/

theorem Continues.begins_of_mem_removed
    (hc : earlier.Continues lexicon later kept removed added noted) :
    ∀ e ∈ removed, lexicon.Begins e.token := by
  have htaken := hc.taken
  intro e he
  rw [← List.mem_reverse] at he
  generalize noted.filter (·.ReachesBack earlier.size) = takers,
    removed.reverse = taken at htaken he
  induction htaken with
  | nil => cases he
  | cons htakes _ ih =>
      rcases List.mem_cons.mp he with rfl | he
      · exact htakes.begins
      · exact ih he

theorem Continues.tokens (hc : earlier.Continues lexicon later kept removed added noted) :
    earlier.transcript.tokens = kept.map Entry.token ++ removed.map Entry.token := by
  rw [transcript, hc.before, List.map_append]

theorem Continues.tokens_later (hc : earlier.Continues lexicon later kept removed added noted) :
    later.transcript.tokens = kept.map Entry.token ++ added.map Entry.token := by
  rw [transcript, hc.after, List.map_append]

theorem Continues.occurrences_prefix
    (hc : earlier.Continues lexicon later kept removed added noted) :
    earlier.transcript.keywords.occurrences <+: later.transcript.keywords.occurrences := by
  rw [occurrences_transcript, occurrences_transcript, hc.notings, List.map_append]
  exact List.prefix_append _ _

/-- A literal is kept, with everything in front of it. -/
theorem Continues.prefix_of_literal
    (hc : earlier.Continues lexicon later kept removed added noted) {front back : List Token}
    {content : Text} (h : earlier.transcript.tokens = front ++ .literal content :: back) :
    front ++ [.literal content] <+: later.transcript.tokens := by
  have hremoved : .literal content ∉ removed.map Entry.token := by
    intro hmem
    obtain ⟨e, he, htoken⟩ := List.mem_map.mp hmem
    have hbegins := hc.begins_of_mem_removed e he
    rw [htoken] at hbegins
    exact lexicon.not_begins_literal content hbegins
  rw [hc.tokens] at h
  rw [hc.tokens_later]
  rcases List.append_eq_append_iff.mp h with ⟨more, -, hmore⟩ | ⟨more, hkept, hmore⟩
  · exact absurd (by rw [hmore]; simp) hremoved
  · cases more with
    | nil => exact absurd (by rw [← List.nil_append (removed.map _), ← hmore]; simp) hremoved
    | cons first rest =>
        obtain ⟨rfl, -⟩ := List.cons.inj hmore
        rw [hkept]
        exact ⟨rest ++ added.map Entry.token, by simp⟩

end History

/-! ## Going on with a source -/

namespace Reader

/-- What a scan completes goes on from where it stands. -/
theorem pieces_append (dialect : Dialect) (reader : Reader) (xs ys : List (Nat × Char)) :
    reader.scan.pieces dialect.alphabet (xs ++ ys) =
      Piece.prepend (reader.scan.completed dialect.alphabet xs)
        ((reader.readAll dialect xs).scan.pieces dialect.alphabet ys) := by
  induction xs generalizing reader with
  | nil => simp [Scan.completed]
  | cons entry rest ih =>
      obtain ⟨position, c⟩ := entry
      have hscan : (reader.read dialect position c).scan =
          (reader.scan.step dialect.alphabet position c).2 := rfl
      rw [List.cons_append, Scan.pieces, readAll_cons, Scan.completed, ← hscan, ih,
        Piece.prepend_prepend]

end Reader

namespace Dialect

variable {dialect : Dialect} {front back : Text} {s t : Transcript}

theorem cut_append_of_start
    (h : (Reader.start.readAll dialect (Text.located 0 front)).scan = .start) (back : Text) :
    dialect.alphabet.cut 0 (front ++ back) =
      Piece.prepend (Scan.start.completed dialect.alphabet (Text.located 0 front))
        (dialect.alphabet.cut (Text.byteLength front) back) := by
  have happend := Reader.pieces_append dialect Reader.start (Text.located 0 front)
    (Text.located (Text.byteLength front) back)
  rw [h, Scan.pieces_start_located] at happend
  rw [← Scan.pieces_start_located, Text.located_append, Nat.zero_add]
  exact happend

/-- How the transcript `s` of a text goes on to the transcript `t` of a source that begins with
the text: by `more` pieces behind those that are complete at its end. Of the tokens of `s` some
are kept and the others were taken back. -/
structure ReadsOn (dialect : Dialect) (front back : Text) (s t : Transcript)
    (pieces more : List Piece) (kept removed added : List Entry) (noted : List Noting) :
    Prop where
  completed : pieces = Scan.start.completed dialect.alphabet (Text.located 0 front)
  cut : dialect.alphabet.cut 0 (front ++ back) = .ok (pieces ++ more)
  earlier : s = (History.ofPieces dialect.lexicon pieces).transcript
  later : t = (History.ofPieces dialect.lexicon (pieces ++ more)).transcript
  continues : (History.ofPieces dialect.lexicon pieces).Continues dialect.lexicon
    (History.ofPieces dialect.lexicon (pieces ++ more)) kept removed added noted
  keywords : s.keywords.occurrences <+: t.keywords.occurrences
  tokens : s.tokens = kept.map Entry.token ++ removed.map Entry.token
  tokens_kept : kept.map Entry.token <+: t.tokens
  begins : ∀ e ∈ removed, dialect.lexicon.Begins e.token
  literals : ∀ before content after, s.tokens = before ++ .literal content :: after →
    before ++ [.literal content] <+: t.tokens

theorem readsOn_of_continues {pieces more : List Piece} {kept removed added : List Entry}
    {noted : List Noting}
    (hpieces : pieces = Scan.start.completed dialect.alphabet (Text.located 0 front))
    (hcut : dialect.alphabet.cut 0 (front ++ back) = .ok (pieces ++ more))
    (hc : (History.ofPieces dialect.lexicon pieces).Continues dialect.lexicon
      (History.ofPieces dialect.lexicon (pieces ++ more)) kept removed added noted) :
    dialect.ReadsOn front back (History.ofPieces dialect.lexicon pieces).transcript
      (History.ofPieces dialect.lexicon (pieces ++ more)).transcript
      pieces more kept removed added noted where
  completed := hpieces
  cut := hcut
  earlier := rfl
  later := rfl
  continues := hc
  keywords := hc.occurrences_prefix
  tokens := hc.tokens
  tokens_kept := by
    rw [hc.tokens_later]
    exact List.prefix_append _ _
  begins := hc.begins_of_mem_removed
  literals := fun _ _ _ => hc.prefix_of_literal

/-- **What has been read stays.** Nothing is pending after a text that was read into the
transcript `s`, and a source that begins with the text is read into `t`. The keywords of `s`
are the first ones of `t`. A literal of `s` and everything in front of it are the first tokens
of `t`. So are all tokens of `s` but some of the last ones, which were taken back, the last
one first, each by a keyword of its own that was noted since and of which it is the first
word. -/
theorem reading_on_keeps
    (hfront : Reader.start.readAll dialect (Text.located 0 front) = ⟨.start, s⟩)
    (ht : dialect.transcribe (front ++ back) = .ok t) :
    ∃ pieces more kept removed added noted,
      dialect.ReadsOn front back s t pieces more kept removed added noted := by
  obtain ⟨all, hcut, rfl⟩ := exists_history_of_transcribe ht
  have hsplit := cut_append_of_start (by rw [hfront]) back
  rw [hcut] at hsplit
  obtain ⟨more, -, rfl⟩ := Piece.prepend_eq_ok hsplit.symm
  obtain ⟨kept, removed, added, noted, hc⟩ := History.exists_continues dialect.lexicon
    (Scan.start.completed dialect.alphabet (Text.located 0 front)) more
  have hs : s = (History.ofPieces dialect.lexicon
      (Scan.start.completed dialect.alphabet (Text.located 0 front))).transcript := by
    have htranscript := Reader.transcript_readAll dialect Reader.start (Text.located 0 front)
    rw [hfront] at htranscript
    rw [History.transcript_ofPieces]
    exact htranscript
  rw [hs]
  exact ⟨_, more, kept, removed, added, noted, readsOn_of_continues rfl hcut hc⟩

/-- Two tokens are taken back, the second over a keyword that was noted in between. The third
`BY` has a literal in front of it. -/
theorem reading_on_keeps_nested :
    ∃ s t, Reader.start.readAll mysqlDelete (Text.located 0 "order'q'order order ".toList) =
        ⟨.start, s⟩ ∧
      mysqlDelete.transcribe ("order'q'order order ".toList ++ "by limit by by y".toList) = .ok t ∧
      s.tokens = [.bare "order".toList, .literal "q".toList, .bare "order".toList,
        .bare "order".toList] ∧
      t = ⟨[.bare "order".toList, .literal "q".toList, .bare "by".toList, .bare "y".toList],
        .ofList [⟨"ORDER BY".toList, 3⟩, ⟨"LIMIT".toList, 3⟩, ⟨"ORDER BY".toList, 2⟩]⟩ ∧
      [.bare "order".toList, .literal "q".toList] <+: t.tokens := by
  have hfront : Reader.start.readAll mysqlDelete
      (Text.located 0 "order'q'order order ".toList) = ⟨.start,
        ⟨[.bare "order".toList, .literal "q".toList, .bare "order".toList, .bare "order".toList],
          .ofList []⟩⟩ := by rfl
  have ht : mysqlDelete.transcribe
      ("order'q'order order ".toList ++ "by limit by by y".toList) =
        .ok ⟨[.bare "order".toList, .literal "q".toList, .bare "by".toList, .bare "y".toList],
          .ofList [⟨"ORDER BY".toList, 3⟩, ⟨"LIMIT".toList, 3⟩, ⟨"ORDER BY".toList, 2⟩]⟩ := by rfl
  obtain ⟨pieces, more, kept, removed, added, noted, h⟩ := reading_on_keeps hfront ht
  exact ⟨_, _, hfront, ht, rfl, rfl, h.literals [.bare "order".toList] "q".toList _ rfl⟩

end Dialect

end SqlDelete
