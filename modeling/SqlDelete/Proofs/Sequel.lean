import SqlDelete.Proofs.Clause
import SqlDelete.Proofs.History

/-!
# A text behind a separator

What stands behind a separator is read as if nothing came before it: its tokens follow
those of the text in front, and its keywords are noted as many tokens further on. Only a
word is read with the token before it, so that the one thing that can reach over the
separator is a keyword of two words with its first word in front. The table and the clause
of what stands behind are found again, where their keywords occur in it.
-/

namespace SqlDelete

/-- A keyword noted so many tokens further on. -/
def Occurrence.moveBy (n : Nat) (o : Occurrence) : Occurrence :=
  ⟨o.keyword, n + o.position⟩

@[simp] theorem Occurrence.keyword_moveBy (n : Nat) (o : Occurrence) :
    (o.moveBy n).keyword = o.keyword := rfl

@[simp] theorem Occurrence.position_moveBy (n : Nat) (o : Occurrence) :
    (o.moveBy n).position = n + o.position := rfl

/-! ## Cutting around a separator -/

namespace Alphabet

variable {alphabet : Alphabet} {c : Char}

theorem cut_append_separator (hc : c ∈ alphabet.separators) {front : Text} {pieces : List Piece}
    (hfront : alphabet.cut 0 front = .ok pieces) (back : Text) :
    alphabet.cut 0 (front ++ c :: back) =
      Piece.prepend (pieces ++ alphabet.separatorPieces c)
        (alphabet.cut (Text.byteLength (front ++ [c])) back) := by
  have hends : alphabet.EndsRun (c :: back) := by
    rintro d ⟨⟩ hd
    exact hd.1 hc
  rw [cut_append hfront hends, cut_separator hc, Piece.prepend_prepend]
  simp

/-- A refused text is refused as many bytes further on. -/
theorem cut_error_of_cut_zero {text : Text} {quote : Char} {offset : Nat}
    (h : alphabet.cut 0 text = .error (.unclosed quote offset)) (position : Nat) :
    alphabet.cut position text = .error (.unclosed quote (position + offset)) := by
  rcases cutsInto_or_unclosed alphabet text with ⟨pieces, hpieces⟩ | ⟨other, place, herror⟩
  · rw [hpieces 0] at h
    cases h
  · rw [herror 0, Nat.zero_add] at h
    cases h
    exact herror position

theorem cutsInto_of_cut_zero {text : Text} {pieces : List Piece}
    (h : alphabet.cut 0 text = .ok pieces) : alphabet.CutsInto text pieces := by
  rcases cutsInto_or_unclosed alphabet text with ⟨others, hothers⟩ | ⟨quote, place, herror⟩
  · rw [hothers 0] at h
    cases h
    exact hothers
  · rw [herror 0] at h
    cases h

end Alphabet

/-! ## One transcript behind another -/

namespace Transcript

/-- The transcript after a separator: a mark is a token of its own. -/
def endedBy (t : Transcript) (alphabet : Alphabet) (c : Char) : Transcript :=
  if c ∈ alphabet.marks then t.push (.bare [c]) else t

/-- The tokens and the keywords of one transcript behind those of another. -/
def followedBy (front back : Transcript) : Transcript where
  tokens := front.tokens ++ back.tokens
  keywords := .ofList (front.keywords.occurrences ++
    back.keywords.occurrences.map (·.moveBy front.tokens.length))

variable {front back : Transcript} {lexicon : Lexicon}

theorem enterAll_separatorPieces (t : Transcript) (lexicon : Lexicon) (alphabet : Alphabet)
    (c : Char) : t.enterAll lexicon (alphabet.separatorPieces c) = t.endedBy alphabet c := by
  unfold Alphabet.separatorPieces endedBy
  split <;> rfl

theorem keywords_endedBy (t : Transcript) (alphabet : Alphabet) (c : Char) :
    (t.endedBy alphabet c).keywords = t.keywords := by
  unfold endedBy
  split <;> rfl

theorem followedBy_empty (h : front.keywords = .ofList front.keywords.occurrences) :
    front.followedBy empty = front := by
  unfold followedBy
  simp only [empty, KeywordIndex.empty, List.map_nil, List.append_nil]
  rw [← h]

theorem followedBy_push (front back : Transcript) (token : Token) :
    front.followedBy (back.push token) = (front.followedBy back).push token := by
  simp [followedBy, push]

theorem followedBy_noteKeyword (front back : Transcript) (name : Text) :
    front.followedBy (back.noteKeyword name) = (front.followedBy back).noteKeyword name := by
  simp [followedBy, noteKeyword, Occurrence.moveBy, ← List.append_assoc,
    KeywordIndex.ofList_append_singleton]

/-- The last token is taken back from behind, if there is one. -/
theorem followedBy_pop (front : Transcript) (h : back.tokens ≠ []) :
    front.followedBy back.pop = (front.followedBy back).pop := by
  simp [followedBy, pop, List.dropLast_append_of_ne_nil h]

/-- A piece is read as it would be read alone. -/
theorem readPiece_followedBy (h : ∀ last ∈ front.tokens.getLast?, ¬ lexicon.Begins last)
    (back : Transcript) (piece : Piece) :
    lexicon.readPiece piece (front.followedBy back).tokens.getLast? =
      lexicon.readPiece piece back.tokens.getLast? := by
  rw [followedBy, List.getLast?_append]
  cases back.tokens.getLast? with
  | none => exact Lexicon.readPiece_of_not_begins h piece
  | some last => rfl

theorem enterPiece_followedBy (h : ∀ last ∈ front.tokens.getLast?, ¬ lexicon.Begins last)
    (back : Transcript) (piece : Piece) :
    (front.followedBy back).enterPiece lexicon piece =
      front.followedBy (back.enterPiece lexicon piece) := by
  rw [enterPiece_eq, enterPiece_eq, readPiece_followedBy h]
  cases hread : lexicon.readPiece piece back.tokens.getLast? with
  | ordinary => exact (followedBy_push front back piece.token).symm
  | keyword name takesPrevious =>
      cases takesPrevious with
      | false => exact (followedBy_noteKeyword front back name).symm
      | true =>
          -- what completes a keyword has a token before it
          have hne : back.tokens ≠ [] := by
            intro hnil
            rw [hnil, List.getLast?_nil] at hread
            exact lexicon.readPiece_none_ne piece name hread
          show (front.followedBy back).pop.noteKeyword name =
            front.followedBy (back.pop.noteKeyword name)
          rw [followedBy_noteKeyword, followedBy_pop front hne]

/-- **Pieces enter behind** as they enter alone. -/
theorem enterAll_followedBy (h : ∀ last ∈ front.tokens.getLast?, ¬ lexicon.Begins last)
    (back : Transcript) (pieces : List Piece) :
    (front.followedBy back).enterAll lexicon pieces =
      front.followedBy (back.enterAll lexicon pieces) := by
  induction pieces generalizing back with
  | nil => rfl
  | cons piece rest ih =>
      rw [enterAll_cons, enterAll_cons, enterPiece_followedBy h]
      exact ih _

end Transcript

namespace Dialect

variable {dialect : Dialect} {c : Char} {front back : Text} {s t : Transcript}

theorem transcribe_append_separator (hc : c ∈ dialect.alphabet.separators)
    (hfront : dialect.transcribe front = .ok s)
    (hlast : ∀ last ∈ (s.endedBy dialect.alphabet c).tokens.getLast?,
      ¬ dialect.lexicon.Begins last)
    (hback : dialect.transcribe back = .ok t) :
    dialect.transcribe (front ++ c :: back) =
      .ok ((s.endedBy dialect.alphabet c).followedBy t) := by
  have hkeywords : (s.endedBy dialect.alphabet c).keywords =
      .ofList (s.endedBy dialect.alphabet c).keywords.occurrences := by
    rw [Transcript.keywords_endedBy]
    exact (Transcript.settled_of_transcribe hfront).keywords
  obtain ⟨pieces, hpieces, rfl⟩ := exists_cut_of_transcribe hfront
  obtain ⟨more, hmore, rfl⟩ := exists_cut_of_transcribe hback
  have hcut : dialect.alphabet.cut 0 (front ++ c :: back) =
      .ok (pieces ++ dialect.alphabet.separatorPieces c ++ more) := by
    rw [Alphabet.cut_append_separator hc hpieces, Alphabet.cutsInto_of_cut_zero hmore,
      Piece.prepend_ok]
  rw [transcribe_of_cut (by simp) hcut, Transcript.enterAll_append, Transcript.enterAll_append,
    Transcript.enterAll_separatorPieces, ← Transcript.enterAll_followedBy hlast,
    Transcript.followedBy_empty hkeywords]

theorem transcribe_append_separator_error (hc : c ∈ dialect.alphabet.separators)
    (hfront : dialect.transcribe front = .ok s) {quote : Char} {position : Nat}
    (hback : dialect.transcribe back = .error (.unclosed quote position)) :
    dialect.transcribe (front ++ c :: back) =
      .error (.unclosed quote (Text.byteLength (front ++ [c]) + position)) := by
  have hne : back ≠ [] := by
    rintro rfl
    cases hback
  obtain ⟨pieces, hpieces, -⟩ := exists_cut_of_transcribe hfront
  rw [transcribe_eq_error_iff hne] at hback
  rw [transcribe_eq_error_iff (by simp), Alphabet.cut_append_separator hc hpieces,
    Alphabet.cut_error_of_cut_zero hback, Piece.prepend_error]

/-- **Reading goes on behind a separator** as it begins, unless the token in front of it is
the first word of a keyword: the tokens follow, the keywords are noted so many tokens
further on, and a quote that is reported stands as many bytes further on. -/
theorem transcribe_behind_separator (hc : c ∈ dialect.alphabet.separators)
    (hfront : dialect.transcribe front = .ok s)
    (hlast : ∀ last ∈ (s.endedBy dialect.alphabet c).tokens.getLast?,
      ¬ dialect.lexicon.Begins last) (back : Text) :
    (∀ t, dialect.transcribe back = .ok t →
        dialect.transcribe (front ++ c :: back) =
          .ok ((s.endedBy dialect.alphabet c).followedBy t)) ∧
      ∀ quote position, dialect.transcribe back = .error (.unclosed quote position) →
        dialect.transcribe (front ++ c :: back) =
          .error (.unclosed quote (Text.byteLength (front ++ [c]) + position)) :=
  ⟨fun _ => transcribe_append_separator hc hfront hlast,
    fun _ _ => transcribe_append_separator_error hc hfront⟩

/-- A `BY` behind a comma, and a quote behind characters of two and of three bytes. -/
theorem transcribe_behind_separator_comma :
    ∃ s, mysqlDelete.transcribe "from é".toList = .ok s ∧ ',' ∈ Alphabet.mysql.separators ∧
      (∀ last ∈ (s.endedBy Alphabet.mysql ',').tokens.getLast?,
        ¬ Lexicon.mysqlDelete.Begins last) ∧
      mysqlDelete.transcribe ("from é".toList ++ ',' :: "by order by'名'".toList) =
        .ok ⟨[.bare "é".toList, .bare [','], .bare "by".toList, .literal "名".toList],
          .ofList [⟨"FROM".toList, 0⟩, ⟨"ORDER BY".toList, 3⟩]⟩ ∧
      mysqlDelete.transcribe ("from é".toList ++ ',' :: "名 'x".toList) =
        .error (.unclosed Text.singleQuote 12) := by
  have hfront : mysqlDelete.transcribe "from é".toList =
      .ok ⟨[.bare "é".toList], .ofList [⟨"FROM".toList, 0⟩]⟩ := by rfl
  have hc : ',' ∈ mysqlDelete.alphabet.separators := by decide
  have hlast : ∀ last ∈ ((Transcript.mk [.bare "é".toList]
      (.ofList [⟨"FROM".toList, 0⟩])).endedBy mysqlDelete.alphabet ',').tokens.getLast?,
        ¬ mysqlDelete.lexicon.Begins last := by decide
  refine ⟨_, hfront, hc, hlast, ?_, ?_⟩
  · exact (transcribe_behind_separator hc hfront hlast _).1
      ⟨[.bare "by".toList, .literal "名".toList], .ofList [⟨"ORDER BY".toList, 1⟩]⟩ (by rfl)
  · exact (transcribe_behind_separator hc hfront hlast _).2 _ 4 (by rfl)

end Dialect

/-! ## Looking keywords up behind a separator -/

namespace KeywordIndex

/-- A name that occurs behind is found there, so many tokens and keywords further on. -/
theorem latest?_append_moveBy (front : List Occurrence) {back : List Occurrence} {name : Text}
    (h : ∃ o ∈ back, o.keyword = name) (n : Nat) :
    (ofList (front ++ back.map (·.moveBy n))).latest? name =
      ((ofList back).latest? name).map fun entry => (front.length + entry.1, n + entry.2) := by
  cases hlatest : (ofList back).latest? name with
  | none =>
      obtain ⟨o, ho, hname⟩ := h
      exact absurd hname (latest?_eq_none_iff.mp hlatest o ho)
  | some entry =>
      obtain ⟨ordinal, position⟩ := entry
      obtain ⟨before, after, rfl, rfl, hafter⟩ := latest?_eq_some_iff.mp hlatest
      have heq : front ++ (before ++ ⟨name, position⟩ :: after).map (·.moveBy n) =
          (front ++ before.map (·.moveBy n)) ++ ⟨name, n + position⟩ ::
            after.map (·.moveBy n) := by
        simp [Occurrence.moveBy]
      rw [heq, latest?_append_cons]
      · simp
      · intro o ho
        obtain ⟨other, hother, rfl⟩ := List.mem_map.mp ho
        exact hafter other hother

end KeywordIndex

/-- A clause keyword that stands in front of another in the lexicon. -/
def Lexicon.Outranks (lexicon : Lexicon) (other name : Text) : Prop :=
  lexicon.clauseKeywords.idxOf other < lexicon.clauseKeywords.idxOf name

instance (lexicon : Lexicon) (other name : Text) : Decidable (lexicon.Outranks other name) :=
  inferInstanceAs (Decidable (_ < _))

theorem Lexicon.outranks_iff {lexicon : Lexicon} {stronger weaker : List Text}
    {other name : Text} (h : lexicon.clauseKeywords = stronger ++ name :: weaker)
    (hname : name ∉ stronger) : lexicon.Outranks other name ↔ other ∈ stronger := by
  unfold Outranks
  rw [h, List.idxOf_append_of_notMem hname, List.idxOf_cons_self, Nat.add_zero]
  by_cases hother : other ∈ stronger
  · rw [List.idxOf_append_of_mem hother]
    exact iff_of_true (List.idxOf_lt_length_iff.mpr hother) hother
  · rw [List.idxOf_append_of_notMem hother]
    exact iff_of_false (by omega) hother

namespace Transcript

variable {front back : Transcript} {lexicon : Lexicon}

/-- The table is found again if its keyword occurs behind. -/
theorem table_followedBy (front : Transcript)
    (hkeywords : back.keywords = .ofList back.keywords.occurrences)
    (h : ∃ o ∈ back.keywords.occurrences, o.keyword = lexicon.tableKeyword) :
    (front.followedBy back).table lexicon = back.table lexicon := by
  have hposition : (front.followedBy back).keywords.position? lexicon.tableKeyword =
      (back.keywords.position? lexicon.tableKeyword).map (front.tokens.length + ·) := by
    rw [followedBy, KeywordIndex.position?, KeywordIndex.latest?_append_moveBy _ h,
      ← hkeywords, KeywordIndex.position?]
    simp [Function.comp_def]
  have htoken : ((front.followedBy back).keywords.position? lexicon.tableKeyword).bind
      ((front.followedBy back).tokens[·]?) =
        (back.keywords.position? lexicon.tableKeyword).bind (back.tokens[·]?) := by
    rw [hposition]
    cases back.keywords.position? lexicon.tableKeyword with
    | none => rfl
    | some position =>
        show (front.tokens ++ back.tokens)[front.tokens.length + position]? =
          back.tokens[position]?
        rw [List.getElem?_append_right (Nat.le_add_right _ _), Nat.add_sub_cancel_left]
  rw [table, htoken, table]

theorem noted_moveBy (noted : List Occurrence) (n position : Nat) :
    ((noted.map (·.moveBy n)).filter (·.position = n + position)).map Occurrence.keyword =
      (noted.filter (·.position = position)).map Occurrence.keyword := by
  simp [List.filter_map, Function.comp_def]

/-- From the boundary on, nothing that is noted in front is written: what shares the position
of the boundary comes before it in the index. -/
theorem keywordsBefore_moveBy {noted : List Occurrence} {n start position : Nat}
    (hwithin : ∀ o ∈ noted, o.position ≤ n) (hposition : start ≤ position)
    (tokens others : List Token) (before after : List Occurrence) :
    (Transcript.mk tokens (.ofList (noted ++ (before ++ after).map (·.moveBy n)))).keywordsBefore
        (noted.length + before.length, n + start) (n + position) =
      (Transcript.mk others (.ofList (before ++ after))).keywordsBefore
        (before.length, start) position := by
  have hlength : noted.length + before.length =
      (noted ++ before.map (·.moveBy n)).length := by simp
  rw [List.map_append, ← List.append_assoc, hlength, keywordsBefore_append,
    keywordsBefore_append]
  by_cases hstart : position = start
  · rw [if_pos hstart, if_pos (by rw [hstart]), List.nil_append, List.nil_append, noted_moveBy]
  · have hnone : noted.filter (·.position = n + position) = [] := by
      rw [List.filter_eq_nil_iff]
      intro o ho
      have := hwithin o ho
      simp
      omega
    rw [if_neg hstart, if_neg (by omega), List.append_assoc, ← List.map_append,
      List.filter_append, hnone, List.nil_append, noted_moveBy]

/-- A clause is written again, so many tokens and keywords further on. -/
theorem partsFrom_followedBy (hwithin : ∀ o ∈ front.keywords.occurrences,
    o.position ≤ front.tokens.length) (tokens : List Token) (before after : List Occurrence)
    (start : Nat) :
    (front.followedBy ⟨tokens, .ofList (before ++ after)⟩).partsFrom
        (front.keywords.occurrences.length + before.length, front.tokens.length + start) =
      (Transcript.mk tokens (.ofList (before ++ after))).partsFrom (before.length, start) := by
  have hmoved : (tokens.drop start).zipIdx (front.tokens.length + start) =
      ((tokens.drop start).zipIdx start).map (Prod.map id (front.tokens.length + ·)) := by
    rw [← List.map_snd_add_zipIdx_eq_zipIdx]
    simp only [Nat.add_comm]
  simp only [followedBy, KeywordIndex.occurrences_ofList, partsFrom, drop_zipIdx, Nat.zero_add,
    List.drop_length_add_append, hmoved, List.flatMap_map]
  apply List.flatMap_congr
  intro entry hentry
  have hposition := List.le_snd_of_mem_zipIdx hentry
  exact congrArg (· ++ [entry.1.written]) (keywordsBefore_moveBy hwithin hposition _ _ _ _)

/-- The boundary stays at its keyword if nothing in front is stronger. -/
theorem boundary?_followedBy {stronger weaker : List Text} {name : Text}
    (hclause : lexicon.clauseKeywords = stronger ++ name :: weaker)
    (hfront : ∀ other ∈ stronger, ∀ o ∈ front.keywords.occurrences, o.keyword ≠ other)
    {before after : List Occurrence} {start : Nat}
    (hback : ∀ other ∈ stronger, ∀ o ∈ before ++ ⟨name, start⟩ :: after, o.keyword ≠ other)
    (hafter : ∀ o ∈ after, o.keyword ≠ name) (tokens : List Token) :
    (front.followedBy ⟨tokens, .ofList (before ++ ⟨name, start⟩ :: after)⟩).boundary? lexicon =
      some (front.keywords.occurrences.length + before.length, front.tokens.length + start) := by
  rw [followedBy, KeywordIndex.occurrences_ofList, boundary?_eq_some_iff]
  refine ⟨stronger, name, weaker, hclause,
    ⟨front.keywords.occurrences ++ before.map (·.moveBy front.tokens.length),
      after.map (·.moveBy front.tokens.length), ?_, by simp, ?_⟩, ?_⟩
  · simp [Occurrence.moveBy]
  · intro o ho
    obtain ⟨other, hother, rfl⟩ := List.mem_map.mp ho
    exact hafter other hother
  · intro other hother o ho
    rcases List.mem_append.mp ho with ho | ho
    · exact hfront other hother o ho
    · obtain ⟨moved, hmoved, rfl⟩ := List.mem_map.mp ho
      exact hback other hother moved hmoved

/-- The clause is found again if no stronger clause keyword occurs in front. -/
theorem clause_followedBy (hwithin : ∀ o ∈ front.keywords.occurrences,
    o.position ≤ front.tokens.length)
    (hkeywords : back.keywords = .ofList back.keywords.occurrences)
    (h : ∃ o ∈ back.keywords.occurrences, o.keyword ∈ lexicon.clauseKeywords) :
    ∃ name, back.boundaryKeyword? lexicon = some name ∧
      ((∀ o ∈ front.keywords.occurrences, ¬ lexicon.Outranks o.keyword name) →
        (front.followedBy back).clause lexicon = back.clause lexicon) := by
  obtain ⟨tokens, occurrences, rfl⟩ := exists_eq_mk_ofList hkeywords
  rw [KeywordIndex.occurrences_ofList] at h
  rcases boundary?_cases tokens occurrences lexicon with
    ⟨hnone, -⟩ |
      ⟨stronger, name, weaker, before, start, after, hclause, rfl, hafter, hback, hboundary,
        hkeyword⟩
  · obtain ⟨o, ho, hmem⟩ := h
    exact absurd rfl (hnone o.keyword hmem o ho)
  · refine ⟨name, hkeyword, fun hweaker => ?_⟩
    have hname : name ∉ stronger := fun hmem => hback name hmem ⟨name, start⟩ (by simp) rfl
    have hfront : ∀ other ∈ stronger, ∀ o ∈ front.keywords.occurrences, o.keyword ≠ other := by
      rintro other hother o ho rfl
      exact hweaker o ho ((Lexicon.outranks_iff hclause hname).mpr hother)
    rw [clause, boundary?_followedBy hclause hfront hback hafter, clause, hboundary]
    show Text.terminated _ = Text.terminated _
    rw [partsFrom_followedBy hwithin]

end Transcript

namespace Dialect

variable {dialect : Dialect} {c : Char} {front back : Text} {s t : Transcript}

/-- The table and the clause of `t` are those of `u`, the transcript of `s` with `t` behind it:
the table if `t` has the table keyword, the clause if `t` has a clause keyword and `s` none that
outranks the one at the boundary of `t`. -/
structure FoundBehind (dialect : Dialect) (s t u : Transcript) : Prop where
  table : (∃ o ∈ t.keywords.occurrences, o.keyword = dialect.lexicon.tableKeyword) →
    u.table dialect.lexicon = t.table dialect.lexicon
  clause : (∃ o ∈ t.keywords.occurrences, o.keyword ∈ dialect.lexicon.clauseKeywords) →
    ∃ name, t.boundaryKeyword? dialect.lexicon = some name ∧
      ((∀ o ∈ s.keywords.occurrences, ¬ dialect.lexicon.Outranks o.keyword name) →
        u.clause dialect.lexicon = t.clause dialect.lexicon)

/-- **What stands behind is found as it is found alone.** In front of a separator that is
no mark stands a text whose keywords are noted within its tokens. The table is that of the
text behind, found or missing, if the table keyword occurs there. The clause is that of the
text behind if a clause keyword occurs there and none in front outranks the one at its
boundary. -/
theorem table_and_clause_behind_separator (hc : c ∈ dialect.alphabet.separators)
    (hmark : c ∉ dialect.alphabet.marks) (hfront : dialect.transcribe front = .ok s)
    (hback : dialect.transcribe back = .ok t)
    (hlast : ∀ last ∈ s.tokens.getLast?, ¬ dialect.lexicon.Begins last)
    (hwithin : ∀ o ∈ s.keywords.occurrences, o.position ≤ s.tokens.length) :
    ∃ u, dialect.transcribe (front ++ c :: back) = .ok u ∧ dialect.FoundBehind s t u := by
  have hended : s.endedBy dialect.alphabet c = s := if_neg hmark
  have hkeywords := (Transcript.settled_of_transcribe hback).keywords
  have hread : dialect.transcribe (front ++ c :: back) = .ok (s.followedBy t) := by
    rw [transcribe_append_separator hc hfront (by rwa [hended]) hback, hended]
  exact ⟨s.followedBy t, hread, Transcript.table_followedBy s hkeywords,
    Transcript.clause_followedBy hwithin hkeywords⟩

/-- In front stand a table keyword, and a clause keyword at the position of the boundary
behind. -/
theorem table_and_clause_behind_separator_shared :
    ∃ s t u, mysqlDelete.transcribe "from u limit".toList = .ok s ∧
      mysqlDelete.transcribe "limit order by t from x".toList = .ok t ∧
      mysqlDelete.transcribe ("from u limit".toList ++ ';' :: "limit order by t from x".toList) =
        .ok u ∧
      s.keywords.occurrences[1]? = some ⟨"LIMIT".toList, 1⟩ ∧
      u.clauseStart? Lexicon.mysqlDelete = some 1 ∧
      u.table Lexicon.mysqlDelete = .ok "x".toList ∧
      t.boundaryKeyword? Lexicon.mysqlDelete = some "ORDER BY".toList ∧
      u.clause Lexicon.mysqlDelete = "ORDER BY t FROM x ".toList := by
  have hfront : mysqlDelete.transcribe "from u limit".toList =
      .ok ⟨[.bare "u".toList], .ofList [⟨"FROM".toList, 0⟩, ⟨"LIMIT".toList, 1⟩]⟩ := by rfl
  have hback : mysqlDelete.transcribe "limit order by t from x".toList =
      .ok ⟨[.bare "t".toList, .bare "x".toList], .ofList [⟨"LIMIT".toList, 0⟩,
        ⟨"ORDER BY".toList, 0⟩, ⟨"FROM".toList, 1⟩]⟩ := by rfl
  obtain ⟨u, hu, hfound⟩ := table_and_clause_behind_separator (c := ';') (by decide)
    (by decide) hfront hback (by decide) (by decide)
  obtain ⟨name, hname, hsame⟩ := hfound.clause (by decide)
  have hkeyword := Option.some.inj (hname.symm.trans (show _ = some "ORDER BY".toList by rfl))
  subst hkeyword
  have hstart : u.clauseStart? Lexicon.mysqlDelete = some 1 := by
    cases hu
    rfl
  exact ⟨_, _, u, hfront, hback, hu, rfl, hstart, (hfound.table (by decide)).trans (by rfl), hname,
    (hsame (by decide)).trans (by rfl)⟩

end Dialect

end SqlDelete
