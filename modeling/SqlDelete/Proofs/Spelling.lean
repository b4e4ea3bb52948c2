import Mathlib.Data.List.Flatten
import SqlDelete.Proofs.KeywordOrder
import SqlDelete.Proofs.LetterCase
import SqlDelete.Proofs.Outcome

/-!
# The spelling of names

A keyword is recognised in any letters and noted as the first keyword with these letters
is spelled. The table keyword and the clause keywords are looked up among what was noted
as they are. A name that is not spelled as it is noted is therefore never found, although
the words of a source that have its letters are taken for the keyword. Only where each
name is found as before, or what it finds stands at the end, do the letters of the names
not matter.
-/

namespace SqlDelete

/-! ## Words and letter case -/

namespace Text

theorem isBlank_toLower (c : Char) : isBlank c.toLower = isBlank c := by
  by_cases hc : c.isAlpha = true
  · -- no letter is a blank, in either case
    have hblank : ∀ d : Char, d.isAlpha = true → isBlank d = false := by
      intro d hd
      rw [← Bool.not_eq_true, isBlank_iff]
      rintro (hwhite | rfl)
      · simp only [Char.isWhitespace, Bool.or_eq_true, decide_eq_true_eq] at hwhite
        rcases hwhite with ((rfl | rfl) | rfl) | rfl <;> exact absurd hd (by decide)
      · exact absurd hd (by decide)
    rw [hblank c hc, hblank _ ((isAlpha_toLower c).mpr hc)]
  · rw [toLower_of_not_isAlpha hc]

theorem runs_lower (t : Text) : runs (lower t) = (runs t).map lower := by
  induction t with
  | nil => rfl
  | cons c rest ih =>
      rw [lower_cons, runs, runs, isBlank_toLower, ih]
      split
      · rfl
      · cases runs rest <;> rfl

theorem words_lower (t : Text) : words (lower t) = (words t).map lower := by
  have hkeep : ∀ run : Text, decide (lower run ≠ []) = decide (run ≠ []) := by
    intro run
    rw [decide_eq_decide]
    exact not_congr (by simp [lower])
  rw [words, words, runs_lower, List.filter_map]
  exact congrArg (List.map lower) (List.filter_congr fun run _ => hkeep run)

end Text

/-! ## Names that are spelled as they are noted -/

namespace Lexicon

variable {lexicon : Lexicon}

theorem pair?_lower (keyword : Text) :
    pair? (Text.lower keyword) = (pair? keyword).map (Prod.map Text.lower Text.lower) := by
  unfold pair?
  rw [Text.words_lower]
  rcases Text.words keyword with _ | ⟨first, _ | ⟨second, _ | ⟨third, more⟩⟩⟩ <;> rfl

theorem find?_congr {word other : Text} (h : Text.Alike word other) :
    lexicon.find? word = lexicon.find? other := by
  rw [← find?_lower, h, find?_lower]

/-- Whether a name is noted as it is. -/
def Spelled (lexicon : Lexicon) (name : Text) : Prop :=
  lexicon.find? name = some name

instance (lexicon : Lexicon) (name : Text) : Decidable (lexicon.Spelled name) :=
  inferInstanceAs (Decidable (lexicon.find? name = some name))

/-- Letters are spelled in one way. -/
theorem Spelled.eq_of_alike {name other : Text} (h : lexicon.Spelled name)
    (h' : lexicon.Spelled other) (halike : Text.Alike name other) : name = other :=
  Option.some.inj (h.symm.trans ((find?_congr halike).trans h'))

/-- The first keyword with a property that does not depend on letter case is also the first
keyword with its own letters. -/
theorem spelled_of_first {property : Text → Bool} {name : Text}
    (hproperty : ∀ keyword other, Text.Alike keyword other → property keyword = true →
      property other = true)
    (h : lexicon.keywords.find? property = some name) : lexicon.Spelled name := by
  obtain ⟨hname, front, back, hkeywords, hfront⟩ := List.find?_eq_some_iff_append.mp h
  refine List.find?_eq_some_iff_append.mpr
    ⟨decide_eq_true (Text.Alike.refl name), front, back, hkeywords, fun keyword hkeyword => ?_⟩
  have hmissing := hfront keyword hkeyword
  rw [Bool.not_eq_true'] at hmissing ⊢
  refine decide_eq_false fun halike => ?_
  rw [hproperty name keyword (Text.Alike.symm halike) hname] at hmissing
  cases hmissing

/-- A word completes a keyword if it is the second word behind the first. -/
def Completes (previous : Token) (word keyword : Text) : Prop :=
  ∃ words ∈ pair? keyword, previous.Spells words.1 ∧ Text.Alike words.2 word

instance (previous : Token) (word keyword : Text) :
    Decidable (Completes previous word keyword) :=
  inferInstanceAs (Decidable (∃ words ∈ pair? keyword,
    previous.Spells words.1 ∧ Text.Alike words.2 word))

theorem Completes.of_alike {previous : Token} {word keyword other : Text}
    (h : Completes previous word keyword) (halike : Text.Alike keyword other) :
    Completes previous word other := by
  obtain ⟨words, hwords, hfirst, hsecond⟩ := h
  have hpair := pair?_lower keyword
  rw [halike, pair?_lower, hwords, Option.map_some] at hpair
  obtain ⟨words', hwords', heq⟩ := Option.map_eq_some_iff.mp hpair
  obtain ⟨hfirst', hsecond'⟩ := Prod.mk.inj heq
  refine ⟨words', hwords', (Token.Spells.congr ?_).mp hfirst, Text.Alike.trans hsecond' hsecond⟩
  exact hfirst'.symm

theorem find?_filterMap_eq {α β : Type} {entry : α → Option (β × α)} {wanted : β × α → Bool}
    {property : α → Bool} (hany : ∀ x, (entry x).any wanted = property x)
    (hentry : ∀ x, property x = true → (entry x).map Prod.snd = some x) (xs : List α) :
    ((xs.filterMap entry).find? wanted).map Prod.snd = xs.find? property := by
  rw [List.find?_filterMap, funext hany]
  cases hfind : xs.find? property with
  | none => rfl
  | some x => exact hentry x (List.find?_some hfind)

/-- The keyword that is completed is the first that can be. -/
theorem completed?_eq_find? (previous : Token) (word : Text) :
    lexicon.completed? previous word =
      lexicon.keywords.find? fun keyword => Completes previous word keyword := by
  unfold completed? pairsEnding
  refine find?_filterMap_eq (fun keyword => ?_) (fun keyword hcompletes => ?_) lexicon.keywords
  · rw [Bool.eq_iff_iff, decide_eq_true_iff, Completes]
    cases pair? keyword with
    | none => simp
    | some words =>
        by_cases hsecond : Text.Alike words.2 word
        · simp [hsecond]
        · simp [hsecond]
  · obtain ⟨⟨first, second⟩, hpair, -, hsecond⟩ := of_decide_eq_true hcompletes
    have hpair : pair? keyword = some (first, second) := hpair
    simp only [hpair, if_pos hsecond, Option.map_some]

theorem spelled_of_find? {word name : Text} (h : lexicon.find? word = some name) :
    lexicon.Spelled name := by
  refine spelled_of_first (fun keyword other halike hkeyword => ?_) h
  exact decide_eq_true ((Text.Alike.symm halike).trans (of_decide_eq_true hkeyword))

theorem spelled_of_completed? {previous : Token} {word name : Text}
    (h : lexicon.completed? previous word = some name) : lexicon.Spelled name := by
  rw [completed?_eq_find?] at h
  refine spelled_of_first (fun keyword other halike hkeyword => ?_) h
  exact decide_eq_true ((of_decide_eq_true hkeyword).of_alike halike)

end Lexicon

namespace Dialect

variable {dialect : Dialect} {source : Text} {t : Transcript}

/-- **What is noted is spelled as its keyword**, and only so. -/
theorem spelled_of_transcribe (ht : dialect.transcribe source = .ok t) :
    ∀ o ∈ t.keywords.occurrences, dialect.lexicon.Spelled o.keyword := by
  obtain ⟨pieces, -, rfl⟩ := exists_history_of_transcribe ht
  intro o ho
  rw [History.occurrences_transcript] at ho
  obtain ⟨n, hn, rfl⟩ := List.mem_map.mp ho
  obtain ⟨text, -, hread⟩ := (History.traces_ofPieces dialect.lexicon pieces).notings n hn
  cases hfirst : n.first with
  | none =>
      rw [hfirst] at hread
      exact Lexicon.spelled_of_find? hread
  | some i =>
      rw [hfirst] at hread
      obtain ⟨-, first, -, hcompleted⟩ := hread
      exact Lexicon.spelled_of_completed? hcompleted

/-- A name in other letters than its keyword is not found. -/
theorem latest?_of_not_spelled (ht : dialect.transcribe source = .ok t) {name : Text}
    (h : ¬ dialect.lexicon.Spelled name) : t.keywords.latest? name = none := by
  rw [(Transcript.settled_of_transcribe ht).keywords, KeywordIndex.latest?_eq_none_iff]
  rintro o ho rfl
  exact h (spelled_of_transcribe ht o ho)

end Dialect

/-! ## A clause tells its boundary -/

namespace Transcript

variable {t : Transcript} {boundary later : Nat × Nat}

/-- From a later boundary on, less is written. -/
theorem partsFrom_sublist
    (h : boundary.2 < later.2 ∨ boundary.2 = later.2 ∧ boundary.1 ≤ later.1) :
    (t.partsFrom later).Sublist (t.partsFrom boundary) := by
  have hstart : boundary.2 ≤ later.2 := by omega
  unfold partsFrom
  refine List.Sublist.trans ?_ ((List.drop_sublist_drop_left _ hstart).flatMap _)
  refine List.Sublist.flatMap_right _ fun entry hentry => ?_
  have hle : later.2 ≤ entry.2 := by
    rw [drop_zipIdx, Nat.zero_add] at hentry
    exact List.le_snd_of_mem_zipIdx hentry
  refine List.Sublist.append (List.Sublist.map _ (List.monotone_filter_right _ ?_))
    (List.Sublist.refl _)
  intro noted hnoted
  simp only [Bool.not_eq_true', Bool.and_eq_false_iff, decide_eq_false_iff_not] at hnoted ⊢
  omega

/-- A boundary at a smaller position, or at the same one with a smaller ordinal. -/
def Earlier (boundary later : Nat × Nat) : Prop :=
  boundary.2 < later.2 ∨ boundary.2 = later.2 ∧ boundary.1 < later.1

theorem eq_of_not_earlier (h : ¬ Earlier boundary later) (h' : ¬ Earlier later boundary) :
    later = boundary := by
  unfold Earlier at h h'
  exact Prod.ext (by omega) (by omega)

/-- A boundary with a token behind it writes more than any later one. -/
theorem length_terminated_lt {tokens : List Token} {start : Nat} (hlt : start < tokens.length)
    (front : List Occurrence) (name : Text) (back : List Occurrence)
    (h : Earlier (front.length, start) later) :
    (Text.terminated ((Transcript.mk tokens
        (.ofList (front ++ ⟨name, start⟩ :: back))).partsFrom later)).length <
      (Text.terminated ((Transcript.mk tokens
        (.ofList (front ++ ⟨name, start⟩ :: back))).partsFrom (front.length, start))).length := by
  have hsub : ((Transcript.mk tokens (.ofList (front ++ ⟨name, start⟩ :: back))).partsFrom
      later).Sublist ((Transcript.mk tokens (.ofList (front ++ ⟨name, start⟩ :: back))).partsFrom
        (front.length + 1, start)) := partsFrom_sublist h
  have hle := (hsub.flatMap fun part => part ++ [' ']).length_le
  rw [partsFrom_eq_cons hlt, Text.terminated_cons, List.length_append, List.length_cons]
  exact Nat.lt_of_lt_of_le (Nat.lt_succ_of_le hle) (Nat.le_add_left _ _)

/-- A boundary stands at an occurrence. -/
theorem exists_occurrence_of_boundary? (hkeywords : t.keywords = .ofList t.keywords.occurrences)
    {lexicon : Lexicon} (h : t.boundary? lexicon = some boundary) :
    ∃ front name back, t.keywords.occurrences = front ++ ⟨name, boundary.2⟩ :: back ∧
      front.length = boundary.1 ∧ t.boundaryKeyword? lexicon = some name ∧
        t.keywords.latest? name = some boundary := by
  obtain ⟨tokens, occurrences, rfl⟩ := exists_eq_mk_ofList hkeywords
  rw [KeywordIndex.occurrences_ofList]
  rcases boundary?_cases tokens occurrences lexicon with
    ⟨-, hnone⟩ | ⟨-, name, -, front, start, back, -, rfl, hback, -, hboundary, hkeyword⟩
  · rw [hnone] at h
    cases h
  · rw [hboundary] at h
    cases h
    exact ⟨front, name, back, rfl, rfl, hkeyword, KeywordIndex.latest?_append_cons front _ hback⟩

variable {lexicon other : Lexicon}

/-- The boundary is told by its keyword. -/
theorem boundary?_eq_bind (hkeywords : t.keywords = .ofList t.keywords.occurrences) :
    t.boundary? lexicon = (t.boundaryKeyword? lexicon).bind t.keywords.latest? := by
  cases hboundary : t.boundary? lexicon with
  | none => rw [boundaryKeyword?, hboundary, Option.bind_none, Option.bind_none]
  | some boundary =>
      obtain ⟨-, name, -, -, -, hkeyword, hlatest⟩ :=
        exists_occurrence_of_boundary? hkeywords hboundary
      rw [hkeyword, Option.bind_some, hlatest]

/-- An earlier boundary with a token behind it gives another clause. -/
theorem clause_ne_of_earlier (hkeywords : t.keywords = .ofList t.keywords.occurrences)
    (hboundary : t.boundary? lexicon = some boundary) (hlater : t.boundary? other = some later)
    (hlt : boundary.2 < t.tokens.length) (h : Earlier boundary later) :
    t.clause other ≠ t.clause lexicon := by
  obtain ⟨front, name, back, hoccurrences, hordinal, -, -⟩ :=
    exists_occurrence_of_boundary? hkeywords hboundary
  rw [hoccurrences] at hkeywords
  obtain ⟨tokens, keywords⟩ := t
  cases hkeywords
  obtain ⟨ordinal, start⟩ := boundary
  cases hordinal
  have hless := length_terminated_lt hlt front name back h
  intro heq
  simp only [clause, hboundary, hlater] at heq
  exact Nat.ne_of_lt hless (congrArg List.length heq)

/-- A clause is empty exactly if no token stands behind the boundary. -/
theorem clause_eq_nil_iff_of_start (hkeywords : t.keywords = .ofList t.keywords.occurrences) :
    t.clause lexicon = [] ↔ ∀ start ∈ t.clauseStart? lexicon, t.tokens.length ≤ start := by
  rw [clause_eq_nil_iff hkeywords, ← clauseStart?_eq_none_iff hkeywords]
  cases t.clauseStart? lexicon <;> simp

theorem exists_boundary_of_clause_ne_nil (hkeywords : t.keywords = .ofList t.keywords.occurrences)
    (h : t.clause lexicon ≠ []) :
    ∃ boundary, t.boundary? lexicon = some boundary ∧ boundary.2 < t.tokens.length := by
  rw [Ne, clause_eq_nil_iff_of_start hkeywords, clauseStart?] at h
  cases hboundary : t.boundary? lexicon with
  | none => simp [hboundary] at h
  | some boundary => exact ⟨boundary, rfl, by simpa [hboundary] using h⟩

/-- **A clause tells its boundary.** -/
theorem boundary?_eq_of_clause_eq (hkeywords : t.keywords = .ofList t.keywords.occurrences)
    (hne : t.clause lexicon ≠ []) (heq : t.clause other = t.clause lexicon) :
    t.boundary? other = t.boundary? lexicon := by
  obtain ⟨boundary, hboundary, hlt⟩ := exists_boundary_of_clause_ne_nil hkeywords hne
  obtain ⟨boundary', hboundary', hlt'⟩ :=
    exists_boundary_of_clause_ne_nil hkeywords (by rwa [heq])
  -- of two boundaries one would be earlier and write more
  have hearlier : ¬ Earlier boundary boundary' := fun h =>
    clause_ne_of_earlier hkeywords hboundary hboundary' hlt h heq
  have hlater : ¬ Earlier boundary' boundary := fun h =>
    clause_ne_of_earlier hkeywords hboundary' hboundary hlt' h heq.symm
  rw [hboundary, hboundary', eq_of_not_earlier hearlier hlater]

/-- **Clauses are equal** exactly if they begin with the same keyword or both are empty. -/
theorem clause_eq_iff (hkeywords : t.keywords = .ofList t.keywords.occurrences) :
    t.clause other = t.clause lexicon ↔
      t.boundaryKeyword? other = t.boundaryKeyword? lexicon ∨
        (∀ start ∈ t.clauseStart? other, t.tokens.length ≤ start) ∧
          ∀ start ∈ t.clauseStart? lexicon, t.tokens.length ≤ start := by
  rw [← clause_eq_nil_iff_of_start hkeywords, ← clause_eq_nil_iff_of_start hkeywords]
  constructor
  · intro heq
    by_cases hempty : t.clause lexicon = []
    · exact Or.inr ⟨heq.trans hempty, hempty⟩
    · refine Or.inl ?_
      rw [boundaryKeyword?, boundaryKeyword?, boundary?_eq_of_clause_eq hkeywords hempty heq]
  · rintro (hkeyword | ⟨hempty', hempty⟩)
    · rw [clause, clause, boundary?_eq_bind hkeywords, hkeyword, ← boundary?_eq_bind hkeywords]
    · rw [hempty, hempty']

end Transcript

/-! ## Names in other letters -/

namespace Lexicon

/-- The same keywords, with the letters of the other names in another case. -/
structure Respells (lexicon other : Lexicon) : Prop where
  keywords : other.keywords = lexicon.keywords
  table : Text.Alike lexicon.tableKeyword other.tableKeyword
  clauses : List.Forall₂ Text.Alike lexicon.clauseKeywords other.clauseKeywords

theorem Respells.findsLike {lexicon other : Lexicon} (h : lexicon.Respells other) :
    other.FindsLike lexicon where
  single word := by rw [find?, find?, h.keywords]
  pair previous word := by rw [completed?_eq_find?, completed?_eq_find?, h.keywords]

end Lexicon

theorem Transcript.table_eq_noTable_iff {t : Transcript} {lexicon : Lexicon} :
    t.table lexicon = .error .noTable ↔
      ∀ position ∈ t.keywords.position? lexicon.tableKeyword, t.tokens.length ≤ position := by
  unfold table
  cases t.keywords.position? lexicon.tableKeyword with
  | none => simp
  | some position =>
      rcases Nat.lt_or_ge position t.tokens.length with hlt | hle
      · simp [hlt]
      · simp [hle]

namespace Dialect

variable {dialect : Dialect} {source : Text} {t : Transcript} {lexicon other : Lexicon}

theorem table_of_not_spelled (ht : dialect.transcribe source = .ok t)
    (h : ¬ dialect.lexicon.Spelled lexicon.tableKeyword) : t.table lexicon = .error .noTable := by
  rw [Transcript.table_eq_noTable_iff, KeywordIndex.position?, latest?_of_not_spelled ht h]
  simp

/-- Of two table keywords in other letters one at most is found. -/
theorem table_eq_iff_of_spelled (ht : dialect.transcribe source = .ok t)
    (hspelled : dialect.lexicon.Spelled lexicon.tableKeyword)
    (hother : ¬ dialect.lexicon.Spelled other.tableKeyword) :
    t.table other = t.table lexicon ↔
      ∀ name ∈ dialect.lexicon.find? lexicon.tableKeyword,
        ∀ position ∈ t.keywords.position? name, t.tokens.length ≤ position := by
  rw [table_of_not_spelled ht hother, eq_comm, Transcript.table_eq_noTable_iff, hspelled]
  simp

theorem table_eq_iff (ht : dialect.transcribe source = .ok t)
    (halike : Text.Alike lexicon.tableKeyword other.tableKeyword) :
    t.table other = t.table lexicon ↔
      (dialect.lexicon.Spelled lexicon.tableKeyword ↔
          dialect.lexicon.Spelled other.tableKeyword) ∨
        ∀ name ∈ dialect.lexicon.find? lexicon.tableKeyword,
          ∀ position ∈ t.keywords.position? name, t.tokens.length ≤ position := by
  by_cases hsame : dialect.lexicon.Spelled lexicon.tableKeyword ↔
      dialect.lexicon.Spelled other.tableKeyword
  · refine iff_of_true ?_ (Or.inl hsame)
    by_cases hspelled : dialect.lexicon.Spelled lexicon.tableKeyword
    · rw [Transcript.table, Transcript.table, hspelled.eq_of_alike (hsame.mp hspelled) halike]
    · rw [table_of_not_spelled ht hspelled, table_of_not_spelled ht (mt hsame.mpr hspelled)]
  · rw [or_iff_right hsame]
    by_cases hspelled : dialect.lexicon.Spelled lexicon.tableKeyword
    · exact table_eq_iff_of_spelled ht hspelled fun h => hsame (iff_of_true hspelled h)
    · have hother : dialect.lexicon.Spelled other.tableKeyword := by
        by_contra h
        exact hsame (iff_of_false hspelled h)
      rw [Lexicon.find?_congr halike, eq_comm]
      exact table_eq_iff_of_spelled ht hother hspelled

/-- Clause keywords that are each spelled as they are noted, or not, begin the same clause. -/
theorem boundary?_eq_of_spelled (ht : dialect.transcribe source = .ok t)
    {names others : List Text} (halike : List.Forall₂ Text.Alike names others)
    (hspelled : List.Forall₂ (fun name other =>
      dialect.lexicon.Spelled name ↔ dialect.lexicon.Spelled other) names others) :
    others.findSome? t.keywords.latest? = names.findSome? t.keywords.latest? := by
  induction halike with
  | nil => rfl
  | @cons name other names others hname _ ih =>
      obtain ⟨hsame, hrest⟩ := List.forall₂_cons.mp hspelled
      have hlatest : t.keywords.latest? other = t.keywords.latest? name := by
        by_cases h : dialect.lexicon.Spelled name
        · rw [h.eq_of_alike (hsame.mp h) hname]
        · rw [latest?_of_not_spelled ht h, latest?_of_not_spelled ht (mt hsame.mpr h)]
      rw [List.findSome?_cons, List.findSome?_cons, hlatest, ih hrest]

/-- **When the letters of names matter.** A lexicon with the same keywords, whose table
keyword and clause keywords differ in letter case only, refuses the same sources in the same
way and gives all others the same transcript. The tables are equal exactly if both table
keywords are spelled as they are noted or neither is, or no token stands behind the last
occurrence. The clauses are equal exactly if they begin with the same keyword or no token
stands behind either boundary, and they begin with the same keyword if each clause keyword
is spelled as it is noted in both lexicons or in neither. -/
theorem respelled_names_iff {dialect : Dialect} {other : Lexicon}
    (h : dialect.lexicon.Respells other) (source : Text) :
    (dialect.withLexicon other).transcribe source = dialect.transcribe source ∧
      ∀ t, dialect.transcribe source = .ok t →
        (t.table other = t.table dialect.lexicon ↔
          (dialect.lexicon.Spelled dialect.lexicon.tableKeyword ↔
              dialect.lexicon.Spelled other.tableKeyword) ∨
            ∀ name ∈ dialect.lexicon.find? dialect.lexicon.tableKeyword,
              ∀ position ∈ t.keywords.position? name, t.tokens.length ≤ position) ∧
        (t.clause other = t.clause dialect.lexicon ↔
          t.boundaryKeyword? other = t.boundaryKeyword? dialect.lexicon ∨
            (∀ start ∈ t.clauseStart? other, t.tokens.length ≤ start) ∧
              ∀ start ∈ t.clauseStart? dialect.lexicon, t.tokens.length ≤ start) ∧
        (List.Forall₂ (fun name name' =>
            dialect.lexicon.Spelled name ↔ dialect.lexicon.Spelled name')
              dialect.lexicon.clauseKeywords other.clauseKeywords →
          t.boundaryKeyword? other = t.boundaryKeyword? dialect.lexicon) := by
  refine ⟨h.findsLike.transcribe source, fun t ht => ⟨table_eq_iff ht h.table,
    Transcript.clause_eq_iff (Transcript.settled_of_transcribe ht).keywords, fun hspelled => ?_⟩⟩
  have hboundary : t.boundary? other = t.boundary? dialect.lexicon :=
    boundary?_eq_of_spelled ht h.clauses hspelled
  rw [Transcript.boundaryKeyword?, Transcript.boundaryKeyword?, hboundary]

/-- A dialect whose table keyword, and one clause keyword of two, are not spelled as they
are noted. -/
def misspelled : Dialect where
  alphabet := .mysql
  lexicon := ⟨["FROM".toList, "Order By".toList, "LIMIT".toList], "from".toList,
    ["ORDER BY".toList, "LIMIT".toList]⟩

/-- The same names, misspelled in other letters. -/
def misspelledAgain : Lexicon :=
  { misspelled.lexicon with
    tableKeyword := "From".toList
    clauseKeywords := ["Order by".toList, "LIMIT".toList] }

/-- The table is missing as before, and the clause is the same. -/
theorem respelled_names_iff_misspelled :
    misspelled.lexicon.Respells misspelledAgain ∧
      ∃ t, misspelled.transcribe "from t order by x limit y".toList = .ok t ∧
        (misspelled.withLexicon misspelledAgain).transcribe
          "from t order by x limit y".toList = .ok t ∧
        t.keywords.position? "Order By".toList = some 1 ∧
        t.table misspelledAgain = .error .noTable ∧
        t.clause misspelledAgain = "LIMIT y ".toList := by
  have hrespells : misspelled.lexicon.Respells misspelledAgain :=
    ⟨rfl, by decide, .cons (by decide) (.cons (by decide) .nil)⟩
  have ht : misspelled.transcribe "from t order by x limit y".toList =
      .ok ⟨[.bare "t".toList, .bare "x".toList, .bare "y".toList],
        .ofList [⟨"FROM".toList, 0⟩, ⟨"Order By".toList, 1⟩, ⟨"LIMIT".toList, 2⟩]⟩ := by rfl
  obtain ⟨hsame, hviews⟩ := respelled_names_iff hrespells "from t order by x limit y".toList
  obtain ⟨htable, hclause, hkeyword⟩ := hviews _ ht
  refine ⟨hrespells, _, ht, hsame.trans ht, by rfl, ?_, ?_⟩
  · exact (htable.mpr (Or.inl (by decide))).trans (by rfl)
  · have hspelled := hkeyword (.cons (by decide) (.cons (by decide) .nil))
    exact (hclause.mpr (Or.inl hspelled)).trans (by rfl)

/-- The lexicon of MySQL with its other names in small letters. -/
def smallNames : Lexicon :=
  { Lexicon.mysqlDelete with
    tableKeyword := "from".toList
    clauseKeywords := ["where".toList, "order by".toList, "limit".toList] }

/-- The words `from` and `where` are keywords, but neither the table nor the clause is found. -/
theorem small_names_not_found :
    Lexicon.mysqlDelete.Respells smallNames ∧
      ∃ t, mysqlDelete.transcribe "delete from t where x".toList = .ok t ∧
        (mysqlDelete.withLexicon smallNames).transcribe "delete from t where x".toList = .ok t ∧
        t.table Lexicon.mysqlDelete = .ok "t".toList ∧ t.table smallNames = .error .noTable ∧
        t.clause Lexicon.mysqlDelete = "WHERE x ".toList ∧ t.clause smallNames = [] := by
  refine ⟨⟨rfl, by decide, ?_⟩, ⟨[.bare "t".toList, .bare "x".toList], .ofList
    [⟨"DELETE".toList, 0⟩, ⟨"FROM".toList, 0⟩, ⟨"WHERE".toList, 1⟩]⟩, ?_⟩
  · exact .cons (by decide) (.cons (by decide) (.cons (by decide) .nil))
  · exact ⟨by rfl, by rfl, by rfl, by rfl, by rfl, by rfl⟩

end Dialect

end SqlDelete
