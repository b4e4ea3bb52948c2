import SqlDelete.Outcome
import SqlDelete.Proofs.Table

/-!
# Outcomes of reading

Whatever the source, its outcome is in no breach: only the empty source is refused as
empty, a quote that is reported stands where it is reported, and a clause is empty or
begins with a clause keyword and ends with a space. The last part rests on what a clause
writes first: the boundary stands before the token at its own position, and of the
keywords noted there all that come before it in the index are left out.
-/

namespace SqlDelete

namespace Text

theorem getLast?_terminated {parts : List Text} (h : parts ≠ []) :
    (terminated parts).getLast? = some ' ' := by
  rw [← List.dropLast_concat_getLast h, terminated_append]
  simp

theorem terminated_eq_nil_iff {parts : List Text} : terminated parts = [] ↔ parts = [] := by
  cases parts <;> simp

end Text

/-! ## How a clause begins and ends -/

namespace Transcript

variable {t : Transcript} {lexicon : Lexicon}

theorem partsFrom_eq_nil {boundary : Nat × Nat} (h : t.tokens.length ≤ boundary.2) :
    t.partsFrom boundary = [] := by
  unfold partsFrom
  rw [List.drop_eq_nil_of_le (by simpa using h), List.flatMap_nil]

/-- The boundary is written first, if a token stands behind it, and then what is written from
the next ordinal on. -/
theorem partsFrom_eq_cons {tokens : List Token} {start : Nat} (h : start < tokens.length)
    (front : List Occurrence) (name : Text) (back : List Occurrence) :
    (Transcript.mk tokens (.ofList (front ++ ⟨name, start⟩ :: back))).partsFrom
        (front.length, start) =
      name :: (Transcript.mk tokens (.ofList (front ++ ⟨name, start⟩ :: back))).partsFrom
        (front.length + 1, start) := by
  -- at the boundary's own position nothing in front of it is kept
  have hfirst : (Transcript.mk tokens (.ofList (front ++ ⟨name, start⟩ :: back))).keywordsBefore
      (front.length, start) start =
        name :: (Transcript.mk tokens (.ofList (front ++ ⟨name, start⟩ :: back))).keywordsBefore
          (front.length + 1, start) start := by
    have hnext : (Transcript.mk tokens
        (.ofList (front ++ [⟨name, start⟩] ++ back))).keywordsBefore
          ((front ++ [Occurrence.mk name start]).length, start) start = _ :=
      keywordsBefore_append start
    rw [List.append_assoc, List.singleton_append, List.length_append, List.length_singleton,
      if_pos rfl, List.nil_append] at hnext
    rw [hnext, keywordsBefore_append, if_pos rfl, List.nil_append,
      List.filter_cons_of_pos (by simp), List.map_cons]
  have hrest : ∀ entry ∈ (tokens.drop (start + 1)).zipIdx (start + 1),
      (Transcript.mk tokens (.ofList (front ++ ⟨name, start⟩ :: back))).keywordsBefore
          (front.length, start) entry.2 ++ [entry.1.written] =
        (Transcript.mk tokens (.ofList (front ++ ⟨name, start⟩ :: back))).keywordsBefore
          (front.length + 1, start) entry.2 ++ [entry.1.written] := by
    intro entry hentry
    have hne : entry.2 ≠ start := Nat.ne_of_gt (List.le_snd_of_mem_zipIdx hentry)
    simp [keywordsBefore, hne]
  unfold partsFrom
  rw [drop_zipIdx, Nat.zero_add, List.drop_eq_getElem_cons h, List.zipIdx_cons,
    List.flatMap_cons, List.flatMap_cons, hfirst, List.flatMap_congr hrest]
  rfl

/-- A clause is empty, or begins with the keyword at the boundary and ends with a space. -/
theorem clause_cases (hkeywords : t.keywords = .ofList t.keywords.occurrences)
    (lexicon : Lexicon) :
    (t.clause lexicon = [] ∧
        ((∀ name ∈ lexicon.clauseKeywords, ∀ o ∈ t.keywords.occurrences, o.keyword ≠ name) ∨
          ∃ start, t.clauseStart? lexicon = some start ∧ t.tokens.length ≤ start)) ∨
      ∃ start name rest, t.clauseStart? lexicon = some start ∧ start < t.tokens.length ∧
        t.boundaryKeyword? lexicon = some name ∧ name ∈ lexicon.clauseKeywords ∧
        t.clause lexicon = name ++ ' ' :: rest ∧ (t.clause lexicon).getLast? = some ' ' := by
  obtain ⟨tokens, occurrences, rfl⟩ := exists_eq_mk_ofList hkeywords
  rw [KeywordIndex.occurrences_ofList]
  rcases boundary?_cases tokens occurrences lexicon with
    ⟨hnone, hboundary⟩ |
      ⟨stronger, name, weaker, front, start, back, hclause, rfl, -, -, hboundary, hkeyword⟩
  · refine Or.inl ⟨?_, Or.inl hnone⟩
    rw [clause, hboundary]
  · have hstart : (Transcript.mk tokens
        (.ofList (front ++ ⟨name, start⟩ :: back))).clauseStart? lexicon = some start := by
      rw [clauseStart?, hboundary, Option.map_some]
    rcases Nat.lt_or_ge start tokens.length with hlt | hle
    · obtain ⟨parts, hparts⟩ : ∃ parts, (Transcript.mk tokens
          (.ofList (front ++ ⟨name, start⟩ :: back))).partsFrom (front.length, start) =
            name :: parts := ⟨_, partsFrom_eq_cons hlt front name back⟩
      have hmem : name ∈ lexicon.clauseKeywords := by
        rw [hclause]
        simp
      refine Or.inr ⟨start, name, Text.terminated parts, hstart, hlt, hkeyword, hmem, ?_⟩
      simp only [clause, hboundary, hparts]
      exact ⟨Text.terminated_cons name parts, Text.getLast?_terminated (List.cons_ne_nil _ _)⟩
    · refine Or.inl ⟨?_, Or.inr ⟨start, hstart, hle⟩⟩
      simp only [clause, hboundary]
      exact Text.terminated_eq_nil_iff.mpr (partsFrom_eq_nil hle)

theorem clauseStart?_eq_none_iff (hkeywords : t.keywords = .ofList t.keywords.occurrences) :
    t.clauseStart? lexicon = none ↔
      ∀ name ∈ lexicon.clauseKeywords, ∀ o ∈ t.keywords.occurrences, o.keyword ≠ name := by
  obtain ⟨tokens, occurrences, rfl⟩ := exists_eq_mk_ofList hkeywords
  rw [KeywordIndex.occurrences_ofList, clauseStart?, Option.map_eq_none_iff,
    boundary?_eq_none_iff]

/-- **When a clause is empty**: no clause keyword occurs, or no token stands behind the
boundary. -/
theorem clause_eq_nil_iff (hkeywords : t.keywords = .ofList t.keywords.occurrences) :
    t.clause lexicon = [] ↔
      (∀ name ∈ lexicon.clauseKeywords, ∀ o ∈ t.keywords.occurrences, o.keyword ≠ name) ∨
        ∃ start, t.clauseStart? lexicon = some start ∧ t.tokens.length ≤ start := by
  rcases clause_cases hkeywords lexicon with
    ⟨hempty, hreason⟩ | ⟨start, name, rest, hstart, hlt, -, -, hclause, -⟩
  · exact iff_of_true hempty hreason
  · refine iff_of_false (by simp [hclause]) ?_
    rintro (hnone | ⟨other, hother, hle⟩)
    · rw [(clauseStart?_eq_none_iff hkeywords).mpr hnone] at hstart
      cases hstart
    · rw [hstart, Option.some.injEq] at hother
      omega

end Transcript

/-! ## What an outcome must be -/

namespace Breach

/-- What holds of the outcome of reading a source. -/
structure Upheld (lexicon : Lexicon) (source : Text) (outcome : Except SourceError Statement) :
    Prop where
  empty : outcome = .error .empty → source = []
  noTable : outcome = .error .noTable → source ≠ []
  /-- The quote that is reported begins at the byte that is reported. -/
  unclosed : ∀ quote position, outcome = .error (.unclosed quote position) →
    ∃ before after, source = before ++ quote :: after ∧ Text.byteLength before = position
  source : ∀ statement, outcome = .ok statement → statement.source = source
  clause : ∀ statement, outcome = .ok statement → statement.clause = [] ∨
    (∃ name ∈ lexicon.clauseKeywords, ∃ rest, statement.clause = name ++ ' ' :: rest) ∧
      statement.clause.getLast? = some ' '

theorem find?_ok_eq_none_iff {lexicon : Lexicon} {source : Text} {statement : Statement} :
    find? lexicon source (.ok statement) = none ↔ statement.source = source ∧
      (statement.clause = [] ∨
        (∃ name ∈ lexicon.clauseKeywords, ∃ rest, statement.clause = name ++ ' ' :: rest) ∧
          statement.clause.getLast? = some ' ') := by
  have hbegins : (∃ name ∈ lexicon.clauseKeywords, name ++ [' '] <+: statement.clause) ↔
      ∃ name ∈ lexicon.clauseKeywords, ∃ rest, statement.clause = name ++ ' ' :: rest := by
    refine exists_congr fun name => and_congr_right fun _ => exists_congr fun rest => ?_
    rw [List.append_assoc, List.singleton_append, eq_comm]
  rw [← hbegins]
  unfold find?
  by_cases hsource : statement.source = source
  · by_cases hempty : statement.clause = []
    · simp [hsource, hempty]
    · by_cases hend : statement.clause.getLast? = some ' '
      · simp [hsource, hempty, hend]
      · simp [hsource, hempty, hend]
  · simp [hsource]

theorem find?_eq_none_iff {lexicon : Lexicon} {source : Text}
    {outcome : Except SourceError Statement} :
    find? lexicon source outcome = none ↔ Upheld lexicon source outcome := by
  cases outcome with
  | error e =>
      cases e with
      | empty =>
          have hcheck : find? lexicon source (.error .empty) = none ↔ source = [] := by
            simp [find?]
          exact hcheck.trans ⟨fun h => ⟨fun _ => h, nofun, nofun, nofun, nofun⟩,
            fun h => h.empty rfl⟩
      | noTable =>
          have hcheck : find? lexicon source (.error .noTable) = none ↔ source ≠ [] := by
            simp [find?]
          exact hcheck.trans ⟨fun h => ⟨nofun, fun _ => h, nofun, nofun, nofun⟩,
            fun h => h.noTable rfl⟩
      | unclosed quote position =>
          have hcheck : find? lexicon source (.error (.unclosed quote position)) = none ↔
              Text.charAt? position source = some quote := by
            simp [find?]
          rw [hcheck, Text.charAt?_eq_some_iff]
          refine ⟨fun h => ⟨nofun, nofun, ?_, nofun, nofun⟩, fun h => h.unclosed _ _ rfl⟩
          rintro _ _ ⟨⟩
          exact h
  | ok statement =>
      rw [find?_ok_eq_none_iff]
      constructor
      · rintro ⟨hsource, hclause⟩
        refine ⟨nofun, nofun, nofun, ?_, ?_⟩
        · rintro _ ⟨⟩
          exact hsource
        · rintro _ ⟨⟩
          exact hclause
      · intro h
        exact ⟨h.source _ rfl, h.clause _ rfl⟩

end Breach

/-! ## Every outcome -/

namespace Dialect

/-- What reading a source can come to. -/
theorem parse_cases (dialect : Dialect) (source : Text) :
    (source = [] ∧ dialect.parse source = .error .empty) ∨
      (∃ before quote after, source = before ++ quote :: after ∧
        dialect.parse source = .error (.unclosed quote (Text.byteLength before))) ∨
      ∃ t, source ≠ [] ∧ dialect.transcribe source = .ok t ∧
        (dialect.parse source = .error .noTable ∨ ∃ table,
          dialect.parse source = .ok ⟨.delete, table, t.clause dialect.lexicon, source⟩) := by
  by_cases hne : source = []
  · rw [hne]
    exact Or.inl ⟨rfl, rfl⟩
  · refine Or.inr ?_
    cases htranscribe : dialect.transcribe source with
    | error e =>
        obtain ⟨before, quote, after, pieces, rfl, -, -, -, -, rfl⟩ :=
          Alphabet.cut_eq_error_iff.mp ((transcribe_eq_error_iff hne).mp htranscribe)
        refine Or.inl ⟨before, quote, after, rfl, ?_⟩
        rw [parse, htranscribe, Nat.zero_add]
    | ok t =>
        refine Or.inr ⟨t, hne, rfl, ?_⟩
        cases htable : t.table dialect.lexicon with
        | error e =>
            rw [Transcript.table_eq_error htable] at htable
            exact Or.inl ((parse_eq_error_iff htranscribe).mpr htable)
        | ok table =>
            exact Or.inr ⟨table, (parse_eq_ok_iff htranscribe).mpr ⟨table, htable, rfl⟩⟩

theorem upheld_parse (dialect : Dialect) (source : Text) :
    Breach.Upheld dialect.lexicon source (dialect.parse source) := by
  rcases dialect.parse_cases source with
    ⟨hempty, hparse⟩ | ⟨before, quote, after, hsource, hparse⟩ |
      ⟨t, hne, htranscribe, hparse | ⟨table, hparse⟩⟩
  · rw [hparse]
    exact ⟨fun _ => hempty, nofun, nofun, nofun, nofun⟩
  · rw [hparse]
    refine ⟨nofun, nofun, ?_, nofun, nofun⟩
    rintro _ _ ⟨⟩
    exact ⟨before, after, hsource, rfl⟩
  · rw [hparse]
    exact ⟨nofun, fun _ => hne, nofun, nofun, nofun⟩
  · have hkeywords := (Transcript.settled_of_transcribe htranscribe).keywords
    rw [hparse]
    refine ⟨nofun, nofun, nofun, ?_, ?_⟩
    · rintro _ ⟨⟩
      rfl
    · rintro _ ⟨⟩
      rcases Transcript.clause_cases hkeywords dialect.lexicon with
        ⟨hempty, -⟩ | ⟨start, name, rest, -, -, -, hmem, hclause, hend⟩
      · exact Or.inl hempty
      · exact Or.inr ⟨⟨name, hmem, rest, hclause⟩, hend⟩

/-- **No source is in breach.** The check of a MySQL source finds nothing, that is, all it
looks for holds. In any dialect a clause is empty exactly if no clause keyword occurs or no
token stands behind the boundary, and otherwise begins with the keyword at the boundary and
ends with a space. -/
theorem outcomes_upheld :
    (∀ source, Statement.breach? source = none ∧
        Breach.Upheld Lexicon.mysqlDelete source (Statement.ofSource source)) ∧
      ∀ (dialect : Dialect) (source : Text) (t : Transcript),
        dialect.transcribe source = .ok t →
          (t.clause dialect.lexicon = [] ↔
            (∀ name ∈ dialect.lexicon.clauseKeywords, ∀ o ∈ t.keywords.occurrences,
                o.keyword ≠ name) ∨
              ∃ start, t.clauseStart? dialect.lexicon = some start ∧ t.tokens.length ≤ start) ∧
          (t.clause dialect.lexicon ≠ [] → ∃ name rest,
            t.boundaryKeyword? dialect.lexicon = some name ∧
            name ∈ dialect.lexicon.clauseKeywords ∧
            t.clause dialect.lexicon = name ++ ' ' :: rest ∧
            (t.clause dialect.lexicon).getLast? = some ' ') := by
  constructor
  · intro source
    have hupheld := mysqlDelete.upheld_parse source
    exact ⟨Breach.find?_eq_none_iff.mpr hupheld, hupheld⟩
  · intro dialect source t htranscribe
    have hkeywords := (Transcript.settled_of_transcribe htranscribe).keywords
    refine ⟨Transcript.clause_eq_nil_iff hkeywords, fun hne => ?_⟩
    rcases Transcript.clause_cases hkeywords dialect.lexicon with
      ⟨hempty, -⟩ | ⟨start, name, rest, -, -, hkeyword, hmem, hclause, hend⟩
    · exact absurd hempty hne
    · exact ⟨name, rest, hkeyword, hmem, hclause, hend⟩

/-- A statement with a clause, a quote behind a character of three bytes, and a `LIMIT` that a
merge leaves past the last token, once behind the boundary and once in front of it. -/
theorem outcomes_upheld_drifted :
    (∃ statement, Statement.ofSource "from t where 'a b' order by c;".toList = .ok statement ∧
        statement.source = "from t where 'a b' order by c;".toList ∧
        statement.clause = "WHERE 'a b' ORDER BY c ".toList ∧
        (∃ name ∈ Lexicon.mysqlDelete.clauseKeywords, ∃ rest,
          statement.clause = name ++ ' ' :: rest) ∧
        statement.clause.getLast? = some ' ') ∧
      (Statement.ofSource "名 'x\"".toList = .error (.unclosed Text.singleQuote 4) ∧
        ∃ before after, "名 'x\"".toList = before ++ Text.singleQuote :: after ∧
          Text.byteLength before = 4) ∧
      (∃ t, mysqlDelete.transcribe "from t order limit by".toList = .ok t ∧
        t.keywords.occurrences[1]? = some ⟨"LIMIT".toList, 2⟩ ∧ t.tokens.length = 1 ∧
        t.clauseStart? Lexicon.mysqlDelete = some 1 ∧ t.clause Lexicon.mysqlDelete = []) ∧
      ∃ t rest, mysqlDelete.transcribe "from t where order limit by x".toList = .ok t ∧
        t.keywords.occurrences[2]? = some ⟨"LIMIT".toList, 2⟩ ∧ t.tokens.length = 2 ∧
        t.clause Lexicon.mysqlDelete = "WHERE".toList ++ ' ' :: rest := by
  obtain ⟨hmysql, hclause⟩ := outcomes_upheld
  have herror : Statement.ofSource "名 'x\"".toList = .error (.unclosed Text.singleQuote 4) := by
    rfl
  have hempty : mysqlDelete.transcribe "from t order limit by".toList =
      .ok ⟨[.bare "t".toList], .ofList [⟨"FROM".toList, 0⟩, ⟨"LIMIT".toList, 2⟩,
        ⟨"ORDER BY".toList, 1⟩]⟩ := by rfl
  have hfull : mysqlDelete.transcribe "from t where order limit by x".toList =
      .ok ⟨[.bare "t".toList, .bare "x".toList], .ofList [⟨"FROM".toList, 0⟩,
        ⟨"WHERE".toList, 1⟩, ⟨"LIMIT".toList, 2⟩, ⟨"ORDER BY".toList, 1⟩]⟩ := by rfl
  have hread : Statement.ofSource "from t where 'a b' order by c;".toList =
      .ok ⟨.delete, "t".toList, "WHERE 'a b' ORDER BY c ".toList,
        "from t where 'a b' order by c;".toList⟩ := by rfl
  refine ⟨⟨_, hread, (hmysql _).2.source _ hread, rfl, ?_⟩,
    ⟨herror, (hmysql _).2.unclosed _ _ herror⟩, ⟨_, hempty, by rfl, rfl, by rfl, ?_⟩, ?_⟩
  · exact ((hmysql _).2.clause _ hread).resolve_left (by decide)
  · exact (hclause _ _ _ hempty).1.mpr (Or.inr ⟨1, by rfl, Nat.le_refl 1⟩)
  · obtain ⟨name, rest, hname, -, hbegins, -⟩ := (hclause _ _ _ hfull).2 (by decide)
    cases Option.some.inj (hname.symm.trans (show _ = some "WHERE".toList by rfl))
    exact ⟨_, rest, hfull, by rfl, rfl, hbegins⟩

end Dialect

end SqlDelete
