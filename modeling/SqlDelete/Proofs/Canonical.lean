import SqlDelete.Proofs.Clause

/-!
# Canonical text

A statement that was read can be written again from its table and its clause alone.
The text is read as a statement with the same table and the same clause, although the
clause may hold table and clause keywords of its own.
-/

namespace SqlDelete

/-- The table between single quotes behind `DELETE FROM`, then the clause. -/
def Statement.canonical (statement : Statement) : Text :=
  "DELETE FROM ".toList ++ (Token.literal statement.table).written ++ ' ' :: statement.clause

namespace Transcript

/-! ## The transcript of a canonical text -/

/-- A table behind `DELETE FROM`, then what a clause is woven from. -/
def canonical (table : Text) (start : Nat) (noted : List Occurrence) (rest : List Token) :
    Transcript where
  tokens := .literal table :: rest
  keywords := .ofList (⟨"DELETE".toList, 0⟩ :: ⟨"FROM".toList, 0⟩ ::
    (notedWithin start rest.length noted).map (Item.moved start 1))

/-- What a canonical text writes. -/
def canonicalItems (table : Text) (clause : List Item) : List Item :=
  Item.ofKeyword "DELETE".toList :: Item.ofKeyword "FROM".toList ::
    Item.ofToken (.literal table) :: clause

theorem transcribe_canonical {table : Text} (htable : Text.singleQuote ∉ table) {start : Nat}
    {noted : List Occurrence} {rest : List Token} (hsorted : SortedPositions noted)
    (hfits : ∀ item ∈ Item.weave start noted rest, item.Fits)
    (hapart : rest.IsChain fun previous next => ¬ Dialect.mysqlDelete.Joins previous next) :
    Dialect.mysqlDelete.transcribe ("DELETE FROM ".toList ++ (Token.literal table).written ++
        ' ' :: Text.terminated ((Item.weave start noted rest).map Item.written)) =
      .ok (canonical table start noted rest) := by
  have hitems : ∀ item ∈ canonicalItems table (Item.weave start noted rest), item.Fits := by
    have hdelete : (Item.ofKeyword "DELETE".toList).Fits := by decide
    have hfrom : (Item.ofKeyword "FROM".toList).Fits := by decide
    have hliteral : (Item.ofToken (.literal table)).Fits := ⟨by decide, htable⟩
    simp only [canonicalItems, List.forall_mem_cons]
    exact ⟨hdelete, hfrom, hliteral, hfits⟩
  have htokens : (canonicalItems table (Item.weave start noted rest)).filterMap Item.token? =
      .literal table :: rest := by
    simp [canonicalItems]
  have hchain : (Token.literal table :: rest).IsChain
      fun previous next => ¬ Dialect.mysqlDelete.Joins previous next := by
    refine List.isChain_cons.mpr ⟨fun next _ hjoins => ?_, hapart⟩
    exact Token.not_spells_literal _ _ (Dialect.joins_mysqlDelete_iff.mp hjoins).1
  have hread := Item.transcribe_terminated hitems (htokens ▸ hchain) (List.cons_ne_nil _ _)
  rw [htokens, canonicalItems, Item.occurrences_of_keyword (Item.keyword?_ofKeyword _),
    Item.occurrences_of_keyword (Item.keyword?_ofKeyword _),
    Item.occurrences_of_token (Item.keyword?_ofToken _), Item.occurrences_weave hsorted] at hread
  simpa [Token.written, canonical] using hread

/-! ## The same table -/

/-- In a list with two ends, the last occurrence of a name belongs to the second end,
or the name does not occur there. -/
theorem last_append_cases {front noted before back : List Occurrence} {name : Text}
    {position : Nat} (heq : front ++ noted = before ++ ⟨name, position⟩ :: back)
    (hback : ∀ o ∈ back, o.keyword ≠ name) :
    (∀ o ∈ noted, o.keyword ≠ name) ∨
      ∃ between, noted = between ++ ⟨name, position⟩ :: back := by
  rcases List.append_eq_append_iff.mp heq with ⟨between, -, hnoted⟩ | ⟨between, -, hcons⟩
  · exact Or.inr ⟨between, hnoted⟩
  · cases between with
    | nil => exact Or.inr ⟨[], hcons.symm⟩
    | cons o between =>
        obtain ⟨-, rfl⟩ := List.cons.inj hcons
        exact Or.inl fun other hother => hback other (List.mem_append_right _ hother)

theorem keyword_moved_ne {start length m : Nat} {noted : List Occurrence} {name : Text}
    (h : ∀ o ∈ noted, o.keyword ≠ name) :
    ∀ o ∈ (notedWithin start length noted).map (Item.moved start m), o.keyword ≠ name := by
  intro o ho
  obtain ⟨other, hother, rfl⟩ := List.mem_map.mp ho
  exact h other (List.mem_filter.mp hother).1

/-- The canonical transcript has the table that is written, if the clause has no table
keyword of its own. -/
theorem table_canonical {table : Text} {start : Nat} {noted : List Occurrence}
    {rest : List Token} (h : ∀ o ∈ noted, o.keyword ≠ "FROM".toList) :
    (canonical table start noted rest).table Lexicon.mysqlDelete = .ok table := by
  refine table_eq_ok_iff.mpr ⟨[⟨"DELETE".toList, 0⟩], 0, _, .literal table, rfl, ?_, rfl, rfl⟩
  exact keyword_moved_ne h

theorem table_canonical_of_last {table name : Text} {tokens : List Token} {start position : Nat}
    {between back : List Occurrence} {token : Token} (hstart : start ≤ position)
    (hback : ∀ o ∈ back, o.keyword ≠ "FROM".toList) (htoken : tokens[position]? = some token)
    (hname : token.text = name) :
    (canonical table start (between ++ ⟨"FROM".toList, position⟩ :: back)
      (tokens.drop start)).table Lexicon.mysqlDelete = .ok name := by
  have hlt : position < tokens.length := (List.getElem?_eq_some_iff.mp htoken).1
  have hin : start ≤ position ∧ position < start + (tokens.drop start).length := by
    rw [List.length_drop]
    omega
  have hsplit : notedWithin start (tokens.drop start).length
      (between ++ ⟨"FROM".toList, position⟩ :: back) =
        notedWithin start (tokens.drop start).length between ++ ⟨"FROM".toList, position⟩ ::
          notedWithin start (tokens.drop start).length back := by
    rw [notedWithin, List.filter_append, List.filter_cons, if_pos (decide_eq_true hin)]
    rfl
  rw [canonical, hsplit, List.map_append, List.map_cons]
  refine table_eq_ok_iff.mpr ⟨⟨"DELETE".toList, 0⟩ :: ⟨"FROM".toList, 0⟩ :: _,
    position - start + 1, _, token, rfl, keyword_moved_ne hback, ?_, hname⟩
  rw [List.getElem?_cons_succ, List.getElem?_drop, Nat.add_sub_cancel' hstart, htoken]

/-! ## The same clause -/

theorem weave_moved (start m : Nat) (noted : List Occurrence) (rest : List Token) :
    Item.weave m ((notedWithin start rest.length noted).map (Item.moved start m)) rest =
      Item.weave start noted rest := by
  apply Item.weave_congr
  intro i hi
  have hkeyword : Occurrence.keyword ∘ Item.moved start m = Occurrence.keyword := rfl
  rw [List.filter_map, List.map_map, hkeyword, notedWithin, List.filter_filter]
  refine congrArg _ (List.filter_congr fun o _ => ?_)
  rw [Function.comp_apply, Item.moved, ← Bool.decide_and, decide_eq_decide]
  show o.position - start + m = m + i ∧ _ ↔ _
  omega

theorem clause_canonical_nil {table : Text} {start : Nat} {noted : List Occurrence} :
    (canonical table start noted []).clause Lexicon.mysqlDelete = [] := by
  have hboundary : (canonical table start noted []).boundary? Lexicon.mysqlDelete = none := by
    rw [canonical, List.length_nil, notedWithin_zero, List.map_nil]
    exact boundary?_eq_none_iff.mpr (by decide)
  rw [clause, hboundary]

/-- The boundary comes right after `DELETE FROM`, and the table before it. -/
theorem boundary?_canonical {table name : Text} {start : Nat} {back : List Occurrence}
    {rest : List Token} {stronger weaker : List Text} (hrest : rest ≠ [])
    (hsplit : Lexicon.mysqlDelete.clauseKeywords = stronger ++ name :: weaker)
    (hback : ∀ o ∈ back, o.keyword ≠ name)
    (hstronger : ∀ other ∈ stronger, ∀ o ∈ (⟨name, start⟩ : Occurrence) :: back,
      o.keyword ≠ other) :
    (canonical table start (⟨name, start⟩ :: back) rest).boundary? Lexicon.mysqlDelete =
      some (2, 1) := by
  have hlength : 0 < rest.length := List.length_pos_iff.mpr hrest
  have hnoted : (notedWithin start rest.length (⟨name, start⟩ :: back)).map (Item.moved start 1) =
      ⟨name, 1⟩ :: (notedWithin start rest.length back).map (Item.moved start 1) := by
    have hin : start ≤ start ∧ start < start + rest.length := by omega
    rw [notedWithin, List.filter_cons, if_pos (decide_eq_true hin), List.map_cons, Item.moved,
      Nat.sub_self]
    rfl
  have hclause : ∀ other ∈ Lexicon.mysqlDelete.clauseKeywords,
      "DELETE".toList ≠ other ∧ "FROM".toList ≠ other := by decide
  rw [canonical, boundary?_eq_some_iff]
  refine ⟨stronger, name, weaker, hsplit, ?_, ?_⟩
  · rw [hnoted]
    exact ⟨[⟨"DELETE".toList, 0⟩, ⟨"FROM".toList, 0⟩], _, rfl, rfl, keyword_moved_ne hback⟩
  · intro other hother
    have hne := hclause other (by rw [hsplit]; exact List.mem_append_left _ hother)
    simp only [List.forall_mem_cons]
    exact ⟨hne.1, hne.2, keyword_moved_ne (hstronger other hother)⟩

theorem clause_canonical {table : Text} {start : Nat} {noted : List Occurrence}
    {rest : List Token}
    (hboundary : (canonical table start noted rest).boundary? Lexicon.mysqlDelete = some (2, 1)) :
    (canonical table start noted rest).clause Lexicon.mysqlDelete =
      Text.terminated ((Item.weave start noted rest).map Item.written) := by
  have hfront : ∀ o ∈ [(⟨"DELETE".toList, 0⟩ : Occurrence), ⟨"FROM".toList, 0⟩],
      o.position ≤ 1 := by decide
  have hparts : (canonical table start noted rest).partsFrom (2, 1) =
      (Item.weave 1 ((notedWithin start rest.length noted).map (Item.moved start 1))
        ((Token.literal table :: rest).drop 1)).map Item.written := partsFrom_eq hfront
  rw [clause, hboundary]
  show Text.terminated ((canonical table start noted rest).partsFrom (2, 1)) = _
  rw [hparts, List.drop_one, List.tail_cons, weave_moved]

/-- What a transcript with sorted positions says is said again by a canonical transcript. -/
theorem exists_canonical {tokens : List Token} {occurrences : List Occurrence} {table : Text}
    (hsorted : SortedPositions occurrences)
    (htable : (Transcript.mk tokens (.ofList occurrences)).table Lexicon.mysqlDelete = .ok table) :
    ∃ start noted rest, noted <:+ occurrences ∧ rest <:+ tokens ∧
      (Transcript.mk tokens (.ofList occurrences)).clause Lexicon.mysqlDelete =
        Text.terminated ((Item.weave start noted rest).map Item.written) ∧
      (canonical table start noted rest).table Lexicon.mysqlDelete = .ok table ∧
      (canonical table start noted rest).clause Lexicon.mysqlDelete =
        Text.terminated ((Item.weave start noted rest).map Item.written) := by
  cases hboundary :
      (Transcript.mk tokens (.ofList occurrences)).boundary? Lexicon.mysqlDelete with
  | none =>
      refine ⟨0, [], [], List.nil_suffix, List.nil_suffix, ?_, table_canonical (by simp),
        clause_canonical_nil⟩
      rw [clause, hboundary]
      rfl
  | some boundary =>
      obtain ⟨ordinal, start⟩ := boundary
      obtain ⟨stronger, name, weaker, hsplit, ⟨front, back, rfl, rfl, hback⟩, hstronger⟩ :=
        boundary?_eq_some_iff.mp hboundary
      obtain ⟨-, hnoted, -⟩ := List.pairwise_append.mp hsorted
      have hclause := (clause_eq_terminated hsorted hboundary).2
      rw [List.drop_left] at hclause
      refine ⟨start, ⟨name, start⟩ :: back, tokens.drop start, List.suffix_append _ _,
        List.drop_suffix _ _, hclause, ?_, ?_⟩
      · obtain ⟨before, position, after, token, heq, hafter, htoken, hname⟩ :=
          table_eq_ok_iff.mp htable
        rcases last_append_cases heq hafter with hnone | ⟨between, hbetween⟩
        · exact table_canonical hnone
        · -- the table keyword comes at or after the boundary
          have hmem : (⟨"FROM".toList, position⟩ : Occurrence) ∈ ⟨name, start⟩ :: back := by
            rw [hbetween]
            exact List.mem_append_right _ List.mem_cons_self
          have hstart : start ≤ position := by
            rcases List.mem_cons.mp hmem with heq | hmem
            · exact Nat.le_of_eq (congrArg Occurrence.position heq).symm
            · exact List.rel_of_pairwise_cons hnoted hmem
          rw [hbetween]
          exact table_canonical_of_last hstart hafter htoken hname
      · by_cases hrest : tokens.drop start = []
        · rw [hrest]
          exact clause_canonical_nil
        · have hstronger' : ∀ other ∈ stronger, ∀ o ∈ (⟨name, start⟩ : Occurrence) :: back,
              o.keyword ≠ other := fun other hother o ho =>
            hstronger other hother o (List.mem_append_right _ ho)
          exact clause_canonical (boundary?_canonical hrest hsplit hback hstronger')

theorem singleQuote_not_mem_text {token : Token} (h : Dialect.mysqlDelete.Settles token)
    (hquote : ∀ content, token = .literal content → Text.singleQuote ∉ content) :
    Text.singleQuote ∉ token.text := by
  have hmark : ¬ Alphabet.mysql.IsMark Text.singleQuote := by decide
  have hordinary : ¬ Alphabet.mysql.Ordinary Text.singleQuote := by decide
  cases token with
  | literal content => exact hquote content rfl
  | bare text =>
      intro hmem
      rcases h with ⟨c, hc, rfl⟩ | ⟨hword, -⟩
      · rw [Token.text_bare, List.mem_singleton] at hmem
        rw [hmem] at hmark
        exact hmark hc
      · exact hordinary (hword.2 _ hmem)

end Transcript

namespace Statement

/-- **Canonical text is read back.** What was read is written with its table between
single quotes and its clause behind it, and read as the same table and clause. -/
theorem ofSource_canonical {source : Text} {statement : Statement} {t : Transcript}
    (h : ofSource source = .ok statement) (ht : Dialect.mysqlDelete.transcribe source = .ok t)
    (hquote : ∀ content, Token.literal content ∈ t.tokens → Text.singleQuote ∉ content)
    (hsorted : SortedPositions t.keywords.occurrences) :
    ofSource statement.canonical = .ok { statement with source := statement.canonical } := by
  have hsettled := Transcript.settled_of_transcribe ht
  obtain ⟨tokens, keywords⟩ := t
  obtain ⟨occurrences, rfl⟩ : ∃ occurrences, keywords = KeywordIndex.ofList occurrences :=
    ⟨_, hsettled.keywords⟩
  have hknown := hsettled.known
  rw [KeywordIndex.occurrences_ofList] at hsorted hknown
  have hquotes : ∀ token ∈ tokens, ∀ content, token = .literal content →
      Text.singleQuote ∉ content := by
    rintro _ htoken content rfl
    exact hquote content htoken
  obtain ⟨table, htable, rfl⟩ := (Dialect.parse_eq_ok_iff ht).mp h
  obtain ⟨start, noted, rest, hnoted, hrest, hclause, htable', hclause'⟩ :=
    Transcript.exists_canonical hsorted htable
  have htext : Text.singleQuote ∉ table := by
    obtain ⟨-, position, -, token, -, -, htoken, rfl⟩ := Transcript.table_eq_ok_iff.mp htable
    have hmem := List.mem_of_getElem? htoken
    exact Transcript.singleQuote_not_mem_text (hsettled.tokens token hmem) (hquotes token hmem)
  have hfits : ∀ item ∈ Item.weave start noted rest, item.Fits := by
    refine Item.fits_weave (fun o ho => hknown o (hnoted.subset ho)) (fun token htoken => ?_) start
    have hmem := hrest.subset htoken
    exact Item.fits_ofToken (hsettled.tokens token hmem) (hquotes token hmem)
  have hread := Transcript.transcribe_canonical htext (hsorted.sublist hnoted.sublist) hfits
    (hsettled.apart.suffix hrest)
  rw [← hclause] at hread hclause'
  refine (Dialect.parse_eq_ok_iff hread).mpr ⟨table, htable', ?_⟩
  exact congrArg (Statement.mk .delete table · _) hclause'.symm

/-- A source with a table keyword in its clause, and keywords that share a position. -/
def nested : Text :=
  "from`t`where'x'from u limit order by(quick".toList

theorem ofSource_canonical_nested :
    ∃ statement t, ofSource nested = .ok statement ∧
      Dialect.mysqlDelete.transcribe nested = .ok t ∧
      (∀ content, Token.literal content ∈ t.tokens → Text.singleQuote ∉ content) ∧
      SortedPositions t.keywords.occurrences ∧
      statement.canonical = "DELETE FROM 'u' WHERE 'x' FROM u LIMIT ORDER BY ( ".toList ∧
      ofSource statement.canonical = .ok { statement with source := statement.canonical } := by
  have hstatement : ofSource nested =
      .ok ⟨.delete, "u".toList, "WHERE 'x' FROM u LIMIT ORDER BY ( ".toList, nested⟩ := by rfl
  have htranscript : Dialect.mysqlDelete.transcribe nested =
      .ok ⟨[.literal "t".toList, .literal "x".toList, .bare "u".toList, .bare "(".toList],
        .ofList [⟨"FROM".toList, 0⟩, ⟨"WHERE".toList, 1⟩, ⟨"FROM".toList, 2⟩,
          ⟨"LIMIT".toList, 3⟩, ⟨"ORDER BY".toList, 3⟩, ⟨"QUICK".toList, 4⟩]⟩ := by rfl
  have hquote : ∀ content, Token.literal content ∈ [Token.literal "t".toList,
      .literal "x".toList, .bare "u".toList, .bare "(".toList] → Text.singleQuote ∉ content := by
    intro content hcontent
    simp only [List.mem_cons, Token.literal.injEq, reduceCtorEq, or_false,
      List.not_mem_nil] at hcontent
    rcases hcontent with rfl | rfl
    · decide
    · decide
  have hsorted : SortedPositions (KeywordIndex.ofList [⟨"FROM".toList, 0⟩, ⟨"WHERE".toList, 1⟩,
      ⟨"FROM".toList, 2⟩, ⟨"LIMIT".toList, 3⟩, ⟨"ORDER BY".toList, 3⟩,
      ⟨"QUICK".toList, 4⟩]).occurrences := by
    decide
  exact ⟨_, _, hstatement, htranscript, hquote, hsorted, by rfl,
    ofSource_canonical hstatement htranscript hquote hsorted⟩

end Statement

end SqlDelete
