import SqlDelete.Proofs.Latest
import SqlDelete.Proofs.Layout

/-!
# Clauses as items

The text of a clause writes keywords and tokens with a space after each. It is the
layout of a list of items, the tokens woven with the keywords noted at them, so that
reading a clause text gives the tokens and keywords that were written. Which keywords
these are is told by the list of occurrences as long as its positions are sorted.
-/

namespace SqlDelete

/-- Positions that do not decrease in the order of noting. -/
def SortedPositions (occurrences : List Occurrence) : Prop :=
  occurrences.Pairwise (·.position ≤ ·.position)

instance (occurrences : List Occurrence) : Decidable (SortedPositions occurrences) :=
  inferInstanceAs (Decidable (List.Pairwise _ _))

namespace Transcript

/-- The occurrences at the positions of `length` tokens from a position on. -/
def notedWithin (start length : Nat) (noted : List Occurrence) : List Occurrence :=
  noted.filter fun o => start ≤ o.position ∧ o.position < start + length

@[simp] theorem notedWithin_zero (start : Nat) (noted : List Occurrence) :
    notedWithin start 0 noted = [] := by
  rw [notedWithin, List.filter_eq_nil_iff]
  intro o _
  simp

/-- In a sorted list the keywords at a position come before all later ones. -/
theorem notedWithin_succ {noted : List Occurrence} (hsorted : SortedPositions noted)
    (n length : Nat) :
    notedWithin n (length + 1) noted =
      noted.filter (·.position = n) ++ notedWithin (n + 1) length noted := by
  induction noted with
  | nil => rfl
  | cons o rest ih =>
      obtain ⟨hhead, htail⟩ := List.pairwise_cons.mp hsorted
      have hrest := ih htail
      simp only [notedWithin] at hrest ⊢
      rw [List.filter_cons, List.filter_cons, List.filter_cons, hrest]
      rcases Nat.lt_trichotomy o.position n with hlt | heq | hgt
      · simp [show ¬ n ≤ o.position by omega, show o.position ≠ n by omega,
          show ¬ n + 1 ≤ o.position by omega]
      · simp [heq]
      · -- nothing after `o` stands at `n`
        have hnone : rest.filter (·.position = n) = [] := by
          rw [List.filter_eq_nil_iff]
          intro other hother
          have := hhead other hother
          simp
          omega
        have hend : o.position < n + (length + 1) ↔ o.position < n + 1 + length := by omega
        simp [hnone, hend, show n ≤ o.position by omega, show o.position ≠ n by omega,
          show n + 1 ≤ o.position by omega]

end Transcript

/-! ## Tokens and keywords as items -/

namespace Item

/-- A token as it stands in a clause text. -/
def ofToken : Token → Item
  | .bare [c] => if c ∈ Alphabet.mysql.marks then .mark c else .word [c]
  | .bare text => .word text
  | .literal content => .literal Text.singleQuote content

/-- A keyword as it stands in a clause text. -/
def ofKeyword (name : Text) : Item :=
  if name = "ORDER BY".toList then .orderBy "ORDER".toList " ".toList "BY".toList
  else .keyword name name

theorem ofToken_bare_cases (text : Text) :
    (∃ c, text = [c] ∧ c ∈ Alphabet.mysql.marks ∧ ofToken (.bare text) = .mark c) ∨
      (∀ c, text = [c] → c ∉ Alphabet.mysql.marks) ∧ ofToken (.bare text) = .word text := by
  match text with
  | [] => exact Or.inr ⟨by simp, rfl⟩
  | [c] =>
      by_cases hc : c ∈ Alphabet.mysql.marks
      · exact Or.inl ⟨c, rfl, hc, by simp [ofToken, hc]⟩
      · refine Or.inr ⟨?_, by simp [ofToken, hc]⟩
        rintro d ⟨⟩
        exact hc
  | c :: d :: rest => exact Or.inr ⟨by simp, rfl⟩

@[simp] theorem written_ofToken (token : Token) : (ofToken token).written = token.written := by
  cases token with
  | literal content => rfl
  | bare text =>
      rcases ofToken_bare_cases text with ⟨c, rfl, -, heq⟩ | ⟨-, heq⟩
      · rw [heq]
        rfl
      · rw [heq]
        rfl

@[simp] theorem token?_ofToken (token : Token) : (ofToken token).token? = some token := by
  cases token with
  | literal content => rfl
  | bare text =>
      rcases ofToken_bare_cases text with ⟨c, rfl, -, heq⟩ | ⟨-, heq⟩
      · rw [heq]
        rfl
      · rw [heq]
        rfl

@[simp] theorem keyword?_ofToken (token : Token) : (ofToken token).keyword? = none := by
  cases token with
  | literal content => rfl
  | bare text =>
      rcases ofToken_bare_cases text with ⟨c, rfl, -, heq⟩ | ⟨-, heq⟩
      · rw [heq]
        rfl
      · rw [heq]
        rfl

theorem fits_ofToken {token : Token} (h : Dialect.mysqlDelete.Settles token)
    (hquote : ∀ content, token = .literal content → Text.singleQuote ∉ content) :
    (ofToken token).Fits := by
  cases token with
  | literal content => exact ⟨by decide, hquote content rfl⟩
  | bare text =>
      rcases ofToken_bare_cases text with ⟨c, rfl, hc, heq⟩ | ⟨hmark, heq⟩
      · rw [heq]
        exact hc
      · rw [heq]
        rcases h with ⟨c, hc, rfl⟩ | ⟨hword, hfind⟩
        · exact absurd hc.2 (hmark c rfl)
        · refine ⟨hword, fun name hname _ halike => ?_⟩
          exact Lexicon.find?_mysqlDelete_eq_none_iff.mp hfind name hname halike.symm

@[simp] theorem written_ofKeyword (name : Text) : (ofKeyword name).written = name := by
  unfold ofKeyword
  split
  · rename_i heq
    rw [heq]
    rfl
  · rfl

@[simp] theorem token?_ofKeyword (name : Text) : (ofKeyword name).token? = none := by
  unfold ofKeyword
  split <;> rfl

@[simp] theorem keyword?_ofKeyword (name : Text) : (ofKeyword name).keyword? = some name := by
  unfold ofKeyword
  split
  · rename_i heq
    rw [heq]
    rfl
  · rfl

theorem fits_ofKeyword {name : Text} (h : name ∈ Lexicon.mysqlDelete.keywords) :
    (ofKeyword name).Fits := by
  unfold ofKeyword
  split
  · decide
  · rename_i hne
    rcases Lexicon.pair?_mysqlDelete name h with hpair | ⟨heq, -⟩
    · exact ⟨h, hpair, Text.Alike.refl name⟩
    · exact absurd heq hne

/-- The item with the words of its keyword spelled in another way. -/
def respelled (respell : Text → Text) : Item → Item
  | keyword name spelling => keyword name (respell spelling)
  | orderBy first gap second => orderBy (respell first) gap (respell second)
  | item => item

@[simp] theorem keyword?_respelled (respell : Text → Text) (item : Item) :
    (item.respelled respell).keyword? = item.keyword? := by
  cases item <;> rfl

theorem Fits.respelled {item : Item} (h : item.Fits) {respell : Text → Text}
    (halike : ∀ t, Text.Alike (respell t) t) : (item.respelled respell).Fits := by
  cases item with
  | keyword name spelling => exact ⟨h.1, h.2.1, (halike spelling).trans h.2.2⟩
  | orderBy first gap second =>
      exact ⟨(halike first).trans h.1, (halike second).trans h.2.1, h.2.2⟩
  | word text => exact h
  | mark c => exact h
  | literal quote content => exact h

end Item

/-! ## Items with a space after each -/

namespace Layout

/-- The layout with a space after each item. -/
def spaced (items : List Item) : Layout :=
  ⟨[], items.map fun item => (item, [' '])⟩

theorem map_fst_spaced (items : List Item) : (spaced items).items.map Prod.fst = items := by
  rw [spaced, List.map_map]
  exact List.map_id items

theorem text_spaced (items : List Item) :
    (spaced items).text = Text.terminated (items.map Item.written) := by
  simp [spaced, text, body, Text.terminated, List.flatMap_map]

theorem fits_spaced {items : List Item} (h : ∀ item ∈ items, item.Fits) : (spaced items).Fits where
  items := by
    intro entry hentry
    obtain ⟨item, hitem, rfl⟩ := List.mem_map.mp hentry
    exact h item hitem
  lead := by simp [spaced, Alphabet.IsGap]
  gaps := by
    intro entry hentry
    obtain ⟨item, hitem, rfl⟩ := List.mem_map.mp hentry
    show Alphabet.mysql.IsGap [' ']
    decide
  parted := by
    rw [spaced, List.isChain_map]
    exact (List.pairwise_of_forall fun _ _ _ _ => by simp).isChain

end Layout

namespace Item

/-- Items with a space after each are read back, if no token would join the next. -/
theorem transcribe_terminated {items : List Item} (hfits : ∀ item ∈ items, item.Fits)
    (hapart : (items.filterMap token?).IsChain
      fun previous next => ¬ Dialect.mysqlDelete.Joins previous next)
    (hne : items ≠ []) :
    Dialect.mysqlDelete.transcribe (Text.terminated (items.map written)) =
      .ok ⟨items.filterMap token?, .ofList (occurrences 0 items)⟩ := by
  have hnonempty : (Layout.spaced items).text ≠ [] := by
    obtain ⟨item, rest, rfl⟩ := List.exists_cons_of_ne_nil hne
    rw [Layout.text_spaced]
    simp
  have htokens : (Layout.spaced items).tokens = items.filterMap token? := by
    rw [Layout.tokens, Layout.map_fst_spaced]
  have hread := Layout.transcribe_text_of_apart (Layout.fits_spaced hfits)
    (by rw [htokens]; exact hapart) hnonempty
  rw [htokens, Layout.occurrences, Layout.map_fst_spaced, Layout.text_spaced] at hread
  exact hread

/-! ## Weaving -/

/-- Tokens from a position on, each behind the keywords noted there. -/
def weave : Nat → List Occurrence → List Token → List Item
  | _, _, [] => []
  | n, noted, token :: rest =>
      (noted.filter (·.position = n)).map (ofKeyword ·.keyword) ++
        ofToken token :: weave (n + 1) noted rest

theorem fits_weave {noted : List Occurrence} {tokens : List Token}
    (hnoted : ∀ o ∈ noted, o.keyword ∈ Lexicon.mysqlDelete.keywords)
    (htokens : ∀ token ∈ tokens, (ofToken token).Fits) (n : Nat) :
    ∀ item ∈ weave n noted tokens, item.Fits := by
  induction tokens generalizing n with
  | nil => simp [weave]
  | cons token rest ih =>
      intro item hitem
      rcases List.mem_append.mp hitem with hitem | hitem
      · obtain ⟨o, ho, rfl⟩ := List.mem_map.mp hitem
        exact fits_ofKeyword (hnoted o (List.mem_filter.mp ho).1)
      · rcases List.mem_cons.mp hitem with rfl | hitem
        · exact htokens token List.mem_cons_self
        · exact ih (fun other hother => htokens other (List.mem_cons_of_mem _ hother)) _ item hitem

@[simp] theorem filterMap_token?_weave (n : Nat) (noted : List Occurrence)
    (tokens : List Token) : (weave n noted tokens).filterMap token? = tokens := by
  induction tokens generalizing n with
  | nil => rfl
  | cons token rest ih =>
      have hkeywords : ((noted.filter (·.position = n)).map (ofKeyword ·.keyword)).filterMap token? =
          [] := by
        simp [List.filterMap_map]
      rw [weave, List.filterMap_append, hkeywords, List.filterMap_cons, token?_ofToken, ih]
      rfl

/-- Weaving sees only the names of the keywords at each position. -/
theorem weave_congr {noted other : List Occurrence} {tokens : List Token} {n m : Nat}
    (h : ∀ i < tokens.length, (noted.filter (·.position = n + i)).map Occurrence.keyword =
      (other.filter (·.position = m + i)).map Occurrence.keyword) :
    weave n noted tokens = weave m other tokens := by
  induction tokens generalizing n m with
  | nil => rfl
  | cons token rest ih =>
      have hhead := congrArg (List.map ofKeyword) (h 0 (by simp))
      have htail : ∀ i < rest.length,
          (noted.filter (·.position = n + 1 + i)).map Occurrence.keyword =
            (other.filter (·.position = m + 1 + i)).map Occurrence.keyword := by
        intro i hi
        have := h (i + 1) (by simpa using hi)
        rw [Nat.add_assoc, Nat.add_assoc, Nat.add_comm 1]
        exact this
      simp only [List.map_map, Function.comp_def, Nat.add_zero] at hhead
      rw [weave, weave, hhead, ih htail]

/-- A keyword at the position of the next token is woven first. -/
theorem weave_keyword_cons (n : Nat) (name : Text) (noted : List Occurrence) {tokens : List Token}
    (hne : tokens ≠ []) :
    weave n (⟨name, n⟩ :: noted) tokens = ofKeyword name :: weave n noted tokens := by
  obtain ⟨token, rest, rfl⟩ := List.exists_cons_of_ne_nil hne
  have htail : weave (n + 1) (⟨name, n⟩ :: noted) rest = weave (n + 1) noted rest := by
    refine weave_congr fun i _ => ?_
    rw [List.filter_cons_of_neg (by simp; omega)]
  rw [weave, weave, htail, List.filter_cons_of_pos (by simp)]
  rfl

/-- The item as a clause writes it: keywords as the lexicon spells them, literals between
single quotes. -/
def rendered : Item → Text
  | keyword name _ => name
  | orderBy _ _ _ => "ORDER BY".toList
  | word text => text
  | mark c => [c]
  | literal _ content => Text.singleQuote :: content ++ [Text.singleQuote]

theorem rendered_of_keyword {item : Item} {name : Text} (h : item.keyword? = some name) :
    item.rendered = name := by
  cases item <;> cases h <;> rfl

theorem rendered_of_token {item : Item} {token : Token} (h : item.token? = some token) :
    item.rendered = token.written := by
  cases item <;> cases h <;> rfl

/-- Items are woven from their own tokens and keywords, if no keyword comes last. -/
theorem written_weave_occurrences {items : List Item}
    (hlast : ∀ item ∈ items.getLast?, item.keyword? = none) (n : Nat) :
    (weave n (occurrences n items) (items.filterMap token?)).map written =
      items.map rendered := by
  induction items generalizing n with
  | nil => rfl
  | cons item rest ih =>
      have hrest : ∀ last ∈ rest.getLast?, last.keyword? = none := fun last hmem =>
        hlast last (List.mem_getLast?_cons hmem)
      cases hname : item.keyword? with
      | some name =>
          -- what comes last is a token, so there is one to write the keyword before
          have hne : rest.filterMap token? ≠ [] := by
            intro hnil
            cases hend : rest.getLast? with
            | none =>
                have hitem := hlast item (by simp [List.getLast?_eq_none_iff.mp hend])
                rw [hname] at hitem
                cases hitem
            | some last =>
                obtain ⟨token, htoken⟩ := exists_token_of_not_keyword (hrest last hend)
                have hmem := List.mem_filterMap.mpr
                  ⟨last, List.mem_of_getLast? hend, htoken⟩
                rw [hnil] at hmem
                cases hmem
          rw [occurrences_of_keyword hname, List.filterMap_cons, token?_of_keyword hname]
          simp only
          rw [weave_keyword_cons n name _ hne, List.map_cons, List.map_cons, ih hrest,
            written_ofKeyword, rendered_of_keyword hname]
      | none =>
          obtain ⟨token, htoken⟩ := exists_token_of_not_keyword hname
          have hnone : (occurrences (n + 1) rest).filter (·.position = n) = [] := by
            rw [List.filter_eq_nil_iff]
            intro o ho
            have := le_position_of_mem_occurrences ho
            simp
            omega
          rw [occurrences_of_token hname, List.filterMap_cons, htoken]
          simp only
          rw [weave, hnone, List.map_nil, List.nil_append, List.map_cons, List.map_cons, ih hrest,
            written_ofToken, rendered_of_token htoken]

/-- An occurrence in a text of which the first `n` tokens are replaced by `m` others. -/
def moved (n m : Nat) (o : Occurrence) : Occurrence :=
  ⟨o.keyword, o.position - n + m⟩

/-- **Weaving keeps the keywords** noted at the positions of its tokens, if the positions
are sorted. -/
theorem occurrences_weave {noted : List Occurrence} (hsorted : SortedPositions noted)
    (tokens : List Token) (n m : Nat) :
    occurrences m (weave n noted tokens) =
      (Transcript.notedWithin n tokens.length noted).map (moved n m) := by
  induction tokens generalizing n m with
  | nil => rw [List.length_nil, Transcript.notedWithin_zero, List.map_nil, weave, occurrences]
  | cons token rest ih =>
      -- the keywords at `n` come first, then a token, after which both counts are one higher
      have hnow : (noted.filter (·.position = n)).map (fun o => (⟨o.keyword, m⟩ : Occurrence)) =
          (noted.filter (·.position = n)).map (moved n m) := by
        apply List.map_congr_left
        intro o ho
        have hposition : o.position = n := by simpa using (List.mem_filter.mp ho).2
        simp [moved, hposition]
      have hlater : (Transcript.notedWithin (n + 1) rest.length noted).map
            (moved (n + 1) (m + 1)) =
          (Transcript.notedWithin (n + 1) rest.length noted).map (moved n m) := by
        apply List.map_congr_left
        intro o ho
        have hposition := (of_decide_eq_true (List.mem_filter.mp ho).2).1
        rw [moved, moved, show o.position - (n + 1) + (m + 1) = o.position - n + m by omega]
      have hkeyword : ∀ o : Occurrence, (ofKeyword o.keyword).keyword? = some o.keyword := fun o =>
        keyword?_ofKeyword o.keyword
      rw [weave, occurrences_keywords_append hkeyword, occurrences_of_token (keyword?_ofToken _),
        ih, List.length_cons, Transcript.notedWithin_succ hsorted, List.map_append, hnow, hlater]

end Item

/-! ## Table and boundary -/

namespace Transcript

variable {tokens : List Token} {occurrences front back : List Occurrence} {lexicon : Lexicon}
  {ordinal start : Nat}

theorem table_eq_ok_iff {name : Text} :
    (Transcript.mk tokens (.ofList occurrences)).table lexicon = .ok name ↔
      ∃ front position back token, occurrences = front ++ ⟨lexicon.tableKeyword, position⟩ :: back ∧
        (∀ o ∈ back, o.keyword ≠ lexicon.tableKeyword) ∧ tokens[position]? = some token ∧
        token.text = name := by
  constructor
  · intro h
    unfold table at h
    split at h
    · rename_i token hbind
      cases h
      obtain ⟨position, hposition, htoken⟩ := Option.bind_eq_some_iff.mp hbind
      obtain ⟨latest, hlatest, rfl⟩ := Option.map_eq_some_iff.mp hposition
      obtain ⟨front, back, heq, -, hback⟩ := KeywordIndex.latest?_eq_some_iff.mp hlatest
      exact ⟨front, _, back, token, heq, hback, htoken, rfl⟩
    · cases h
  · rintro ⟨front, position, back, token, rfl, hback, htoken, rfl⟩
    have hlatest := KeywordIndex.latest?_append_cons front position hback
    simp [table, KeywordIndex.position?, hlatest, htoken]

theorem boundary?_eq_none_iff :
    (Transcript.mk tokens (.ofList occurrences)).boundary? lexicon = none ↔
      ∀ name ∈ lexicon.clauseKeywords, ∀ o ∈ occurrences, o.keyword ≠ name := by
  rw [boundary?, List.findSome?_eq_none_iff]
  exact forall₂_congr fun name _ => KeywordIndex.latest?_eq_none_iff

/-- The boundary is the last occurrence of a clause keyword such that no stronger clause
keyword occurs. -/
theorem boundary?_eq_some_iff :
    (Transcript.mk tokens (.ofList occurrences)).boundary? lexicon = some (ordinal, start) ↔
      ∃ stronger name weaker, lexicon.clauseKeywords = stronger ++ name :: weaker ∧
        (∃ front back, occurrences = front ++ ⟨name, start⟩ :: back ∧ front.length = ordinal ∧
          ∀ o ∈ back, o.keyword ≠ name) ∧
        ∀ other ∈ stronger, ∀ o ∈ occurrences, o.keyword ≠ other := by
  rw [boundary?, List.findSome?_eq_some_iff]
  simp only [KeywordIndex.latest?_eq_some_iff, KeywordIndex.latest?_eq_none_iff]

/-- Clause keywords in the order of the lexicon: the first of them is the boundary. -/
theorem boundary?_of_sublist (hnodup : lexicon.clauseKeywords.Nodup) {name : Text}
    (hfront : ∀ o ∈ front, o.keyword ∉ lexicon.clauseKeywords)
    (hback : (name :: back.map Occurrence.keyword).Sublist lexicon.clauseKeywords) :
    (Transcript.mk tokens (.ofList (front ++ ⟨name, start⟩ :: back))).boundary? lexicon =
      some (front.length, start) := by
  obtain ⟨before, after, hsplit, hname, hafter⟩ := List.cons_sublist_iff.mp hback
  obtain ⟨stronger, more, rfl⟩ := List.append_of_mem hname
  have hkeywords : lexicon.clauseKeywords = stronger ++ name :: (more ++ after) := by
    rw [hsplit, List.append_assoc, List.cons_append]
  rw [hkeywords] at hnodup
  obtain ⟨-, hweaker, hapart⟩ := List.nodup_append.mp hnodup
  have hlater : ∀ o ∈ back, o.keyword ∈ more ++ after := fun o ho =>
    List.mem_append_right more (hafter.subset (List.mem_map_of_mem ho))
  refine boundary?_eq_some_iff.mpr ⟨stronger, name, more ++ after, hkeywords,
    ⟨front, back, rfl, rfl, fun o ho heq => ?_⟩, fun other hother o ho heq => ?_⟩
  · exact (List.nodup_cons.mp hweaker).1 (heq ▸ hlater o ho)
  · rcases List.mem_append.mp ho with ho | ho
    · exact hfront o ho (by rw [hkeywords, heq]; exact List.mem_append_left _ hother)
    · rcases List.mem_cons.mp ho with rfl | ho
      · exact hapart other hother name List.mem_cons_self heq.symm
      · exact hapart other hother _ (List.mem_cons_of_mem _ (hlater o ho)) heq.symm

/-- The keyword at the boundary. -/
def boundaryKeyword? (t : Transcript) (lexicon : Lexicon) : Option Text :=
  (t.boundary? lexicon).bind fun boundary =>
    t.keywords.occurrences[boundary.1]?.map Occurrence.keyword

theorem exists_eq_mk_ofList {t : Transcript} (h : t.keywords = .ofList t.keywords.occurrences) :
    ∃ tokens occurrences, t = ⟨tokens, .ofList occurrences⟩ :=
  ⟨t.tokens, t.keywords.occurrences, congrArg (mk t.tokens) h⟩

/-- Where the boundary is, if a clause keyword occurs. -/
theorem boundary?_cases (tokens : List Token) (occurrences : List Occurrence)
    (lexicon : Lexicon) :
    ((∀ name ∈ lexicon.clauseKeywords, ∀ o ∈ occurrences, o.keyword ≠ name) ∧
        (Transcript.mk tokens (.ofList occurrences)).boundary? lexicon = none) ∨
      ∃ stronger name weaker front start back,
        lexicon.clauseKeywords = stronger ++ name :: weaker ∧
        occurrences = front ++ ⟨name, start⟩ :: back ∧ (∀ o ∈ back, o.keyword ≠ name) ∧
        (∀ other ∈ stronger, ∀ o ∈ occurrences, o.keyword ≠ other) ∧
        (Transcript.mk tokens (.ofList occurrences)).boundary? lexicon =
          some (front.length, start) ∧
        (Transcript.mk tokens (.ofList occurrences)).boundaryKeyword? lexicon = some name := by
  cases hboundary : (Transcript.mk tokens (.ofList occurrences)).boundary? lexicon with
  | none => exact Or.inl ⟨boundary?_eq_none_iff.mp hboundary, rfl⟩
  | some boundary =>
      obtain ⟨ordinal, start⟩ := boundary
      obtain ⟨stronger, name, weaker, hkeywords, ⟨front, back, rfl, rfl, hback⟩, hstronger⟩ :=
        boundary?_eq_some_iff.mp hboundary
      refine Or.inr ⟨stronger, name, weaker, front, start, back, hkeywords, rfl, hback, hstronger,
        rfl, ?_⟩
      simp [boundaryKeyword?, hboundary]

/-! ## The parts of a clause -/

theorem map_snd_noted {noted : List Occurrence} {position k : Nat} {keep : Nat × Text → Bool}
    (h : ∀ entry : Nat × Text, k ≤ entry.1 → keep entry = true) :
    (((noted.zipIdx k).filterMap fun entry =>
        if entry.1.position = position then some (entry.2, entry.1.keyword) else none).filter
          keep).map Prod.snd =
      (noted.filter (·.position = position)).map Occurrence.keyword := by
  induction noted generalizing k with
  | nil => rfl
  | cons o rest ih =>
      have hrest := ih fun entry hentry => h entry (Nat.le_of_succ_le hentry)
      rw [List.zipIdx_cons, List.filterMap_cons]
      by_cases hposition : o.position = position
      · simp only [if_pos hposition, List.filter_cons, h (k, o.keyword) (Nat.le_refl k),
          decide_eq_true hposition, if_true, List.map_cons, hrest]
      · simp only [List.filter_cons, hposition, decide_false, Bool.false_eq_true, if_false, hrest]

/-- At the boundary's own position the keywords in front of the boundary are left out. -/
theorem keywordsBefore_append (position : Nat) :
    (Transcript.mk tokens (.ofList (front ++ back))).keywordsBefore (front.length, start) position =
      (((if position = start then [] else front) ++ back).filter (·.position = position)).map
        Occurrence.keyword := by
  have hback : ∀ entry : Nat × Text, 0 + front.length ≤ entry.1 →
      (!(decide (position = start) && decide (entry.1 < front.length))) = true := by
    intro entry hentry
    simp
    omega
  have hfront : ((front.zipIdx.filterMap fun entry =>
      if entry.1.position = position then some (entry.2, entry.1.keyword) else none).filter
        fun entry => !(decide (position = start) && decide (entry.1 < front.length))).map Prod.snd =
      ((if position = start then [] else front).filter (·.position = position)).map
        Occurrence.keyword := by
    by_cases hstart : position = start
    · -- an ordinal in front of the boundary is below its own
      rw [if_pos hstart, List.filter_nil, List.map_nil, List.map_eq_nil_iff,
        List.filter_eq_nil_iff]
      intro entry hentry
      obtain ⟨⟨o, index⟩, hmem, heq⟩ := List.mem_filterMap.mp hentry
      have hindex : index < front.length := by simpa using List.snd_lt_of_mem_zipIdx hmem
      split at heq
      · cases heq
        simp [hstart, hindex]
      · cases heq
    · rw [if_neg hstart]
      exact map_snd_noted fun entry _ => by simp [hstart]
  rw [keywordsBefore, KeywordIndex.noted, KeywordIndex.occurrences_ofList, List.zipIdx_append,
    List.filterMap_append, List.filter_append, List.map_append, hfront, map_snd_noted hback,
    List.filter_append, List.map_append]

/-- From the boundary on, the keywords written at a position are those noted there after
the ones in front of the boundary. -/
theorem keywordsBefore_eq (hfront : ∀ o ∈ front, o.position ≤ start) {position : Nat}
    (h : start ≤ position) :
    (Transcript.mk tokens (.ofList (front ++ back))).keywordsBefore (front.length, start) position =
      (back.filter (·.position = position)).map Occurrence.keyword := by
  have hnone : (if position = start then [] else front).filter (·.position = position) = [] := by
    split
    · rfl
    · rw [List.filter_eq_nil_iff]
      intro o ho
      have := hfront o ho
      simp
      omega
  rw [keywordsBefore_append, List.filter_append, hnone, List.nil_append]

theorem drop_zipIdx {α : Type*} (xs : List α) (n k : Nat) :
    (xs.zipIdx k).drop n = (xs.drop n).zipIdx (k + n) := by
  induction xs generalizing n k with
  | nil => simp
  | cons x rest ih =>
      cases n with
      | zero => rfl
      | succ n =>
          rw [List.zipIdx_cons, List.drop_succ_cons, List.drop_succ_cons, ih]
          congr 1
          omega

/-- **A clause is woven** from the tokens and the keywords from its boundary on. -/
theorem partsFrom_eq (hfront : ∀ o ∈ front, o.position ≤ start) :
    (Transcript.mk tokens (.ofList (front ++ back))).partsFrom (front.length, start) =
      (Item.weave start back (tokens.drop start)).map Item.written := by
  have hweave : ∀ (rest : List Token) (n : Nat), start ≤ n →
      ((rest.zipIdx n).flatMap fun entry =>
          (Transcript.mk tokens (.ofList (front ++ back))).keywordsBefore (front.length, start)
            entry.2 ++ [entry.1.written]) =
        (Item.weave n back rest).map Item.written := by
    intro rest
    induction rest with
    | nil =>
        intro n _
        rfl
    | cons token rest ih =>
        intro n hn
        rw [List.zipIdx_cons, List.flatMap_cons, ih (n + 1) (Nat.le_succ_of_le hn),
          keywordsBefore_eq hfront hn, Item.weave]
        simp [Function.comp_def]
  rw [partsFrom, drop_zipIdx, Nat.zero_add]
  exact hweave _ start (Nat.le_refl start)

/-- Items whose clause keywords come in the order of the lexicon have the clause that is
written from the first of these on. -/
theorem clause_of_items (hnodup : lexicon.clauseKeywords.Nodup) {front back : List Item}
    (hfront : ∀ name ∈ front.filterMap Item.keyword?, name ∉ lexicon.clauseKeywords)
    (hback : (back.filterMap Item.keyword?).Sublist lexicon.clauseKeywords)
    (hhead : ∀ item ∈ back.head?, item.token? = none)
    (hlast : ∀ item ∈ back.getLast?, item.keyword? = none) :
    (Transcript.mk ((front ++ back).filterMap Item.token?)
        (.ofList (Item.occurrences 0 (front ++ back)))).clause lexicon =
      Text.terminated (back.map Item.rendered) := by
  have hbefore : ∀ o ∈ Item.occurrences 0 front, o.keyword ∉ lexicon.clauseKeywords := by
    intro o ho
    refine hfront _ ?_
    rw [← Item.map_keyword_occurrences 0]
    exact List.mem_map_of_mem ho
  have hstart : ∀ o ∈ Item.occurrences 0 front,
      o.position ≤ (front.filterMap Item.token?).length := by
    intro o ho
    simpa using Item.position_le_of_mem_occurrences ho
  rw [Item.occurrences_append, Nat.zero_add, List.filterMap_append]
  cases back with
  | nil =>
      have hnone : (Transcript.mk (front.filterMap Item.token? ++ [])
          (.ofList (Item.occurrences 0 front ++ []))).boundary? lexicon = none := by
        refine boundary?_eq_none_iff.mpr fun name hname o ho heq => ?_
        rw [List.append_nil] at ho
        exact hbefore o ho (heq ▸ hname)
      rw [Item.occurrences, List.filterMap_nil, clause, hnone]
      rfl
  | cons item rest =>
      cases hname : item.keyword? with
      | none =>
          obtain ⟨token, htoken⟩ := Item.exists_token_of_not_keyword hname
          rw [hhead item rfl] at htoken
          cases htoken
      | some name =>
          have hweave := Item.written_weave_occurrences hlast (front.filterMap Item.token?).length
          rw [List.filterMap_cons, hname] at hback
          rw [Item.occurrences_of_keyword hname] at hweave ⊢
          rw [← Item.map_keyword_occurrences (front.filterMap Item.token?).length] at hback
          rw [clause, boundary?_of_sublist hnodup hbefore hback]
          simp only
          rw [partsFrom_eq hstart, List.drop_left, hweave]

/-- With sorted positions, a clause is woven from what there is from its boundary on. -/
theorem clause_eq_terminated (hsorted : SortedPositions occurrences)
    (hboundary : (Transcript.mk tokens (.ofList occurrences)).boundary? lexicon =
      some (ordinal, start)) :
    (∀ o ∈ occurrences.drop ordinal, start ≤ o.position) ∧
      (Transcript.mk tokens (.ofList occurrences)).clause lexicon = Text.terminated
        ((Item.weave start (occurrences.drop ordinal) (tokens.drop start)).map Item.written) := by
  obtain ⟨-, name, -, -, ⟨front, back, rfl, rfl, -⟩, -⟩ := boundary?_eq_some_iff.mp hboundary
  obtain ⟨-, hnoted, hbefore⟩ := List.pairwise_append.mp hsorted
  have hfront : ∀ o ∈ front, o.position ≤ start := fun o ho =>
    hbefore o ho ⟨name, start⟩ List.mem_cons_self
  rw [List.drop_left]
  constructor
  · intro o ho
    rcases List.mem_cons.mp ho with rfl | ho
    · exact Nat.le_refl start
    · exact List.rel_of_pairwise_cons hnoted ho
  · rw [clause, hboundary]
    exact congrArg Text.terminated (partsFrom_eq hfront)

/-- **A clause is read back** as the tokens from its boundary on and the keywords from its
boundary on that stand before one of them, with positions counted from the boundary. -/
theorem transcribe_clause {source : Text} {t : Transcript}
    (ht : Dialect.mysqlDelete.transcribe source = .ok t)
    (hclause : t.clause Lexicon.mysqlDelete ≠ [])
    (hsorted : SortedPositions t.keywords.occurrences) :
    ∃ ordinal start, t.boundary? Lexicon.mysqlDelete = some (ordinal, start) ∧
      (∀ o ∈ t.keywords.occurrences.drop ordinal, start ≤ o.position) ∧
      ((∀ content, Token.literal content ∈ t.tokens.drop start → Text.singleQuote ∉ content) →
        Dialect.mysqlDelete.transcribe (t.clause Lexicon.mysqlDelete) =
          .ok ⟨t.tokens.drop start, .ofList
            (((t.keywords.occurrences.drop ordinal).filter (·.position < t.tokens.length)).map
              fun o => ⟨o.keyword, o.position - start⟩)⟩) := by
  have hsettled := settled_of_transcribe ht
  obtain ⟨tokens, keywords⟩ := t
  obtain ⟨occurrences, rfl⟩ : ∃ occurrences, keywords = KeywordIndex.ofList occurrences :=
    ⟨_, hsettled.keywords⟩
  have hknown := hsettled.known
  simp only [KeywordIndex.occurrences_ofList] at hsorted hknown ⊢
  cases hboundary :
      (Transcript.mk tokens (.ofList occurrences)).boundary? Lexicon.mysqlDelete with
  | none =>
      rw [clause, hboundary] at hclause
      exact absurd rfl hclause
  | some boundary =>
      obtain ⟨ordinal, start⟩ := boundary
      obtain ⟨hstart, heq⟩ := clause_eq_terminated hsorted hboundary
      refine ⟨ordinal, start, rfl, hstart, fun hquote => ?_⟩
      have hfits : ∀ item ∈ Item.weave start (occurrences.drop ordinal) (tokens.drop start),
          item.Fits := by
        refine Item.fits_weave (fun o ho => hknown o (List.mem_of_mem_drop ho)) ?_ start
        intro token htoken
        refine Item.fits_ofToken (hsettled.tokens token (List.mem_of_mem_drop htoken)) ?_
        rintro content rfl
        exact hquote content htoken
      have hne : Item.weave start (occurrences.drop ordinal) (tokens.drop start) ≠ [] := by
        intro hnil
        rw [heq, hnil] at hclause
        exact hclause rfl
      have hapart : ((Item.weave start (occurrences.drop ordinal)
          (tokens.drop start)).filterMap Item.token?).IsChain
            fun previous next => ¬ Dialect.mysqlDelete.Joins previous next := by
        rw [Item.filterMap_token?_weave]
        exact hsettled.apart.suffix (List.drop_suffix start tokens)
      -- a keyword from the boundary on is written if it is not noted behind the last token
      have hwithin : notedWithin start (tokens.drop start).length (occurrences.drop ordinal) =
          (occurrences.drop ordinal).filter (·.position < tokens.length) := by
        refine List.filter_congr fun o ho => ?_
        have hle := hstart o ho
        rw [decide_eq_decide, List.length_drop]
        omega
      rw [heq, Item.transcribe_terminated hfits hapart hne, Item.filterMap_token?_weave,
        Item.occurrences_weave (hsorted.sublist (List.drop_sublist ordinal occurrences)), hwithin]
      rfl

/-- A source whose clause holds keywords that share a position, a table keyword, and a
keyword behind the last token. -/
def crowded : Text :=
  "from t where\"a\"limit order by,from`by`quick".toList

theorem transcribe_clause_crowded :
    ∃ t, Dialect.mysqlDelete.transcribe crowded = .ok t ∧
      t.clause Lexicon.mysqlDelete = "WHERE 'a' LIMIT ORDER BY , FROM 'by' ".toList ∧
      SortedPositions t.keywords.occurrences ∧
      t.boundary? Lexicon.mysqlDelete = some (1, 1) ∧
      (∀ content, Token.literal content ∈ t.tokens.drop 1 → Text.singleQuote ∉ content) ∧
      Dialect.mysqlDelete.transcribe (t.clause Lexicon.mysqlDelete) =
        .ok ⟨[.literal "a".toList, .bare ",".toList, .literal "by".toList],
          .ofList [⟨"WHERE".toList, 0⟩, ⟨"LIMIT".toList, 1⟩, ⟨"ORDER BY".toList, 1⟩,
            ⟨"FROM".toList, 2⟩]⟩ := by
  have ht : Dialect.mysqlDelete.transcribe crowded =
      .ok ⟨[.bare "t".toList, .literal "a".toList, .bare ",".toList, .literal "by".toList],
        .ofList [⟨"FROM".toList, 0⟩, ⟨"WHERE".toList, 1⟩, ⟨"LIMIT".toList, 2⟩,
          ⟨"ORDER BY".toList, 2⟩, ⟨"FROM".toList, 3⟩, ⟨"QUICK".toList, 4⟩]⟩ := by rfl
  have hquote : ∀ content, Token.literal content ∈ [Token.literal "a".toList, .bare ",".toList,
      .literal "by".toList] → Text.singleQuote ∉ content := by
    intro content hcontent
    simp only [List.mem_cons, Token.literal.injEq, reduceCtorEq, false_or, or_false,
      List.not_mem_nil] at hcontent
    rcases hcontent with rfl | rfl
    · decide
    · decide
  obtain ⟨ordinal, start, hboundary, -, hread⟩ :=
    transcribe_clause ht (List.cons_ne_nil _ _) (by decide)
  cases hboundary
  exact ⟨_, ht, by rfl, by decide, by rfl, hquote, hread hquote⟩

end Transcript

/-- A statement is the table and the clause of the transcript. -/
theorem Dialect.parse_eq_ok_iff {dialect : Dialect} {source : Text} {t : Transcript}
    (h : dialect.transcribe source = .ok t) {statement : Statement} :
    dialect.parse source = .ok statement ↔ ∃ table, t.table dialect.lexicon = .ok table ∧
      statement = ⟨.delete, table, t.clause dialect.lexicon, source⟩ := by
  unfold parse
  rw [h]
  show t.statement dialect.lexicon source = .ok statement ↔ _
  unfold Transcript.statement
  cases t.table dialect.lexicon with
  | ok table => simp [eq_comm]
  | error e => simp

end SqlDelete
