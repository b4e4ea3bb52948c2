import SqlDelete.Proofs.Clause
import SqlDelete.Proofs.LetterCase
import SqlDelete.Sample.Draw

/-!
# Samples are read back

The source of a well-formed sample is read to the parts it was written from, and every
drawn sample is well formed. Well-formedness is all that the two have in common: reading
does not ask how a name was drawn, and a draw does not know the reader.
-/

namespace SqlDelete

/-! ## Names and other plain words -/

namespace Text

/-- A word that may name a table or a column: no keyword and no word of one. -/
def IsName (text : Text) : Prop :=
  Alphabet.mysql.IsWord text ∧ (∀ name ∈ Lexicon.mysqlDelete.keywords, ¬ Alike text name) ∧
    ∀ name ∈ Lexicon.mysqlDelete.keywords, ∀ word ∈ words name, ¬ Alike text word

instance (text : Text) : Decidable (IsName text) :=
  inferInstanceAs (Decidable (_ ∧ _))

/-- A word that is a token wherever it stands. -/
def IsPlain (text : Text) : Prop :=
  (Item.word text).Fits ∧ ¬ (Item.word text).IsBy

/-- It is enough to look at the words of the keywords: the only keyword that is not one of
them holds a space. -/
theorem isName_iff {text : Text} :
    IsName text ↔ Alphabet.mysql.IsWord text ∧ ∀ word ∈ Draw.reserved, ¬ Alike word text := by
  have hkeywords : ∀ name ∈ Lexicon.mysqlDelete.keywords,
      name ∈ words name ∨ ¬ Alphabet.mysql.IsWord name := by decide
  constructor
  · rintro ⟨hword, -, hpart⟩
    refine ⟨hword, fun word hmem halike => ?_⟩
    obtain ⟨name, hname, hmem⟩ := List.mem_flatMap.mp hmem
    exact hpart name hname word hmem halike.symm
  · rintro ⟨hword, hreserved⟩
    have hpart : ∀ name ∈ Lexicon.mysqlDelete.keywords, ∀ word ∈ words name,
        ¬ Alike text word := fun name hname word hmem halike =>
      hreserved word (List.mem_flatMap.mpr ⟨name, hname, hmem⟩) halike.symm
    refine ⟨hword, fun name hname halike => ?_, hpart⟩
    rcases hkeywords name hname with hmem | hnot
    · exact hpart name hname name hmem halike
    · exact hnot (Alphabet.isWord_mysql_of_alike halike.symm hword)

theorem IsName.isPlain {text : Text} (h : IsName text) : IsPlain text :=
  ⟨⟨h.1, fun name hname _ => h.2.1 name hname⟩,
    h.2.2 "ORDER BY".toList (by decide) "BY".toList (by decide)⟩

/-- A name can stand between any quotes. -/
theorem IsName.not_mem {text : Text} (h : IsName text) {quote : Char}
    (hquote : quote ∈ Alphabet.mysql.quotes) : quote ∉ text :=
  fun hmem => (h.1.2 quote hmem).2 hquote

/-- Every keyword holds a letter, so a word without letters is none. -/
theorem isPlain_of_not_isAlpha {text : Text} (hword : Alphabet.mysql.IsWord text)
    (h : text.any Char.isAlpha = false) : IsPlain text := by
  have hnot : ∀ {other : Text}, other.any Char.isAlpha = true → ¬ Alike text other := by
    intro other hother halike
    obtain ⟨d, hd, hletter⟩ := List.any_eq_true.mp hother
    obtain ⟨c, hc, heq⟩ := halike.symm.exists_toLower_eq hd
    have hc' := List.any_eq_false.mp h c hc
    rcases eq_or_isAlpha_of_toLower_eq heq with rfl | ⟨-, hletter'⟩
    · exact hc' hletter
    · exact hc' hletter'
  have hkeywords : ∀ name ∈ Lexicon.mysqlDelete.keywords, name.any Char.isAlpha = true := by
    decide
  exact ⟨⟨hword, fun name hname _ => hnot (hkeywords name hname)⟩, hnot (by decide)⟩

theorem isPlain_signedDecimal (v : Int) : IsPlain (signedDecimal v) := by
  refine isPlain_of_not_isAlpha ⟨signedDecimal_ne_nil v, fun c hc => ?_⟩
    (List.any_eq_false.mpr fun c hc => ?_)
  · rcases isDigit_or_minus_of_mem_signedDecimal hc with hdigit | rfl
    · exact Alphabet.ordinary_mysql_of_isDigit hdigit
    · decide
  · rcases isDigit_or_minus_of_mem_signedDecimal hc with hdigit | rfl
    · exact not_isAlpha_of_isDigit hdigit
    · decide

theorem isPlain_decimal (n : Nat) : IsPlain (decimal n) :=
  isPlain_signedDecimal (.ofNat n)

end Text

/-! ## Well-formed samples -/

/-- What can stand between the quotes of a wrapping, or without quotes. -/
def Wrapping.Admits (wrapping : Wrapping) (text : Text) : Prop :=
  match wrapping.quote? with
  | none => text.IsName
  | some quote => quote ∉ text

instance (wrapping : Wrapping) (text : Text) : Decidable (wrapping.Admits text) :=
  match wrapping with
  | .bare => inferInstanceAs (Decidable text.IsName)
  | .single => inferInstanceAs (Decidable (_ ∉ text))
  | .double => inferInstanceAs (Decidable (_ ∉ text))
  | .back => inferInstanceAs (Decidable (_ ∉ text))

namespace Sample

/-- A sample that stands for a statement. Its modifiers may come in any order and more than
once, and a table between quotes may be anything without that quote. -/
structure WellFormed (sample : Sample) : Prop where
  modifiers : ∀ modifier ∈ sample.modifiers, modifier ∈ Draw.modifiers
  table : sample.wrapping.Admits sample.table
  filter : ∀ filter ∈ sample.filter, filter.1.IsName
  order : ∀ column ∈ sample.order, column.IsName

/-- The sections of the clause: a keyword and the words after it. -/
def sections (sample : Sample) : List (Text × List Text) :=
  (sample.filter.map fun filter =>
    ("WHERE".toList, [filter.1, "=".toList, Text.signedDecimal filter.2.toInt])).toList ++
  (sample.order.map fun column => ("ORDER BY".toList, [column])).toList ++
  (sample.limit.map fun n => ("LIMIT".toList, [Text.decimal n.toNat])).toList

theorem clauseWords_eq (sample : Sample) (spell : Text → Text) :
    sample.clauseWords spell = sample.sections.flatMap fun part => spell part.1 :: part.2 := by
  unfold clauseWords sections
  cases sample.filter <;> cases sample.order <;> cases sample.limit <;> rfl

/-- Sections come in the order of the lexicon. -/
theorem sections_sublist (sample : Sample) :
    (sample.sections.map Prod.fst).Sublist Lexicon.mysqlDelete.clauseKeywords := by
  have hpart : ∀ {α : Type} (value : Option α) (name : Text) (words : α → List Text),
      ((value.map fun a => (name, words a)).toList.map Prod.fst).Sublist [name] := by
    intro α value name words
    cases value with
    | none => exact List.nil_sublist _
    | some a => exact List.Sublist.refl _
  rw [sections, List.map_append, List.map_append]
  exact ((hpart _ _ _).append (hpart _ _ _)).append (hpart _ _ _)

theorem sections_cases {sample : Sample} {part : Text × List Text} (h : part ∈ sample.sections) :
    (∃ column value, (column, value) ∈ sample.filter ∧
        part = ("WHERE".toList, [column, "=".toList, Text.signedDecimal value.toInt])) ∨
      (∃ column ∈ sample.order, part = ("ORDER BY".toList, [column])) ∨
      ∃ n ∈ sample.limit, part = ("LIMIT".toList, [Text.decimal n.toNat]) := by
  rcases List.mem_append.mp h with h | h
  · rcases List.mem_append.mp h with h | h
    · obtain ⟨⟨column, value⟩, hfilter, rfl⟩ := Option.map_eq_some_iff.mp (Option.mem_toList.mp h)
      exact Or.inl ⟨column, value, hfilter, rfl⟩
    · obtain ⟨column, horder, rfl⟩ := Option.map_eq_some_iff.mp (Option.mem_toList.mp h)
      exact Or.inr (Or.inl ⟨column, horder, rfl⟩)
  · obtain ⟨n, hlimit, rfl⟩ := Option.map_eq_some_iff.mp (Option.mem_toList.mp h)
    exact Or.inr (Or.inr ⟨n, hlimit, rfl⟩)

theorem words_ne_nil {sample : Sample} {part : Text × List Text} (h : part ∈ sample.sections) :
    part.2 ≠ [] := by
  rcases sections_cases h with ⟨column, value, -, rfl⟩ | ⟨column, -, rfl⟩ | ⟨n, -, rfl⟩
  · exact List.cons_ne_nil _ _
  · exact List.cons_ne_nil _ _
  · exact List.cons_ne_nil _ _

theorem WellFormed.isPlain {sample : Sample} (h : sample.WellFormed) {part : Text × List Text}
    (hpart : part ∈ sample.sections) {word : Text} (hword : word ∈ part.2) : word.IsPlain := by
  rcases sections_cases hpart with ⟨column, value, hfilter, rfl⟩ | ⟨column, horder, rfl⟩ |
    ⟨n, -, rfl⟩
  · simp only [List.mem_cons, List.not_mem_nil, or_false] at hword
    rcases hword with rfl | rfl | rfl
    · exact (h.filter _ hfilter).isPlain
    · exact Text.isPlain_of_not_isAlpha (by decide) (by decide)
    · exact Text.isPlain_signedDecimal _
  · rw [List.mem_singleton.mp hword]
    exact (h.order column horder).isPlain
  · rw [List.mem_singleton.mp hword]
    exact Text.isPlain_decimal _

/-! ## Samples as items -/

/-- A keyword in the letter case of the sample, as an item. -/
def keywordItem (sample : Sample) (name : Text) : Item :=
  (Item.ofKeyword name).respelled sample.keyword

/-- The table as an item. -/
def tableItem (sample : Sample) : Item :=
  match sample.wrapping.quote? with
  | none => .word sample.table
  | some quote => .literal quote sample.table

/-- The items up to the table keyword. -/
def headItems (sample : Sample) : List Item :=
  ("DELETE".toList :: sample.modifiers ++ ["FROM".toList]).map sample.keywordItem

/-- The items of the clause. -/
def clauseItems (sample : Sample) : List Item :=
  sample.sections.flatMap fun part => sample.keywordItem part.1 :: part.2.map .word

def items (sample : Sample) : List Item :=
  sample.headItems ++ sample.tableItem :: sample.clauseItems

/-- The tokens and keywords of the items. -/
def transcript (sample : Sample) : Transcript :=
  ⟨sample.items.filterMap Item.token?, .ofList (Item.occurrences 0 sample.items)⟩

theorem alike_keyword (sample : Sample) (name : Text) : Text.Alike (sample.keyword name) name := by
  unfold keyword
  split
  · exact Text.alike_lower name
  · exact Text.Alike.refl name

@[simp] theorem keyword?_keywordItem (sample : Sample) (name : Text) :
    (sample.keywordItem name).keyword? = some name := by
  rw [keywordItem, Item.keyword?_respelled, Item.keyword?_ofKeyword]

@[simp] theorem written_keywordItem (sample : Sample) (name : Text) :
    (sample.keywordItem name).written = sample.keyword name := by
  unfold keywordItem Item.ofKeyword
  split
  · rename_i heq
    rw [heq]
    show sample.keyword "ORDER".toList ++ " ".toList ++ sample.keyword "BY".toList =
      sample.keyword "ORDER BY".toList
    unfold keyword
    split <;> rfl
  · rfl

theorem fits_keywordItem (sample : Sample) {name : Text}
    (h : name ∈ Lexicon.mysqlDelete.keywords) : (sample.keywordItem name).Fits :=
  (Item.fits_ofKeyword h).respelled sample.alike_keyword

theorem written_tableItem (sample : Sample) :
    sample.tableItem.written = sample.wrapping.wrap sample.table := by
  unfold tableItem Wrapping.wrap
  cases sample.wrapping.quote? <;> rfl

@[simp] theorem keyword?_tableItem (sample : Sample) : sample.tableItem.keyword? = none := by
  unfold tableItem
  split <;> rfl

theorem exists_token_tableItem (sample : Sample) :
    ∃ token, sample.tableItem.token? = some token ∧ token.text = sample.table := by
  unfold tableItem
  split
  · exact ⟨_, rfl, rfl⟩
  · exact ⟨_, rfl, rfl⟩

theorem WellFormed.fits_tableItem {sample : Sample} (h : sample.WellFormed) :
    sample.tableItem.Fits ∧ ¬ sample.tableItem.IsBy := by
  have htable := h.table
  unfold Wrapping.Admits at htable
  unfold tableItem
  split at htable
  · exact htable.isPlain
  · rename_i quote hquote
    refine ⟨⟨?_, htable⟩, id⟩
    cases hwrapping : sample.wrapping <;> rw [hwrapping] at hquote <;> cases hquote <;> decide

/-- The clause in any spelling of its keywords. -/
theorem map_clauseItems (sample : Sample) {write : Item → Text} {spell : Text → Text}
    (hkeyword : ∀ name, write (sample.keywordItem name) = spell name)
    (hword : ∀ word, write (.word word) = word) :
    sample.clauseItems.map write = sample.clauseWords spell := by
  have hwords : ∀ words : List Text, (words.map Item.word).map write = words := by
    intro words
    rw [List.map_map]
    exact (List.map_congr_left fun word _ => hword word).trans (List.map_id words)
  rw [clauseWords_eq, clauseItems, List.map_flatMap]
  refine List.flatMap_congr fun part _ => ?_
  rw [List.map_cons, hkeyword, hwords]

theorem source_eq (sample : Sample) :
    sample.source = Text.spaced (sample.items.map Item.written) := by
  have hclause := sample.map_clauseItems sample.written_keywordItem fun _ => rfl
  have hhead : sample.headItems.map Item.written =
      ("DELETE".toList :: sample.modifiers ++ ["FROM".toList]).map sample.keyword := by
    rw [headItems, List.map_map]
    exact List.map_congr_left fun name _ => sample.written_keywordItem name
  rw [source, items, List.map_append, List.map_cons, hhead, hclause, written_tableItem]
  simp

theorem clause_eq (sample : Sample) :
    sample.clause = Text.terminated (sample.clauseItems.map Item.rendered) := by
  rw [clause, sample.map_clauseItems (fun name => ?_) fun _ => rfl]
  exact Item.rendered_of_keyword (sample.keyword?_keywordItem name)

/-! ## Reading a sample -/

theorem WellFormed.fits_items {sample : Sample} (h : sample.WellFormed) :
    ∀ item ∈ sample.items, item.Fits ∧ ¬ item.IsBy := by
  have hkeyword : ∀ name ∈ Lexicon.mysqlDelete.keywords,
      (sample.keywordItem name).Fits ∧ ¬ (sample.keywordItem name).IsBy := fun name hname =>
    ⟨sample.fits_keywordItem hname, Item.not_isBy_of_keyword (sample.keyword?_keywordItem name)⟩
  have hmodifiers : ∀ name ∈ Draw.modifiers, name ∈ Lexicon.mysqlDelete.keywords := by decide
  have hclauses : ∀ name ∈ Lexicon.mysqlDelete.clauseKeywords,
      name ∈ Lexicon.mysqlDelete.keywords := by decide
  intro item hitem
  rcases List.mem_append.mp hitem with hitem | hitem
  · obtain ⟨name, hname, rfl⟩ := List.mem_map.mp hitem
    simp only [List.cons_append, List.mem_cons, List.mem_append, List.not_mem_nil,
      or_false] at hname
    rcases hname with rfl | hname | rfl
    · exact hkeyword _ (by decide)
    · exact hkeyword name (hmodifiers name (h.modifiers name hname))
    · exact hkeyword _ (by decide)
  · rcases List.mem_cons.mp hitem with rfl | hitem
    · exact h.fits_tableItem
    · obtain ⟨part, hpart, hitem⟩ := List.mem_flatMap.mp hitem
      rcases List.mem_cons.mp hitem with rfl | hitem
      · have hname := sample.sections_sublist.subset (List.mem_map_of_mem hpart)
        exact hkeyword part.1 (hclauses part.1 hname)
      · obtain ⟨word, hword, rfl⟩ := List.mem_map.mp hitem
        exact h.isPlain hpart hword

theorem source_ne_nil (sample : Sample) : sample.source ≠ [] := by
  have hdelete := (sample.alike_keyword "DELETE".toList).length_eq
  have hne : sample.items.map Item.written ≠ [] := List.cons_ne_nil _ _
  have hlength := congrArg List.length (Text.terminated_eq_spaced_append hne)
  rw [← source_eq, items, headItems] at hlength
  intro hnil
  rw [hnil] at hlength
  simp only [List.cons_append, List.map_cons, Text.terminated_cons, List.length_append,
    written_keywordItem, hdelete] at hlength
  simp at hlength
  omega

/-- The source of a well-formed sample is read as its items. -/
theorem WellFormed.transcribe_source {sample : Sample} (h : sample.WellFormed) :
    Dialect.mysqlDelete.transcribe sample.source = .ok sample.transcript := by
  have hne : sample.items ≠ [] := List.cons_ne_nil _ _
  have hread := Item.transcribe_terminated (fun item hitem => (h.fits_items item hitem).1)
    (Item.apart_of_not_isBy fun item hitem => (h.fits_items item hitem).2) hne
  -- the items are known to be read with a space after each, and the last space is a gap
  rw [Text.terminated_eq_spaced_append (by simpa using hne), ← source_eq,
    Dialect.transcribe_append_gap sample.source_ne_nil (by decide)] at hread
  exact hread

theorem filterMap_keyword?_clauseItems (sample : Sample) :
    sample.clauseItems.filterMap Item.keyword? = sample.sections.map Prod.fst := by
  have hpart : ∀ part : Text × List Text,
      (sample.keywordItem part.1 :: part.2.map .word).filterMap Item.keyword? = [part.1] := by
    intro part
    rw [List.filterMap_cons, keyword?_keywordItem, List.filterMap_map]
    simp [Function.comp_def, Item.keyword?]
  rw [clauseItems, List.filterMap_flatMap, List.flatMap_congr fun part _ => hpart part]
  exact (List.map_eq_flatMap ..).symm

/-- The table is behind the last table keyword, for no section of the clause is one. -/
theorem table_transcript (sample : Sample) :
    sample.transcript.table Lexicon.mysqlDelete = .ok sample.table := by
  obtain ⟨token, htoken, htext⟩ := sample.exists_token_tableItem
  have hback : ∀ o ∈ Item.occurrences 0 (sample.tableItem :: sample.clauseItems),
      o.keyword ≠ Lexicon.mysqlDelete.tableKeyword := by
    have htable : ∀ name ∈ Lexicon.mysqlDelete.clauseKeywords,
        name ≠ Lexicon.mysqlDelete.tableKeyword := by decide
    intro o ho
    have hmem := List.mem_map_of_mem (f := Occurrence.keyword) ho
    rw [Item.map_keyword_occurrences, List.filterMap_cons, keyword?_tableItem,
      filterMap_keyword?_clauseItems] at hmem
    exact htable _ (sample.sections_sublist.subset hmem)
  have htokens : sample.items.filterMap Item.token? =
      token :: sample.clauseItems.filterMap Item.token? := by
    rw [items, List.filterMap_append, headItems,
      Item.filterMap_token?_keywords sample.keyword?_keywordItem, List.filterMap_cons, htoken]
    rfl
  refine Transcript.table_eq_ok_iff.mpr
    ⟨("DELETE".toList :: sample.modifiers).map fun name => ⟨name, 0⟩, 0,
      Item.occurrences 0 (sample.tableItem :: sample.clauseItems), token, ?_, hback, ?_, htext⟩
  · rw [items, headItems, Item.occurrences_keywords_append sample.keyword?_keywordItem]
    simp [Lexicon.mysqlDelete]
  · rw [htokens]
    rfl

theorem clauseItems_head {sample : Sample} : ∀ item ∈ sample.clauseItems.head?,
    item.token? = none := by
  intro item hitem
  rw [clauseItems, List.head?_flatMap] at hitem
  obtain ⟨part, -, hpart⟩ := List.exists_of_findSome?_eq_some hitem
  cases hpart
  exact Item.token?_of_keyword (sample.keyword?_keywordItem part.1)

theorem clauseItems_last {sample : Sample} : ∀ item ∈ sample.clauseItems.getLast?,
    item.keyword? = none := by
  intro item hitem
  rw [clauseItems, List.getLast?_flatMap] at hitem
  obtain ⟨part, hpart, hlast⟩ := List.exists_of_findSome?_eq_some hitem
  have hne := words_ne_nil (List.mem_reverse.mp hpart)
  obtain ⟨word, rest, hwords⟩ := List.exists_cons_of_ne_nil hne
  rw [hwords, List.map_cons, List.getLast?_cons_cons, ← List.map_cons] at hlast
  obtain ⟨other, -, rfl⟩ := List.mem_map.mp (List.mem_of_getLast? hlast)
  rfl

/-- The boundary is the first keyword of the clause, for no modifier is a clause keyword. -/
theorem WellFormed.clause_transcript {sample : Sample} (h : sample.WellFormed) :
    sample.transcript.clause Lexicon.mysqlDelete = sample.clause := by
  have hmodifiers : ∀ name ∈ Draw.modifiers, name ∉ Lexicon.mysqlDelete.clauseKeywords := by
    decide
  have hfront : ∀ name ∈ (sample.headItems ++ [sample.tableItem]).filterMap Item.keyword?,
      name ∉ Lexicon.mysqlDelete.clauseKeywords := by
    intro name hname
    have hmem : name = "DELETE".toList ∨ name ∈ sample.modifiers ∨ name = "FROM".toList := by
      simpa [headItems, List.filterMap_map, Function.comp_def] using hname
    rcases hmem with rfl | hmodifier | rfl
    · decide
    · exact hmodifiers name (h.modifiers name hmodifier)
    · decide
  have hback : (sample.clauseItems.filterMap Item.keyword?).Sublist
      Lexicon.mysqlDelete.clauseKeywords := by
    rw [filterMap_keyword?_clauseItems]
    exact sample.sections_sublist
  have hclause := Transcript.clause_of_items (by decide) hfront hback clauseItems_head
    clauseItems_last
  rw [clause_eq, ← hclause, transcript, items, List.append_assoc]
  rfl

/-- A well-formed sample is read to its own parts. -/
theorem WellFormed.ofSource_source {sample : Sample} (h : sample.WellFormed) :
    Statement.ofSource sample.source =
      .ok ⟨.delete, sample.table, sample.clause, sample.source⟩ := by
  refine (Dialect.parse_eq_ok_iff h.transcribe_source).mpr
    ⟨sample.table, sample.table_transcript, ?_⟩
  exact congrArg (Statement.mk .delete sample.table · sample.source) h.clause_transcript.symm

end Sample

end SqlDelete
