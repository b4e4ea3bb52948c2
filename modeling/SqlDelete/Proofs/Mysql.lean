import SqlDelete.Proofs.Stream

/-!
# The MySQL dialect

What the alphabet and the lexicon of MySQL do to a word. No letter separates or
quotes, so letter case never decides what is a word; every keyword but one is a
single word; and only `BY` after `ORDER` takes a token back.
-/

namespace SqlDelete

namespace Text

theorem isAlpha_iff (c : Char) :
    c.isAlpha = true ↔
      'A'.val ≤ c.val ∧ c.val ≤ 'Z'.val ∨ 'a'.val ≤ c.val ∧ c.val ≤ 'z'.val := by
  have heq : c.isAlpha = (decide ('A'.val ≤ c.val ∧ c.val ≤ 'Z'.val) ||
      (decide ('a'.val ≤ c.val) && decide (c.val ≤ 'z'.val))) := rfl
  simp only [heq, Bool.or_eq_true, Bool.and_eq_true, decide_eq_true_eq]

theorem not_isAlpha_of_isDigit {c : Char} (h : c.isDigit = true) : ¬ c.isAlpha = true := by
  grind [Char.isDigit, isAlpha_iff]

theorem val_toLower (c : Char) :
    c.toLower.val =
      if 'A'.val ≤ c.val ∧ c.val ≤ 'Z'.val then c.val + ('a'.val - 'A'.val) else c.val := by
  by_cases hc : 'A'.val ≤ c.val ∧ c.val ≤ 'Z'.val
  · rw [if_pos hc]
    exact congrArg Char.val (dif_pos hc)
  · rw [if_neg hc]
    exact congrArg Char.val (dif_neg hc)

theorem isAlpha_toLower (c : Char) : c.toLower.isAlpha = true ↔ c.isAlpha = true := by
  rw [isAlpha_iff, isAlpha_iff, val_toLower]
  grind

theorem toLower_of_not_isAlpha {c : Char} (h : ¬ c.isAlpha = true) : c.toLower = c := by
  rw [isAlpha_iff] at h
  exact Char.ext (by rw [val_toLower, if_neg (fun hc => h (Or.inl hc))])

@[simp] theorem toLower_toLower (c : Char) : c.toLower.toLower = c.toLower := by
  apply Char.ext
  rw [val_toLower, val_toLower]
  grind

/-- Only letters have another case. -/
theorem eq_or_isAlpha_of_toLower_eq {c d : Char} (h : c.toLower = d.toLower) :
    c = d ∨ c.isAlpha = true ∧ d.isAlpha = true := by
  have hval := congrArg Char.val h
  rw [val_toLower, val_toLower] at hval
  rw [isAlpha_iff, isAlpha_iff, Char.ext_iff]
  grind

theorem Alike.exists_toLower_eq {s t : Text} (h : Alike s t) {c : Char} (hc : c ∈ s) :
    ∃ d ∈ t, c.toLower = d.toLower := by
  have hmem : c.toLower ∈ lower t := by
    rw [← show lower s = lower t from h]
    exact List.mem_map_of_mem hc
  obtain ⟨d, hd, heq⟩ := List.mem_map.mp hmem
  exact ⟨d, hd, heq.symm⟩

end Text

namespace Alphabet

/-- Where letters are ordinary, letter case does not decide what is a word. -/
theorem IsWord.of_alike {alphabet : Alphabet}
    (hletters : ∀ c, c.isAlpha = true → alphabet.Ordinary c) {s t : Text} (h : Text.Alike s t)
    (ht : alphabet.IsWord t) : alphabet.IsWord s := by
  constructor
  · rintro rfl
    exact ht.1 (List.length_eq_zero_iff.mp h.length_eq.symm)
  · intro c hc
    obtain ⟨d, hd, heq⟩ := h.exists_toLower_eq hc
    rcases Text.eq_or_isAlpha_of_toLower_eq heq with rfl | ⟨hletter, -⟩
    · exact ht.2 c hd
    · exact hletters c hletter

/-- A class of characters is ordinary if no separator and no quote is in it. -/
theorem ordinary_mysql {p : Char → Bool} (hseparators : mysql.separators.toList.all (!p ·) = true)
    (hquotes : mysql.quotes.toList.all (!p ·) = true) {c : Char} (h : p c = true) :
    mysql.Ordinary c := by
  constructor
  · intro hc
    have hnot := List.all_eq_true.mp hseparators c hc
    simp [h] at hnot
  · intro hc
    have hnot := List.all_eq_true.mp hquotes c hc
    simp [h] at hnot

theorem ordinary_mysql_of_isAlpha {c : Char} (h : c.isAlpha = true) : mysql.Ordinary c :=
  ordinary_mysql (p := Char.isAlpha) (by decide) (by decide) h

theorem ordinary_mysql_of_isDigit {c : Char} (h : c.isDigit = true) : mysql.Ordinary c :=
  ordinary_mysql (p := Char.isDigit) (by decide) (by decide) h

theorem isWord_mysql_of_alike {s t : Text} (h : Text.Alike s t) (ht : mysql.IsWord t) :
    mysql.IsWord s :=
  ht.of_alike (fun _ => ordinary_mysql_of_isAlpha) h

theorem isMark_mysql {c : Char} (h : c ∈ mysql.marks) : mysql.IsMark c :=
  ⟨mem_separators_of_mem_marks h, h⟩

theorem encloses_mysql {quote : Char} {content : Text} (hquote : quote ∈ mysql.quotes)
    (hcontent : quote ∉ content) : mysql.Encloses quote content := by
  have hquotes : mysql.quotes.toList.all (· ∉ mysql.separators) = true := by decide
  have hseparator : quote ∉ mysql.separators := by
    simpa using List.all_eq_true.mp hquotes quote hquote
  exact ⟨hseparator, hquote, hcontent⟩

end Alphabet

namespace Lexicon

/-! ## Keywords -/

theorem pair?_mysqlDelete : ∀ keyword ∈ mysqlDelete.keywords, pair? keyword = none ∨
    keyword = "ORDER BY".toList ∧ pair? keyword = some ("ORDER".toList, "BY".toList) := by
  decide

/-- Only one keyword takes a token back. -/
theorem completed?_mysqlDelete_eq_some_iff {previous : Token} {word name : Text} :
    mysqlDelete.completed? previous word = some name ↔
      previous.Spells "ORDER".toList ∧ Text.Alike word "BY".toList ∧
        name = "ORDER BY".toList := by
  have hsound : ∀ {name}, mysqlDelete.completed? previous word = some name →
      previous.Spells "ORDER".toList ∧ Text.Alike word "BY".toList ∧
        name = "ORDER BY".toList := by
    intro name h
    obtain ⟨hkeyword, first, second, hpair, hspells, halike⟩ := exists_pair_of_completed? h
    rcases pair?_mysqlDelete name hkeyword with hnone | ⟨rfl, hsome⟩
    · rw [hnone] at hpair
      cases hpair
    · rw [hsome] at hpair
      cases hpair
      exact ⟨hspells, halike.symm, rfl⟩
  constructor
  · exact hsound
  · rintro ⟨hspells, halike, rfl⟩
    have hmem : ("ORDER".toList, "ORDER BY".toList) ∈ mysqlDelete.pairsEnding word :=
      mem_pairsEnding.mpr ⟨by decide, "BY".toList, by decide, halike.symm⟩
    cases hfound : mysqlDelete.completed? previous word with
    | some name => rw [(hsound hfound).2.2]
    | none =>
        rw [completed?, Option.map_eq_none_iff, List.find?_eq_none] at hfound
        exact absurd hspells (by simpa using hfound _ hmem)

theorem completed?_mysqlDelete_eq_none {previous : Token} {word : Text}
    (h : ¬ (previous.Spells "ORDER".toList ∧ Text.Alike word "BY".toList)) :
    mysqlDelete.completed? previous word = none := by
  cases hfound : mysqlDelete.completed? previous word with
  | none => rfl
  | some name =>
      obtain ⟨hspells, halike, -⟩ := completed?_mysqlDelete_eq_some_iff.mp hfound
      exact absurd ⟨hspells, halike⟩ h

/-- No two keywords differ in letter case only, so the order of the list is immaterial. -/
theorem find?_mysqlDelete_eq_some_iff {word name : Text} :
    mysqlDelete.find? word = some name ↔ name ∈ mysqlDelete.keywords ∧ Text.Alike name word := by
  constructor
  · exact find?_alike
  · rintro ⟨hname, halike⟩
    have hdistinct : ∀ keyword ∈ mysqlDelete.keywords, ∀ other ∈ mysqlDelete.keywords,
        Text.Alike keyword other → keyword = other := by decide
    cases hfound : mysqlDelete.find? word with
    | none =>
        rw [find?, List.find?_eq_none] at hfound
        exact absurd halike (by simpa using hfound name hname)
    | some keyword =>
        obtain ⟨hkeyword, halike'⟩ := find?_alike hfound
        rw [hdistinct keyword hkeyword name hname (halike'.trans halike.symm)]

theorem find?_mysqlDelete_eq_none_iff {word : Text} :
    mysqlDelete.find? word = none ↔ ∀ name ∈ mysqlDelete.keywords, ¬ Text.Alike name word := by
  rw [find?, List.find?_eq_none]
  simp

/-- A word other than a `BY` after `ORDER` is read as if nothing came before it. -/
theorem read_mysqlDelete {word : Text} {previous : Option Token}
    (h : ∀ before ∈ previous,
      ¬ (before.Spells "ORDER".toList ∧ Text.Alike word "BY".toList)) :
    mysqlDelete.read (.bare word) previous =
      match mysqlDelete.find? word with
      | some name => .keyword name false
      | none => .ordinary := by
  have hnone : previous.bind (mysqlDelete.completed? · word) = none :=
    Option.bind_eq_none_iff.mpr fun before hbefore =>
      completed?_mysqlDelete_eq_none (h before hbefore)
  cases hfind : mysqlDelete.find? word with
  | some name => simp only [read, hnone, hfind]
  | none => simp only [read, hnone, hfind]

end Lexicon

namespace Dialect

theorem joins_mysqlDelete_iff {previous next : Token} :
    mysqlDelete.Joins previous next ↔
      previous.Spells "ORDER".toList ∧ next.Spells "BY".toList := by
  constructor
  · rintro ⟨word, rfl, -, name, hname⟩
    obtain ⟨hspells, halike, -⟩ := Lexicon.completed?_mysqlDelete_eq_some_iff.mp hname
    exact ⟨hspells, halike⟩
  · rintro ⟨hspells, hnext⟩
    cases next with
    | literal content => exact absurd hnext (Token.not_spells_literal content _)
    | bare word =>
        have hword := Alphabet.isWord_mysql_of_alike hnext (by decide)
        refine ⟨word, rfl, hword, "ORDER BY".toList, ?_⟩
        exact Lexicon.completed?_mysqlDelete_eq_some_iff.mpr ⟨hspells, hnext, rfl⟩

end Dialect

end SqlDelete
