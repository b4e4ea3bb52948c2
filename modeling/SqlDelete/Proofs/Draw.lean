import SqlDelete.Proofs.Sample

/-!
# Drawn samples are well formed

A draw yields a property if every value it can make has it, whatever the bytes. The
property of a draw is put together from those of its parts. What is drawn as a name is a
name because a stem before a reserved word makes it none.
-/

namespace SqlDelete

namespace Draw

/-- Every value of the draw has the property. -/
def Yields {α : Type} (draw : Draw α) (P : α → Prop) : Prop :=
  ∀ bytes, P (draw.run bytes).1

section

variable {α β : Type} {draw : Draw α} {P Q : α → Prop}

theorem yields_true (draw : Draw α) : draw.Yields fun _ => True :=
  fun _ => trivial

theorem yields_pure {a : α} (h : P a) : Yields (pure a) P :=
  fun _ => h

/-- The second draw is made with the bytes that the first one left. -/
theorem Yields.bind {next : α → Draw β} {R : β → Prop} (h : draw.Yields P)
    (hnext : ∀ a, P a → (next a).Yields R) : Yields (draw >>= next) R :=
  fun bytes => hnext _ (h bytes) _

/-! ## Numbers and choices -/

theorem yields_below {count : Nat} (h : 0 < count) : (below count).Yields (· < count) :=
  (yields_true _).bind fun n _ => yields_pure (Nat.mod_lt n h)

theorem yields_choice {items : List α} (h : items ≠ []) (fallback : α) :
    (choice fallback items).Yields (· ∈ items) := by
  refine (yields_below (List.length_pos_iff.mpr h)).bind fun i hi => yields_pure ?_
  rw [List.getD_eq_getElem?_getD, List.getElem?_eq_getElem hi]
  exact List.getElem_mem hi

theorem yields_optional (h : draw.Yields P) :
    (optional draw).Yields fun value => ∀ a ∈ value, P a := by
  refine (yields_true flag).bind fun chosen _ => ?_
  cases chosen with
  | true =>
      refine h.bind fun a ha => yields_pure ?_
      rintro b ⟨⟩
      exact ha
  | false => exact yields_pure fun a ha => nomatch ha

/-- A selection keeps the order and takes nothing twice. -/
theorem yields_selection (items : List α) : (selection items).Yields (·.Sublist items) := by
  induction items with
  | nil => exact yields_pure (List.Sublist.refl [])
  | cons item rest ih =>
      refine (yields_true flag).bind fun chosen _ => ih.bind fun others hothers => yields_pure ?_
      cases chosen with
      | true => exact hothers.cons_cons item
      | false => exact hothers.cons item

end

/-! ## Names -/

theorem yields_nameRest (n : Nat) : (nameRest n).Yields fun text =>
    text.length = n ∧ ∀ c ∈ text, c ∈ nameChars := by
  induction n with
  | zero => exact yields_pure ⟨rfl, fun c hc => nomatch hc⟩
  | succ n ih =>
      refine (yields_choice (by decide) 'a').bind fun c hc => ih.bind fun rest hrest =>
        yields_pure ?_
      exact ⟨congrArg (· + 1) hrest.1, List.forall_mem_cons.mpr ⟨hc, hrest.2⟩⟩

/-- No reserved word begins like the stem. -/
theorem isName_unreserved {text : Text} (h : Alphabet.mysql.IsWord text) :
    (unreserved text).IsName := by
  have hstem : Alphabet.mysql.IsWord "c_".toList := by decide
  have hreserved : ∀ word ∈ reserved, (Text.lower word).head? ≠ some 'c' := by decide
  rw [Text.isName_iff, unreserved]
  split
  · refine ⟨⟨by simp, fun c hc => ?_⟩, fun word hword halike => hreserved word hword ?_⟩
    · rcases List.mem_append.mp hc with hc | hc
      · exact hstem.2 c hc
      · exact h.2 c hc
    · rw [show Text.lower word = Text.lower ("c_".toList ++ text) from halike]
      rfl
  · rename_i hnone
    refine ⟨h, fun word hword halike => hnone ?_⟩
    exact List.any_eq_true.mpr ⟨word, hword, decide_eq_true halike⟩

theorem isWord_of_initial {first : Char} {rest : Text} (hfirst : first ∈ initials)
    (hrest : ∀ c ∈ rest, c ∈ nameChars) : Alphabet.mysql.IsWord (first :: rest) := by
  have hinitials : Alphabet.mysql.IsWord initials := by decide
  have hchars : Alphabet.mysql.IsWord nameChars := by decide
  refine ⟨List.cons_ne_nil _ _, List.forall_mem_cons.mpr ⟨hinitials.2 first hfirst, ?_⟩⟩
  exact fun c hc => hchars.2 c (hrest c hc)

theorem yields_name : name.Yields Text.IsName := by
  refine (yields_true (below 11)).bind fun length _ => ?_
  refine (yields_choice (by decide) 'a').bind fun first hfirst => ?_
  refine (yields_nameRest length).bind fun rest hrest => yields_pure ?_
  exact isName_unreserved (isWord_of_initial hfirst hrest.2)

theorem yields_filter {P : Text → Prop} (h : name.Yields P) :
    filter.Yields fun entry => P entry.1 :=
  h.bind fun _ hcolumn => (yields_true int64).bind fun _ _ => yields_pure hcolumn

end Draw

/-- A name can be a table with quotes or without. -/
theorem Wrapping.admits_of_isName (wrapping : Wrapping) {text : Text} (h : text.IsName) :
    wrapping.Admits text := by
  cases wrapping with
  | bare => exact h
  | single => exact h.not_mem (by decide)
  | double => exact h.not_mem (by decide)
  | back => exact h.not_mem (by decide)

namespace Sample

/-- Some of the modifiers in their order, and a table and columns of one property. -/
structure MadeOf (P : Text → Prop) (sample : Sample) : Prop where
  modifiers : sample.modifiers.Sublist Draw.modifiers
  table : P sample.table
  filter : ∀ entry ∈ sample.filter, P entry.1
  order : ∀ column ∈ sample.order, P column

/-- A sample is made of what is drawn as a name. -/
theorem yields_madeOf {P : Text → Prop} (h : Draw.name.Yields P) : draw.Yields (MadeOf P) := by
  refine (Draw.yields_selection Draw.modifiers).bind fun modifiers hmodifiers => ?_
  refine h.bind fun table htable => ?_
  refine (Draw.yields_true Draw.wrapping).bind fun wrapping _ => ?_
  refine (Draw.yields_optional (Draw.yields_filter h)).bind fun filter hfilter => ?_
  refine (Draw.yields_optional h).bind fun order horder => ?_
  refine (Draw.yields_true (Draw.optional Draw.uint32)).bind fun limit _ => ?_
  refine (Draw.yields_true Draw.flag).bind fun lowercase _ => Draw.yields_pure ?_
  exact ⟨hmodifiers, htable, hfilter, horder⟩

theorem MadeOf.wellFormed {sample : Sample} (h : sample.MadeOf Text.IsName) :
    sample.WellFormed where
  modifiers := fun _ hmem => h.modifiers.subset hmem
  table := sample.wrapping.admits_of_isName h.table
  filter := h.filter
  order := h.order

theorem yields_draw : draw.Yields WellFormed :=
  fun bytes => (yields_madeOf Draw.yields_name bytes).wellFormed

/-- **Well-formed samples are read back.** The source of a sample with any modifiers, any
table its quotes admit, and names for its columns is read to the table and the clause of
the sample; and whatever the bytes, the sample drawn from them is well formed. -/
theorem wellFormed_read_back :
    (∀ sample : Sample, sample.WellFormed → sample.mismatch? = none ∧
      Statement.ofSource sample.source =
        .ok ⟨.delete, sample.table, sample.clause, sample.source⟩) ∧
    ∀ bytes : List UInt8, (draw.run bytes).1.WellFormed :=
  ⟨fun _ h => ⟨mismatch?_eq_none_iff.mpr h.ofSource_source, h.ofSource_source⟩, yields_draw⟩

/-- A sample with repeated modifiers, keywords and quotes inside its table, and a column
that only begins like a keyword. -/
def crowded : Sample where
  modifiers := ["IGNORE".toList, "QUICK".toList, "IGNORE".toList]
  table := "from 'x' where, ORDER BY".toList
  wrapping := .back
  filter := some ("order_by".toList, -9223372036854775808)
  order := some "é>=1".toList
  limit := some 4294967295
  lowercase := true

theorem wellFormed_read_back_crowded :
    crowded.WellFormed ∧ crowded.mismatch? = none ∧
      Statement.ofSource crowded.source =
        .ok ⟨.delete, "from 'x' where, ORDER BY".toList,
          "WHERE order_by = -9223372036854775808 ORDER BY é>=1 LIMIT 4294967295 ".toList,
          ("delete ignore quick ignore from `from 'x' where, ORDER BY` where order_by = " ++
            "-9223372036854775808 order by é>=1 limit 4294967295").toList⟩ := by
  have hformed : crowded.WellFormed := ⟨by decide, by decide, by decide, by decide⟩
  obtain ⟨hnone, hread⟩ := wellFormed_read_back.1 crowded hformed
  refine ⟨hformed, hnone, hread.trans ?_⟩
  decide +kernel

end Sample

end SqlDelete
