/-!
# Sets of characters

A finite set of characters is its members in ascending order. The order is part
of the type, so two sets with the same members are equal.
-/

namespace SqlDelete

/-- A finite set of characters. -/
structure CharSet where
  /-- The members, by code point. -/
  toList : List Char
  ascending : toList.Pairwise (· < ·)
deriving DecidableEq

namespace CharSet

instance : Membership Char CharSet where
  mem s c := c ∈ s.toList

instance (c : Char) (s : CharSet) : Decidable (c ∈ s) :=
  inferInstanceAs (Decidable (c ∈ s.toList))

theorem mem_toList {c : Char} {s : CharSet} : c ∈ s.toList ↔ c ∈ s := Iff.rfl

/-! ## Extensionality -/

theorem eq_of_ascending : ∀ {cs ds : List Char}, cs.Pairwise (· < ·) → ds.Pairwise (· < ·) →
    (∀ c, c ∈ cs ↔ c ∈ ds) → cs = ds
  | [], [], _, _, _ => rfl
  | [], d :: ds, _, _, hmem => absurd ((hmem d).mpr List.mem_cons_self) (by simp)
  | c :: cs, [], _, _, hmem => absurd ((hmem c).mp List.mem_cons_self) (by simp)
  | c :: cs, d :: ds, hs, hs', hmem => by
      obtain ⟨hc, hcs⟩ := List.pairwise_cons.mp hs
      obtain ⟨hd, hds⟩ := List.pairwise_cons.mp hs'
      have hcd : c = d := by
        rcases List.mem_cons.mp ((hmem c).mp List.mem_cons_self) with h | h
        · exact h
        · rcases List.mem_cons.mp ((hmem d).mpr List.mem_cons_self) with h' | h'
          · exact h'.symm
          · exact absurd (hc d h') (Char.lt_asymm (hd c h))
      subst hcd
      have hrest : ∀ x, x ∈ cs ↔ x ∈ ds := by
        intro x
        constructor
        · intro hx
          rcases List.mem_cons.mp ((hmem x).mp (List.mem_cons_of_mem _ hx)) with rfl | h
          · exact absurd (hc x hx) (Char.lt_irrefl x)
          · exact h
        · intro hx
          rcases List.mem_cons.mp ((hmem x).mpr (List.mem_cons_of_mem _ hx)) with rfl | h
          · exact absurd (hd x hx) (Char.lt_irrefl x)
          · exact h
      rw [eq_of_ascending hcs hds hrest]

/-- Sets with the same members are equal. -/
@[ext] theorem ext {s t : CharSet} (h : ∀ c, c ∈ s ↔ c ∈ t) : s = t := by
  obtain ⟨cs, hcs⟩ := s
  obtain ⟨ds, hds⟩ := t
  have : cs = ds := eq_of_ascending hcs hds h
  subst this
  rfl

/-! ## Building sets -/

/-- Puts a character in its place in an ascending list; one already there stays. -/
def place (c : Char) : List Char → List Char
  | [] => [c]
  | d :: rest =>
      if c < d then c :: d :: rest
      else if c = d then d :: rest
      else d :: place c rest

theorem mem_place {c x : Char} {cs : List Char} : x ∈ place c cs ↔ x = c ∨ x ∈ cs := by
  induction cs with
  | nil => simp [place]
  | cons d rest ih =>
      unfold place
      split
      · simp
      · split
        · rename_i h
          subst h
          simp
        · simp [ih, or_left_comm]

theorem place_ascending {c : Char} {cs : List Char} (h : cs.Pairwise (· < ·)) :
    (place c cs).Pairwise (· < ·) := by
  induction cs with
  | nil => simp [place]
  | cons d rest ih =>
      obtain ⟨hd, hrest⟩ := List.pairwise_cons.mp h
      unfold place
      split
      · rename_i hcd
        refine List.pairwise_cons.mpr ⟨?_, h⟩
        intro x hx
        rcases List.mem_cons.mp hx with rfl | hx
        · exact hcd
        · exact Char.lt_trans hcd (hd x hx)
      · split
        · exact h
        · rename_i hcd hne
          refine List.pairwise_cons.mpr ⟨?_, ih hrest⟩
          intro x hx
          rcases mem_place.mp hx with rfl | hx
          · exact Std.lt_of_le_of_ne (Char.not_lt.mp hcd) (Ne.symm hne)
          · exact hd x hx

/-- The set without members. -/
def empty : CharSet := ⟨[], List.Pairwise.nil⟩

/-- A set with one more member. -/
def insert (c : Char) (s : CharSet) : CharSet :=
  ⟨place c s.toList, place_ascending s.ascending⟩

/-- The set of the characters of a list. -/
def ofList (cs : List Char) : CharSet :=
  cs.foldr insert empty

/-- The members of either set. -/
def union (s t : CharSet) : CharSet :=
  s.toList.foldr insert t

@[simp] theorem not_mem_empty (c : Char) : c ∉ empty := List.not_mem_nil

@[simp] theorem mem_insert {c x : Char} {s : CharSet} : x ∈ insert c s ↔ x = c ∨ x ∈ s :=
  mem_place

theorem mem_foldr_insert {x : Char} {cs : List Char} {s : CharSet} :
    x ∈ cs.foldr insert s ↔ x ∈ cs ∨ x ∈ s := by
  induction cs with
  | nil => simp
  | cons c rest ih => simp [ih, or_assoc]

@[simp] theorem mem_ofList {x : Char} {cs : List Char} : x ∈ ofList cs ↔ x ∈ cs := by
  simp [ofList, mem_foldr_insert]

@[simp] theorem mem_union {x : Char} {s t : CharSet} : x ∈ union s t ↔ x ∈ s ∨ x ∈ t := by
  simp [union, mem_foldr_insert, mem_toList]

/-- A set is the set of its members. -/
@[simp] theorem ofList_toList (s : CharSet) : ofList s.toList = s := by
  ext c
  simp [mem_toList]

example : (ofList "b,a,b".toList).toList = ",ab".toList := by decide

end CharSet

end SqlDelete
