import Mathlib.Data.List.Induction
import Mathlib.Data.List.Nodup
import Mathlib.Data.List.Perm.Basic
import SqlDelete.KeywordIndex

/-!
# Looking keywords up

An index keeps the ordinal of the latest occurrence of each name beside the list
of occurrences. What it answers can be read off the list alone: the latest
occurrence of a name is the one after which the name does not occur, and the
positions share out the occurrences among them.
-/

namespace SqlDelete.KeywordIndex

variable {occurrences : List Occurrence} {name : Text}

/-- Only ordinals of occurrences are kept. -/
theorem lt_length_of_lookup {ordinal : Nat}
    (h : (ofList occurrences).latest.lookup name = some ordinal) :
    ordinal < occurrences.length := by
  induction occurrences using List.reverseRecOn generalizing ordinal with
  | nil => cases h
  | append_singleton occurrences o ih =>
      rw [ofList_append_singleton, note, lookup_assign] at h
      rw [List.length_append]
      split at h
      · cases h
        simp
      · exact Nat.lt_add_right _ (ih h)

theorem latest?_append_singleton (occurrences : List Occurrence) (o : Occurrence) (name : Text) :
    (ofList (occurrences ++ [o])).latest? name =
      if name = o.keyword then some (occurrences.length, o.position)
      else (ofList occurrences).latest? name := by
  rw [ofList_append_singleton]
  split
  · rename_i heq
    rw [heq, latest?_note_self, occurrences_ofList]
  · rename_i hne
    simp only [latest?, note, lookup_assign, if_neg hne, occurrences_ofList]
    cases hlookup : (ofList occurrences).latest.lookup name with
    | none => rfl
    | some ordinal =>
        -- the ordinal does not reach the new occurrence
        have hlt := lt_length_of_lookup hlookup
        simp [List.getElem?_append_left hlt]

theorem latest?_eq_none_iff :
    (ofList occurrences).latest? name = none ↔ ∀ o ∈ occurrences, o.keyword ≠ name := by
  induction occurrences using List.reverseRecOn with
  | nil => simp [ofList, empty, latest?]
  | append_singleton occurrences o ih =>
      rw [latest?_append_singleton]
      split
      · rename_i heq
        simp [heq]
      · rename_i hne
        rw [ih]
        simp [or_imp, forall_and, Ne.symm hne]

theorem latest?_append_cons (front : List Occurrence) (position : Nat) {back : List Occurrence}
    (hback : ∀ o ∈ back, o.keyword ≠ name) :
    (ofList (front ++ ⟨name, position⟩ :: back)).latest? name =
      some (front.length, position) := by
  induction back using List.reverseRecOn with
  | nil => rw [latest?_append_singleton, if_pos rfl]
  | append_singleton back o ih =>
      have ho : name ≠ o.keyword := Ne.symm (hback o (by simp))
      rw [← List.cons_append, ← List.append_assoc, latest?_append_singleton, if_neg ho]
      exact ih fun other hother => hback other (List.mem_append_left _ hother)

/-- **The latest occurrence is the last one.** -/
theorem latest?_eq_some_iff {ordinal position : Nat} :
    (ofList occurrences).latest? name = some (ordinal, position) ↔
      ∃ front back, occurrences = front ++ ⟨name, position⟩ :: back ∧ front.length = ordinal ∧
        ∀ o ∈ back, o.keyword ≠ name := by
  constructor
  · intro h
    induction occurrences using List.reverseRecOn with
    | nil => cases h
    | append_singleton occurrences o ih =>
        rw [latest?_append_singleton] at h
        split at h
        · rename_i heq
          cases h
          exact ⟨occurrences, [], by rw [heq], rfl, by simp⟩
        · rename_i hne
          obtain ⟨front, back, rfl, rfl, hback⟩ := ih h
          refine ⟨front, back ++ [o], by simp, rfl, ?_⟩
          intro other hother
          rcases List.mem_append.mp hother with hother | hother
          · exact hback other hother
          · rw [List.mem_singleton.mp hother]
            exact Ne.symm hne
  · rintro ⟨front, back, rfl, rfl, hback⟩
    exact latest?_append_cons front position hback

/-! ## What an index answers -/

/-- A name is kept exactly if it occurs. -/
theorem contains_ofList :
    (ofList occurrences).contains name = true ↔ ∃ o ∈ occurrences, o.keyword = name := by
  have hlatest : (ofList occurrences).contains name =
      ((ofList occurrences).latest? name).isSome := by
    unfold contains latest?
    rw [occurrences_ofList]
    cases hlookup : (ofList occurrences).latest.lookup name with
    | none => rfl
    | some ordinal =>
        have hlt := lt_length_of_lookup hlookup
        simp [List.getElem?_eq_getElem hlt]
  rw [hlatest, Option.isSome_iff_ne_none, Ne, latest?_eq_none_iff]
  simp

theorem position?_eq_some_iff {position : Nat} :
    (ofList occurrences).position? name = some position ↔
      ∃ front back, occurrences = front ++ ⟨name, position⟩ :: back ∧
        ∀ o ∈ back, o.keyword ≠ name := by
  rw [position?, Option.map_eq_some_iff]
  constructor
  · rintro ⟨⟨ordinal, _⟩, hlatest, rfl⟩
    obtain ⟨front, back, heq, -, hback⟩ := latest?_eq_some_iff.mp hlatest
    exact ⟨front, back, heq, hback⟩
  · rintro ⟨front, back, heq, hback⟩
    exact ⟨(front.length, position),
      latest?_eq_some_iff.mpr ⟨front, back, heq, rfl, hback⟩, rfl⟩

/-- What is noted at a position is what occurs there. -/
theorem mem_noted {index : KeywordIndex} {ordinal position : Nat} {keyword : Text} :
    (ordinal, keyword) ∈ index.noted position ↔
      index.occurrences[ordinal]? = some ⟨keyword, position⟩ := by
  rw [noted, List.mem_filterMap]
  constructor
  · rintro ⟨⟨⟨other, place⟩, i⟩, hmem, h⟩
    rw [List.mem_zipIdx_iff_getElem?] at hmem
    split at h
    · rename_i hplace
      cases h
      rw [hmem, ← hplace]
    · cases h
  · intro h
    exact ⟨(⟨keyword, position⟩, ordinal), List.mem_zipIdx_iff_getElem?.mpr h, by simp⟩

theorem noted_ascending (index : KeywordIndex) (position : Nat) :
    (index.noted position).Pairwise (·.1 < ·.1) := by
  have hordinals : index.occurrences.zipIdx.Pairwise (·.2 < ·.2) := by
    rw [← List.pairwise_map (f := Prod.snd) (R := (· < ·)), List.zipIdx_map_snd]
    exact List.pairwise_lt_range'
  refine List.Pairwise.filterMap _ ?_ hordinals
  intro entry other hlt x hx y hy
  split at hx
  · split at hy
    · cases hx
      cases hy
      exact hlt
    · cases hy
  · cases hx

/-- A name at equal and at decreasing positions. -/
example : (ofList [⟨"A".toList, 2⟩, ⟨"B".toList, 2⟩, ⟨"A".toList, 0⟩, ⟨"A".toList, 2⟩]).noted 2 =
    [(0, "A".toList), (1, "B".toList), (3, "A".toList)] := by decide

/-- Positions share out the occurrences: what is noted at some positions, together, is what
occurs, if nothing occurs elsewhere. -/
theorem noted_perm (index : KeywordIndex) {positions : List Nat} (hnodup : positions.Nodup)
    (hall : ∀ o ∈ index.occurrences, o.position ∈ positions) :
    (positions.flatMap index.noted).Perm
      (index.occurrences.zipIdx.map fun entry => (entry.2, entry.1.keyword)) := by
  have hordinals :
      (index.occurrences.zipIdx.map fun entry => (entry.2, entry.1.keyword)).Nodup := by
    apply List.Nodup.of_map Prod.fst
    rw [List.map_map]
    show (index.occurrences.zipIdx.map Prod.snd).Nodup
    rw [List.zipIdx_map_snd]
    exact List.nodup_range'
  have hnoted : (positions.flatMap index.noted).Nodup := by
    rw [List.nodup_flatMap]
    refine ⟨fun n _ => (index.noted_ascending n).imp fun hlt heq => ?_, hnodup.imp fun hne => ?_⟩
    · exact absurd hlt (by rw [heq]; exact Nat.lt_irrefl _)
    · -- an occurrence stands at one position only
      rintro ⟨ordinal, keyword⟩ hn hm
      rw [mem_noted] at hn hm
      rw [hn] at hm
      cases hm
      exact hne rfl
  rw [List.perm_ext_iff_of_nodup hnoted hordinals]
  rintro ⟨ordinal, keyword⟩
  rw [List.mem_flatMap, List.mem_map]
  constructor
  · rintro ⟨n, -, hmem⟩
    exact ⟨(⟨keyword, n⟩, ordinal), List.mem_zipIdx_iff_getElem?.mpr (mem_noted.mp hmem), rfl⟩
  · rintro ⟨⟨o, i⟩, hmem, h⟩
    cases h
    rw [List.mem_zipIdx_iff_getElem?] at hmem
    exact ⟨o.position, hall o (List.mem_of_getElem? hmem), mem_noted.mpr hmem⟩

/-- What an index answers is what its occurrences say. -/
structure Answers (index : KeywordIndex) : Prop where
  contains : ∀ name, index.contains name = true ↔ ∃ o ∈ index.occurrences, o.keyword = name
  latest : ∀ name ordinal position, index.latest? name = some (ordinal, position) ↔
    ∃ front back, index.occurrences = front ++ ⟨name, position⟩ :: back ∧
      front.length = ordinal ∧ ∀ o ∈ back, o.keyword ≠ name
  missing : ∀ name, index.latest? name = none ↔ ∀ o ∈ index.occurrences, o.keyword ≠ name
  position : ∀ name position, index.position? name = some position ↔
    ∃ front back, index.occurrences = front ++ ⟨name, position⟩ :: back ∧
      ∀ o ∈ back, o.keyword ≠ name
  noted : ∀ ordinal keyword position, (ordinal, keyword) ∈ index.noted position ↔
    index.occurrences[ordinal]? = some ⟨keyword, position⟩
  ascending : ∀ position, (index.noted position).Pairwise (·.1 < ·.1)
  /-- Each occurrence is noted at one of the positions, and only once. -/
  shared : ∀ positions : List Nat, positions.Nodup →
    (∀ o ∈ index.occurrences, o.position ∈ positions) →
    (positions.flatMap index.noted).Perm
      (index.occurrences.zipIdx.map fun entry => (entry.2, entry.1.keyword))

/-- **An index agrees with its list**, whatever was noted, at whatever positions: it answers
what the list says, and indices with the same list are the same. -/
theorem ofList_answers (records : List Occurrence) :
    (ofList records).occurrences = records ∧ (ofList records).Answers ∧
      ∀ others, (ofList others).occurrences = (ofList records).occurrences ↔
        ofList others = ofList records := by
  refine ⟨occurrences_ofList records, ?_, fun others => ⟨fun h => ?_, fun h => by rw [h]⟩⟩
  · refine ⟨?_, ?_, ?_, ?_, fun _ _ _ => mem_noted, noted_ascending _, fun _ => noted_perm _⟩
    · intro name
      rw [occurrences_ofList]
      exact contains_ofList
    · intro name ordinal position
      rw [occurrences_ofList]
      exact latest?_eq_some_iff
    · intro name
      rw [occurrences_ofList]
      exact latest?_eq_none_iff
    · intro name position
      rw [occurrences_ofList]
      exact position?_eq_some_iff
  · rw [occurrences_ofList, occurrences_ofList] at h
    rw [h]

end SqlDelete.KeywordIndex
