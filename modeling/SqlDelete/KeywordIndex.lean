import SqlDelete.Text.Basic

/-!
# Keyword index

Keywords do not stand among the tokens of a statement. The index notes each
occurrence of a keyword with the position it precedes: the number of tokens
there were when it was read. An occurrence's place in the order of noting is its
ordinal, and a name is looked up at its latest occurrence.
-/

namespace SqlDelete

/-- One keyword of a statement, with the number of tokens before it. -/
structure Occurrence where
  keyword : Text
  position : Nat
deriving DecidableEq

/-- The occurrences in the order of noting, with the ordinal of the latest one of
each name. -/
structure KeywordIndex where
  occurrences : List Occurrence
  latest : List (Text × Nat)
deriving DecidableEq

namespace KeywordIndex

def empty : KeywordIndex := ⟨[], []⟩

instance : Inhabited KeywordIndex := ⟨empty⟩

/-! ## Noting -/

/-- Enters an ordinal under a name, in place of an earlier one. -/
def assign (name : Text) (ordinal : Nat) : List (Text × Nat) → List (Text × Nat)
  | [] => [(name, ordinal)]
  | entry :: rest =>
      if entry.1 = name then (name, ordinal) :: rest
      else entry :: assign name ordinal rest

def note (index : KeywordIndex) (keyword : Text) (position : Nat) : KeywordIndex where
  occurrences := index.occurrences ++ [⟨keyword, position⟩]
  latest := assign keyword index.occurrences.length index.latest

/-- The index of a list of occurrences noted one after the other. -/
def ofList (occurrences : List Occurrence) : KeywordIndex :=
  occurrences.foldl (fun index o => index.note o.keyword o.position) empty

/-! ## Look-up -/

/-- Ordinal and position of the latest occurrence of a name. -/
def latest? (index : KeywordIndex) (name : Text) : Option (Nat × Nat) := do
  let ordinal ← index.latest.lookup name
  let occurrence ← index.occurrences[ordinal]?
  some (ordinal, occurrence.position)

def position? (index : KeywordIndex) (name : Text) : Option Nat :=
  (index.latest? name).map Prod.snd

def contains (index : KeywordIndex) (name : Text) : Bool :=
  (index.latest.lookup name).isSome

/-- The keywords noted at a position, each with its ordinal, in the order of
noting. -/
def noted (index : KeywordIndex) (position : Nat) : List (Nat × Text) :=
  index.occurrences.zipIdx.filterMap fun entry =>
    if entry.1.position = position then some (entry.2, entry.1.keyword) else none

def size (index : KeywordIndex) : Nat :=
  index.occurrences.length

def isEmpty (index : KeywordIndex) : Bool :=
  index.occurrences.isEmpty

/-! ## Noting and looking up -/

@[simp] theorem occurrences_note (index : KeywordIndex) (keyword : Text) (position : Nat) :
    (index.note keyword position).occurrences = index.occurrences ++ [⟨keyword, position⟩] := rfl

@[simp] theorem lookup_assign (name other : Text) (ordinal : Nat) (entries : List (Text × Nat)) :
    (assign name ordinal entries).lookup other =
      if other = name then some ordinal else entries.lookup other := by
  induction entries with
  | nil =>
      by_cases h : other = name
      · simp [assign, h]
      · have : (other == name) = false := by simpa using h
        simp [assign, List.lookup_cons, h, this]
  | cons entry rest ih =>
      obtain ⟨key, value⟩ := entry
      unfold assign
      by_cases hk : key = name
      · subst hk
        by_cases ho : other = key
        · simp [ho]
        · have : (other == key) = false := by simpa using ho
          simp [List.lookup_cons, ho, this]
      · by_cases ho : other = key
        · subst ho
          simp [hk]
        · have : (other == key) = false := by simpa using ho
          simp [List.lookup_cons, hk, this, ih]

/-- Noting a keyword makes the new occurrence the latest of its name. -/
@[simp] theorem latest?_note_self (index : KeywordIndex) (keyword : Text) (position : Nat) :
    (index.note keyword position).latest? keyword = some (index.occurrences.length, position) := by
  simp [latest?, note]

theorem ofList_append_singleton (occurrences : List Occurrence) (o : Occurrence) :
    ofList (occurrences ++ [o]) = (ofList occurrences).note o.keyword o.position := by
  simp [ofList]

/-- The index of a list holds that list. -/
@[simp] theorem occurrences_ofList (occurrences : List Occurrence) :
    (ofList occurrences).occurrences = occurrences := by
  have aux : ∀ (os : List Occurrence) (index : KeywordIndex),
      (os.foldl (fun index o => index.note o.keyword o.position) index).occurrences =
        index.occurrences ++ os := by
    intro os
    induction os with
    | nil => simp
    | cons o rest ih => simp [ih]
  simpa [ofList, empty] using aux occurrences empty

example : (ofList [⟨"LIMIT".toList, 1⟩, ⟨"FROM".toList, 2⟩, ⟨"LIMIT".toList, 2⟩]).latest?
    "LIMIT".toList = some (2, 2) := by decide

end KeywordIndex

end SqlDelete
