import SqlDelete.Text.Basic

/-!
# Byte offsets

Positions in a source count bytes of its UTF-8 form. A text is walked with the
offset of each character, and a character is looked up by its offset.
-/

namespace SqlDelete.Text

/-- Number of bytes of the UTF-8 form. -/
def byteLength : Text → Nat
  | [] => 0
  | c :: rest => c.utf8Size + byteLength rest

/-- Each character with its byte offset, the first one at `start`. -/
def located (start : Nat) : Text → List (Nat × Char)
  | [] => []
  | c :: rest => (start, c) :: located (start + c.utf8Size) rest

/-- The character that begins at a byte offset, if one does. -/
def charAt? (offset : Nat) : Text → Option Char
  | [] => none
  | c :: rest =>
      if offset = 0 then some c
      else if offset < c.utf8Size then none
      else charAt? (offset - c.utf8Size) rest

@[simp] theorem byteLength_nil : byteLength [] = 0 := rfl

@[simp] theorem byteLength_cons (c : Char) (t : Text) :
    byteLength (c :: t) = c.utf8Size + byteLength t := rfl

@[simp] theorem byteLength_append (s t : Text) :
    byteLength (s ++ t) = byteLength s + byteLength t := by
  induction s with
  | nil => simp
  | cons c rest ih => simp [ih, Nat.add_assoc]

@[simp] theorem located_nil (start : Nat) : located start [] = [] := rfl

@[simp] theorem located_cons (start : Nat) (c : Char) (t : Text) :
    located start (c :: t) = (start, c) :: located (start + c.utf8Size) t := rfl

theorem located_append (start : Nat) (s t : Text) :
    located start (s ++ t) = located start s ++ located (start + byteLength s) t := by
  induction s generalizing start with
  | nil => simp
  | cons c rest ih => simp [ih, Nat.add_assoc]

/-- The character after a text begins at the text's byte length. -/
theorem charAt?_byteLength (s : Text) (c : Char) (t : Text) :
    charAt? (byteLength s) (s ++ c :: t) = some c := by
  induction s with
  | nil => simp [charAt?]
  | cons d rest ih =>
      have hd := Char.utf8Size_pos d
      simp only [byteLength_cons, List.cons_append, charAt?]
      rw [if_neg (by omega), if_neg (by omega), Nat.add_sub_cancel_left, ih]

/-- A character is found at an offset exactly if the text before it has that length. -/
theorem charAt?_eq_some_iff {offset : Nat} {t : Text} {c : Char} :
    charAt? offset t = some c ↔
      ∃ before after, t = before ++ c :: after ∧ byteLength before = offset := by
  constructor
  · intro h
    induction t generalizing offset with
    | nil => cases h
    | cons d rest ih =>
        rw [charAt?] at h
        split at h
        · rename_i hzero
          cases h
          exact ⟨[], rest, rfl, hzero.symm⟩
        · split at h
          · cases h
          · obtain ⟨before, after, rfl, hlength⟩ := ih h
            refine ⟨d :: before, after, rfl, ?_⟩
            rw [byteLength_cons]
            omega
  · rintro ⟨before, after, rfl, rfl⟩
    exact charAt?_byteLength before c after

example : located 0 "aé名".toList = [(0, 'a'), (1, 'é'), (3, '名')] := by decide

example : charAt? 2 "aé名".toList = none := by decide

end SqlDelete.Text
