/-!
# Drawing values from bytes

A draw takes bytes from the front of a list and turns them into a value. Bytes that
are missing count as zero, so a draw always succeeds and only the bytes that were
there are used up. How numbers, choices, options and variants are made from bytes is
not decided here: the draws of this module are the documented rules of the `arbitrary`
library.
-/

namespace SqlDelete

abbrev Draw := StateM (List UInt8)

/-- The number with the given base-256 digits, the lowest first. -/
def littleEndian : List UInt8 → Nat
  | [] => 0
  | b :: rest => b.toNat + 256 * littleEndian rest

namespace Draw

/-! ## Numbers -/

def number (count : Nat) : Draw Nat :=
  fun bytes => (littleEndian (bytes.take count), bytes.drop count)

def int64 : Draw Int64 := do
  let n ← number 8
  pure (UInt64.ofNat n).toInt64

def uint32 : Draw UInt32 := do
  let n ← number 4
  pure (UInt32.ofNat n)

/-- A truth value: the low bit of one byte. -/
def flag : Draw Bool := do
  let n ← number 1
  pure (n % 2 = 1)

/-! ## Choices -/

/-- An integer of a range that begins at zero, of 2 to 256 members: the remainder of
one byte. -/
def below (count : Nat) : Draw Nat := do
  let n ← number 1
  pure (n % count)

/-- A member of a list of 2 to 256, by its place; `fallback` is never drawn from one. -/
def choice {α : Type} (fallback : α) (items : List α) : Draw α := do
  let i ← below items.length
  pure (items.getD i fallback)

/-- Nothing or a value, after a flag that says which. -/
def optional {α : Type} (draw : Draw α) : Draw (Option α) := do
  if ← flag then
    let value ← draw
    pure (some value)
  else
    pure none

/-- The place of a variant in an enumeration of `count`: four bytes as a fraction of
`2 ^ 32`, scaled to the number of variants. -/
def variant (count : Nat) : Draw Nat := do
  let n ← number 4
  pure (n * count / 0x100000000)

end Draw

end SqlDelete
