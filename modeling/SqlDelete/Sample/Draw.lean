import SqlDelete.Draw
import SqlDelete.Sample.Basic

/-!
# Drawing samples

A sample is drawn part by part. The names in it are drawn character by character,
and none of them is a keyword or a word of one.
-/

namespace SqlDelete

namespace Draw

/-- Some members of a list, after a flag for each. -/
def selection {α : Type} : List α → Draw (List α)
  | [] => pure []
  | item :: rest => do
      let chosen ← flag
      let others ← selection rest
      pure (if chosen then item :: others else others)

/-! ## Names -/

def initials : List Char :=
  "abcdefghijklmnopqrstuvwxyzABCDEFGHIJKLMNOPQRSTUVWXYZ_".toList

def nameChars : List Char :=
  "abcdefghijklmnopqrstuvwxyzABCDEFGHIJKLMNOPQRSTUVWXYZ_0123456789".toList

/-- So many characters of a name after its first. -/
def nameRest : Nat → Draw Text
  | 0 => pure []
  | n + 1 => do
      let c ← choice 'a' nameChars
      let rest ← nameRest n
      pure (c :: rest)

/-- The words of keywords, which a name must not be. -/
def reserved : List Text :=
  Lexicon.mysqlDelete.keywords.flatMap Text.words

/-- A name that is not reserved: a reserved one is drawn with a stem before it. -/
def unreserved (name : Text) : Text :=
  if reserved.any fun word => Text.Alike word name then "c_".toList ++ name else name

/-- A name of at most eleven characters before a stem is put to it. -/
def name : Draw Text := do
  let length ← below 11
  let first ← choice 'a' initials
  let rest ← nameRest length
  pure (unreserved (first :: rest))

/-! ## Parts of a sample -/

def wrapping : Draw Wrapping := do
  let n ← variant 4
  pure (match n with
    | 0 => .bare
    | 1 => .single
    | 2 => .double
    | _ => .back)

def filter : Draw (Text × Int64) := do
  let column ← name
  let value ← int64
  pure (column, value)

/-- The words that may stand between the first keyword and the table keyword. -/
def modifiers : List Text :=
  ["LOW_PRIORITY".toList, "QUICK".toList, "IGNORE".toList]

end Draw

def Sample.draw : Draw Sample := do
  let modifiers ← Draw.selection Draw.modifiers
  let table ← Draw.name
  let wrapping ← Draw.wrapping
  let filter ← Draw.optional Draw.filter
  let order ← Draw.optional Draw.name
  let limit ← Draw.optional Draw.uint32
  let lowercase ← Draw.flag
  pure { modifiers, table, wrapping, filter, order, limit, lowercase }

example : Draw.name.run ([3, 5, 17, 14, 12, 9] : List UInt8) = ("c_from".toList, [9]) := by
  rfl

end SqlDelete
