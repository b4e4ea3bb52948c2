import SqlDelete.Statement

/-!
# Sample statements

A sample is a well-formed MySQL DELETE statement given by its parts. It can be
written as a source, and it knows the table and the clause that the source must
be read to.
-/

namespace SqlDelete

/-- The quotes around the table of a sample. -/
inductive Wrapping where
  | bare
  | single
  | double
  | back
deriving DecidableEq

namespace Wrapping

def quote? : Wrapping → Option Char
  | bare => none
  | single => some Text.singleQuote
  | double => some Text.doubleQuote
  | back => some Text.backquote

def wrap (wrapping : Wrapping) (name : Text) : Text :=
  match wrapping.quote? with
  | none => name
  | some quote => quote :: name ++ [quote]

end Wrapping

/-- The parts of a sample statement: the modifiers stand between the first keyword and
the table keyword, a filter compares a column with a value, and `lowercase` says
whether keywords are written in small letters. -/
structure Sample where
  modifiers : List Text
  table : Text
  wrapping : Wrapping
  filter : Option (Text × Int64)
  order : Option Text
  limit : Option UInt32
  lowercase : Bool
deriving DecidableEq

namespace Sample

/-! ## Writing -/

def keyword (sample : Sample) (name : Text) : Text :=
  if sample.lowercase then Text.lower name else name

/-- The words after the table, with each keyword spelled by `spell`. -/
def clauseWords (sample : Sample) (spell : Text → Text) : List Text :=
  (match sample.filter with
    | some (column, value) =>
        [spell "WHERE".toList, column, "=".toList, Text.signedDecimal value.toInt]
    | none => []) ++
  (match sample.order with
    | some column => [spell "ORDER BY".toList, column]
    | none => []) ++
  (match sample.limit with
    | some n => [spell "LIMIT".toList, Text.decimal n.toNat]
    | none => [])

/-- The sample as a source: its words with a space between each two. -/
def source (sample : Sample) : Text :=
  Text.spaced <|
    sample.keyword "DELETE".toList :: sample.modifiers.map sample.keyword ++
      [sample.keyword "FROM".toList, sample.wrapping.wrap sample.table] ++
      sample.clauseWords sample.keyword

/-- The clause of the sample: the words after the table, each followed by a
space, with keywords as the lexicon spells them. -/
def clause (sample : Sample) : Text :=
  Text.terminated (sample.clauseWords id)

/-! ## Checking -/

/-- How the reading of a sample may differ from the sample: its source is refused, or
another table, clause or source is read. -/
inductive Mismatch where
  | refused (error : SourceError)
  | table (read : Text)
  | clause (read : Text)
  | source (read : Text)
deriving DecidableEq

/-- The first difference between a sample and the statement its source is read to. -/
def mismatch? (sample : Sample) : Option Mismatch :=
  match Statement.ofSource sample.source with
  | .error e => some (.refused e)
  | .ok statement =>
      if statement.table ≠ sample.table then some (.table statement.table)
      else if statement.clause ≠ sample.clause then some (.clause statement.clause)
      else if statement.source ≠ sample.source then some (.source statement.source)
      else none

def Mismatch.message (sample : Sample) : Mismatch → Text
  | refused e => Text.quoted sample.source ++ " failed: ".toList ++ e.message
  | table read =>
      Text.unequal (": table of ".toList ++ Text.quoted sample.source) (Text.quoted read)
        (Text.quoted sample.table)
  | clause read =>
      Text.unequal (": clause of ".toList ++ Text.quoted sample.source) (Text.quoted read)
        (Text.quoted sample.clause)
  | source read => Text.unequal [] (Text.quoted read) (Text.quoted sample.source)

/-- A sample without a mismatch is read to its own parts, and conversely. -/
theorem mismatch?_eq_none_iff {sample : Sample} :
    sample.mismatch? = none ↔
      Statement.ofSource sample.source =
        .ok ⟨.delete, sample.table, sample.clause, sample.source⟩ := by
  unfold mismatch?
  split
  · rename_i e h
    simp [h]
  · rename_i statement h
    obtain ⟨⟨⟩, table, clause, source⟩ := statement
    rw [h]
    by_cases ht : table = sample.table <;> by_cases hc : clause = sample.clause <;>
      by_cases hs : source = sample.source <;> simp [ht, hc, hs]

example : (Sample.mk ["QUICK".toList] "from".toList .back (some ("id".toList, -1))
    (some "id".toList) (some 5) true).source =
    "delete quick from `from` where id = -1 order by id limit 5".toList := by rfl

end Sample

end SqlDelete
