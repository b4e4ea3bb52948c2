import SqlDelete.CharSet
import SqlDelete.Lexicon

/-!
# Dialects

A dialect is all that reading a statement depends on: an alphabet and a lexicon.
An alphabet says what each character does to the scan of a statement. Quotes open
a literal that the same character closes, separators end words outside literals,
and marks are characters that are kept as tokens of their own when they end a
word.
-/

namespace SqlDelete

/-- Three sets of characters, which may overlap. -/
structure Alphabet where
  quotes : CharSet
  separators : CharSet
  marks : CharSet
deriving DecidableEq

namespace Alphabet

/-- The alphabet of three lists, in which every mark separates. -/
def ofLists (quotes separators marks : List Char) : Alphabet where
  quotes := CharSet.ofList quotes
  separators := CharSet.union (CharSet.ofList marks) (CharSet.ofList separators)
  marks := CharSet.ofList marks

theorem mem_separators_ofLists {quotes separators marks : List Char} {c : Char} :
    c ∈ (ofLists quotes separators marks).separators ↔ c ∈ marks ∨ c ∈ separators := by
  simp [ofLists]

/-- Every mark of an alphabet made of lists ends a word. -/
theorem mem_separators_of_mem_marks {quotes separators marks : List Char} {c : Char}
    (h : c ∈ (ofLists quotes separators marks).marks) :
    c ∈ (ofLists quotes separators marks).separators := by
  rw [mem_separators_ofLists]
  exact Or.inl (by simpa [ofLists] using h)

end Alphabet

structure Dialect where
  alphabet : Alphabet
  lexicon : Lexicon
deriving DecidableEq

/-! ## MySQL -/

namespace Alphabet

def mysqlQuotes : List Char := [Text.singleQuote, Text.doubleQuote, Text.backquote]

def mysqlSeparators : List Char := " \t\n\r,();".toList

def mysqlMarks : List Char := ",()".toList

def mysql : Alphabet := ofLists mysqlQuotes mysqlSeparators mysqlMarks

example : mysql.separators.toList = "\t\n\r (),;".toList := by decide

end Alphabet

namespace Dialect

/-- The dialect of MySQL DELETE statements. -/
def mysqlDelete : Dialect := ⟨Alphabet.mysql, Lexicon.mysqlDelete⟩

instance : Inhabited Dialect := ⟨mysqlDelete⟩

end Dialect

end SqlDelete
