import SqlDelete.Document.Statement

/-!
# Dialects as documents

A dialect is a record of records. Reading takes the character sets as they are:
a mark is not made a separator. What is written reads back as the same dialect.
-/

namespace SqlDelete

namespace Document

/-! ## Lists and sets -/

def texts? : Document → Option (List Text)
  | array items => items.mapM text?
  | _ => none

/-- The character of a string that has just one. -/
def char? : Document → Option Char
  | string [c] => some c
  | _ => none

/-- The members of an array of one-character strings; repetitions do not matter. -/
def charSet? : Document → Option CharSet
  | array items => (items.mapM char?).map CharSet.ofList
  | _ => none

def ofTexts (texts : List Text) : Document :=
  array (texts.map string)

/-- An array of one-character strings in the order of the code points. -/
def ofCharSet (s : CharSet) : Document :=
  array (s.toList.map fun c => string [c])

@[simp] theorem char?_string_singleton (c : Char) : char? (string [c]) = some c := rfl

@[simp] theorem texts?_ofTexts (texts : List Text) : texts? (ofTexts texts) = some texts := by
  simp only [texts?, ofTexts]
  induction texts with
  | nil => rfl
  | cons t rest ih => simp [List.mapM_cons, ih]

@[simp] theorem charSet?_ofCharSet (s : CharSet) : charSet? (ofCharSet s) = some s := by
  have aux : ∀ cs : List Char, (cs.map fun c => string [c]).mapM char? = some cs := by
    intro cs
    induction cs with
    | nil => rfl
    | cons c rest ih => simp [List.mapM_cons, ih]
  simp [charSet?, ofCharSet, aux]

end Document

/-! ## Records -/

namespace Alphabet

def fieldNames : List Text :=
  ["pair_delimiters".toList, "separators".toList, "join_words".toList]

def toDocument (alphabet : Alphabet) : Document :=
  .object (fieldNames.zip
    [.ofCharSet alphabet.quotes, .ofCharSet alphabet.separators, .ofCharSet alphabet.marks])

def ofDocument? (document : Document) : Option Alphabet := do
  match ← document.fields? fieldNames with
  | [quotes, separators, marks] =>
      some ⟨← quotes.charSet?, ← separators.charSet?, ← marks.charSet?⟩
  | _ => none

@[simp] theorem ofDocument?_toDocument (alphabet : Alphabet) :
    ofDocument? alphabet.toDocument = some alphabet := by
  simp [ofDocument?, toDocument, Document.fields?, fieldNames, List.lookup_cons]

end Alphabet

namespace Lexicon

def fieldNames : List Text :=
  ["keywords".toList, "table_keyword".toList, "clause_keywords".toList]

def toDocument (lexicon : Lexicon) : Document :=
  .object (fieldNames.zip
    [.ofTexts lexicon.keywords, .string lexicon.tableKeyword, .ofTexts lexicon.clauseKeywords])

def ofDocument? (document : Document) : Option Lexicon := do
  match ← document.fields? fieldNames with
  | [keywords, tableKeyword, clauseKeywords] =>
      some ⟨← keywords.texts?, ← tableKeyword.text?, ← clauseKeywords.texts?⟩
  | _ => none

@[simp] theorem ofDocument?_toDocument (lexicon : Lexicon) :
    ofDocument? lexicon.toDocument = some lexicon := by
  simp [ofDocument?, toDocument, Document.fields?, fieldNames, List.lookup_cons]

end Lexicon

namespace Dialect

def fieldNames : List Text :=
  ["chars".toList, "vocabulary".toList]

def toDocument (dialect : Dialect) : Document :=
  .object (fieldNames.zip [dialect.alphabet.toDocument, dialect.lexicon.toDocument])

def ofDocument? (document : Document) : Option Dialect := do
  match ← document.fields? fieldNames with
  | [alphabet, lexicon] => some ⟨← Alphabet.ofDocument? alphabet, ← Lexicon.ofDocument? lexicon⟩
  | _ => none

@[simp] theorem ofDocument?_toDocument (dialect : Dialect) :
    ofDocument? dialect.toDocument = some dialect := by
  simp [ofDocument?, toDocument, Document.fields?, fieldNames, List.lookup_cons]

end Dialect

end SqlDelete
