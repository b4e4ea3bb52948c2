import SqlDelete.Statement

/-!
# Outcomes

What holds of the outcome of reading any source: only the empty source is
refused as empty, an unclosed literal is reported where its quote stands, and a
statement keeps its source and has a clause that is empty or begins with a
clause keyword and ends with a space. A breach says what fails to hold.
-/

namespace SqlDelete

/-- What is wrong with an outcome: a source that is not empty is refused as empty,
no quote stands at the position that is reported, the empty source is refused for
having no table, another source is kept, or the clause does not end with a space or
does not begin with a clause keyword. -/
inductive Breach where
  | notEmpty
  | noQuote (quote : Char) (position : Nat)
  | empty
  | otherSource (kept : Text)
  | clauseEnd (clause : Text)
  | clauseBegin (clause : Text)
deriving DecidableEq

namespace Breach

/-- The message of a breach for a source. No character stands at an offset at
which none begins. -/
def message (source : Text) : Breach → Text
  | notEmpty => "assertion failed: sql.is_empty()".toList
  | noQuote quote position =>
      Text.unequal (": ".toList ++ Text.quoted source)
        (Text.quotedOption (Text.charAt? position source)) (Text.quotedOption (some quote))
  | empty => "assertion failed: !sql.is_empty()".toList
  | otherSource kept => Text.unequal [] (Text.quoted kept) (Text.quoted source)
  | clauseEnd clause =>
      "clause ".toList ++ Text.quoted clause ++ " of ".toList ++ Text.quoted source
  | clauseBegin clause =>
      "clause ".toList ++ Text.quoted clause ++ " of ".toList ++ Text.quoted source ++
        " does not start with a clause keyword".toList

/-- What is wrong with the outcome of reading a source, if anything. -/
def find? (lexicon : Lexicon) (source : Text) : Except SourceError Statement → Option Breach
  | .error .empty => if source = [] then none else some .notEmpty
  | .error (.unclosed quote position) =>
      if Text.charAt? position source = some quote then none else some (.noQuote quote position)
  | .error .noTable => if source = [] then some .empty else none
  | .ok statement =>
      if statement.source ≠ source then some (.otherSource statement.source)
      else if statement.clause = [] then none
      else if statement.clause.getLast? ≠ some ' ' then some (.clauseEnd statement.clause)
      else if ∃ keyword ∈ lexicon.clauseKeywords, keyword ++ [' '] <+: statement.clause then none
      else some (.clauseBegin statement.clause)

end Breach

def Statement.breach? (source : Text) : Option Breach :=
  Breach.find? Lexicon.mysqlDelete source (Statement.ofSource source)

example : Statement.breach? "delete from t order by".toList = none := by decide +kernel

end SqlDelete
