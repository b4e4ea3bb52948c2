import SqlDelete.Statement

/-!
# Documents

Statements and dialects are written to documents and read from them. A document is
a value of the JSON data model, so the names of an object's fields are distinct. A
record is read from an object that has all its fields, where other fields do not
matter, or from an array of exactly the values of its fields in order.

A statement is a record. Its kind is written as a string and read from that string
or from an object whose only field has that name and no value. What is written reads
back as the same statement.
-/

namespace SqlDelete

/-- A value of the JSON data model; a number is `mantissa / 10 ^ exponent`. -/
inductive Document where
  | null
  | bool (value : Bool)
  | number (mantissa : Int) (exponent : Nat)
  | string (text : Text)
  | array (items : List Document)
  | object (fields : List (Text × Document))

namespace Document

instance : Inhabited Document := ⟨null⟩

/-- The values of the named fields of a record. The names of an object are distinct,
so a field is looked up by the first entry of its name. -/
def fields? (names : List Text) : Document → Option (List Document)
  | object fields => names.mapM fun name => fields.lookup name
  | array items => if items.length = names.length then some items else none
  | _ => none

def text? : Document → Option Text
  | string t => some t
  | _ => none

@[simp] theorem text?_string (t : Text) : text? (string t) = some t := rfl

end Document

/-! ## Statements -/

namespace StatementKind

def toDocument (kind : StatementKind) : Document :=
  .string kind.label

def ofDocument? : Document → Option StatementKind
  | .string label => if label = StatementKind.delete.label then some .delete else none
  | .object [(label, .null)] => if label = StatementKind.delete.label then some .delete else none
  | _ => none

@[simp] theorem ofDocument?_toDocument (kind : StatementKind) :
    ofDocument? kind.toDocument = some kind := by
  cases kind
  rfl

end StatementKind

namespace Statement

/-- The fields of a statement, in order. -/
def fieldNames : List Text :=
  ["statement_type".toList, "table".toList, "clause".toList, "source".toList]

def toDocument (statement : Statement) : Document :=
  .object (fieldNames.zip
    [statement.kind.toDocument, .string statement.table, .string statement.clause,
      .string statement.source])

def ofDocument? (document : Document) : Option Statement := do
  match ← document.fields? fieldNames with
  | [kind, table, clause, source] =>
      some ⟨← StatementKind.ofDocument? kind, ← table.text?, ← clause.text?, ← source.text?⟩
  | _ => none

@[simp] theorem ofDocument?_toDocument (statement : Statement) :
    ofDocument? statement.toDocument = some statement := by
  simp [ofDocument?, toDocument, Document.fields?, fieldNames, List.lookup_cons]

end Statement

end SqlDelete
