import SqlDelete.Statement

/-!
# Events

What is reported while a source is read, for a log. The events of a reading are
determined by what was read, and come in the order in which it was read.
-/

namespace SqlDelete

inductive Level where
  | trace
  | debug
deriving DecidableEq

namespace Level

def label : Level → Text
  | trace => "TRACE".toList
  | debug => "DEBUG".toList

end Level

/-- One thing that happened while a source was read: it was empty or has no
transcript, or it has one with so many tokens and keywords, which names no table or
was made into a statement. -/
inductive Event where
  | nothingToRead
  | refused (error : SourceError)
  | transcribed (tokens keywords : Nat)
  | noTable
  | assembled (table clause : Text)
deriving DecidableEq

inductive Datum where
  | number (n : Nat)
  | text (t : Text)
deriving DecidableEq

namespace Event

def level : Event → Level
  | nothingToRead => .debug
  | refused _ => .debug
  | transcribed _ _ => .trace
  | noTable => .debug
  | assembled _ _ => .trace

def message : Event → Text
  | nothingToRead => "refusing to tokenize empty source".toList
  | refused _ => "tokenization failed".toList
  | transcribed _ _ => "tokenized statement".toList
  | noTable => "no table reference".toList
  | assembled _ _ => "assembled delete statement".toList

/-- The named values that go with the message. -/
def fields : Event → List (Text × Datum)
  | nothingToRead => [("code".toList, .number SourceError.empty.code)]
  | refused e => [("code".toList, .number e.code), ("error".toList, .text e.message)]
  | transcribed tokens keywords =>
      [("tokens".toList, .number tokens), ("keywords".toList, .number keywords)]
  | noTable => [("code".toList, .number SourceError.noTable.code)]
  | assembled table clause => [("table".toList, .text table), ("clause".toList, .text clause)]

end Event

namespace Transcript

def statementEvent (t : Transcript) (lexicon : Lexicon) : Event :=
  match t.table lexicon with
  | .ok table => .assembled table (t.clause lexicon)
  | .error _ => .noTable

end Transcript

namespace Dialect

def events (dialect : Dialect) (source : Text) : List Event :=
  match dialect.transcribe source with
  | .error .empty => [.nothingToRead]
  | .error e => [.refused e]
  | .ok t => [.transcribed t.tokens.length t.keywords.size, t.statementEvent dialect.lexicon]

/-- The last event is the assembly of the statement that is read. -/
theorem getLast?_events_of_parse {dialect : Dialect} {source : Text} {statement : Statement}
    (h : dialect.parse source = .ok statement) :
    (dialect.events source).getLast? = some (.assembled statement.table statement.clause) := by
  unfold parse Transcript.statement at h
  split at h
  · rename_i t ht
    split at h
    · rename_i table htable
      cases h
      simp [events, ht, Transcript.statementEvent, htable]
    · cases h
  · cases h

end Dialect

end SqlDelete
