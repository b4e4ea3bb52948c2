import SqlDelete.Text.Offset
import SqlDelete.Transcript

/-!
# Reading a source

A reader is a scan together with the transcript so far. It reads one character
after the other, each with its position, and has a result after any of them. The
transcript of a whole source stands for a statement: its table, its trailing
clause, and the source itself.
-/

namespace SqlDelete

structure Reader where
  scan : Scan
  transcript : Transcript
deriving DecidableEq

namespace Reader

def start : Reader := ⟨.start, .empty⟩

instance : Inhabited Reader := ⟨start⟩

def read (dialect : Dialect) (reader : Reader) (position : Nat) (c : Char) : Reader :=
  let outcome := reader.scan.step dialect.alphabet position c
  ⟨outcome.2, reader.transcript.record dialect.lexicon outcome.1⟩

/-- Reads characters with their positions, in order. -/
def readAll (dialect : Dialect) (reader : Reader) (characters : List (Nat × Char)) : Reader :=
  characters.foldl (fun reader entry => reader.read dialect entry.1 entry.2) reader

/-- The transcript, with the pending word entered. -/
def result (dialect : Dialect) (reader : Reader) : Except SourceError Transcript :=
  match reader.scan.lastWord with
  | .ok word => .ok (reader.transcript.enterWord dialect.lexicon word)
  | .error e => .error e

@[simp] theorem readAll_nil (dialect : Dialect) (reader : Reader) :
    reader.readAll dialect [] = reader := rfl

@[simp] theorem readAll_cons (dialect : Dialect) (reader : Reader) (position : Nat) (c : Char)
    (rest : List (Nat × Char)) :
    reader.readAll dialect ((position, c) :: rest) =
      (reader.read dialect position c).readAll dialect rest := rfl

end Reader

namespace Dialect

/-- The transcript of a whole source. -/
def transcribe (dialect : Dialect) (source : Text) : Except SourceError Transcript :=
  if source = [] then .error .empty
  else (Reader.start.readAll dialect (Text.located 0 source)).result dialect

theorem transcribe_of_ne_nil {dialect : Dialect} {source : Text} (h : source ≠ []) :
    dialect.transcribe source =
      (Reader.start.readAll dialect (Text.located 0 source)).result dialect := by
  simp [transcribe, h]

end Dialect

/-! ## Statements -/

inductive StatementKind where
  | delete
deriving DecidableEq

namespace StatementKind

/-- The word a kind of statement begins with. -/
def label : StatementKind → Text
  | delete => "DELETE".toList

end StatementKind

/-- What was read from a source; the table is without quotes. -/
structure Statement where
  kind : StatementKind
  table : Text
  clause : Text
  source : Text
deriving DecidableEq

namespace Transcript

/-- The statement that a transcript of `source` stands for. -/
def statement (t : Transcript) (lexicon : Lexicon) (source : Text) :
    Except SourceError Statement :=
  match t.table lexicon with
  | .ok table => .ok ⟨.delete, table, t.clause lexicon, source⟩
  | .error e => .error e

end Transcript

namespace Dialect

def parse (dialect : Dialect) (source : Text) : Except SourceError Statement :=
  match dialect.transcribe source with
  | .ok t => t.statement dialect.lexicon source
  | .error e => .error e

end Dialect

namespace Statement

/-- Reads a source as a MySQL DELETE statement. -/
def ofSource (source : Text) : Except SourceError Statement :=
  Dialect.mysqlDelete.parse source

example : ofSource "DELETE FROM user WHERE id = 1".toList =
    .ok ⟨.delete, "user".toList, "WHERE id = 1 ".toList, "DELETE FROM user WHERE id = 1".toList⟩ := by
  rfl

example : ofSource "DELETE FROM".toList = .error .noTable := by rfl

end Statement

end SqlDelete
