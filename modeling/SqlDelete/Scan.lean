import SqlDelete.Dialect
import SqlDelete.Text.Quoted

/-!
# Scanning

The scan of a statement is outside any literal or inside one, and holds the
characters that are not yet part of a token. Each character has one effect: it
is kept, it ends a word, it opens a literal, or it closes the open one. A source
that ends inside a literal is refused.
-/

namespace SqlDelete

/-! ## Errors -/

/-- Why a source is refused: it has no character, the table keyword does not occur
or no token follows it, or the literal that a quote opened at a byte offset is not
closed. -/
inductive SourceError where
  | empty
  | noTable
  | unclosed (quote : Char) (position : Nat)
deriving DecidableEq

namespace SourceError

def code : SourceError → Nat
  | empty => 11000
  | noTable => 11200
  | unclosed _ _ => 11201

def message : SourceError → Text
  | empty => "delete sql is empty".toList
  | noTable => "delete sql syntax error, cant find table".toList
  | unclosed quote position =>
      "delete sql syntax error, unterminated literal opened by ".toList ++ Text.quotedChar quote ++
        " at position ".toList ++ Text.decimal position

end SourceError

/-! ## Scans -/

inductive Region where
  | outside
  | inside (quote : Char) (openedAt : Nat)
deriving DecidableEq

/-- What a character did. A word that it ended and a literal that it closed may be
empty; a mark is a token itself. -/
inductive Effect where
  | kept
  | separated (word : Text) (mark : Option Char)
  | opened (word : Text)
  | closed (content : Text)
deriving DecidableEq

structure Scan where
  pending : Text
  region : Region
deriving DecidableEq

namespace Scan

def start : Scan := ⟨[], .outside⟩

/-- The effect of a character at a position, and the scan after it. Inside a
literal only the quote that opened it is special; outside, separating comes
before quoting. -/
def step (alphabet : Alphabet) (scan : Scan) (position : Nat) (c : Char) : Effect × Scan :=
  match scan.region with
  | .inside quote _ =>
      if c = quote then (.closed scan.pending, ⟨[], .outside⟩)
      else (.kept, ⟨scan.pending ++ [c], scan.region⟩)
  | .outside =>
      if c ∈ alphabet.separators then
        (.separated scan.pending (if c ∈ alphabet.marks then some c else none), ⟨[], .outside⟩)
      else if c ∈ alphabet.quotes then (.opened scan.pending, ⟨[], .inside c position⟩)
      else (.kept, ⟨scan.pending ++ [c], .outside⟩)

/-- The last word, if the scan ends outside any literal. -/
def lastWord (scan : Scan) : Except SourceError Text :=
  match scan.region with
  | .outside => .ok scan.pending
  | .inside quote openedAt => .error (.unclosed quote openedAt)

/-! ## The step by cases -/

theorem step_closing (alphabet : Alphabet) (pending : Text) (quote : Char)
    (openedAt position : Nat) :
    step alphabet ⟨pending, .inside quote openedAt⟩ position quote =
      (.closed pending, ⟨[], .outside⟩) := by
  simp [step]

theorem step_inside {alphabet : Alphabet} {pending : Text} {quote c : Char}
    {openedAt position : Nat} (h : c ≠ quote) :
    step alphabet ⟨pending, .inside quote openedAt⟩ position c =
      (.kept, ⟨pending ++ [c], .inside quote openedAt⟩) := by
  simp [step, h]

theorem step_separator {alphabet : Alphabet} {pending : Text} {c : Char} {position : Nat}
    (h : c ∈ alphabet.separators) :
    step alphabet ⟨pending, .outside⟩ position c =
      (.separated pending (if c ∈ alphabet.marks then some c else none), ⟨[], .outside⟩) := by
  simp [step, h]

theorem step_opening {alphabet : Alphabet} {pending : Text} {c : Char} {position : Nat}
    (h : c ∉ alphabet.separators) (h' : c ∈ alphabet.quotes) :
    step alphabet ⟨pending, .outside⟩ position c = (.opened pending, ⟨[], .inside c position⟩) := by
  simp [step, h, h']

theorem step_other {alphabet : Alphabet} {pending : Text} {c : Char} {position : Nat}
    (h : c ∉ alphabet.separators) (h' : c ∉ alphabet.quotes) :
    step alphabet ⟨pending, .outside⟩ position c = (.kept, ⟨pending ++ [c], .outside⟩) := by
  simp [step, h, h']

end Scan

end SqlDelete
