import SqlDelete.KeywordIndex
import SqlDelete.Scan

/-!
# Transcripts

The transcript of a statement is its tokens, without the keywords, and the index
of its keywords. Completed tokens enter it one by one; a keyword of two words
takes back the token that was its first word.

A transcript says which table the statement names and what its clause is. The
table is the token at the position of the latest table keyword. The clause is the
text from the boundary on, where the boundary is the latest occurrence of the
strongest clause keyword that occurs.
-/

namespace SqlDelete

structure Transcript where
  tokens : List Token
  keywords : KeywordIndex
deriving DecidableEq

namespace Transcript

def empty : Transcript := ⟨[], .empty⟩

instance : Inhabited Transcript := ⟨empty⟩

/-- Adds a token that cannot be a keyword. -/
def push (t : Transcript) (token : Token) : Transcript :=
  { t with tokens := t.tokens ++ [token] }

/-- Notes a keyword at the end of the tokens. -/
def noteKeyword (t : Transcript) (name : Text) : Transcript :=
  { t with keywords := t.keywords.note name t.tokens.length }

def pop (t : Transcript) : Transcript :=
  { t with tokens := t.tokens.dropLast }

/-- A completed token enters: a keyword is noted, anything else is added. -/
def enter (lexicon : Lexicon) (t : Transcript) (token : Token) : Transcript :=
  match lexicon.read token t.tokens.getLast? with
  | .ordinary => t.push token
  | .keyword name true => t.pop.noteKeyword name
  | .keyword name false => t.noteKeyword name

/-- A completed word enters unless it is empty. -/
def enterWord (lexicon : Lexicon) (t : Transcript) (word : Text) : Transcript :=
  if word = [] then t else t.enter lexicon (.bare word)

/-- What the effect of one character adds. A mark is added as it is, after the
word that it ended. -/
def record (lexicon : Lexicon) (t : Transcript) : Effect → Transcript
  | .kept => t
  | .separated word none => t.enterWord lexicon word
  | .separated word (some mark) => (t.enterWord lexicon word).push (.bare [mark])
  | .opened word => t.enterWord lexicon word
  | .closed content => t.enter lexicon (.literal content)

@[simp] theorem tokens_push (t : Transcript) (token : Token) :
    (t.push token).tokens = t.tokens ++ [token] := rfl

@[simp] theorem keywords_push (t : Transcript) (token : Token) :
    (t.push token).keywords = t.keywords := rfl

@[simp] theorem tokens_noteKeyword (t : Transcript) (name : Text) :
    (t.noteKeyword name).tokens = t.tokens := rfl

@[simp] theorem keywords_noteKeyword (t : Transcript) (name : Text) :
    (t.noteKeyword name).keywords = t.keywords.note name t.tokens.length := rfl

@[simp] theorem tokens_pop (t : Transcript) : t.pop.tokens = t.tokens.dropLast := rfl

@[simp] theorem keywords_pop (t : Transcript) : t.pop.keywords = t.keywords := rfl

/-! ## Table and clause -/

/-- The content of the token at the latest table keyword. -/
def table (t : Transcript) (lexicon : Lexicon) : Except SourceError Text :=
  match (t.keywords.position? lexicon.tableKeyword).bind (t.tokens[·]?) with
  | some token => .ok token.text
  | none => .error .noTable

/-- Ordinal and position of the boundary. -/
def boundary? (t : Transcript) (lexicon : Lexicon) : Option (Nat × Nat) :=
  lexicon.clauseKeywords.findSome? t.keywords.latest?

def clauseStart? (t : Transcript) (lexicon : Lexicon) : Option Nat :=
  (t.boundary? lexicon).map Prod.snd

/-- The keywords written before the token at a position. At the boundary's own
position the keywords noted before the boundary are left out. -/
def keywordsBefore (t : Transcript) (boundary : Nat × Nat) (position : Nat) : List Text :=
  ((t.keywords.noted position).filter fun entry =>
    !(position = boundary.2 && entry.1 < boundary.1)).map Prod.snd

/-- The keywords and tokens from a boundary on. -/
def partsFrom (t : Transcript) (boundary : Nat × Nat) : List Text :=
  (t.tokens.zipIdx.drop boundary.2).flatMap fun entry =>
    t.keywordsBefore boundary entry.2 ++ [entry.1.written]

/-- The text of the clause: each keyword and token followed by a space. It is
empty if no clause keyword occurs. -/
def clause (t : Transcript) (lexicon : Lexicon) : Text :=
  match t.boundary? lexicon with
  | some boundary => Text.terminated (t.partsFrom boundary)
  | none => []

/-- A table that is missing is the only error. -/
theorem table_eq_error {t : Transcript} {lexicon : Lexicon} {e : SourceError}
    (h : t.table lexicon = .error e) : e = .noTable := by
  unfold table at h
  split at h <;> simp_all

end Transcript

end SqlDelete
