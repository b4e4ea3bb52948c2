import SqlDelete.Text.Basic

/-!
# Tokens and keywords

A token is a bare word or mark, or the content of a quoted literal.

A lexicon is the closed list of keywords of one kind of statement. The table
follows one of them, and some may begin the trailing clause. Keywords are
compared up to ASCII case; the spelling in the list is the one that is noted and
written. A keyword of two words is recognised when its words are consecutive
bare tokens.
-/

namespace SqlDelete

/-! ## Tokens -/

inductive Token where
  | bare (text : Text)
  | literal (text : Text)
deriving DecidableEq

namespace Token

/-- The content, without quotes. -/
def text : Token → Text
  | bare t => t
  | literal t => t

def isLiteral : Token → Bool
  | bare _ => false
  | literal _ => true

/-- A bare token with the letters of a word, ASCII case ignored. -/
def Spells : Token → Text → Prop
  | bare t, word => Text.Alike t word
  | literal _, _ => False

instance (token : Token) (word : Text) : Decidable (token.Spells word) :=
  match token with
  | bare t => inferInstanceAs (Decidable (Text.Alike t word))
  | literal _ => inferInstanceAs (Decidable False)

/-- The token as clause text: every literal stands between single quotes,
whatever quotes enclosed it, and its content is not escaped. -/
def written : Token → Text
  | bare t => t
  | literal t => Text.singleQuote :: t ++ [Text.singleQuote]

@[simp] theorem text_bare (t : Text) : (bare t).text = t := rfl

@[simp] theorem text_literal (t : Text) : (literal t).text = t := rfl

@[simp] theorem spells_bare {t word : Text} : (bare t).Spells word ↔ Text.Alike t word := Iff.rfl

@[simp] theorem not_spells_literal (t word : Text) : ¬ (literal t).Spells word := id

/-- Whether a token spells a word does not depend on the letter case of the word. -/
theorem Spells.congr {token : Token} {word word' : Text} (h : Text.Alike word word') :
    token.Spells word ↔ token.Spells word' := by
  cases token with
  | bare t => exact ⟨fun h' => h'.trans h, fun h' => h'.trans h.symm⟩
  | literal t => exact Iff.rfl

example : (literal "a b".toList).written = "'a b'".toList := by decide

end Token

/-! ## Lexicons -/

/-- The keywords of a kind of statement; those of the clause come by strength,
the strongest first. -/
structure Lexicon where
  keywords : List Text
  tableKeyword : Text
  clauseKeywords : List Text
deriving DecidableEq

/-- What a completed token is: one of the statement's tokens, or a keyword, which
it may make up with the token before it. -/
inductive Reading where
  | ordinary
  | keyword (name : Text) (takesPrevious : Bool)
deriving DecidableEq

namespace Lexicon

/-! ## Look-up -/

/-- The spelling of the first keyword with the letters of a word. -/
def find? (lexicon : Lexicon) (word : Text) : Option Text :=
  lexicon.keywords.find? fun keyword => Text.Alike keyword word

def pair? (keyword : Text) : Option (Text × Text) :=
  match Text.words keyword with
  | [first, second] => some (first, second)
  | _ => none

/-- The two-word keywords whose second word has the letters of `word`, each
behind its first word. -/
def pairsEnding (lexicon : Lexicon) (word : Text) : List (Text × Text) :=
  lexicon.keywords.filterMap fun keyword =>
    match pair? keyword with
    | some (first, second) => if Text.Alike second word then some (first, keyword) else none
    | none => none

/-- The two-word keyword that `word` completes after the token `previous`. -/
def completed? (lexicon : Lexicon) (previous : Token) (word : Text) : Option Text :=
  ((lexicon.pairsEnding word).find? fun pair => previous.Spells pair.1).map Prod.snd

theorem find?_alike {lexicon : Lexicon} {word keyword : Text}
    (h : lexicon.find? word = some keyword) :
    keyword ∈ lexicon.keywords ∧ Text.Alike keyword word :=
  ⟨List.mem_of_find?_eq_some h, by simpa using List.find?_some h⟩

theorem mem_pairsEnding {lexicon : Lexicon} {word first keyword : Text} :
    (first, keyword) ∈ lexicon.pairsEnding word ↔
      keyword ∈ lexicon.keywords ∧
        ∃ second, pair? keyword = some (first, second) ∧ Text.Alike second word := by
  simp only [pairsEnding, List.mem_filterMap]
  constructor
  · rintro ⟨k, hk, h⟩
    split at h
    · rename_i f s hp
      split at h
      · rename_i ha
        simp only [Option.some.injEq, Prod.mk.injEq] at h
        obtain ⟨rfl, rfl⟩ := h
        exact ⟨hk, s, hp, ha⟩
      · cases h
    · cases h
  · rintro ⟨hk, s, hp, ha⟩
    exact ⟨keyword, hk, by simp [hp, ha]⟩

/-- A word that completes a keyword is its second word, behind its first. -/
theorem exists_pair_of_completed? {lexicon : Lexicon} {previous : Token} {word name : Text}
    (h : lexicon.completed? previous word = some name) :
    name ∈ lexicon.keywords ∧ ∃ first second, pair? name = some (first, second) ∧
      previous.Spells first ∧ Text.Alike second word := by
  obtain ⟨⟨first, keyword⟩, hfind, rfl⟩ := Option.map_eq_some_iff.mp h
  obtain ⟨hkeyword, second, hpair, halike⟩ :=
    mem_pairsEnding.mp (List.mem_of_find?_eq_some hfind)
  exact ⟨hkeyword, first, second, hpair, by simpa using List.find?_some hfind, halike⟩

/-- A word completes nothing exactly if it is the second word of no keyword whose first
word stands in front of it. -/
theorem completed?_eq_none_iff {lexicon : Lexicon} {previous : Token} {word : Text} :
    lexicon.completed? previous word = none ↔
      ∀ keyword ∈ lexicon.keywords, ∀ first second, pair? keyword = some (first, second) →
        previous.Spells first → ¬ Text.Alike second word := by
  rw [completed?, Option.map_eq_none_iff, List.find?_eq_none]
  constructor
  · intro h keyword hkeyword first second hpair hspells halike
    have hmem := mem_pairsEnding.mpr ⟨hkeyword, second, hpair, halike⟩
    exact h (first, keyword) hmem (decide_eq_true hspells)
  · rintro h ⟨first, keyword⟩ hmem hspells
    obtain ⟨hkeyword, second, hpair, halike⟩ := mem_pairsEnding.mp hmem
    exact h keyword hkeyword first second hpair (of_decide_eq_true hspells) halike

/-! ## Reading tokens -/

/-- What a token is, given the token before it. A literal is always ordinary. A
bare token is first read as the second word of a keyword, then as a keyword. -/
def read (lexicon : Lexicon) (token : Token) (previous : Option Token) : Reading :=
  match token with
  | .literal _ => .ordinary
  | .bare word =>
      match previous.bind (lexicon.completed? · word) with
      | some name => .keyword name true
      | none =>
          match lexicon.find? word with
          | some name => .keyword name false
          | none => .ordinary

@[simp] theorem read_literal (lexicon : Lexicon) (t : Text) (previous : Option Token) :
    lexicon.read (.literal t) previous = .ordinary := rfl

/-! ## MySQL -/

def mysqlDelete : Lexicon where
  keywords :=
    ["DELETE".toList, "LOW_PRIORITY".toList, "QUICK".toList, "IGNORE".toList, "FROM".toList,
      "WHERE".toList, "ORDER BY".toList, "LIMIT".toList]
  tableKeyword := "FROM".toList
  clauseKeywords := ["WHERE".toList, "ORDER BY".toList, "LIMIT".toList]

example : mysqlDelete.read (.bare "by".toList) (some (.bare "order".toList)) =
    .keyword "ORDER BY".toList true := by decide

example : mysqlDelete.read (.bare "by".toList) none = .ordinary := by decide

end Lexicon

end SqlDelete
