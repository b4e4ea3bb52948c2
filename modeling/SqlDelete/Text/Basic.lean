/-!
# Texts

A text is a list of characters. This module holds what is said about texts as a
whole: equality up to the case of ASCII letters, the words between blanks, and
numbers in base ten.
-/

namespace SqlDelete

/-- A sequence of Unicode scalar values. -/
abbrev Text := List Char

namespace Text

/-! ## Quote characters -/

def singleQuote : Char := '\x27'

def doubleQuote : Char := '\x22'

/-- The grave accent, used as a quote. -/
def backquote : Char := '\x60'

/-! ## Letter case -/

/-- ASCII capitals become small letters; every other character is kept. -/
def lower (t : Text) : Text :=
  t.map Char.toLower

/-- Equality up to the case of ASCII letters. -/
def Alike (s t : Text) : Prop :=
  lower s = lower t

instance (s t : Text) : Decidable (Alike s t) :=
  inferInstanceAs (Decidable (lower s = lower t))

@[simp] theorem lower_nil : lower [] = [] := rfl

@[simp] theorem lower_cons (c : Char) (t : Text) : lower (c :: t) = c.toLower :: lower t := rfl

@[simp] theorem lower_append (s t : Text) : lower (s ++ t) = lower s ++ lower t := by
  simp [lower]

@[simp] theorem length_lower (t : Text) : (lower t).length = t.length := by
  simp [lower]

theorem Alike.refl (t : Text) : Alike t t := rfl

theorem Alike.symm {s t : Text} (h : Alike s t) : Alike t s := Eq.symm h

theorem Alike.trans {s t u : Text} (h : Alike s t) (h' : Alike t u) : Alike s u := Eq.trans h h'

theorem Alike.length_eq {s t : Text} (h : Alike s t) : s.length = t.length := by
  simpa using congrArg List.length h

@[simp] theorem alike_nil_right {t : Text} : Alike t [] ↔ t = [] := by
  simp [Alike, lower]

/-! ## Words -/

/-- ASCII blanks: space, tab, line feed, form feed and carriage return. -/
def isBlank (c : Char) : Bool :=
  c = ' ' || c = '\t' || c = '\n' || c = '\x0c' || c = '\r'

/-- The only blank that is not `Char.isWhitespace` is the form feed. -/
theorem isBlank_iff {c : Char} : isBlank c = true ↔ c.isWhitespace = true ∨ c = '\x0c' := by
  grind [isBlank, Char.isWhitespace]

/-- The runs between blanks, empty ones included; there is always at least one. -/
def runs : Text → List Text
  | [] => [[]]
  | c :: rest =>
      if isBlank c then [] :: runs rest
      else match runs rest with
        | [] => [[c]]
        | run :: more => (c :: run) :: more

/-- The words of a text: its runs of characters other than blanks. -/
def words (t : Text) : List Text :=
  (runs t).filter (· ≠ [])

/-- Texts joined by single spaces. -/
def spaced (parts : List Text) : Text :=
  [' '].intercalate parts

/-- Texts each followed by a space. -/
def terminated (parts : List Text) : Text :=
  parts.flatMap (· ++ [' '])

@[simp] theorem terminated_nil : terminated [] = [] := rfl

@[simp] theorem terminated_cons (part : Text) (parts : List Text) :
    terminated (part :: parts) = part ++ ' ' :: terminated parts := by
  simp [terminated]

theorem terminated_append (parts more : List Text) :
    terminated (parts ++ more) = terminated parts ++ terminated more := by
  simp [terminated]

/-- A space after each text is a space between each two and one at the end. -/
theorem terminated_eq_spaced_append {parts : List Text} (h : parts ≠ []) :
    terminated parts = spaced parts ++ [' '] := by
  induction parts with
  | nil => exact absurd rfl h
  | cons part rest ih =>
      cases rest with
      | nil => simp [spaced]
      | cons next more =>
          rw [terminated_cons, ih (List.cons_ne_nil _ _)]
          simp [spaced]

example : Alike "Low_Priority".toList "LOW_PRIORITY".toList := by decide

example : words "  order \t by ".toList = ["order".toList, "by".toList] := by decide

/-! ## Decimal numbers -/

def decimal (n : Nat) : Text :=
  Nat.toDigits 10 n

/-- An integer in base ten, with a minus sign if it is negative. -/
def signedDecimal : Int → Text
  | .ofNat n => decimal n
  | .negSucc n => '-' :: decimal (n + 1)

theorem decimal_ne_nil (n : Nat) : decimal n ≠ [] := by
  have := Nat.length_toDigits_pos (b := 10) (n := n)
  intro h
  simp_all [decimal]

/-- A natural number is written with digits only. -/
theorem isDigit_of_mem_decimal {n : Nat} {c : Char} (h : c ∈ decimal n) : c.isDigit = true :=
  Nat.isDigit_of_mem_toDigits (b := 10) (n := n) (by decide) (by decide) h

theorem signedDecimal_ne_nil (v : Int) : signedDecimal v ≠ [] := by
  cases v with
  | ofNat n => exact decimal_ne_nil n
  | negSucc n => simp [signedDecimal]

/-- An integer is written with digits and perhaps a minus sign. -/
theorem isDigit_or_minus_of_mem_signedDecimal {v : Int} {c : Char} (h : c ∈ signedDecimal v) :
    c.isDigit = true ∨ c = '-' := by
  cases v with
  | ofNat n => exact Or.inl (isDigit_of_mem_decimal h)
  | negSucc n =>
      rcases List.mem_cons.1 h with rfl | h
      · exact Or.inr rfl
      · exact Or.inl (isDigit_of_mem_decimal h)

end Text

end SqlDelete
