import Mathlib.Data.List.Pairwise
import SqlDelete.Proofs.Pieces

/-!
# The order of keywords

A word is looked up by going through the keywords until one matches: first those of two
words that it completes with the token before it, then all. The first match is noted, so
what is read depends on the order in which the keywords are listed, unless a word never has
more than one match. That is so if no two keywords are equal up to letter case, and no two
have the same two words up to letter case.
-/

namespace SqlDelete

/-! ## Lexicons that find the same keywords -/

/-- The same alphabet with another lexicon. -/
def Dialect.withLexicon (dialect : Dialect) (lexicon : Lexicon) : Dialect :=
  { dialect with lexicon := lexicon }

/-- Whatever is looked up, the same keyword is found. -/
structure Lexicon.FindsLike (lexicon other : Lexicon) : Prop where
  single : ∀ word, lexicon.find? word = other.find? word
  pair : ∀ previous word, lexicon.completed? previous word = other.completed? previous word

namespace Lexicon.FindsLike

variable {lexicon other : Lexicon}

theorem read (h : lexicon.FindsLike other) (token : Token) (previous : Option Token) :
    lexicon.read token previous = other.read token previous := by
  cases token with
  | literal content => rfl
  | bare word =>
      have hpair : previous.bind (lexicon.completed? · word) =
          previous.bind (other.completed? · word) := by
        cases previous with
        | none => rfl
        | some before => exact h.pair before word
      simp only [Lexicon.read, hpair, h.single]

theorem enterPiece (h : lexicon.FindsLike other) (t : Transcript) (piece : Piece) :
    t.enterPiece lexicon piece = t.enterPiece other piece := by
  cases piece with
  | mark c => rfl
  | literal content => rfl
  | word text =>
      show t.enter lexicon (.bare text) = t.enter other (.bare text)
      unfold Transcript.enter
      rw [h.read]

theorem enterAll (h : lexicon.FindsLike other) (t : Transcript) (pieces : List Piece) :
    t.enterAll lexicon pieces = t.enterAll other pieces := by
  induction pieces generalizing t with
  | nil => rfl
  | cons piece rest ih =>
      rw [Transcript.enterAll_cons, Transcript.enterAll_cons, h.enterPiece]
      exact ih _

/-- **What is found is all that reading takes from a lexicon.** -/
theorem transcribe {dialect : Dialect} (h : lexicon.FindsLike dialect.lexicon) (source : Text) :
    (dialect.withLexicon lexicon).transcribe source = dialect.transcribe source := by
  by_cases hne : source = []
  · rw [hne]
    rfl
  · have henter : Transcript.empty.enterAll lexicon =
        Transcript.empty.enterAll dialect.lexicon := funext (h.enterAll _)
    rw [Dialect.transcribe_eq_map_cut hne, Dialect.transcribe_eq_map_cut hne, ← henter]
    rfl

end Lexicon.FindsLike

/-! ## Keywords that are not confused -/

theorem Token.Spells.alike {token : Token} {word other : Text} (h : token.Spells word)
    (h' : token.Spells other) : Text.Alike word other := by
  cases token with
  | bare t => exact (Text.Alike.symm h).trans h'
  | literal t => exact h.elim

namespace Lexicon

/-- The same two words up to letter case, whatever blanks stand between them. -/
def SameWords (keyword other : Text) : Prop :=
  ∃ words ∈ pair? keyword, ∃ words' ∈ pair? other,
    Text.Alike words.1 words'.1 ∧ Text.Alike words.2 words'.2

instance (keyword other : Text) : Decidable (SameWords keyword other) :=
  inferInstanceAs (Decidable (∃ words ∈ pair? keyword, ∃ words' ∈ pair? other,
    Text.Alike words.1 words'.1 ∧ Text.Alike words.2 words'.2))

/-- Keywords such that nothing matches both. -/
def Apart (keyword other : Text) : Prop :=
  ¬ Text.Alike keyword other ∧ ¬ SameWords keyword other

instance (keyword other : Text) : Decidable (Apart keyword other) :=
  inferInstanceAs (Decidable (_ ∧ _))

theorem Apart.symm {keyword other : Text} (h : Apart keyword other) : Apart other keyword := by
  refine ⟨fun halike => h.1 halike.symm, ?_⟩
  rintro ⟨words, hwords, words', hwords', hfirst, hsecond⟩
  exact h.2 ⟨words', hwords', words, hwords, hfirst.symm, hsecond.symm⟩

instance : Std.Symm Apart :=
  ⟨fun _ _ => Apart.symm⟩

/-- No two of the keywords match the same. -/
def Distinct (lexicon : Lexicon) : Prop :=
  lexicon.keywords.Pairwise Apart

instance (lexicon : Lexicon) : Decidable lexicon.Distinct :=
  inferInstanceAs (Decidable (List.Pairwise Apart lexicon.keywords))

/-- The same kind of statement with another list of keywords. -/
def withKeywords (lexicon : Lexicon) (keywords : List Text) : Lexicon :=
  { lexicon with keywords := keywords }

variable {lexicon : Lexicon}

theorem Distinct.eq_of_alike (h : lexicon.Distinct) {keyword other : Text}
    (hkeyword : keyword ∈ lexicon.keywords) (hother : other ∈ lexicon.keywords)
    (halike : Text.Alike keyword other) : keyword = other := by
  by_contra hne
  exact (h.forall hkeyword hother hne).1 halike

theorem Distinct.eq_of_sameWords (h : lexicon.Distinct) {keyword other : Text}
    (hkeyword : keyword ∈ lexicon.keywords) (hother : other ∈ lexicon.keywords)
    (hwords : SameWords keyword other) : keyword = other := by
  by_contra hne
  exact (h.forall hkeyword hother hne).2 hwords

/-- The one keyword with the letters of a word is found. -/
theorem Distinct.find?_eq_some_iff (h : lexicon.Distinct) {word name : Text} :
    lexicon.find? word = some name ↔ name ∈ lexicon.keywords ∧ Text.Alike name word := by
  constructor
  · exact find?_alike
  · rintro ⟨hname, halike⟩
    cases hfind : lexicon.find? word with
    | none =>
        exact absurd (decide_eq_true halike) (List.find?_eq_none.mp hfind name hname)
    | some other =>
        obtain ⟨hother, halike'⟩ := find?_alike hfind
        rw [h.eq_of_alike hother hname (halike'.trans halike.symm)]

/-- The one keyword whose two words are there is found. -/
theorem Distinct.completed?_eq_some_iff (h : lexicon.Distinct) {previous : Token}
    {word name : Text} :
    lexicon.completed? previous word = some name ↔
      name ∈ lexicon.keywords ∧ ∃ first second, pair? name = some (first, second) ∧
        previous.Spells first ∧ Text.Alike second word := by
  constructor
  · exact exists_pair_of_completed?
  · rintro ⟨hname, first, second, hpair, hspells, halike⟩
    cases hfound : lexicon.completed? previous word with
    | none =>
        exact absurd halike
          (completed?_eq_none_iff.mp hfound name hname first second hpair hspells)
    | some other =>
        obtain ⟨hother, first', second', hpair', hspells', halike'⟩ :=
          exists_pair_of_completed? hfound
        have hwords : SameWords other name :=
          ⟨_, hpair', _, hpair, hspells'.alike hspells, halike'.trans halike.symm⟩
        rw [h.eq_of_sameWords hother hname hwords]

theorem Distinct.withKeywords (h : lexicon.Distinct) {keywords : List Text}
    (hperm : keywords.Perm lexicon.keywords) : (lexicon.withKeywords keywords).Distinct :=
  (hperm.pairwise_iff Apart.symm).mpr h

/-- What has one match is found wherever it stands. -/
theorem Distinct.findsLike (h : lexicon.Distinct) {keywords : List Text}
    (hperm : keywords.Perm lexicon.keywords) :
    (lexicon.withKeywords keywords).FindsLike lexicon where
  single := by
    intro word
    refine Option.ext fun name => ?_
    rw [(h.withKeywords hperm).find?_eq_some_iff, h.find?_eq_some_iff]
    exact and_congr_left' hperm.mem_iff
  pair := by
    intro previous word
    refine Option.ext fun name => ?_
    rw [(h.withKeywords hperm).completed?_eq_some_iff, h.completed?_eq_some_iff]
    exact and_congr_left' hperm.mem_iff

end Lexicon

namespace Dialect

/-- **The order of keywords is not seen**, if no two of them match the same: listed in any
other order they give every source the same transcript, or refuse it in the same way, and
the table, the clause and the statement are the same. -/
theorem keyword_order_unseen {dialect : Dialect} (hdistinct : dialect.lexicon.Distinct)
    {keywords : List Text} (hperm : keywords.Perm dialect.lexicon.keywords) (source : Text) :
    (dialect.withLexicon (dialect.lexicon.withKeywords keywords)).transcribe source =
        dialect.transcribe source ∧
      (∀ t, dialect.transcribe source = .ok t →
        t.table (dialect.lexicon.withKeywords keywords) = t.table dialect.lexicon ∧
          t.clause (dialect.lexicon.withKeywords keywords) = t.clause dialect.lexicon) ∧
      (dialect.withLexicon (dialect.lexicon.withKeywords keywords)).parse source =
        dialect.parse source := by
  have hsame := (hdistinct.findsLike hperm).transcribe source
  refine ⟨hsame, fun t _ => ⟨rfl, rfl⟩, ?_⟩
  unfold parse
  rw [hsame]
  rfl

/-- A dialect in which the second word of a keyword is a keyword, and the first word of
another. -/
def entangled : Dialect where
  alphabet := .mysql
  lexicon := ⟨["BY".toList, "FROM".toList, "ORDER BY".toList, "Limit Order".toList],
    "FROM".toList, ["ORDER BY".toList, "BY".toList]⟩

/-- The keywords from the last to the first. -/
theorem keyword_order_unseen_reversed :
    entangled.lexicon.Distinct ∧
      (entangled.withLexicon (entangled.lexicon.withKeywords
        entangled.lexicon.keywords.reverse)).transcribe "limit order by order by x".toList =
          .ok ⟨[.bare "x".toList], .ofList [⟨"Limit Order".toList, 0⟩, ⟨"BY".toList, 0⟩,
            ⟨"ORDER BY".toList, 0⟩]⟩ := by
  have hdistinct : entangled.lexicon.Distinct := by decide
  refine ⟨hdistinct, (keyword_order_unseen hdistinct (List.reverse_perm _) _).1.trans ?_⟩
  rfl

/-- Two keywords with the same two words: the one that is listed first is noted. -/
example : (⟨["A  B".toList, "A B".toList], [], []⟩ : Lexicon).completed? (.bare "a".toList)
    "b".toList = some "A  B".toList := by decide

end Dialect

end SqlDelete
