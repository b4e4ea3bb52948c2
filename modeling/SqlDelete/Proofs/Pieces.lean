import Mathlib.Data.List.TakeWhile
import SqlDelete.Statement

/-!
# Pieces of a source

By its characters alone a source falls into pieces: runs of ordinary characters,
marks, and quoted literals. Cutting knows no keyword, and keywords know nothing
of characters: reading a source character by character comes to the same as
cutting it first and letting its pieces enter a transcript one after the other.
-/

namespace SqlDelete

/-- A stretch of a source that is read as a whole. -/
inductive Piece where
  /-- A longest run of ordinary characters. -/
  | word (text : Text)
  /-- A separator that is a token of its own. -/
  | mark (c : Char)
  /-- What stands between two quotes. -/
  | literal (content : Text)
deriving DecidableEq

namespace Piece

/-- The token that a piece becomes if it is no keyword. -/
def token : Piece → Token
  | word text => .bare text
  | mark c => .bare [c]
  | literal content => .literal content

/-- A word is a piece unless it is empty. -/
def ofWord (word : Text) : List Piece :=
  if word = [] then [] else [.word word]

/-- Pieces put before the pieces of what follows. -/
def prepend (front : List Piece) : Except SourceError (List Piece) → Except SourceError (List Piece)
  | .ok pieces => .ok (front ++ pieces)
  | .error e => .error e

@[simp] theorem ofWord_nil : ofWord [] = [] := rfl

theorem ofWord_of_ne_nil {word : Text} (h : word ≠ []) : ofWord word = [.word word] := by
  simp [ofWord, h]

@[simp] theorem prepend_ok (front pieces : List Piece) :
    prepend front (.ok pieces) = .ok (front ++ pieces) := rfl

@[simp] theorem prepend_error (front : List Piece) (e : SourceError) :
    prepend front (.error e) = .error e := rfl

@[simp] theorem prepend_nil (result : Except SourceError (List Piece)) :
    prepend [] result = result := by
  cases result <;> rfl

theorem prepend_prepend (front more : List Piece) (result : Except SourceError (List Piece)) :
    prepend front (prepend more result) = prepend (front ++ more) result := by
  cases result <;> simp

theorem prepend_eq_ok {front pieces : List Piece} {result : Except SourceError (List Piece)}
    (h : prepend front result = .ok pieces) :
    ∃ more, result = .ok more ∧ pieces = front ++ more := by
  cases result with
  | ok more =>
      cases h
      exact ⟨more, rfl, rfl⟩
  | error e => cases h

theorem prepend_eq_error_iff {front : List Piece} {result : Except SourceError (List Piece)}
    {e : SourceError} : prepend front result = .error e ↔ result = .error e := by
  cases result <;> simp

end Piece

/-! ## Cutting a text -/

namespace Alphabet

/-- Outside a literal an ordinary character neither separates nor quotes. -/
def Ordinary (alphabet : Alphabet) (c : Char) : Prop :=
  c ∉ alphabet.separators ∧ c ∉ alphabet.quotes

instance (alphabet : Alphabet) (c : Char) : Decidable (alphabet.Ordinary c) :=
  inferInstanceAs (Decidable (_ ∧ _))

/-- The piece that a separator leaves behind, if it is a mark. -/
def separatorPieces (alphabet : Alphabet) (c : Char) : List Piece :=
  if c ∈ alphabet.marks then [.mark c] else []

/-- The pieces of a text that begins at a byte offset outside any literal. A
quote takes everything up to its next occurrence, and is refused where it stands
if it does not occur again. -/
def cut (alphabet : Alphabet) (position : Nat) : Text → Except SourceError (List Piece)
  | [] => .ok []
  | c :: rest =>
      if c ∈ alphabet.separators then
        Piece.prepend (alphabet.separatorPieces c) (alphabet.cut (position + c.utf8Size) rest)
      else if c ∈ alphabet.quotes then
        if c ∈ rest then
          let content := rest.takeWhile (· ≠ c)
          Piece.prepend [.literal content]
            (alphabet.cut (position + Text.byteLength (c :: (content ++ [c])))
              (rest.dropWhile (· ≠ c)).tail)
        else .error (.unclosed c position)
      else
        let run := c :: rest.takeWhile (alphabet.Ordinary ·)
        Piece.prepend [.word run]
          (alphabet.cut (position + Text.byteLength run) (rest.dropWhile (alphabet.Ordinary ·)))
termination_by text => text.length
decreasing_by
  · simp
  · have := (List.dropWhile_sublist (l := rest) (· ≠ c)).length_le
    simp only [List.length_tail, List.length_cons]
    omega
  · have := (List.dropWhile_sublist (l := rest) (alphabet.Ordinary ·)).length_le
    simp only [List.length_cons]
    omega

/-- A text at whose beginning a run of ordinary characters ends. -/
def EndsRun (alphabet : Alphabet) (text : Text) : Prop :=
  ∀ c ∈ text.head?, ¬ alphabet.Ordinary c

variable {alphabet : Alphabet}

theorem endsRun_quote {quote : Char} (hquote : quote ∈ alphabet.quotes) (rest : Text) :
    alphabet.EndsRun (quote :: rest) := by
  rintro c ⟨⟩ hc
  exact hc.2 hquote

@[simp] theorem cut_nil (position : Nat) : alphabet.cut position [] = .ok [] := by
  rw [cut]

theorem cut_separator {c : Char} (h : c ∈ alphabet.separators) (position : Nat) (rest : Text) :
    alphabet.cut position (c :: rest) =
      Piece.prepend (alphabet.separatorPieces c)
        (alphabet.cut (position + c.utf8Size) rest) := by
  rw [cut, if_pos h]

theorem cut_unclosed {quote : Char} (hs : quote ∉ alphabet.separators)
    (hq : quote ∈ alphabet.quotes) {rest : Text} (h : quote ∉ rest) (position : Nat) :
    alphabet.cut position (quote :: rest) = .error (.unclosed quote position) := by
  rw [cut, if_neg hs, if_pos hq, if_neg h]

theorem cut_literal {quote : Char} (hs : quote ∉ alphabet.separators)
    (hq : quote ∈ alphabet.quotes) {content : Text} (h : quote ∉ content) (position : Nat)
    (rest : Text) :
    alphabet.cut position (quote :: (content ++ quote :: rest)) =
      Piece.prepend [.literal content]
        (alphabet.cut (position + Text.byteLength (quote :: (content ++ [quote]))) rest) := by
  have hall : ∀ c ∈ content, decide (c ≠ quote) = true := by
    intro c hc
    rw [decide_eq_true_iff]
    rintro rfl
    exact h hc
  have htake : (content ++ quote :: rest).takeWhile (· ≠ quote) = content := by
    rw [List.takeWhile_append_of_pos hall]
    simp
  have hdrop : (content ++ quote :: rest).dropWhile (· ≠ quote) = quote :: rest := by
    rw [List.dropWhile_append_of_pos hall]
    simp
  rw [cut, if_neg hs, if_pos hq, if_pos (by simp)]
  simp only [htake, hdrop, List.tail_cons]

theorem cut_word {word : Text} (hne : word ≠ []) (hword : ∀ c ∈ word, alphabet.Ordinary c)
    {rest : Text} (hrest : alphabet.EndsRun rest) (position : Nat) :
    alphabet.cut position (word ++ rest) =
      Piece.prepend [.word word] (alphabet.cut (position + Text.byteLength word) rest) := by
  obtain ⟨c, run, rfl⟩ := List.exists_cons_of_ne_nil hne
  have hc := hword c List.mem_cons_self
  have hall : ∀ d ∈ run, decide (alphabet.Ordinary d) = true := by
    intro d hd
    exact decide_eq_true (hword d (List.mem_cons_of_mem _ hd))
  have htake : rest.takeWhile (alphabet.Ordinary ·) = [] := by
    cases rest with
    | nil => rfl
    | cons d more => exact List.takeWhile_cons_of_neg (by simpa using hrest d rfl)
  have hdrop : rest.dropWhile (alphabet.Ordinary ·) = rest := by
    cases rest with
    | nil => rfl
    | cons d more => exact List.dropWhile_cons_of_neg (by simpa using hrest d rfl)
  rw [List.cons_append, cut, if_neg hc.1, if_neg hc.2]
  simp [List.takeWhile_append_of_pos hall, List.dropWhile_append_of_pos hall, htake, hdrop]

theorem exists_run {c : Char} (h : alphabet.Ordinary c) (rest : Text) :
    ∃ run after, c :: rest = run ++ after ∧ run ≠ [] ∧ (∀ d ∈ run, alphabet.Ordinary d) ∧
      alphabet.EndsRun after := by
  refine ⟨c :: rest.takeWhile (alphabet.Ordinary ·), rest.dropWhile (alphabet.Ordinary ·),
    ?_, List.cons_ne_nil _ _, ?_, ?_⟩
  · rw [List.cons_append, List.takeWhile_append_dropWhile]
  · intro d hd
    rcases List.mem_cons.mp hd with rfl | hd
    · exact h
    · simpa using List.mem_takeWhile_imp hd
  · intro d hd
    have := List.head?_dropWhile_not (alphabet.Ordinary ·) rest
    rw [hd] at this
    simpa using this

variable (alphabet) in
/-- Induction along the pieces of a text. -/
@[elab_as_elim]
theorem cut_induction {motive : Nat → Text → Prop}
    (nil : ∀ position, motive position [])
    (separator : ∀ position c rest, c ∈ alphabet.separators →
      motive (position + c.utf8Size) rest → motive position (c :: rest))
    (literal : ∀ position quote content after, quote ∉ alphabet.separators →
      quote ∈ alphabet.quotes → quote ∉ content →
      motive (position + Text.byteLength (quote :: (content ++ [quote]))) after →
      motive position (quote :: (content ++ quote :: after)))
    (unclosed : ∀ position quote rest, quote ∉ alphabet.separators →
      quote ∈ alphabet.quotes → quote ∉ rest → motive position (quote :: rest))
    (run : ∀ position run after, run ≠ [] → (∀ c ∈ run, alphabet.Ordinary c) →
      alphabet.EndsRun after → motive (position + Text.byteLength run) after →
      motive position (run ++ after)) :
    ∀ position text, motive position text
  | position, [] => nil position
  | position, c :: rest => by
      have next : ∀ p after, after.length < (c :: rest).length → motive p after :=
        fun p after _ => cut_induction nil separator literal unclosed run p after
      by_cases hs : c ∈ alphabet.separators
      · exact separator position c rest hs (next _ rest (by simp))
      · by_cases hq : c ∈ alphabet.quotes
        · by_cases hc : c ∈ rest
          · obtain ⟨content, after, hsplit, hcontent⟩ := List.eq_append_cons_of_mem hc
            have hlt : after.length < (c :: rest).length := by
              rw [hsplit]
              simp
              omega
            rw [hsplit]
            exact literal position c content after hs hq hcontent (next _ after hlt)
          · exact unclosed position c rest hs hq hc
        · have hc : alphabet.Ordinary c := ⟨hs, hq⟩
          obtain ⟨word, after, hsplit, hne, hrun, hafter⟩ := exists_run hc rest
          have hlt : after.length < (c :: rest).length := by
            rw [hsplit, List.length_append]
            have := List.length_pos_iff.mpr hne
            omega
          rw [hsplit]
          exact run position word after hne hrun hafter (next _ after hlt)
termination_by _ text => text.length
decreasing_by assumption

/-- Cutting goes on where a text ends outside any literal, unless a run goes on
there too. -/
theorem cut_append {before : Text} {pieces : List Piece} {position : Nat}
    (h : alphabet.cut position before = .ok pieces) {after : Text}
    (hafter : alphabet.EndsRun after) :
    alphabet.cut position (before ++ after) =
      Piece.prepend pieces (alphabet.cut (position + Text.byteLength before) after) := by
  induction position, before using cut_induction alphabet generalizing pieces with
  | nil position =>
      rw [cut_nil] at h
      cases h
      simp
  | separator position c rest hs ih =>
      rw [cut_separator hs] at h
      obtain ⟨more, hmore, rfl⟩ := Piece.prepend_eq_ok h
      rw [List.cons_append, cut_separator hs, ih hmore, Piece.prepend_prepend]
      simp [Nat.add_assoc]
  | literal position quote content rest hs hq hcontent ih =>
      rw [cut_literal hs hq hcontent] at h
      obtain ⟨more, hmore, rfl⟩ := Piece.prepend_eq_ok h
      rw [List.cons_append, List.append_assoc, List.cons_append, cut_literal hs hq hcontent,
        ih hmore, Piece.prepend_prepend]
      simp [Nat.add_assoc]
  | unclosed position quote rest hs hq hrest =>
      rw [cut_unclosed hs hq hrest] at h
      cases h
  | run position run rest hne hrun hrest ih =>
      rw [cut_word hne hrun hrest] at h
      obtain ⟨more, hmore, rfl⟩ := Piece.prepend_eq_ok h
      -- where the run ends does not depend on what follows `rest`
      have hends : alphabet.EndsRun (rest ++ after) := by
        cases rest with
        | nil => exact hafter
        | cons d _ => exact hrest
      rw [List.append_assoc, cut_word hne hrun hends, ih hmore, Piece.prepend_prepend]
      simp [Nat.add_assoc]

/-- Cutting is refused exactly at a quote that stands outside any literal and does
not occur again. -/
theorem cut_eq_error_iff {position : Nat} {text : Text} {e : SourceError} :
    alphabet.cut position text = .error e ↔
      ∃ before quote after pieces, text = before ++ quote :: after ∧
        alphabet.cut position before = .ok pieces ∧ quote ∉ alphabet.separators ∧
        quote ∈ alphabet.quotes ∧ quote ∉ after ∧
        e = .unclosed quote (position + Text.byteLength before) := by
  constructor
  · intro h
    induction position, text using cut_induction alphabet with
    | nil position =>
        rw [cut_nil] at h
        cases h
    | separator position c rest hs ih =>
        rw [cut_separator hs, Piece.prepend_eq_error_iff] at h
        obtain ⟨before, quote, after, pieces, rfl, hpieces, hqs, hq, hafter, rfl⟩ := ih h
        refine ⟨c :: before, quote, after, alphabet.separatorPieces c ++ pieces, rfl, ?_, hqs, hq,
          hafter, ?_⟩
        · rw [cut_separator hs, hpieces, Piece.prepend_ok]
        · simp [Nat.add_assoc]
    | literal position opened content rest hs ho hcontent ih =>
        rw [cut_literal hs ho hcontent, Piece.prepend_eq_error_iff] at h
        obtain ⟨before, quote, after, pieces, rfl, hpieces, hqs, hq, hafter, rfl⟩ := ih h
        refine ⟨opened :: (content ++ opened :: before), quote, after,
          [.literal content] ++ pieces, by simp, ?_, hqs, hq, hafter, ?_⟩
        · rw [cut_literal hs ho hcontent, hpieces, Piece.prepend_ok]
        · simp [Nat.add_assoc]
    | unclosed position quote rest hs hq hrest =>
        rw [cut_unclosed hs hq hrest] at h
        cases h
        exact ⟨[], quote, rest, [], rfl, cut_nil position, hs, hq, hrest, by simp⟩
    | run position run rest hne hrun hrest ih =>
        rw [cut_word hne hrun hrest, Piece.prepend_eq_error_iff] at h
        obtain ⟨before, quote, after, pieces, rfl, hpieces, hqs, hq, hafter, rfl⟩ := ih h
        -- the run is as long in the text up to the quote
        have hbefore : alphabet.EndsRun before := by
          cases before with
          | nil => simp [EndsRun]
          | cons d _ => exact hrest
        refine ⟨run ++ before, quote, after, [.word run] ++ pieces, by simp, ?_, hqs, hq, hafter,
          ?_⟩
        · rw [cut_word hne hrun hbefore, hpieces, Piece.prepend_ok]
        · simp [Nat.add_assoc]
  · rintro ⟨before, quote, after, pieces, rfl, hpieces, hqs, hq, hafter, rfl⟩
    rw [cut_append hpieces (endsRun_quote hq after), cut_unclosed hqs hq hafter,
      Piece.prepend_error]

end Alphabet

/-! ## The pieces of a scan

A scan completes pieces with its effects. The recursion below goes with the
characters that are still to come, so that a scan may be taken up anywhere. -/

def Effect.pieces : Effect → List Piece
  | .kept => []
  | .separated word mark => Piece.ofWord word ++ mark.toList.map .mark
  | .opened word => Piece.ofWord word
  | .closed content => [.literal content]

namespace Scan

/-- The pieces completed by characters. -/
def completed (alphabet : Alphabet) : Scan → List (Nat × Char) → List Piece
  | _, [] => []
  | scan, (position, c) :: rest =>
      let outcome := scan.step alphabet position c
      outcome.1.pieces ++ completed alphabet outcome.2 rest

/-- The pieces of characters after which a source ends. -/
def pieces (alphabet : Alphabet) : Scan → List (Nat × Char) → Except SourceError (List Piece)
  | scan, [] =>
      match scan.lastWord with
      | .ok word => .ok (Piece.ofWord word)
      | .error e => .error e
  | scan, (position, c) :: rest =>
      let outcome := scan.step alphabet position c
      Piece.prepend outcome.1.pieces (pieces alphabet outcome.2 rest)

variable {alphabet : Alphabet}

@[simp] theorem pieces_outside_nil (pending : Text) :
    pieces alphabet ⟨pending, .outside⟩ [] = .ok (Piece.ofWord pending) := rfl

@[simp] theorem pieces_inside_nil (pending : Text) (quote : Char) (openedAt : Nat) :
    pieces alphabet ⟨pending, .inside quote openedAt⟩ [] = .error (.unclosed quote openedAt) :=
  rfl

theorem pieces_separator {c : Char} (h : c ∈ alphabet.separators) (pending : Text)
    (position : Nat) (rest : List (Nat × Char)) :
    pieces alphabet ⟨pending, .outside⟩ ((position, c) :: rest) =
      Piece.prepend (Piece.ofWord pending ++ alphabet.separatorPieces c)
        (pieces alphabet start rest) := by
  simp only [pieces, step_separator h, Effect.pieces, Alphabet.separatorPieces]
  by_cases hm : c ∈ alphabet.marks
  · simp [hm, start]
  · simp [hm, start]

theorem pieces_opening {c : Char} (h : c ∉ alphabet.separators) (h' : c ∈ alphabet.quotes)
    (pending : Text) (position : Nat) (rest : List (Nat × Char)) :
    pieces alphabet ⟨pending, .outside⟩ ((position, c) :: rest) =
      Piece.prepend (Piece.ofWord pending) (pieces alphabet ⟨[], .inside c position⟩ rest) := by
  rw [pieces, step_opening h h']
  rfl

theorem pieces_run {run : Text} (h : ∀ c ∈ run, alphabet.Ordinary c) (pending : Text)
    (position : Nat) (rest : List (Nat × Char)) :
    pieces alphabet ⟨pending, .outside⟩ (Text.located position run ++ rest) =
      pieces alphabet ⟨pending ++ run, .outside⟩ rest := by
  induction run generalizing pending position with
  | nil => simp
  | cons c run ih =>
      obtain ⟨hs, hq⟩ := h c List.mem_cons_self
      rw [Text.located_cons, List.cons_append, pieces, step_other hs hq]
      simp only [Effect.pieces, Piece.prepend_nil]
      rw [ih (fun d hd => h d (List.mem_cons_of_mem _ hd)), List.append_assoc,
        List.singleton_append]

/-- Inside a literal everything is kept but the quote that opened it. -/
theorem pieces_content {quote : Char} {content : Text} (h : quote ∉ content) (pending : Text)
    (openedAt position : Nat) (rest : List (Nat × Char)) :
    pieces alphabet ⟨pending, .inside quote openedAt⟩ (Text.located position content ++ rest) =
      pieces alphabet ⟨pending ++ content, .inside quote openedAt⟩ rest := by
  induction content generalizing pending position with
  | nil => simp
  | cons c content ih =>
      obtain ⟨hc, hcontent⟩ := not_or.mp (mt List.mem_cons.mpr h)
      rw [Text.located_cons, List.cons_append, pieces, step_inside (Ne.symm hc)]
      simp only [Effect.pieces, Piece.prepend_nil]
      rw [ih hcontent, List.append_assoc, List.singleton_append]

theorem pieces_closing (pending : Text) (quote : Char) (openedAt position : Nat)
    (rest : List (Nat × Char)) :
    pieces alphabet ⟨pending, .inside quote openedAt⟩ ((position, quote) :: rest) =
      Piece.prepend [.literal pending] (pieces alphabet start rest) := by
  rw [pieces, step_closing]
  rfl

/-- Where a run ends, the pending word is completed before anything else. -/
theorem pieces_endsRun {text : Text} (h : alphabet.EndsRun text) (pending : Text)
    (position : Nat) :
    pieces alphabet ⟨pending, .outside⟩ (Text.located position text) =
      Piece.prepend (Piece.ofWord pending)
        (pieces alphabet start (Text.located position text)) := by
  cases text with
  | nil => simp [start]
  | cons c rest =>
      rw [Text.located_cons]
      by_cases hs : c ∈ alphabet.separators
      · rw [pieces_separator hs, start, pieces_separator hs, Piece.prepend_prepend]
        rfl
      · have hq : c ∈ alphabet.quotes := Decidable.of_not_not fun hq => h c rfl ⟨hs, hq⟩
        rw [pieces_opening hs hq, start, pieces_opening hs hq, Piece.prepend_prepend]
        simp

/-- **Scanning is cutting.** A scan completes the pieces that cutting finds, and is
refused where cutting is. -/
theorem pieces_start_located (position : Nat) (text : Text) :
    pieces alphabet start (Text.located position text) = alphabet.cut position text := by
  induction position, text using Alphabet.cut_induction alphabet with
  | nil position => simp [start]
  | separator position c rest hs ih =>
      rw [Alphabet.cut_separator hs, Text.located_cons, start, pieces_separator hs, ih]
      simp
  | literal position quote content after hs hq hcontent ih =>
      rw [Alphabet.cut_literal hs hq hcontent, Text.located_cons, start, pieces_opening hs hq,
        Text.located_append, pieces_content hcontent, Text.located_cons, pieces_closing, ← ih]
      simp [Nat.add_assoc]
  | unclosed position quote rest hs hq hrest =>
      rw [Alphabet.cut_unclosed hs hq hrest, Text.located_cons, start, pieces_opening hs hq,
        ← List.append_nil (Text.located _ rest), pieces_content hrest]
      simp
  | run position run after hne hrun hafter ih =>
      rw [Alphabet.cut_word hne hrun hafter, Text.located_append, start, pieces_run hrun,
        pieces_endsRun hafter, ih, List.nil_append, Piece.ofWord_of_ne_nil hne]

end Scan

/-! ## Pieces entering a transcript -/

namespace Lexicon

theorem read_bare_cases (lexicon : Lexicon) (word : Text) (previous : Option Token) :
    (∃ before name, previous = some before ∧ lexicon.completed? before word = some name ∧
        lexicon.read (.bare word) previous = .keyword name true) ∨
      (∀ before ∈ previous, lexicon.completed? before word = none) ∧
        ((∃ name, lexicon.find? word = some name ∧
            lexicon.read (.bare word) previous = .keyword name false) ∨
          lexicon.find? word = none ∧ lexicon.read (.bare word) previous = .ordinary) := by
  cases hb : previous.bind (lexicon.completed? · word) with
  | some name =>
      obtain ⟨before, hprevious, hname⟩ := Option.bind_eq_some_iff.mp hb
      exact Or.inl ⟨before, name, hprevious, hname, by simp [read, hb]⟩
  | none =>
      refine Or.inr ⟨Option.bind_eq_none_iff.mp hb, ?_⟩
      cases hf : lexicon.find? word with
      | some name => exact Or.inl ⟨name, rfl, by simp [read, hb, hf]⟩
      | none => exact Or.inr ⟨rfl, by simp [read, hb, hf]⟩

end Lexicon

namespace Transcript

/-- A mark is added as it is; any other piece is read as a token. -/
def enterPiece (lexicon : Lexicon) (t : Transcript) : Piece → Transcript
  | .mark c => t.push (.bare [c])
  | .word text => t.enter lexicon (.bare text)
  | .literal content => t.enter lexicon (.literal content)

def enterAll (lexicon : Lexicon) (t : Transcript) (pieces : List Piece) : Transcript :=
  pieces.foldl (enterPiece lexicon) t

@[simp] theorem enterAll_nil (lexicon : Lexicon) (t : Transcript) : t.enterAll lexicon [] = t :=
  rfl

@[simp] theorem enterAll_cons (lexicon : Lexicon) (t : Transcript) (piece : Piece)
    (pieces : List Piece) :
    t.enterAll lexicon (piece :: pieces) = (t.enterPiece lexicon piece).enterAll lexicon pieces :=
  rfl

theorem enterAll_append (lexicon : Lexicon) (t : Transcript) (pieces more : List Piece) :
    t.enterAll lexicon (pieces ++ more) = (t.enterAll lexicon pieces).enterAll lexicon more := by
  simp [enterAll]

@[simp] theorem enterAll_ofWord (lexicon : Lexicon) (t : Transcript) (word : Text) :
    t.enterAll lexicon (Piece.ofWord word) = t.enterWord lexicon word := by
  unfold Piece.ofWord enterWord
  split <;> rfl

theorem record_eq_enterAll (lexicon : Lexicon) (t : Transcript) (effect : Effect) :
    t.record lexicon effect = t.enterAll lexicon effect.pieces := by
  cases effect with
  | kept => rfl
  | separated word mark =>
      cases mark with
      | none => simp [record, Effect.pieces]
      | some c =>
          rw [Effect.pieces, enterAll_append, enterAll_ofWord]
          rfl
  | opened word => simp [record, Effect.pieces]
  | closed content => rfl

end Transcript

namespace Reader

/-- After any characters the transcript is made up of the pieces completed so far. -/
theorem transcript_readAll (dialect : Dialect) (reader : Reader)
    (characters : List (Nat × Char)) :
    (reader.readAll dialect characters).transcript =
      reader.transcript.enterAll dialect.lexicon
        (reader.scan.completed dialect.alphabet characters) := by
  induction characters generalizing reader with
  | nil => rfl
  | cons entry rest ih =>
      obtain ⟨position, c⟩ := entry
      rw [readAll_cons, ih, Scan.completed, Transcript.enterAll_append,
        ← Transcript.record_eq_enterAll]
      rfl

/-- The result is the transcript with all pieces entered, unless a literal is open. -/
theorem result_readAll (dialect : Dialect) (reader : Reader) (characters : List (Nat × Char)) :
    (reader.readAll dialect characters).result dialect =
      (reader.scan.pieces dialect.alphabet characters).map
        (reader.transcript.enterAll dialect.lexicon) := by
  induction characters generalizing reader with
  | nil =>
      rw [readAll_nil, result, Scan.pieces]
      cases reader.scan.lastWord with
      | ok word => simp [Except.map]
      | error e => rfl
  | cons entry rest ih =>
      obtain ⟨position, c⟩ := entry
      rw [readAll_cons, ih, Scan.pieces]
      simp only [read, Transcript.record_eq_enterAll]
      cases Scan.pieces dialect.alphabet (reader.scan.step dialect.alphabet position c).2 rest with
      | ok pieces => simp [Except.map, Transcript.enterAll_append]
      | error e => rfl

end Reader

namespace Dialect

variable {dialect : Dialect} {source : Text}

theorem transcribe_eq_map_cut (h : source ≠ []) :
    dialect.transcribe source =
      (dialect.alphabet.cut 0 source).map (Transcript.empty.enterAll dialect.lexicon) := by
  rw [transcribe_of_ne_nil h, Reader.result_readAll]
  exact congrArg _ (Scan.pieces_start_located 0 source)

theorem transcribe_eq_error_iff (h : source ≠ []) {e : SourceError} :
    dialect.transcribe source = .error e ↔ dialect.alphabet.cut 0 source = .error e := by
  rw [transcribe_eq_map_cut h]
  cases dialect.alphabet.cut 0 source <;> simp [Except.map]

theorem transcribe_of_cut {pieces : List Piece} (h : source ≠ [])
    (hcut : dialect.alphabet.cut 0 source = .ok pieces) :
    dialect.transcribe source = .ok (Transcript.empty.enterAll dialect.lexicon pieces) := by
  rw [transcribe_eq_map_cut h, hcut]
  rfl

theorem exists_cut_of_transcribe {t : Transcript} (h : dialect.transcribe source = .ok t) :
    ∃ pieces, dialect.alphabet.cut 0 source = .ok pieces ∧
      Transcript.empty.enterAll dialect.lexicon pieces = t := by
  have hne : source ≠ [] := by
    rintro rfl
    cases h
  rw [transcribe_eq_map_cut hne] at h
  cases hcut : dialect.alphabet.cut 0 source with
  | ok pieces =>
      rw [hcut] at h
      cases h
      exact ⟨pieces, rfl, rfl⟩
  | error e =>
      rw [hcut] at h
      cases h

/-- **One pass is two.** Reading character by character gives the transcript of the
pieces. It is refused exactly at a quote outside any literal that does not occur
again, and sources with the same pieces have the same transcript. -/
theorem transcribe_eq_cut_then_enter (dialect : Dialect) {source : Text} (h : source ≠ []) :
    dialect.transcribe source =
        (dialect.alphabet.cut 0 source).map (Transcript.empty.enterAll dialect.lexicon) ∧
      (∀ e, dialect.transcribe source = .error e ↔
        ∃ before quote after pieces, source = before ++ quote :: after ∧
          dialect.alphabet.cut 0 before = .ok pieces ∧ quote ∉ dialect.alphabet.separators ∧
          quote ∈ dialect.alphabet.quotes ∧ quote ∉ after ∧
          e = .unclosed quote (Text.byteLength before)) ∧
      ∀ other pieces, other ≠ [] → dialect.alphabet.cut 0 source = .ok pieces →
        dialect.alphabet.cut 0 other = .ok pieces →
        dialect.transcribe other = dialect.transcribe source := by
  refine ⟨transcribe_eq_map_cut h, ?_, ?_⟩
  · intro e
    rw [transcribe_eq_error_iff h, Alphabet.cut_eq_error_iff]
    simp
  · intro other pieces hother hsource hcut
    rw [transcribe_of_cut hother hcut, transcribe_of_cut h hsource]

/-- A dialect whose comma separates, quotes and is a mark, and whose hyphen is a mark
that does not separate. -/
def overlapping : Dialect where
  alphabet := ⟨CharSet.ofList "',".toList, CharSet.ofList " ,".toList, CharSet.ofList ",-".toList⟩
  lexicon := .mysqlDelete

theorem transcribe_eq_cut_then_enter_overlapping :
    "order,-'é,'order by".toList ≠ [] ∧
      (overlapping.alphabet.cut 0 "order,-'é,'order by".toList).map
          (Transcript.empty.enterAll overlapping.lexicon) =
        .ok ⟨[.bare "order".toList, .bare [','], .bare ['-'], .literal "é,".toList],
          .ofList [⟨"ORDER BY".toList, 4⟩]⟩ := by
  have hne : "order,-'é,'order by".toList ≠ [] := by decide
  have hread := (transcribe_eq_cut_then_enter overlapping hne).1
  refine ⟨hne, hread.symm.trans ?_⟩
  rfl

end Dialect

end SqlDelete
