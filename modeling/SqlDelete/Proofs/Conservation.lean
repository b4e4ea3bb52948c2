import SqlDelete.Proofs.Stream

/-!
# Scanning loses no character

Each character of a scan is either given back with an effect, behind the word or the
literal that it ended, or still pending. A scan can be told from what it has read: inside a
literal the pending characters are those behind the quote that opened it.
-/

namespace SqlDelete

/-- What an effect of a character gives back: the word or the literal it carries, and then
the character. A character that is kept gives nothing back yet. -/
def Effect.released (c : Char) : Effect → Text
  | .kept => []
  | .separated word _ => word ++ [c]
  | .opened word => word ++ [c]
  | .closed content => content ++ [c]

namespace Scan

/-! ## A run of the scan -/

/-- The effects of characters with their positions, one for each. -/
def effects (alphabet : Alphabet) : Scan → List (Nat × Char) → List Effect
  | _, [] => []
  | scan, (position, c) :: rest =>
      let outcome := scan.step alphabet position c
      outcome.1 :: effects alphabet outcome.2 rest

/-- The scan after characters with their positions. -/
def after (alphabet : Alphabet) (scan : Scan) (characters : List (Nat × Char)) : Scan :=
  characters.foldl (fun scan entry => (scan.step alphabet entry.1 entry.2).2) scan

/-- What the effects of characters give back. -/
def released (alphabet : Alphabet) (scan : Scan) (characters : List (Nat × Char)) : Text :=
  (List.zipWith (fun entry effect => effect.released entry.2) characters
    (scan.effects alphabet characters)).flatten

variable {alphabet : Alphabet} {scan : Scan}

@[simp] theorem after_nil : scan.after alphabet [] = scan := rfl

@[simp] theorem after_cons (entry : Nat × Char) (rest : List (Nat × Char)) :
    scan.after alphabet (entry :: rest) =
      (scan.step alphabet entry.1 entry.2).2.after alphabet rest := rfl

theorem after_snoc (past : List (Nat × Char)) (entry : Nat × Char) :
    scan.after alphabet (past ++ [entry]) =
      ((scan.after alphabet past).step alphabet entry.1 entry.2).2 := by
  simp [after]

@[simp] theorem released_nil : scan.released alphabet [] = [] := rfl

@[simp] theorem released_cons (entry : Nat × Char) (rest : List (Nat × Char)) :
    scan.released alphabet (entry :: rest) =
      (scan.step alphabet entry.1 entry.2).1.released entry.2 ++
        (scan.step alphabet entry.1 entry.2).2.released alphabet rest := by
  simp [released, effects]

/-! ## Nothing is lost -/

/-- A character joins the pending ones and stays there, or is given back behind them. -/
theorem released_step (alphabet : Alphabet) (scan : Scan) (position : Nat) (c : Char) :
    (scan.step alphabet position c).1.released c ++ (scan.step alphabet position c).2.pending =
      scan.pending ++ [c] := by
  obtain ⟨pending, region⟩ := scan
  cases region with
  | inside quote openedAt =>
      by_cases hc : c = quote
      · rw [hc, step_closing]
        exact List.append_nil _
      · rw [step_inside hc]
        rfl
  | outside =>
      by_cases hs : c ∈ alphabet.separators
      · rw [step_separator hs]
        exact List.append_nil _
      · by_cases hq : c ∈ alphabet.quotes
        · rw [step_opening hs hq]
          exact List.append_nil _
        · rw [step_other hs hq]
          rfl

/-- What was pending is given back before the characters read since. -/
theorem released_append_pending (scan : Scan) (characters : List (Nat × Char)) :
    scan.released alphabet characters ++ (scan.after alphabet characters).pending =
      scan.pending ++ characters.map Prod.snd := by
  induction characters generalizing scan with
  | nil => simp
  | cons entry rest ih =>
      rw [released_cons, after_cons, List.append_assoc, ih, ← List.append_assoc, released_step]
      simp

theorem length_effects (scan : Scan) (characters : List (Nat × Char)) :
    (scan.effects alphabet characters).length = characters.length := by
  induction characters generalizing scan with
  | nil => rfl
  | cons entry rest ih => simp [effects, ih]

/-! ## What is pending -/

theorem Sound.after (h : scan.Sound alphabet) (characters : List (Nat × Char)) :
    (scan.after alphabet characters).Sound alphabet := by
  induction characters generalizing scan with
  | nil => exact h
  | cons entry rest ih => exact ih (h.step entry.1 entry.2).2

/-- Inside a literal the pending characters are all that was read since the quote that
opened it. This quote was read with the position that is kept, and outside any literal. -/
def Recalls (alphabet : Alphabet) (past : List (Nat × Char)) (scan : Scan) : Prop :=
  ∀ quote openedAt, scan.region = .inside quote openedAt →
    ∃ before content, past = before ++ (openedAt, quote) :: content ∧
      content.map Prod.snd = scan.pending ∧ (start.after alphabet before).region = .outside

theorem recalls_of_outside {past : List (Nat × Char)} (h : scan.region = .outside) :
    scan.Recalls alphabet past := by
  intro quote openedAt hinside
  rw [h] at hinside
  cases hinside

/-- The literal that a step opens begins behind all that was read; one that is open
already goes on with the character. -/
theorem Recalls.step {past : List (Nat × Char)}
    (h : (start.after alphabet past).Recalls alphabet past) (position : Nat) (c : Char) :
    ((start.after alphabet past).step alphabet position c).2.Recalls alphabet
      (past ++ [(position, c)]) := by
  -- only the scan after `past` is told by cases; the scans before it stay runs from the start
  generalize hscan : start.after alphabet past = scan at h ⊢
  obtain ⟨pending, region⟩ := scan
  cases region with
  | inside quote openedAt =>
      by_cases hc : c = quote
      · rw [hc, step_closing]
        exact recalls_of_outside rfl
      · rw [step_inside hc]
        rintro _ _ ⟨⟩
        obtain ⟨before, content, rfl, hcontent, hbefore⟩ := h quote openedAt rfl
        exact ⟨before, content ++ [(position, c)], by simp, by simp [hcontent], hbefore⟩
  | outside =>
      by_cases hs : c ∈ alphabet.separators
      · rw [step_separator hs]
        exact recalls_of_outside rfl
      · by_cases hq : c ∈ alphabet.quotes
        · rw [step_opening hs hq]
          rintro _ _ ⟨⟩
          exact ⟨past, [], rfl, rfl, by rw [hscan]⟩
        · rw [step_other hs hq]
          exact recalls_of_outside rfl

theorem recalls_after (alphabet : Alphabet) (past : List (Nat × Char)) :
    (start.after alphabet past).Recalls alphabet past := by
  induction past using List.reverseRecOn with
  | nil => exact recalls_of_outside rfl
  | append_singleton past entry ih =>
      rw [after_snoc]
      exact ih.step entry.1 entry.2

/-- **Scanning loses no character.** After any characters, given at any positions: what
their effects give back, one effect for each, is followed by what is pending to all the
characters in their order; the pending characters are ordinary outside a literal and free of
its quote inside; and there they are those behind that quote, at the position it came with. -/
theorem effects_restore_characters (alphabet : Alphabet) (characters : List (Nat × Char)) :
    (start.effects alphabet characters).length = characters.length ∧
      start.released alphabet characters ++ (start.after alphabet characters).pending =
        characters.map Prod.snd ∧
      (start.after alphabet characters).Sound alphabet ∧
      (start.after alphabet characters).Recalls alphabet characters :=
  ⟨length_effects start characters, released_append_pending start characters,
    (sound_start alphabet).after characters, recalls_after alphabet characters⟩

example : start.after Alphabet.mysql [(4, 'x'), (4, Text.singleQuote), (9, '-'), (2, ',')] =
    ⟨"-,".toList, .inside Text.singleQuote 4⟩ := by rfl

end Scan

end SqlDelete
