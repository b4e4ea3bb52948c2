import Mathlib.Data.List.Induction
import SqlDelete.Proofs.Pieces

/-!
# Where tokens and keywords come from

A history is a transcript that remembers the piece behind each of its tokens and
keywords. It tells which tokens were read before a keyword, independently of the
position at which the keyword was noted. The two agree as long as no keyword
stands between the two words of a later one: completing a pair takes back its
first word, and positions noted after that word keep counting it.
-/

namespace SqlDelete

/-- A token with the index of its piece. -/
structure Entry where
  index : Nat
  token : Token
deriving DecidableEq

/-- A noted keyword with the indices of its pieces. -/
structure Noting where
  /-- The piece that completed the keyword. -/
  index : Nat
  /-- The piece of the first word, if the keyword took one back. -/
  first : Option Nat
  occurrence : Occurrence
deriving DecidableEq

/-- The tokens and keywords of the first `size` pieces. -/
structure History where
  size : Nat
  entries : List Entry
  notings : List Noting
deriving DecidableEq

namespace Lexicon

/-- What a piece is, given the token before it. A mark is always ordinary. -/
def readPiece (lexicon : Lexicon) (piece : Piece) (previous : Option Token) : Reading :=
  match piece with
  | .mark _ => .ordinary
  | .word text => lexicon.read (.bare text) previous
  | .literal content => lexicon.read (.literal content) previous

/-- A token that spells the first word of a keyword of two words. -/
def Begins (lexicon : Lexicon) (token : Token) : Prop :=
  ∃ keyword ∈ lexicon.keywords, ∃ words ∈ pair? keyword, token.Spells words.1

instance (lexicon : Lexicon) (token : Token) : Decidable (lexicon.Begins token) :=
  inferInstanceAs (Decidable (∃ keyword ∈ lexicon.keywords, ∃ words ∈ pair? keyword,
    token.Spells words.1))

theorem not_begins_literal (lexicon : Lexicon) (content : Text) :
    ¬ lexicon.Begins (.literal content) := by
  rintro ⟨keyword, -, words, -, hspells⟩
  exact hspells

theorem begins_of_completed? {lexicon : Lexicon} {previous : Token} {word name : Text}
    (h : lexicon.completed? previous word = some name) : lexicon.Begins previous := by
  obtain ⟨hname, first, second, hpair, hspells, -⟩ := exists_pair_of_completed? h
  exact ⟨name, hname, (first, second), hpair, hspells⟩

/-- After any other token a piece is read as if nothing came before it. -/
theorem readPiece_of_not_begins {lexicon : Lexicon} {previous : Option Token}
    (h : ∀ last ∈ previous, ¬ lexicon.Begins last) (piece : Piece) :
    lexicon.readPiece piece previous = lexicon.readPiece piece none := by
  cases piece with
  | mark c => rfl
  | literal content => rfl
  | word text =>
      have hnone : previous.bind (lexicon.completed? · text) = none := by
        refine Option.bind_eq_none_iff.mpr fun last hlast => ?_
        rw [Option.eq_none_iff_forall_ne_some]
        exact fun name hname => h last hlast (begins_of_completed? hname)
      simp only [readPiece, read, hnone, Option.bind_none]

theorem readPiece_none_ne (lexicon : Lexicon) (piece : Piece) (name : Text) :
    lexicon.readPiece piece none ≠ .keyword name true := by
  cases piece with
  | mark c => simp [readPiece]
  | literal content => simp [readPiece]
  | word text =>
      simp only [readPiece, read, Option.bind_none]
      split <;> simp

end Lexicon

namespace Transcript

theorem enterPiece_eq (lexicon : Lexicon) (t : Transcript) (piece : Piece) :
    t.enterPiece lexicon piece =
      match lexicon.readPiece piece t.tokens.getLast? with
      | .ordinary => t.push piece.token
      | .keyword name true => t.pop.noteKeyword name
      | .keyword name false => t.noteKeyword name := by
  cases piece <;> rfl

end Transcript

namespace History

def start : History := ⟨0, [], []⟩

@[simp] theorem entries_start : start.entries = [] := rfl

@[simp] theorem notings_start : start.notings = [] := rfl

/-- A piece becomes a token. -/
def push (h : History) (token : Token) : History :=
  ⟨h.size + 1, h.entries ++ [⟨h.size, token⟩], h.notings⟩

/-- A piece completes a keyword before which some entries are left. -/
def note (h : History) (entries : List Entry) (first : Option Nat) (name : Text) : History :=
  ⟨h.size + 1, entries, h.notings ++ [⟨h.size, first, ⟨name, entries.length⟩⟩]⟩

@[simp] theorem size_push (h : History) (token : Token) : (h.push token).size = h.size + 1 := rfl

@[simp] theorem size_note (h : History) (entries : List Entry) (first : Option Nat)
    (name : Text) : (h.note entries first name).size = h.size + 1 := rfl

@[simp] theorem entries_push (h : History) (token : Token) :
    (h.push token).entries = h.entries ++ [⟨h.size, token⟩] := rfl

@[simp] theorem entries_note (h : History) (entries : List Entry) (first : Option Nat)
    (name : Text) : (h.note entries first name).entries = entries := rfl

theorem mem_entries_push {h : History} {token : Token} {e : Entry} :
    e ∈ (h.push token).entries ↔ e ∈ h.entries ∨ e = ⟨h.size, token⟩ := by
  simp

theorem mem_notings_note {h : History} {entries : List Entry} {first : Option Nat} {name : Text}
    {n : Noting} :
    n ∈ (h.note entries first name).notings ↔
      n ∈ h.notings ∨ n = ⟨h.size, first, ⟨name, entries.length⟩⟩ := by
  simp [note]

/-- A piece enters as it enters a transcript. -/
def enter (lexicon : Lexicon) (h : History) (piece : Piece) : History :=
  match lexicon.readPiece piece (h.entries.getLast?.map Entry.token) with
  | .ordinary => h.push piece.token
  | .keyword name true => h.note h.entries.dropLast (h.entries.getLast?.map Entry.index) name
  | .keyword name false => h.note h.entries none name

def ofPieces (lexicon : Lexicon) (pieces : List Piece) : History :=
  pieces.foldl (enter lexicon) start

/-- What the history is a history of. -/
def transcript (h : History) : Transcript :=
  ⟨h.entries.map Entry.token, .ofList (h.notings.map Noting.occurrence)⟩

theorem occurrences_transcript (h : History) :
    h.transcript.keywords.occurrences = h.notings.map Noting.occurrence := by
  simp [transcript]

theorem length_tokens_transcript (h : History) :
    h.transcript.tokens.length = h.entries.length := by
  simp [transcript]

theorem ofPieces_snoc (lexicon : Lexicon) (pieces : List Piece) (piece : Piece) :
    ofPieces lexicon (pieces ++ [piece]) = (ofPieces lexicon pieces).enter lexicon piece := by
  unfold ofPieces
  rw [List.foldl_append]
  rfl

/-- What one piece can do. -/
theorem enter_cases (lexicon : Lexicon) (h : History) (piece : Piece) :
    h.enter lexicon piece = h.push piece.token ∨
      (∃ text name, piece = .word text ∧ lexicon.find? text = some name ∧
        h.enter lexicon piece = h.note h.entries none name) ∨
      ∃ text name rest entry, piece = .word text ∧ h.entries = rest ++ [entry] ∧
        lexicon.completed? entry.token text = some name ∧
        h.enter lexicon piece = h.note rest (some entry.index) name := by
  cases piece with
  | mark c => exact Or.inl rfl
  | literal content => exact Or.inl rfl
  | word text =>
      rcases lexicon.read_bare_cases text (h.entries.getLast?.map Entry.token) with
        ⟨before, name, hbefore, hname, hread⟩ | ⟨-, ⟨name, hname, hread⟩ | ⟨-, hread⟩⟩
      · obtain ⟨entry, hlast, rfl⟩ := Option.map_eq_some_iff.mp hbefore
        obtain ⟨rest, hrest⟩ := List.getLast?_eq_some_iff.mp hlast
        refine Or.inr (Or.inr ⟨text, name, rest, entry, rfl, hrest, hname, ?_⟩)
        rw [enter, Lexicon.readPiece, hread, hrest]
        simp
      · refine Or.inr (Or.inl ⟨text, name, rfl, hname, ?_⟩)
        rw [enter, Lexicon.readPiece, hread]
      · apply Or.inl
        rw [enter, Lexicon.readPiece, hread]

/-- A word that completes a pair with the last entry takes it back. -/
theorem enter_pair {lexicon : Lexicon} {h : History} {rest : List Entry} {entry : Entry}
    {word name : Text} (hrest : h.entries = rest ++ [entry])
    (hname : lexicon.completed? entry.token word = some name) :
    h.enter lexicon (.word word) = h.note rest (some entry.index) name := by
  simp [enter, Lexicon.readPiece, Lexicon.read, hrest, hname]

/-- What has been noted stays noted. -/
theorem notings_prefix_enter (lexicon : Lexicon) (h : History) (piece : Piece) :
    h.notings <+: (h.enter lexicon piece).notings := by
  rcases enter_cases lexicon h piece with
    h' | ⟨text, name, -, -, h'⟩ | ⟨text, name, rest, entry, -, -, -, h'⟩
  · rw [h']
    exact List.prefix_rfl
  · rw [h']
    exact List.prefix_append _ _
  · rw [h']
    exact List.prefix_append _ _

theorem notings_prefix_append (lexicon : Lexicon) (front back : List Piece) :
    (ofPieces lexicon front).notings <+: (ofPieces lexicon (front ++ back)).notings := by
  induction back using List.reverseRecOn with
  | nil => simp
  | append_singleton back piece ih =>
      rw [← List.append_assoc, ofPieces_snoc]
      exact ih.trans (notings_prefix_enter lexicon _ piece)

theorem transcript_enter (lexicon : Lexicon) (h : History) (piece : Piece) :
    (h.enter lexicon piece).transcript = h.transcript.enterPiece lexicon piece := by
  have hlast : h.transcript.tokens.getLast? = h.entries.getLast?.map Entry.token := by
    simp [transcript]
  rw [Transcript.enterPiece_eq, hlast, enter]
  cases lexicon.readPiece piece (h.entries.getLast?.map Entry.token) with
  | ordinary => simp [transcript, push, Transcript.push]
  | keyword name takesPrevious =>
      cases takesPrevious with
      | false =>
          simp [transcript, note, Transcript.noteKeyword, KeywordIndex.ofList_append_singleton]
      | true =>
          simp [transcript, note, Transcript.noteKeyword, Transcript.pop,
            KeywordIndex.ofList_append_singleton, List.map_dropLast]

theorem transcript_ofPieces (lexicon : Lexicon) (pieces : List Piece) :
    (ofPieces lexicon pieces).transcript = Transcript.empty.enterAll lexicon pieces := by
  induction pieces using List.reverseRecOn with
  | nil => rfl
  | append_singleton pieces piece ih =>
      rw [ofPieces_snoc, transcript_enter, ih, Transcript.enterAll_append]
      rfl

/-- The histories there can be: a piece adds a token, notes a keyword, or notes one
in place of the last token. -/
inductive Reachable : History → Prop where
  | start : Reachable start
  | push {h : History} (token : Token) : Reachable h → Reachable (h.push token)
  | note {h : History} (name : Text) : Reachable h → Reachable (h.note h.entries none name)
  | pair {h : History} {rest : List Entry} {entry : Entry} (name : Text) :
      h.entries = rest ++ [entry] → Reachable h →
      Reachable (h.note rest (some entry.index) name)

theorem reachable_ofPieces (lexicon : Lexicon) (pieces : List Piece) :
    (ofPieces lexicon pieces).Reachable := by
  induction pieces using List.reverseRecOn with
  | nil => exact .start
  | append_singleton pieces piece ih =>
      rw [ofPieces_snoc]
      rcases enter_cases lexicon (ofPieces lexicon pieces) piece with
        h | ⟨text, name, -, -, h⟩ | ⟨text, name, rest, entry, -, hrest, -, h⟩
      · rw [h]
        exact .push _ ih
      · rw [h]
        exact .note name ih
      · rw [h]
        exact .pair name hrest ih

/-! ## Order of reading -/

/-- Entries and notings stand in the order of their pieces. -/
structure Ordered (h : History) : Prop where
  entries : h.entries.Pairwise (·.index < ·.index)
  notings : h.notings.Pairwise (·.index < ·.index)
  entries_lt : ∀ e ∈ h.entries, e.index < h.size
  notings_lt : ∀ n ∈ h.notings, n.index < h.size

theorem Ordered.push {h : History} (ho : h.Ordered) (token : Token) : (h.push token).Ordered where
  entries := by
    refine List.pairwise_append.mpr ⟨ho.entries, List.pairwise_singleton _ _, ?_⟩
    intro e he m hm
    rw [List.mem_singleton.mp hm]
    exact ho.entries_lt e he
  notings := ho.notings
  entries_lt := by
    intro e he
    rcases mem_entries_push.mp he with he | rfl
    · exact Nat.lt_succ_of_lt (ho.entries_lt e he)
    · exact Nat.lt_succ_self _
  notings_lt := fun n hn => Nat.lt_succ_of_lt (ho.notings_lt n hn)

theorem Ordered.note {h : History} (ho : h.Ordered) {entries : List Entry}
    (hentries : entries.Sublist h.entries) (first : Option Nat) (name : Text) :
    (h.note entries first name).Ordered where
  entries := ho.entries.sublist hentries
  notings := by
    refine List.pairwise_append.mpr ⟨ho.notings, List.pairwise_singleton _ _, ?_⟩
    intro n hn m hm
    rw [List.mem_singleton.mp hm]
    exact ho.notings_lt n hn
  entries_lt := fun e he => Nat.lt_succ_of_lt (ho.entries_lt e (hentries.subset he))
  notings_lt := by
    intro n hn
    rcases mem_notings_note.mp hn with hn | rfl
    · exact Nat.lt_succ_of_lt (ho.notings_lt n hn)
    · exact Nat.lt_succ_self _

theorem Ordered.index_le_size_of_note {h : History} (ho : h.Ordered) {entries : List Entry}
    {first : Option Nat} {name : Text} :
    ∀ n ∈ (h.note entries first name).notings, n.index ≤ h.size := by
  intro n hn
  rcases mem_notings_note.mp hn with hn | rfl
  · exact Nat.le_of_lt (ho.notings_lt n hn)
  · exact Nat.le_refl _

theorem Reachable.ordered {h : History} (hr : h.Reachable) : h.Ordered := by
  induction hr with
  | start => exact ⟨.nil, .nil, by simp, by simp⟩
  | push token _ ih => exact ih.push token
  | note name _ ih => exact ih.note (List.Sublist.refl _) none name
  | pair name hrest _ ih => exact ih.note (by rw [hrest]; simp) _ name

/-- How many entries come from pieces before the one with an index. -/
def before (h : History) (index : Nat) : Nat :=
  h.entries.countP (·.index < index)

theorem before_le_length (h : History) (index : Nat) : h.before index ≤ h.entries.length :=
  List.countP_le_length

theorem before_mono (h : History) {i j : Nat} (hij : i ≤ j) : h.before i ≤ h.before j := by
  apply List.countP_mono_left
  intro e _ he
  simp only [decide_eq_true_eq] at he ⊢
  omega

theorem before_push {h : History} {index : Nat} (hi : index ≤ h.size) (token : Token) :
    (h.push token).before index = h.before index := by
  simp [before, List.countP_append, Nat.not_lt.mpr hi]

theorem before_eq_length {h : History} {index : Nat} (hlt : ∀ e ∈ h.entries, e.index < index) :
    h.before index = h.entries.length :=
  List.countP_eq_length.mpr fun e he => decide_eq_true (hlt e he)

/-- An entry that is taken back is one fewer before every piece that came after it. -/
theorem before_eq_add {h : History} {rest : List Entry} {entry : Entry}
    (hrest : h.entries = rest ++ [entry]) (first : Option Nat) (name : Text) (index : Nat) :
    h.before index =
      (h.note rest first name).before index + if entry.index < index then 1 else 0 := by
  simp [before, hrest, List.countP_append, List.countP_singleton]

/-! ## Positions -/

/-- The positions of the keywords say how many tokens come before each of them. -/
structure Faithful (h : History) : Prop where
  within : ∀ o ∈ h.transcript.keywords.occurrences, o.position ≤ h.transcript.tokens.length
  sorted : h.transcript.keywords.occurrences.Pairwise (·.position ≤ ·.position)
  /-- A position is the number of tokens read before the keyword. -/
  counted : ∀ n ∈ h.notings, n.occurrence.position = h.before n.index

/-- Some keyword was completed between the two words of a later one. -/
def Straddled (h : History) : Prop :=
  ∃ n ∈ h.notings, ∃ first ∈ n.first, ∃ m ∈ h.notings, first < m.index ∧ m.index < n.index

end History

/-- A keyword whose first word came before a piece, and whose second word came after it. -/
def Noting.Straddles (n : Noting) (index : Nat) : Prop :=
  ∃ first ∈ n.first, first < index ∧ index < n.index

instance (n : Noting) (index : Nat) : Decidable (n.Straddles index) :=
  inferInstanceAs (Decidable (∃ first ∈ n.first, first < index ∧ index < n.index))

namespace History

/-- How many tokens read before the piece with an index were taken back after it. -/
def drift (h : History) (index : Nat) : Nat :=
  h.notings.countP (·.Straddles index)

@[simp] theorem drift_push (h : History) (token : Token) (index : Nat) :
    (h.push token).drift index = h.drift index := rfl

theorem drift_note (h : History) (entries : List Entry) (first : Option Nat) (name : Text)
    (index : Nat) :
    (h.note entries first name).drift index =
      h.drift index + if ∃ i ∈ first, i < index ∧ index < h.size then 1 else 0 := by
  simp [drift, note, Noting.Straddles, List.countP_append, List.countP_singleton]

theorem drift_eq_zero_iff {h : History} {index : Nat} :
    h.drift index = 0 ↔ ∀ n ∈ h.notings, ¬ n.Straddles index := by
  simp [drift, List.countP_eq_zero]

/-- Nothing has been taken back since the last piece. -/
theorem drift_last {h : History} {index : Nat} (hle : ∀ n ∈ h.notings, n.index ≤ index) :
    h.drift index = 0 := by
  rw [drift_eq_zero_iff]
  rintro n hn ⟨first, -, -, hlt⟩
  exact absurd hlt (Nat.not_lt.mpr (hle n hn))

theorem straddled_iff {h : History} : h.Straddled ↔ ∃ m ∈ h.notings, h.drift m.index ≠ 0 := by
  simp only [Ne, drift_eq_zero_iff, not_forall, not_not]
  constructor
  · rintro ⟨n, hn, first, hfirst, m, hm, hlt⟩
    exact ⟨m, hm, n, hn, first, hfirst, hlt⟩
  · rintro ⟨m, hm, n, hn, first, hfirst, hlt⟩
    exact ⟨n, hn, first, hfirst, m, hm, hlt⟩

/-- **What a position counts**: the tokens read before the keyword that are still there,
and those that were taken back after it. -/
theorem Reachable.position_eq {h : History} (hr : h.Reachable) :
    ∀ n ∈ h.notings, n.occurrence.position = h.before n.index + h.drift n.index := by
  induction hr with
  | start => simp
  | push token hr ih =>
      intro n hn
      rw [before_push (Nat.le_of_lt (hr.ordered.notings_lt n hn)), drift_push]
      exact ih n hn
  | @note h name hr ih =>
      intro n hn
      have hbefore : ∀ index, (h.note h.entries none name).before index = h.before index :=
        fun _ => rfl
      rcases mem_notings_note.mp hn with hn | rfl
      · simpa [hbefore, drift_note] using ih n hn
      · rw [drift_last hr.ordered.index_le_size_of_note, hbefore]
        exact (History.before_eq_length hr.ordered.entries_lt).symm
  | @pair h rest entry name hrest hr ih =>
      intro n hn
      rcases mem_notings_note.mp hn with hn | rfl
      · -- the first word that is taken back no longer counts as there, but as taken back
        have hlt := hr.ordered.notings_lt n hn
        have hbefore := before_eq_add hrest (some entry.index) name n.index
        simp only [ih n hn, drift_note, Option.mem_some_iff, exists_eq_left', hlt, and_true]
        omega
      · rw [drift_last hr.ordered.index_le_size_of_note]
        refine (History.before_eq_length (h := h.note rest (some entry.index) name) ?_).symm
        intro e he
        exact hr.ordered.entries_lt e (by rw [hrest]; exact List.mem_append_left _ he)

/-- Positions are faithful exactly if no keyword stands between the two words of a
later one. -/
theorem Reachable.faithful_iff {h : History} (hr : h.Reachable) :
    h.Faithful ↔ ¬ h.Straddled := by
  constructor
  · intro hf hs
    obtain ⟨m, hm, hne⟩ := straddled_iff.mp hs
    -- a position that counts the tokens read before has no room for others
    have heq := hr.position_eq m hm
    rw [hf.counted m hm] at heq
    omega
  · intro hs
    have hcounted : ∀ n ∈ h.notings, n.occurrence.position = h.before n.index := by
      intro n hn
      have hzero : h.drift n.index = 0 := by
        by_contra hne
        exact hs (straddled_iff.mpr ⟨n, hn, hne⟩)
      rw [hr.position_eq n hn, hzero, Nat.add_zero]
    refine ⟨?_, ?_, hcounted⟩
    · intro o ho
      rw [occurrences_transcript] at ho
      obtain ⟨n, hn, rfl⟩ := List.mem_map.mp ho
      rw [hcounted n hn, length_tokens_transcript]
      exact h.before_le_length n.index
    · rw [occurrences_transcript, List.pairwise_map]
      refine hr.ordered.notings.imp_of_mem ?_
      intro m n hm hn hlt
      rw [hcounted m hm, hcounted n hn]
      exact h.before_mono (Nat.le_of_lt hlt)

/-! ## What a history tells about its pieces -/

/-- A noted keyword is a piece with its letters, or completes one with an earlier piece. -/
def ReadFrom (lexicon : Lexicon) (pieces : List Piece) (n : Noting) : Prop :=
  ∃ text, pieces[n.index]? = some (.word text) ∧
    match n.first with
    | none => lexicon.find? text = some n.occurrence.keyword
    | some i => i < n.index ∧ ∃ first, pieces[i]? = some first ∧
        lexicon.completed? first.token text = some n.occurrence.keyword

/-- Every token and keyword of a history comes from the piece that it names. -/
structure Traces (lexicon : Lexicon) (h : History) (pieces : List Piece) : Prop where
  size : h.size = pieces.length
  ordered : h.Ordered
  entries : ∀ e ∈ h.entries, ∃ piece, pieces[e.index]? = some piece ∧ piece.token = e.token
  notings : ∀ n ∈ h.notings, ReadFrom lexicon pieces n

theorem getElem?_append_of_eq_some {pieces : List Piece} {i : Nat} {piece : Piece}
    (h : pieces[i]? = some piece) (more : List Piece) : (pieces ++ more)[i]? = some piece := by
  rw [List.getElem?_append_left (List.getElem?_eq_some_iff.mp h).1, h]

theorem ReadFrom.append {lexicon : Lexicon} {pieces : List Piece} {n : Noting}
    (h : ReadFrom lexicon pieces n) (more : List Piece) :
    ReadFrom lexicon (pieces ++ more) n := by
  obtain ⟨text, htext, hn⟩ := h
  refine ⟨text, getElem?_append_of_eq_some htext more, ?_⟩
  cases hfirst : n.first with
  | none =>
      rw [hfirst] at hn
      exact hn
  | some i =>
      rw [hfirst] at hn
      obtain ⟨hi, first, hpiece, hcompleted⟩ := hn
      exact ⟨hi, first, getElem?_append_of_eq_some hpiece more, hcompleted⟩

theorem Traces.enter {lexicon : Lexicon} {h : History} {pieces : List Piece}
    (ht : h.Traces lexicon pieces) (piece : Piece) :
    (h.enter lexicon piece).Traces lexicon (pieces ++ [piece]) := by
  have hsize : h.size + 1 = (pieces ++ [piece]).length := by simp [ht.size]
  have hlast : (pieces ++ [piece])[h.size]? = some piece := by simp [ht.size]
  have hentries : ∀ e ∈ h.entries,
      ∃ source, (pieces ++ [piece])[e.index]? = some source ∧ source.token = e.token := by
    intro e he
    obtain ⟨source, hsource, htoken⟩ := ht.entries e he
    exact ⟨source, getElem?_append_of_eq_some hsource _, htoken⟩
  rcases enter_cases lexicon h piece with
    h' | ⟨text, name, rfl, hfound, h'⟩ | ⟨text, name, rest, entry, rfl, hrest, hcompleted, h'⟩
  · rw [h']
    refine ⟨hsize, ht.ordered.push _, ?_, fun n hn => (ht.notings n hn).append _⟩
    intro e he
    rcases mem_entries_push.mp he with he | rfl
    · exact hentries e he
    · exact ⟨piece, hlast, rfl⟩
  · rw [h']
    refine ⟨hsize, ht.ordered.note (List.Sublist.refl _) _ _, hentries, ?_⟩
    intro n hn
    rcases mem_notings_note.mp hn with hn | rfl
    · exact (ht.notings n hn).append _
    · exact ⟨text, hlast, hfound⟩
  · rw [h']
    have hsub : rest.Sublist h.entries := by
      rw [hrest]
      exact List.sublist_append_left rest [entry]
    have hentry : entry ∈ h.entries := by
      rw [hrest]
      simp
    refine ⟨hsize, ht.ordered.note hsub _ _, fun e he => hentries e (hsub.subset he), ?_⟩
    intro n hn
    rcases mem_notings_note.mp hn with hn | rfl
    · exact (ht.notings n hn).append _
    · obtain ⟨first, hfirst, htoken⟩ := hentries entry hentry
      exact ⟨text, hlast, ht.ordered.entries_lt entry hentry, first, hfirst, htoken ▸ hcompleted⟩

theorem traces_ofPieces (lexicon : Lexicon) (pieces : List Piece) :
    (ofPieces lexicon pieces).Traces lexicon pieces := by
  induction pieces using List.reverseRecOn with
  | nil => exact ⟨rfl, Reachable.start.ordered, by simp [ofPieces], by simp [ofPieces]⟩
  | append_singleton pieces piece ih =>
      rw [ofPieces_snoc]
      exact ih.enter piece

end History

/-! ## Positions after reading -/

namespace Dialect

theorem exists_history_of_transcribe {dialect : Dialect} {source : Text} {t : Transcript}
    (h : dialect.transcribe source = .ok t) :
    ∃ pieces, dialect.alphabet.cut 0 source = .ok pieces ∧
      (History.ofPieces dialect.lexicon pieces).transcript = t := by
  obtain ⟨pieces, hcut, rfl⟩ := exists_cut_of_transcribe h
  exact ⟨pieces, hcut, History.transcript_ofPieces _ _⟩

/-- **When positions are faithful.** After any characters, and at the end of any source
that is not refused, the transcript is that of a history of the pieces read. Positions
lie within the tokens, do not decrease and count the tokens read before, unless a
keyword was completed between the two words of a later one. -/
theorem faithful_iff_not_straddled (dialect : Dialect) :
    (∀ characters, ∃ pieces h, Scan.start.completed dialect.alphabet characters = pieces ∧
        h = History.ofPieces dialect.lexicon pieces ∧
        (Reader.start.readAll dialect characters).transcript = h.transcript ∧
        h.Traces dialect.lexicon pieces ∧ (h.Faithful ↔ ¬ h.Straddled)) ∧
      ∀ source t, dialect.transcribe source = .ok t →
        ∃ pieces h, dialect.alphabet.cut 0 source = .ok pieces ∧
          h = History.ofPieces dialect.lexicon pieces ∧ t = h.transcript ∧
          h.Traces dialect.lexicon pieces ∧ (h.Faithful ↔ ¬ h.Straddled) := by
  constructor
  · intro characters
    refine ⟨_, _, rfl, rfl, ?_, History.traces_ofPieces _ _,
      (History.reachable_ofPieces _ _).faithful_iff⟩
    rw [Reader.transcript_readAll, History.transcript_ofPieces]
    rfl
  · intro source t h
    obtain ⟨pieces, hcut, rfl⟩ := exists_cut_of_transcribe h
    exact ⟨pieces, _, hcut, rfl, (History.transcript_ofPieces _ _).symm,
      History.traces_ofPieces _ _, (History.reachable_ofPieces _ _).faithful_iff⟩

/-- The first word of a keyword is taken back from before a keyword noted after it. -/
theorem position_exceeds_tokens :
    ∃ t, mysqlDelete.transcribe "order limit by".toList = .ok t ∧
      (∃ o ∈ t.keywords.occurrences, t.tokens.length < o.position) ∧
      ¬ t.keywords.occurrences.Pairwise (·.position ≤ ·.position) :=
  ⟨⟨[], .ofList [⟨"LIMIT".toList, 1⟩, ⟨"ORDER BY".toList, 0⟩]⟩, by rfl, by decide, by decide⟩

end Dialect

end SqlDelete
