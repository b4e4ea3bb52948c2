import Mathlib.Data.List.Chain
import SqlDelete.Proofs.Pieces

/-!
# Settled transcripts

What holds of every transcript while a source is read: a token is a mark, a word
that is no keyword, or a literal that some quote could enclose; no token and the
word after it make up a keyword; and the keywords come from the lexicon.
-/

namespace SqlDelete

namespace Alphabet

/-- A word is one or more ordinary characters. -/
def IsWord (alphabet : Alphabet) (word : Text) : Prop :=
  word ≠ [] ∧ ∀ c ∈ word, alphabet.Ordinary c

/-- A mark becomes a token where it separates. -/
def IsMark (alphabet : Alphabet) (c : Char) : Prop :=
  c ∈ alphabet.separators ∧ c ∈ alphabet.marks

/-- A quote encloses a content in which it does not occur. -/
def Encloses (alphabet : Alphabet) (quote : Char) (content : Text) : Prop :=
  quote ∉ alphabet.separators ∧ quote ∈ alphabet.quotes ∧ quote ∉ content

instance (alphabet : Alphabet) (word : Text) : Decidable (alphabet.IsWord word) :=
  @instDecidableAnd _ _ _ (List.decidableBAll alphabet.Ordinary word)

instance (alphabet : Alphabet) (c : Char) : Decidable (alphabet.IsMark c) :=
  inferInstanceAs (Decidable (_ ∧ _))

instance (alphabet : Alphabet) (quote : Char) (content : Text) :
    Decidable (alphabet.Encloses quote content) :=
  inferInstanceAs (Decidable (_ ∧ _))

theorem IsMark.not_isWord {alphabet : Alphabet} {c : Char} (h : alphabet.IsMark c) :
    ¬ alphabet.IsWord [c] :=
  fun hword => (hword.2 c List.mem_cons_self).1 h.1

end Alphabet

/-- What a piece of a source is made of. -/
def Piece.Fits (alphabet : Alphabet) : Piece → Prop
  | .word text => alphabet.IsWord text
  | .mark c => alphabet.IsMark c
  | .literal content => ∃ quote, alphabet.Encloses quote content

theorem Alphabet.fits_separatorPieces {alphabet : Alphabet} {c : Char}
    (h : c ∈ alphabet.separators) : ∀ piece ∈ alphabet.separatorPieces c, piece.Fits alphabet := by
  intro piece hpiece
  unfold separatorPieces at hpiece
  split at hpiece
  · rename_i hmark
    rw [List.mem_singleton] at hpiece
    rw [hpiece]
    exact ⟨h, hmark⟩
  · cases hpiece

theorem Alphabet.fits_of_cut {alphabet : Alphabet} {position : Nat} {text : Text}
    {pieces : List Piece} (h : alphabet.cut position text = .ok pieces) :
    ∀ piece ∈ pieces, piece.Fits alphabet := by
  induction position, text using cut_induction alphabet generalizing pieces with
  | nil position =>
      rw [cut_nil] at h
      cases h
      simp
  | separator position c rest hs ih =>
      rw [cut_separator hs] at h
      obtain ⟨more, hmore, rfl⟩ := Piece.prepend_eq_ok h
      intro piece hpiece
      rcases List.mem_append.mp hpiece with hpiece | hpiece
      · exact fits_separatorPieces hs piece hpiece
      · exact ih hmore piece hpiece
  | literal position quote content rest hs hq hcontent ih =>
      rw [cut_literal hs hq hcontent] at h
      obtain ⟨more, hmore, rfl⟩ := Piece.prepend_eq_ok h
      intro piece hpiece
      rcases List.mem_cons.mp hpiece with rfl | hpiece
      · exact ⟨quote, hs, hq, hcontent⟩
      · exact ih hmore piece hpiece
  | unclosed position quote rest hs hq hrest =>
      rw [cut_unclosed hs hq hrest] at h
      cases h
  | run position run rest hne hrun hrest ih =>
      rw [cut_word hne hrun hrest] at h
      obtain ⟨more, hmore, rfl⟩ := Piece.prepend_eq_ok h
      intro piece hpiece
      rcases List.mem_cons.mp hpiece with rfl | hpiece
      · exact ⟨hne, hrun⟩
      · exact ih hmore piece hpiece

namespace Dialect

/-- A word that makes up a keyword with the token before it. -/
def Joins (dialect : Dialect) (previous next : Token) : Prop :=
  ∃ word, next = .bare word ∧ dialect.alphabet.IsWord word ∧
    ∃ name, dialect.lexicon.completed? previous word = some name

/-- A token as it stands in a transcript. -/
def Settles (dialect : Dialect) : Token → Prop
  | .bare text =>
      (∃ c, dialect.alphabet.IsMark c ∧ text = [c]) ∨
        dialect.alphabet.IsWord text ∧ dialect.lexicon.find? text = none
  | .literal content => ∃ quote, dialect.alphabet.Encloses quote content

end Dialect

namespace Transcript

/-- What holds of every transcript while a source is read. -/
structure Settled (dialect : Dialect) (t : Transcript) : Prop where
  tokens : ∀ token ∈ t.tokens, dialect.Settles token
  /-- No neighbours make up a keyword. -/
  apart : t.tokens.IsChain fun previous next => ¬ dialect.Joins previous next
  keywords : t.keywords = .ofList t.keywords.occurrences
  known : ∀ o ∈ t.keywords.occurrences, o.keyword ∈ dialect.lexicon.keywords

variable {dialect : Dialect} {t : Transcript}

theorem settled_empty (dialect : Dialect) : empty.Settled dialect :=
  ⟨by simp [empty], .nil, rfl, by simp [empty, KeywordIndex.empty]⟩

theorem Settled.push (h : t.Settled dialect) {token : Token} (htoken : dialect.Settles token)
    (hapart : ∀ previous ∈ t.tokens.getLast?, ¬ dialect.Joins previous token) :
    (t.push token).Settled dialect where
  tokens := by
    intro other hother
    rcases List.mem_append.mp hother with hother | hother
    · exact h.tokens other hother
    · rw [List.mem_singleton.mp hother]
      exact htoken
  apart := by
    refine h.apart.append (List.isChain_singleton token) ?_
    rintro previous hprevious next ⟨⟩
    exact hapart previous hprevious
  keywords := h.keywords
  known := h.known

theorem Settled.pop (h : t.Settled dialect) : t.pop.Settled dialect where
  tokens := fun token htoken => h.tokens token (List.dropLast_subset _ htoken)
  apart := h.apart.dropLast
  keywords := h.keywords
  known := h.known

theorem Settled.noteKeyword (h : t.Settled dialect) {name : Text}
    (hname : name ∈ dialect.lexicon.keywords) : (t.noteKeyword name).Settled dialect where
  tokens := h.tokens
  apart := h.apart
  keywords := by
    simp only [keywords_noteKeyword, KeywordIndex.occurrences_note,
      KeywordIndex.ofList_append_singleton]
    rw [← h.keywords]
  known := by
    intro o ho
    rcases List.mem_append.mp ho with ho | ho
    · exact h.known o ho
    · rw [List.mem_singleton.mp ho]
      exact hname

theorem Settled.enterPiece (h : t.Settled dialect) {piece : Piece}
    (hpiece : piece.Fits dialect.alphabet) :
    (t.enterPiece dialect.lexicon piece).Settled dialect := by
  cases piece with
  | mark c =>
      refine h.push (Or.inl ⟨c, hpiece, rfl⟩) ?_
      rintro previous - ⟨word, ⟨⟩, hword, -⟩
      exact Alphabet.IsMark.not_isWord hpiece hword
  | literal content =>
      refine h.push hpiece ?_
      rintro previous - ⟨word, ⟨⟩, -⟩
  | word text =>
      rcases dialect.lexicon.read_bare_cases text t.tokens.getLast? with
        ⟨before, name, -, hname, hread⟩ | ⟨hnone, ⟨name, hname, hread⟩ | ⟨hfind, hread⟩⟩
      · rw [Transcript.enterPiece, enter, hread]
        exact h.pop.noteKeyword (Lexicon.exists_pair_of_completed? hname).1
      · rw [Transcript.enterPiece, enter, hread]
        exact h.noteKeyword (Lexicon.find?_alike hname).1
      · -- the word was compared with the last token before it was added
        rw [Transcript.enterPiece, enter, hread]
        refine h.push (Or.inr ⟨hpiece, hfind⟩) ?_
        rintro previous hprevious ⟨word, ⟨⟩, -, name, hname⟩
        rw [hnone previous hprevious] at hname
        cases hname

theorem Settled.enterAll (h : t.Settled dialect) {pieces : List Piece}
    (hpieces : ∀ piece ∈ pieces, piece.Fits dialect.alphabet) :
    (t.enterAll dialect.lexicon pieces).Settled dialect := by
  induction pieces generalizing t with
  | nil => exact h
  | cons piece rest ih =>
      exact ih (h.enterPiece (hpieces piece List.mem_cons_self))
        fun other hother => hpieces other (List.mem_cons_of_mem _ hother)

/-- **Transcripts are settled.** -/
theorem settled_of_transcribe {source : Text} (h : dialect.transcribe source = .ok t) :
    t.Settled dialect := by
  obtain ⟨pieces, hcut, rfl⟩ := Dialect.exists_cut_of_transcribe h
  exact (settled_empty dialect).enterAll (Alphabet.fits_of_cut hcut)

end Transcript

/-! ## While a source is read

A reader may be given characters at any positions, and may be asked for its result after any
of them. What it has transcribed is settled all the same: the pieces that a scan completes
are made of what it has kept pending. -/

namespace Scan

variable {alphabet : Alphabet} {scan : Scan}

/-- Outside a literal ordinary characters are pending, inside one a content that its quote
encloses. -/
def Sound (alphabet : Alphabet) (scan : Scan) : Prop :=
  match scan.region with
  | .outside => ∀ c ∈ scan.pending, alphabet.Ordinary c
  | .inside quote _ => alphabet.Encloses quote scan.pending

theorem sound_start (alphabet : Alphabet) : start.Sound alphabet := by
  intro c hc
  cases hc

theorem fits_ofWord {word : Text} (h : ∀ c ∈ word, alphabet.Ordinary c) :
    ∀ piece ∈ Piece.ofWord word, piece.Fits alphabet := by
  intro piece hpiece
  unfold Piece.ofWord at hpiece
  split at hpiece
  · cases hpiece
  · rename_i hne
    rw [List.mem_singleton.mp hpiece]
    exact ⟨hne, h⟩

/-- What a character completes fits, and what it leaves pending is sound. -/
theorem Sound.step (h : scan.Sound alphabet) (position : Nat) (c : Char) :
    (∀ piece ∈ (scan.step alphabet position c).1.pieces, piece.Fits alphabet) ∧
      (scan.step alphabet position c).2.Sound alphabet := by
  obtain ⟨pending, region⟩ := scan
  cases region with
  | inside quote openedAt =>
      have hquote : alphabet.Encloses quote pending := h
      by_cases hc : c = quote
      · rw [hc, step_closing]
        refine ⟨fun piece hpiece => ?_, sound_start alphabet⟩
        rw [List.mem_singleton.mp hpiece]
        exact ⟨quote, hquote⟩
      · rw [step_inside hc]
        refine ⟨fun piece hpiece => absurd hpiece List.not_mem_nil, hquote.1, hquote.2.1,
          fun hmem => ?_⟩
        rcases List.mem_append.mp hmem with hmem | hmem
        · exact hquote.2.2 hmem
        · exact hc (List.mem_singleton.mp hmem).symm
  | outside =>
      have hordinary : ∀ d ∈ pending, alphabet.Ordinary d := h
      by_cases hs : c ∈ alphabet.separators
      · have hmark : (if c ∈ alphabet.marks then some c else none).toList.map Piece.mark =
            alphabet.separatorPieces c := by
          unfold Alphabet.separatorPieces
          split <;> rfl
        rw [step_separator hs, Effect.pieces, hmark]
        refine ⟨fun piece hpiece => ?_, sound_start alphabet⟩
        rcases List.mem_append.mp hpiece with hpiece | hpiece
        · exact fits_ofWord hordinary piece hpiece
        · exact Alphabet.fits_separatorPieces hs piece hpiece
      · by_cases hq : c ∈ alphabet.quotes
        · rw [step_opening hs hq]
          exact ⟨fits_ofWord hordinary, hs, hq, List.not_mem_nil⟩
        · rw [step_other hs hq]
          refine ⟨fun piece hpiece => absurd hpiece List.not_mem_nil, fun d hd => ?_⟩
          rcases List.mem_append.mp hd with hd | hd
          · exact hordinary d hd
          · rw [List.mem_singleton.mp hd]
            exact ⟨hs, hq⟩

end Scan

namespace Reader

variable {dialect : Dialect} {reader : Reader}

/-- A sound scan with a settled transcript. -/
structure Sound (dialect : Dialect) (reader : Reader) : Prop where
  scan : reader.scan.Sound dialect.alphabet
  transcript : reader.transcript.Settled dialect

theorem sound_start (dialect : Dialect) : start.Sound dialect :=
  ⟨Scan.sound_start dialect.alphabet, Transcript.settled_empty dialect⟩

theorem Sound.read (h : reader.Sound dialect) (position : Nat) (c : Char) :
    (reader.read dialect position c).Sound dialect := by
  obtain ⟨hpieces, hscan⟩ := h.scan.step position c
  refine ⟨hscan, ?_⟩
  show (reader.transcript.record dialect.lexicon _).Settled dialect
  rw [Transcript.record_eq_enterAll]
  exact h.transcript.enterAll hpieces

theorem Sound.readAll (h : reader.Sound dialect) (characters : List (Nat × Char)) :
    (reader.readAll dialect characters).Sound dialect := by
  induction characters generalizing reader with
  | nil => exact h
  | cons entry rest ih => exact ih (h.read entry.1 entry.2)

theorem Sound.result (h : reader.Sound dialect) {t : Transcript}
    (ht : reader.result dialect = .ok t) : t.Settled dialect := by
  obtain ⟨⟨pending, region⟩, transcript⟩ := reader
  cases region with
  | inside quote openedAt => cases ht
  | outside =>
      cases ht
      rw [← Transcript.enterAll_ofWord]
      exact h.transcript.enterAll (Scan.fits_ofWord h.scan)

end Reader

/-- Two tokens that have the letters of the two words of a keyword. -/
def Lexicon.Pairs (lexicon : Lexicon) (previous next : Token) : Prop :=
  ∃ keyword ∈ lexicon.keywords, ∃ first second, pair? keyword = some (first, second) ∧
    previous.Spells first ∧ next.Spells second

theorem Dialect.joins_iff {dialect : Dialect} {previous : Token} {word : Text} :
    dialect.Joins previous (.bare word) ↔
      dialect.alphabet.IsWord word ∧ dialect.lexicon.Pairs previous (.bare word) := by
  constructor
  · rintro ⟨_, ⟨⟩, hword, name, hname⟩
    obtain ⟨hmem, first, second, hpair, hspells, halike⟩ :=
      Lexicon.exists_pair_of_completed? hname
    exact ⟨hword, name, hmem, first, second, hpair, hspells, halike.symm⟩
  · rintro ⟨hword, keyword, hmem, first, second, hpair, hspells, halike⟩
    refine ⟨word, rfl, hword, Option.ne_none_iff_exists'.mp fun hnone => ?_⟩
    exact Lexicon.completed?_eq_none_iff.mp hnone keyword hmem first second hpair hspells
      halike.symm

namespace Transcript

/-- What the tokens are, in terms of the sets and the list of the dialect. -/
structure Regular (dialect : Dialect) (t : Transcript) : Prop where
  /-- A bare token is a mark, or a word that no keyword is equal to up to letter case. -/
  bare : ∀ text, .bare text ∈ t.tokens →
    (∃ c, dialect.alphabet.IsMark c ∧ text = [c]) ∨
      dialect.alphabet.IsWord text ∧ ∀ keyword ∈ dialect.lexicon.keywords,
        ¬ Text.Alike keyword text
  /-- No token and the word next to it are the two words of a keyword. -/
  apart : ∀ front previous word back, t.tokens = front ++ previous :: .bare word :: back →
    dialect.alphabet.IsWord word → ¬ dialect.lexicon.Pairs previous (.bare word)
  /-- A literal could stand between two quotes. -/
  literal : ∀ content, .literal content ∈ t.tokens → ∃ quote,
    dialect.alphabet.Encloses quote content

theorem Settled.regular {dialect : Dialect} {t : Transcript} (h : t.Settled dialect) :
    t.Regular dialect where
  bare := by
    intro text htext
    rcases h.tokens _ htext with hmark | ⟨hword, hfind⟩
    · exact Or.inl hmark
    · refine Or.inr ⟨hword, fun keyword hkeyword halike => ?_⟩
      exact List.find?_eq_none.mp hfind keyword hkeyword (decide_eq_true halike)
  apart := by
    intro front previous word back heq hword hpairs
    exact List.isChain_iff_forall_rel_of_append_cons_cons.mp h.apart heq
      (Dialect.joins_iff.mpr ⟨hword, hpairs⟩)
  literal := fun _ hcontent => h.tokens _ hcontent

end Transcript

namespace Reader

/-- **Tokens are regular at any time.** After any characters, given at any positions, and
in the result that is asked for then: no token is a keyword, no two neighbours are, and each
is what the alphabet allows. Taking a token back uncovers neighbours that were compared
when the later one was added. -/
theorem regular_readAll (dialect : Dialect) (characters : List (Nat × Char)) :
    ((start.readAll dialect characters).transcript).Regular dialect ∧
      ∀ t, (start.readAll dialect characters).result dialect = .ok t → t.Regular dialect := by
  have hsound := (sound_start dialect).readAll characters
  exact ⟨hsound.transcript.regular, fun t ht => (hsound.result ht).regular⟩

/-- Characters at positions of their own: an `ORDER` that is uncovered stays apart from a
`BY` behind a comma, and a hyphen is a mark that does not separate. -/
theorem regular_readAll_uncovered :
    ∃ t, (start.readAll Dialect.overlapping
        (Text.located 7 "x order order by,by-'é'by".toList)).result Dialect.overlapping = .ok t ∧
      t.tokens = [.bare "x".toList, .bare "order".toList, .bare [','], .bare "by-".toList,
        .literal "é".toList, .bare "by".toList] ∧
      t.Regular Dialect.overlapping := by
  have ht : (start.readAll Dialect.overlapping
      (Text.located 7 "x order order by,by-'é'by".toList)).result Dialect.overlapping =
        .ok ⟨[.bare "x".toList, .bare "order".toList, .bare [','], .bare "by-".toList,
          .literal "é".toList, .bare "by".toList], .ofList [⟨"ORDER BY".toList, 2⟩]⟩ := by rfl
  exact ⟨_, ht, rfl, (regular_readAll Dialect.overlapping _).2 _ ht⟩

end Reader

end SqlDelete
