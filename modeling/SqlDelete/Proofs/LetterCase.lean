import Mathlib.Data.List.Forall2
import SqlDelete.Proofs.History
import SqlDelete.Proofs.Mysql

/-!
# Letter case

Where no letter separates or quotes, reading does not see the case of letters: a source in
small letters has the transcript of the source, with its tokens in small letters and the
very same keywords. So two sources that are equal up to letter case are read alike, and
what their transcripts say differs in the letters of tokens only.
-/

namespace SqlDelete

namespace Text

theorem utf8Size_toLower (c : Char) : c.toLower.utf8Size = c.utf8Size := by
  by_cases hc : 'A'.val ≤ c.val ∧ c.val ≤ 'Z'.val
  · have hsmall : c.toLower.val = c.val + ('a'.val - 'A'.val) := by rw [val_toLower, if_pos hc]
    unfold Char.utf8Size
    grind
  · rw [show c.toLower = c from Char.ext (by rw [val_toLower, if_neg hc])]

@[simp] theorem byteLength_lower (t : Text) : byteLength (lower t) = byteLength t := by
  induction t with
  | nil => rfl
  | cons c rest ih => rw [lower_cons, byteLength_cons, byteLength_cons, utf8Size_toLower, ih]

@[simp] theorem lower_lower (t : Text) : lower (lower t) = lower t := by
  rw [lower, lower, List.map_map]
  exact List.map_congr_left fun c _ => toLower_toLower c

theorem alike_lower (t : Text) : Alike (lower t) t :=
  lower_lower t

@[simp] theorem alike_lower_left {s t : Text} : Alike (lower s) t ↔ Alike s t := by
  rw [Alike, lower_lower, Alike]

@[simp] theorem alike_lower_right {s t : Text} : Alike s (lower t) ↔ Alike s t := by
  rw [Alike, lower_lower, Alike]

theorem lower_ne_nil {t : Text} (h : t ≠ []) : lower t ≠ [] := by
  simpa [lower] using h

/-- A character that is no letter occurs where it occurred. -/
theorem mem_lower_iff {c : Char} (hc : ¬ c.isAlpha = true) {t : Text} : c ∈ lower t ↔ c ∈ t := by
  rw [lower, List.mem_map]
  constructor
  · rintro ⟨d, hd, heq⟩
    have hletter : ¬ d.isAlpha = true := by rwa [← isAlpha_toLower, heq]
    rwa [← heq, toLower_of_not_isAlpha hletter]
  · intro hmem
    exact ⟨c, hmem, toLower_of_not_isAlpha hc⟩

end Text

/-! ## Small letters -/

namespace Token

/-- The token with its text in small letters. -/
def lower : Token → Token
  | bare t => bare (Text.lower t)
  | literal t => literal (Text.lower t)

/-- Tokens of one kind whose texts are equal up to letter case. -/
def Alike : Token → Token → Prop
  | bare s, bare t => Text.Alike s t
  | literal s, literal t => Text.Alike s t
  | _, _ => False

instance (x y : Token) : Decidable (x.Alike y) :=
  match x, y with
  | bare _, bare _ => inferInstanceAs (Decidable (Text.Alike _ _))
  | literal _, literal _ => inferInstanceAs (Decidable (Text.Alike _ _))
  | bare _, literal _ => isFalse id
  | literal _, bare _ => isFalse id

theorem alike_iff {x y : Token} : x.Alike y ↔ x.lower = y.lower := by
  cases x <;> cases y <;> simp [Alike, lower, Text.Alike]

@[simp] theorem text_lower (token : Token) : token.lower.text = Text.lower token.text := by
  cases token <;> rfl

@[simp] theorem spells_lower {token : Token} {word : Text} :
    token.lower.Spells word ↔ token.Spells word := by
  cases token with
  | bare t => exact Text.alike_lower_left
  | literal t => exact Iff.rfl

theorem Alike.written {x y : Token} (h : x.Alike y) : Text.Alike x.written y.written := by
  cases x with
  | bare s =>
      cases y with
      | bare t => exact h
      | literal t => exact h.elim
  | literal s =>
      cases y with
      | bare t => exact h.elim
      | literal t =>
          have heq : Text.lower s = Text.lower t := h
          simp [Text.Alike, Token.written, heq]

end Token

namespace Piece

/-- The piece with its text in small letters. -/
def lower : Piece → Piece
  | word text => word (Text.lower text)
  | mark c => mark c.toLower
  | literal content => literal (Text.lower content)

@[simp] theorem token_lower (piece : Piece) : piece.lower.token = piece.token.lower := by
  cases piece <;> rfl

end Piece

/-! ## Keywords -/

namespace Lexicon

variable (lexicon : Lexicon)

@[simp] theorem find?_lower (word : Text) :
    lexicon.find? (Text.lower word) = lexicon.find? word := by
  simp [find?]

@[simp] theorem pairsEnding_lower (word : Text) :
    lexicon.pairsEnding (Text.lower word) = lexicon.pairsEnding word := by
  simp [pairsEnding]

@[simp] theorem completed?_lower (previous : Token) (word : Text) :
    lexicon.completed? previous.lower (Text.lower word) = lexicon.completed? previous word := by
  simp [completed?]

/-- What a piece is does not depend on letter case, neither on its own nor on that of the
token before it. -/
theorem readPiece_lower (piece : Piece) (previous : Option Token) :
    lexicon.readPiece piece.lower (previous.map Token.lower) = lexicon.readPiece piece previous := by
  cases piece with
  | mark c => rfl
  | literal content => rfl
  | word text =>
      have hpair : (previous.map Token.lower).bind (lexicon.completed? · (Text.lower text)) =
          previous.bind (lexicon.completed? · text) := by
        cases previous with
        | none => rfl
        | some before => exact lexicon.completed?_lower before text
      simp only [readPiece, Piece.lower, read, hpair, find?_lower]

end Lexicon

/-! ## Transcripts -/

namespace Transcript

/-- The transcript with its tokens in small letters and its keywords as they are. -/
def lower (t : Transcript) : Transcript :=
  { t with tokens := t.tokens.map Token.lower }

@[simp] theorem tokens_lower (t : Transcript) : t.lower.tokens = t.tokens.map Token.lower := rfl

@[simp] theorem keywords_lower (t : Transcript) : t.lower.keywords = t.keywords := rfl

theorem lower_push (t : Transcript) (token : Token) :
    (t.push token).lower = t.lower.push token.lower := by
  simp [lower, push]

theorem lower_pop (t : Transcript) : t.pop.lower = t.lower.pop := by
  simp [lower, pop, List.map_dropLast]

theorem lower_noteKeyword (t : Transcript) (name : Text) :
    (t.noteKeyword name).lower = t.lower.noteKeyword name := by
  simp [lower, noteKeyword]

theorem lower_enterPiece (lexicon : Lexicon) (t : Transcript) (piece : Piece) :
    (t.enterPiece lexicon piece).lower = t.lower.enterPiece lexicon piece.lower := by
  have hread : lexicon.readPiece piece.lower t.lower.tokens.getLast? =
      lexicon.readPiece piece t.tokens.getLast? := by
    rw [tokens_lower, List.getLast?_map, lexicon.readPiece_lower]
  rw [enterPiece_eq, enterPiece_eq, hread]
  cases lexicon.readPiece piece t.tokens.getLast? with
  | ordinary => rw [lower_push, Piece.token_lower]
  | keyword name takesPrevious =>
      cases takesPrevious with
      | false => exact lower_noteKeyword t name
      | true =>
          show (t.pop.noteKeyword name).lower = _
          rw [lower_noteKeyword, lower_pop]

theorem lower_enterAll (lexicon : Lexicon) (t : Transcript) (pieces : List Piece) :
    (t.enterAll lexicon pieces).lower = t.lower.enterAll lexicon (pieces.map Piece.lower) := by
  induction pieces generalizing t with
  | nil => rfl
  | cons piece rest ih =>
      rw [enterAll_cons, ih, lower_enterPiece]
      rfl

end Transcript

/-! ## Cutting -/

namespace Alphabet

variable {alphabet : Alphabet}

theorem not_isAlpha_of_separator (hletters : ∀ c, c.isAlpha = true → alphabet.Ordinary c) {c : Char}
    (hc : c ∈ alphabet.separators) : ¬ c.isAlpha = true :=
  fun hletter => (hletters c hletter).1 hc

theorem not_isAlpha_of_quote (hletters : ∀ c, c.isAlpha = true → alphabet.Ordinary c) {c : Char}
    (hc : c ∈ alphabet.quotes) : ¬ c.isAlpha = true :=
  fun hletter => (hletters c hletter).2 hc

theorem ordinary_toLower (hletters : ∀ c, c.isAlpha = true → alphabet.Ordinary c) (c : Char) :
    alphabet.Ordinary c.toLower ↔ alphabet.Ordinary c := by
  by_cases hc : c.isAlpha = true
  · exact iff_of_true (hletters _ ((Text.isAlpha_toLower c).mpr hc)) (hletters c hc)
  · rw [Text.toLower_of_not_isAlpha hc]

theorem EndsRun.lower (hletters : ∀ c, c.isAlpha = true → alphabet.Ordinary c) {text : Text}
    (h : alphabet.EndsRun text) : alphabet.EndsRun (Text.lower text) := by
  intro c hc hordinary
  rw [Text.lower, List.head?_map] at hc
  obtain ⟨d, hd, rfl⟩ := Option.map_eq_some_iff.mp hc
  exact h d hd ((ordinary_toLower hletters d).mp hordinary)

/-- Small letters are cut where capitals were. -/
theorem cut_lower (hletters : ∀ c, c.isAlpha = true → alphabet.Ordinary c) (position : Nat)
    (text : Text) :
    alphabet.cut position (Text.lower text) =
      (alphabet.cut position text).map (List.map Piece.lower) := by
  have hprepend : ∀ front (result : Except SourceError (List Piece)),
      (Piece.prepend front result).map (List.map Piece.lower) =
        Piece.prepend (front.map Piece.lower) (result.map (List.map Piece.lower)) := by
    intro front result
    cases result <;> simp [Except.map]
  induction position, text using cut_induction alphabet with
  | nil position => simp [Except.map]
  | separator position c rest hs ih =>
      have hlower := Text.toLower_of_not_isAlpha (not_isAlpha_of_separator hletters hs)
      have hpieces : (alphabet.separatorPieces c).map Piece.lower =
          alphabet.separatorPieces c := by
        unfold separatorPieces
        split <;> simp [Piece.lower, hlower]
      rw [Text.lower_cons, hlower, cut_separator hs, cut_separator hs, ih, hprepend, hpieces]
  | literal position quote content after hs hq hcontent ih =>
      have hletter := not_isAlpha_of_quote hletters hq
      have hlower : quote ∉ Text.lower content := mt (Text.mem_lower_iff hletter).mp hcontent
      have hlength : Text.byteLength (quote :: (Text.lower content ++ [quote])) =
          Text.byteLength (quote :: (content ++ [quote])) := by simp
      rw [Text.lower_cons, Text.lower_append, Text.lower_cons,
        Text.toLower_of_not_isAlpha hletter, cut_literal hs hq hlower, cut_literal hs hq hcontent,
        hlength, ih, hprepend]
      rfl
  | unclosed position quote rest hs hq hrest =>
      have hletter := not_isAlpha_of_quote hletters hq
      have hlower : quote ∉ Text.lower rest := mt (Text.mem_lower_iff hletter).mp hrest
      rw [Text.lower_cons, Text.toLower_of_not_isAlpha hletter, cut_unclosed hs hq hlower,
        cut_unclosed hs hq hrest]
      rfl
  | run position run after hne hrun hafter ih =>
      have hlower : ∀ c ∈ Text.lower run, alphabet.Ordinary c := by
        intro c hc
        obtain ⟨d, hd, rfl⟩ := List.mem_map.mp hc
        exact (ordinary_toLower hletters d).mpr (hrun d hd)
      rw [Text.lower_append, cut_word (Text.lower_ne_nil hne) hlower (hafter.lower hletters),
        cut_word hne hrun hafter, Text.byteLength_lower, ih, hprepend]
      rfl

end Alphabet

namespace Dialect

/-- **Reading commutes with small letters.** -/
theorem transcribe_lower {dialect : Dialect}
    (hletters : ∀ c, c.isAlpha = true → dialect.alphabet.Ordinary c) (source : Text) :
    dialect.transcribe (Text.lower source) = (dialect.transcribe source).map Transcript.lower := by
  by_cases hne : source = []
  · rw [hne]
    rfl
  · rw [transcribe_eq_map_cut (Text.lower_ne_nil hne), transcribe_eq_map_cut hne,
      Alphabet.cut_lower hletters]
    cases dialect.alphabet.cut 0 source with
    | error e => rfl
    | ok pieces =>
        have hlower := Transcript.lower_enterAll dialect.lexicon Transcript.empty pieces
        exact congrArg Except.ok hlower.symm

end Dialect

/-! ## What transcripts say -/

/-- A part of a clause. -/
inductive Part where
  /-- A keyword, as the lexicon spells it. -/
  | keyword (name : Text)
  | token (token : Token)
deriving DecidableEq

namespace Part

def written : Part → Text
  | keyword name => name
  | token t => t.written

/-- The part with a token in small letters. Keywords stay as they are. -/
def lower : Part → Part
  | keyword name => keyword name
  | token t => token t.lower

/-- The same keyword, or tokens that are equal up to letter case. -/
def Alike : Part → Part → Prop
  | keyword name, keyword other => name = other
  | token s, token t => s.Alike t
  | _, _ => False

theorem alike_iff {p q : Part} : p.Alike q ↔ p.lower = q.lower := by
  cases p <;> cases q <;> simp [Alike, lower, Token.alike_iff]

theorem Alike.written {p q : Part} (h : p.Alike q) : Text.Alike p.written q.written := by
  cases p with
  | keyword name =>
      cases q with
      | keyword other => exact congrArg Text.lower h
      | token t => exact h.elim
  | token s =>
      cases q with
      | keyword other => exact h.elim
      | token t => exact Token.Alike.written h

end Part

namespace Transcript

/-- The keywords and tokens of the clause. -/
def parts (t : Transcript) (lexicon : Lexicon) : List Part :=
  match t.boundary? lexicon with
  | some boundary => (t.tokens.zipIdx.drop boundary.2).flatMap fun entry =>
      (t.keywordsBefore boundary entry.2).map .keyword ++ [.token entry.1]
  | none => []

theorem clause_eq_terminated_parts (t : Transcript) (lexicon : Lexicon) :
    t.clause lexicon = Text.terminated ((t.parts lexicon).map Part.written) := by
  unfold clause parts
  cases t.boundary? lexicon with
  | none => rfl
  | some boundary =>
      have hkeywords : ∀ names : List Text, (names.map Part.keyword).map Part.written = names := by
        intro names
        rw [List.map_map]
        exact List.map_id names
      simp [partsFrom, List.map_flatMap, hkeywords, Part.written]

theorem parts_lower (t : Transcript) (lexicon : Lexicon) :
    t.lower.parts lexicon = (t.parts lexicon).map Part.lower := by
  have hboundary : t.lower.boundary? lexicon = t.boundary? lexicon := rfl
  have hnoted : ∀ boundary, t.lower.keywordsBefore boundary = t.keywordsBefore boundary :=
    fun _ => rfl
  have hplaces : t.lower.tokens.zipIdx = t.tokens.zipIdx.map (Prod.map Token.lower id) :=
    List.zipIdx_map
  have hkeywords : ∀ names : List Text,
      (names.map Part.keyword).map Part.lower = names.map Part.keyword := by
    intro names
    rw [List.map_map]
    rfl
  unfold parts
  rw [hboundary]
  cases t.boundary? lexicon with
  | none => rfl
  | some boundary =>
      simp only [hnoted, hplaces, ← List.map_drop, List.flatMap_map, List.map_flatMap,
        List.map_append, hkeywords]
      rfl

theorem table_lower (t : Transcript) (lexicon : Lexicon) :
    t.lower.table lexicon = (t.table lexicon).map Text.lower := by
  have htoken : (t.keywords.position? lexicon.tableKeyword).bind (t.lower.tokens[·]?) =
      ((t.keywords.position? lexicon.tableKeyword).bind (t.tokens[·]?)).map Token.lower := by
    cases t.keywords.position? lexicon.tableKeyword with
    | none => rfl
    | some position => simp
  unfold table
  rw [keywords_lower, htoken]
  cases (t.keywords.position? lexicon.tableKeyword).bind (t.tokens[·]?) with
  | none => rfl
  | some token => simp [Except.map]

/-- Transcripts with the same keywords, whose tokens are equal up to letter case. -/
structure Alike (s t : Transcript) : Prop where
  keywords : s.keywords = t.keywords
  tokens : List.Forall₂ Token.Alike s.tokens t.tokens

theorem forall₂_of_map_eq {α β : Type} {f : α → β} {R : α → α → Prop}
    (hR : ∀ x y, R x y ↔ f x = f y) {xs ys : List α} (h : xs.map f = ys.map f) :
    List.Forall₂ R xs ys := by
  have heq : List.Forall₂ (· = ·) (xs.map f) (ys.map f) := by
    rw [List.forall₂_eq_eq_eq, h]
  rw [List.forall₂_map_left_iff, List.forall₂_map_right_iff] at heq
  exact heq.imp fun x y => (hR x y).mpr

theorem alike_of_lower_eq {s t : Transcript} (h : s.lower = t.lower) : s.Alike t := by
  have hkeywords := congrArg Transcript.keywords h
  have htokens := congrArg Transcript.tokens h
  rw [keywords_lower, keywords_lower] at hkeywords
  rw [tokens_lower, tokens_lower] at htokens
  exact ⟨hkeywords, forall₂_of_map_eq (f := Token.lower) (fun _ _ => Token.alike_iff) htokens⟩

theorem table_of_lower_eq {s t : Transcript} (h : s.lower = t.lower) (lexicon : Lexicon) :
    (s.table lexicon = .error .noTable ∧ t.table lexicon = .error .noTable) ∨
      ∃ name other, s.table lexicon = .ok name ∧ t.table lexicon = .ok other ∧
        Text.Alike name other := by
  have htable : (s.table lexicon).map Text.lower = (t.table lexicon).map Text.lower := by
    rw [← table_lower, h, table_lower]
  cases hs : s.table lexicon with
  | error e =>
      cases ht : t.table lexicon with
      | error e' => exact Or.inl ⟨by rw [table_eq_error hs], by rw [table_eq_error ht]⟩
      | ok other =>
          rw [hs, ht] at htable
          cases htable
  | ok name =>
      cases ht : t.table lexicon with
      | error e =>
          rw [hs, ht] at htable
          cases htable
      | ok other =>
          rw [hs, ht] at htable
          exact Or.inr ⟨name, other, rfl, rfl, Except.ok.inj htable⟩

theorem parts_of_lower_eq {s t : Transcript} (h : s.lower = t.lower) (lexicon : Lexicon) :
    List.Forall₂ Part.Alike (s.parts lexicon) (t.parts lexicon) := by
  refine forall₂_of_map_eq (f := Part.lower) (fun _ _ => Part.alike_iff) ?_
  rw [← parts_lower, h, parts_lower]

end Transcript

theorem Text.alike_terminated {ps qs : List Part} (h : List.Forall₂ Part.Alike ps qs) :
    Alike (terminated (ps.map Part.written)) (terminated (qs.map Part.written)) := by
  induction h with
  | nil => rfl
  | cons hpart _ ih =>
      rw [List.map_cons, List.map_cons, terminated_cons, terminated_cons, Alike, lower_append,
        lower_append, lower_cons, lower_cons, hpart.written, ih]

namespace Dialect

/-- **Letter case does not matter.** Where no letter separates or quotes, two sources that
are equal up to letter case are refused for the same reason at the same position, or have the
same keywords at the same positions and tokens that are equal up to letter case. The table is
missing in both or equal up to letter case, and the clauses differ in the letters of tokens
only, never in a keyword. -/
theorem transcribe_alike {dialect : Dialect}
    (hletters : ∀ c, c.isAlpha = true → dialect.alphabet.Ordinary c) {source other : Text}
    (h : Text.Alike source other) :
    (∃ e, dialect.transcribe source = .error e ∧ dialect.transcribe other = .error e) ∨
      ∃ s t, dialect.transcribe source = .ok s ∧ dialect.transcribe other = .ok t ∧ s.Alike t ∧
        ∀ lexicon : Lexicon,
          ((s.table lexicon = .error .noTable ∧ t.table lexicon = .error .noTable) ∨
            ∃ name name', s.table lexicon = .ok name ∧ t.table lexicon = .ok name' ∧
              Text.Alike name name') ∧
          Text.Alike (s.clause lexicon) (t.clause lexicon) ∧
          s.clause lexicon = Text.terminated ((s.parts lexicon).map Part.written) ∧
          t.clause lexicon = Text.terminated ((t.parts lexicon).map Part.written) ∧
          List.Forall₂ Part.Alike (s.parts lexicon) (t.parts lexicon) := by
  have hlower : (dialect.transcribe source).map Transcript.lower =
      (dialect.transcribe other).map Transcript.lower := by
    rw [← transcribe_lower hletters, ← transcribe_lower hletters]
    exact congrArg dialect.transcribe h
  cases hs : dialect.transcribe source with
  | error e =>
      cases ht : dialect.transcribe other with
      | error e' =>
          rw [hs, ht] at hlower
          cases hlower
          exact Or.inl ⟨e, rfl, rfl⟩
      | ok t =>
          rw [hs, ht] at hlower
          cases hlower
  | ok s =>
      cases ht : dialect.transcribe other with
      | error e =>
          rw [hs, ht] at hlower
          cases hlower
      | ok t =>
          rw [hs, ht] at hlower
          have heq : s.lower = t.lower := Except.ok.inj hlower
          refine Or.inr ⟨s, t, rfl, rfl, Transcript.alike_of_lower_eq heq, fun lexicon => ?_⟩
          have hparts := Transcript.parts_of_lower_eq heq lexicon
          have hclause : Text.Alike (s.clause lexicon) (t.clause lexicon) := by
            rw [s.clause_eq_terminated_parts, t.clause_eq_terminated_parts]
            exact Text.alike_terminated hparts
          exact ⟨Transcript.table_of_lower_eq heq lexicon, hclause,
            s.clause_eq_terminated_parts lexicon, t.clause_eq_terminated_parts lexicon, hparts⟩

/-- Two sources with other letters in every keyword, in the table and in a literal. -/
theorem transcribe_alike_everywhere :
    Text.Alike "from Tab where 'Xé'order by É limit".toList
        "FROM tAB Where 'xé'ORDER bY É LIMIT".toList ∧
      ∃ s t, mysqlDelete.transcribe "from Tab where 'Xé'order by É limit".toList = .ok s ∧
        mysqlDelete.transcribe "FROM tAB Where 'xé'ORDER bY É LIMIT".toList = .ok t ∧
        s.Alike t ∧ s.table Lexicon.mysqlDelete = .ok "Tab".toList ∧
        t.table Lexicon.mysqlDelete = .ok "tAB".toList ∧
        s.clause Lexicon.mysqlDelete = "WHERE 'Xé' ORDER BY É ".toList ∧
        t.clause Lexicon.mysqlDelete = "WHERE 'xé' ORDER BY É ".toList ∧
        List.Forall₂ Part.Alike (s.parts Lexicon.mysqlDelete) (t.parts Lexicon.mysqlDelete) := by
  have halike : Text.Alike "from Tab where 'Xé'order by É limit".toList
      "FROM tAB Where 'xé'ORDER bY É LIMIT".toList := by decide
  have hs : mysqlDelete.transcribe "from Tab where 'Xé'order by É limit".toList =
      .ok ⟨[.bare "Tab".toList, .literal "Xé".toList, .bare "É".toList],
        .ofList [⟨"FROM".toList, 0⟩, ⟨"WHERE".toList, 1⟩, ⟨"ORDER BY".toList, 2⟩,
          ⟨"LIMIT".toList, 3⟩]⟩ := by rfl
  have ht : mysqlDelete.transcribe "FROM tAB Where 'xé'ORDER bY É LIMIT".toList =
      .ok ⟨[.bare "tAB".toList, .literal "xé".toList, .bare "É".toList],
        .ofList [⟨"FROM".toList, 0⟩, ⟨"WHERE".toList, 1⟩, ⟨"ORDER BY".toList, 2⟩,
          ⟨"LIMIT".toList, 3⟩]⟩ := by rfl
  have hletters : ∀ c, c.isAlpha = true → mysqlDelete.alphabet.Ordinary c :=
    fun _ => Alphabet.ordinary_mysql_of_isAlpha
  refine ⟨halike, _, _, hs, ht, ?_⟩
  rcases transcribe_alike hletters halike with ⟨e, herror, -⟩ | ⟨s, t, hs', ht', hst, hviews⟩
  · cases hs.symm.trans herror
  · cases hs.symm.trans hs'
    cases ht.symm.trans ht'
    exact ⟨hst, by rfl, by rfl, by rfl, by rfl, (hviews Lexicon.mysqlDelete).2.2.2.2⟩

end Dialect

end SqlDelete
