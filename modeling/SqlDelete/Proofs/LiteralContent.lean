import SqlDelete.Proofs.History
import SqlDelete.Proofs.Layout

/-!
# What is quoted stays quoted

The content of a literal decides nothing but its own token. Two sources that differ in
the content of one literal have the same keywords at the same positions and the same
tokens but for that literal, or are refused at the same quote: a literal is never read
as a keyword and never taken back, and cutting goes on behind it in the same way.
-/

namespace SqlDelete

/-- Where the scan of a text ends outside any literal, the text has its pieces. -/
theorem Reader.exists_cut_of_outside {dialect : Dialect} {text : Text}
    (h : (start.readAll dialect (Text.located 0 text)).scan.region = .outside) :
    ∃ pieces, dialect.alphabet.cut 0 text = .ok pieces := by
  have hresult := result_readAll dialect start (Text.located 0 text)
  rw [show start.scan = Scan.start from rfl, Scan.pieces_start_located, result, Scan.lastWord,
    h] at hresult
  cases hcut : dialect.alphabet.cut 0 text with
  | ok pieces => exact ⟨pieces, rfl⟩
  | error e =>
      rw [hcut] at hresult
      cases hresult

/-! ## Transcripts but for one literal -/

namespace Lexicon

theorem readPiece_after_literal (lexicon : Lexicon) (piece : Piece) (content : Text) :
    lexicon.readPiece piece (some (.literal content)) = lexicon.readPiece piece none := by
  apply readPiece_of_not_begins
  rintro last ⟨⟩
  exact lexicon.not_begins_literal content

end Lexicon

namespace Transcript

/-- Two transcripts that differ in the content of one literal. -/
structure Twins (front back : List Token) (x y : Text) (s t : Transcript) : Prop where
  left : s.tokens = front ++ .literal x :: back
  right : t.tokens = front ++ .literal y :: back
  keywords : s.keywords = t.keywords

namespace Twins

variable {front back : List Token} {x y : Text} {s t : Transcript}

theorem length_eq (h : Twins front back x y s t) : s.tokens.length = t.tokens.length := by
  rw [h.left, h.right]
  simp

theorem push (h : Twins front back x y s t) (token : Token) :
    Twins front (back ++ [token]) x y (s.push token) (t.push token) :=
  ⟨by simp [h.left], by simp [h.right], h.keywords⟩

theorem noteKeyword (h : Twins front back x y s t) (name : Text) :
    Twins front back x y (s.noteKeyword name) (t.noteKeyword name) :=
  ⟨h.left, h.right, by simp [h.keywords, h.length_eq]⟩

theorem pop (h : Twins front back x y s t) (hback : back ≠ []) :
    Twins front back.dropLast x y s.pop t.pop :=
  ⟨by simp [h.left, List.dropLast_append_of_ne_nil, List.dropLast_cons_of_ne_nil hback],
    by simp [h.right, List.dropLast_append_of_ne_nil, List.dropLast_cons_of_ne_nil hback],
    h.keywords⟩

/-- A piece is read in the same way, and takes nothing back if the literal comes last. -/
theorem readPiece_eq (h : Twins front back x y s t) (lexicon : Lexicon) (piece : Piece) :
    lexicon.readPiece piece s.tokens.getLast? = lexicon.readPiece piece t.tokens.getLast? ∧
      ∀ name, lexicon.readPiece piece s.tokens.getLast? = .keyword name true → back ≠ [] := by
  rw [h.left, h.right]
  -- the token in front of the piece is the literal itself or a common one
  cases back using List.reverseRecOn with
  | nil =>
      simp only [List.getLast?_append, List.getLast?_singleton, Option.some_or]
      rw [lexicon.readPiece_after_literal, lexicon.readPiece_after_literal]
      exact ⟨rfl, fun name hname => absurd hname (lexicon.readPiece_none_ne piece name)⟩
  | append_singleton back last =>
      have hlast : ∀ z, (front ++ .literal z :: (back ++ [last])).getLast? = some last := by
        intro z
        rw [← List.cons_append, ← List.append_assoc, List.getLast?_append,
          List.getLast?_singleton]
        rfl
      rw [hlast, hlast]
      exact ⟨rfl, fun _ _ => by simp⟩

theorem enterPiece (h : Twins front back x y s t) (lexicon : Lexicon) (piece : Piece) :
    ∃ back', Twins front back' x y (s.enterPiece lexicon piece) (t.enterPiece lexicon piece) := by
  obtain ⟨heq, hback⟩ := h.readPiece_eq lexicon piece
  rw [enterPiece_eq, enterPiece_eq, ← heq]
  cases hread : lexicon.readPiece piece s.tokens.getLast? with
  | ordinary => exact ⟨_, h.push piece.token⟩
  | keyword name takesPrevious =>
      cases takesPrevious with
      | false => exact ⟨_, h.noteKeyword name⟩
      | true =>
          -- what is taken back comes after the literal
          exact ⟨_, (h.pop (hback name hread)).noteKeyword name⟩

/-- Whatever follows the literal, the transcripts stay twins. -/
theorem enterAll (h : Twins front back x y s t) (lexicon : Lexicon) (pieces : List Piece) :
    ∃ back', Twins front back' x y (s.enterAll lexicon pieces) (t.enterAll lexicon pieces) := by
  induction pieces generalizing back s t with
  | nil => exact ⟨back, h⟩
  | cons piece rest ih =>
      obtain ⟨back', h'⟩ := h.enterPiece lexicon piece
      exact ih h'

end Twins

/-! ### What twins say -/

/-- Two transcripts give the same table and the same clause, but for the literal at `place`,
whose content is `x` in one and `y` in the other. -/
structure AgreeBut (place : Nat) (x y : Text) (lexicon : Lexicon) (s t : Transcript) : Prop where
  table_literal : s.keywords.position? lexicon.tableKeyword = some place →
    s.table lexicon = .ok x ∧ t.table lexicon = .ok y
  table_other : s.keywords.position? lexicon.tableKeyword ≠ some place →
    s.table lexicon = t.table lexicon
  clauseStart : s.clauseStart? lexicon = t.clauseStart? lexicon
  clause_within : ∀ start, s.clauseStart? lexicon = some start → start ≤ place →
    ∃ before after, s.clause lexicon = before ++ (Token.literal x).written ++ after ∧
      t.clause lexicon = before ++ (Token.literal y).written ++ after
  clause_behind : (∀ start, s.clauseStart? lexicon = some start → place < start) →
    s.clause lexicon = t.clause lexicon

namespace Twins

variable {front back : List Token} {x y : Text} {s t : Transcript}

/-- The same table is found, unless it is the literal. -/
theorem table (h : Twins front back x y s t) (lexicon : Lexicon) :
    (s.keywords.position? lexicon.tableKeyword = some front.length →
        s.table lexicon = .ok x ∧ t.table lexicon = .ok y) ∧
      (s.keywords.position? lexicon.tableKeyword ≠ some front.length →
        s.table lexicon = t.table lexicon) := by
  simp only [Transcript.table, ← h.keywords]
  constructor
  · intro hposition
    simp [hposition, h.left, h.right]
  · intro hne
    cases hposition : s.keywords.position? lexicon.tableKeyword with
    | none => rfl
    | some position =>
        have hlt : position ≠ front.length := fun heq => hne (by rw [hposition, heq])
        have htoken : s.tokens[position]? = t.tokens[position]? := by
          rw [h.left, h.right, List.getElem?_append, List.getElem?_append]
          split
          · rfl
          · rw [List.getElem?_cons, List.getElem?_cons, if_neg (by omega), if_neg (by omega)]
        simp [htoken]

/-- The parts of a clause differ in the literal alone, if it stands among them. -/
theorem partsFrom (h : Twins front back x y s t) (boundary : Nat × Nat) :
    (boundary.2 ≤ front.length → ∃ before after,
        s.partsFrom boundary = before ++ (Token.literal x).written :: after ∧
          t.partsFrom boundary = before ++ (Token.literal y).written :: after) ∧
      (front.length < boundary.2 → s.partsFrom boundary = t.partsFrom boundary) := by
  have hkeywords : s.keywordsBefore boundary = t.keywordsBefore boundary := by
    funext position
    rw [keywordsBefore, keywordsBefore, h.keywords]
  have hplaces : ∀ content, (front ++ .literal content :: back).zipIdx =
      front.zipIdx ++ (Token.literal content, front.length) :: back.zipIdx (front.length + 1) := by
    intro content
    rw [List.zipIdx_append, List.zipIdx_cons, Nat.zero_add]
  have hlength : front.zipIdx.length = front.length := List.length_zipIdx
  -- the literal has the same place in both, and keywords are written by place
  rw [Transcript.partsFrom, Transcript.partsFrom, h.left, h.right, hplaces, hplaces, ← hkeywords]
  constructor
  · intro hle
    rw [List.drop_append_of_le_length (by omega), List.drop_append_of_le_length (by omega)]
    simp only [List.flatMap_append, List.flatMap_cons, List.append_assoc, List.singleton_append]
    simp only [← List.append_assoc]
    exact ⟨_, _, rfl, rfl⟩
  · intro hlt
    rw [List.drop_append, List.drop_append, List.drop_eq_nil_of_le (by omega), hlength,
      show boundary.2 - front.length = boundary.2 - front.length - 1 + 1 by omega]
    rfl

/-- The clauses differ in the literal alone, if it stands in them. -/
theorem clause (h : Twins front back x y s t) (lexicon : Lexicon) :
    s.clauseStart? lexicon = t.clauseStart? lexicon ∧
      (∀ start, s.clauseStart? lexicon = some start → start ≤ front.length →
        ∃ before after, s.clause lexicon = before ++ (Token.literal x).written ++ after ∧
          t.clause lexicon = before ++ (Token.literal y).written ++ after) ∧
      ((∀ start, s.clauseStart? lexicon = some start → front.length < start) →
        s.clause lexicon = t.clause lexicon) := by
  have hboundary : s.boundary? lexicon = t.boundary? lexicon := by
    rw [boundary?, boundary?, h.keywords]
  rw [clauseStart?, clauseStart?, Transcript.clause, Transcript.clause, ← hboundary]
  cases s.boundary? lexicon with
  | none => simp
  | some boundary =>
      obtain ⟨hwithin, hbehind⟩ := h.partsFrom boundary
      refine ⟨rfl, ?_, fun hlt => ?_⟩
      · rintro start ⟨⟩ hle
        obtain ⟨before, after, hleft, hright⟩ := hwithin hle
        refine ⟨Text.terminated before, ' ' :: Text.terminated after, ?_, ?_⟩
        · simp [hleft, Text.terminated_append]
        · simp [hright, Text.terminated_append]
      · exact congrArg Text.terminated (hbehind (hlt _ rfl))

theorem agreeBut (h : Twins front back x y s t) (lexicon : Lexicon) :
    s.AgreeBut front.length x y lexicon t := by
  obtain ⟨hliteral, hother⟩ := h.table lexicon
  obtain ⟨hstart, hwithin, hbehind⟩ := h.clause lexicon
  exact ⟨hliteral, hother, hstart, hwithin, hbehind⟩

end Twins

end Transcript

/-! ## Two sources -/

namespace Dialect

variable {dialect : Dialect} {a b x y : Text} {quote : Char}

/-- A literal is cut out between the pieces in front of it and those behind it. -/
theorem cut_around_literal {pieces : List Piece} (ha : dialect.alphabet.cut 0 a = .ok pieces)
    (hx : dialect.alphabet.Encloses quote x) :
    dialect.alphabet.cut 0 (a ++ quote :: (x ++ quote :: b)) =
      Piece.prepend (pieces ++ [.literal x])
        (dialect.alphabet.cut (Text.byteLength (a ++ quote :: (x ++ [quote]))) b) := by
  rw [Alphabet.cut_append ha (Alphabet.endsRun_quote hx.2.1 _),
    Alphabet.cut_literal hx.1 hx.2.1 hx.2.2, Piece.prepend_prepend, Text.byteLength_append a,
    Nat.zero_add]

theorem transcribe_around_literal {pieces more : List Piece}
    (ha : dialect.alphabet.cut 0 a = .ok pieces) (hx : dialect.alphabet.Encloses quote x)
    (hb : dialect.alphabet.CutsInto b more) :
    dialect.transcribe (a ++ quote :: (x ++ quote :: b)) =
      .ok (((Transcript.empty.enterAll dialect.lexicon pieces).push (.literal x)).enterAll
        dialect.lexicon more) := by
  have hcut := cut_around_literal (b := b) ha hx
  rw [hb, Piece.prepend_ok] at hcut
  rw [transcribe_of_cut (by simp) hcut, Transcript.enterAll_append, Transcript.enterAll_append]
  rfl

theorem transcribe_behind_literal {pieces : List Piece} {opened : Char} {offset : Nat}
    (ha : dialect.alphabet.cut 0 a = .ok pieces) (hx : dialect.alphabet.Encloses quote x)
    (hb : ∀ position,
      dialect.alphabet.cut position b = .error (.unclosed opened (position + offset))) :
    dialect.transcribe (a ++ quote :: (x ++ quote :: b)) =
      .error (.unclosed opened (Text.byteLength (a ++ quote :: (x ++ [quote])) + offset)) := by
  rw [transcribe_eq_error_iff (by simp), cut_around_literal ha hx, hb, Piece.prepend_error]

/-- **The content of a literal decides only its own token.** Two sources that differ in the
content of one literal are read with the same keywords and the same other tokens, so that
the table is the same unless it is the literal and the clauses differ in the literal alone;
or both are refused at the same quote. -/
theorem transcribe_literal_content (dialect : Dialect) {a b x y : Text} {quote : Char}
    (ha : (Reader.start.readAll dialect (Text.located 0 a)).scan.region = .outside)
    (hx : dialect.alphabet.Encloses quote x) (hy : dialect.alphabet.Encloses quote y) :
    (∃ s t front back, dialect.transcribe (a ++ quote :: (x ++ quote :: b)) = .ok s ∧
        dialect.transcribe (a ++ quote :: (y ++ quote :: b)) = .ok t ∧
        Transcript.Twins front back x y s t ∧
        ∀ lexicon : Lexicon, s.AgreeBut front.length x y lexicon t) ∨
      ∃ opened p q,
        dialect.transcribe (a ++ quote :: (x ++ quote :: b)) = .error (.unclosed opened p) ∧
        dialect.transcribe (a ++ quote :: (y ++ quote :: b)) = .error (.unclosed opened q) ∧
        p + Text.byteLength y = q + Text.byteLength x := by
  obtain ⟨pieces, hpieces⟩ := Reader.exists_cut_of_outside ha
  rcases dialect.alphabet.cutsInto_or_unclosed b with ⟨more, hmore⟩ | ⟨opened, offset, herror⟩
  · have hstart : Transcript.Twins (Transcript.empty.enterAll dialect.lexicon pieces).tokens [] x y
        ((Transcript.empty.enterAll dialect.lexicon pieces).push (.literal x))
        ((Transcript.empty.enterAll dialect.lexicon pieces).push (.literal y)) :=
      ⟨rfl, rfl, rfl⟩
    obtain ⟨back, htwins⟩ := hstart.enterAll dialect.lexicon more
    exact Or.inl ⟨_, _, _, back, transcribe_around_literal hpieces hx hmore,
      transcribe_around_literal hpieces hy hmore, htwins, htwins.agreeBut⟩
  · refine Or.inr ⟨opened, _, _, transcribe_behind_literal hpieces hx herror,
      transcribe_behind_literal hpieces hy herror, ?_⟩
    simp
    omega

/-- A literal between `ORDER` and `BY`, with keywords or another quote in it. -/
theorem transcribe_literal_content_between_words :
    (Reader.start.readAll mysqlDelete
        (Text.located 0 "from t where order".toList)).scan.region = .outside ∧
      mysqlDelete.alphabet.Encloses Text.singleQuote "by limit".toList ∧
      mysqlDelete.alphabet.Encloses Text.singleQuote "\"".toList ∧
      ∃ s t front back,
        mysqlDelete.transcribe "from t where order'by limit'by order by z".toList = .ok s ∧
        mysqlDelete.transcribe "from t where order'\"'by order by z".toList = .ok t ∧
        Transcript.Twins front back "by limit".toList "\"".toList s t ∧
        s.clause Lexicon.mysqlDelete = "WHERE order 'by limit' by ORDER BY z ".toList ∧
        t.clause Lexicon.mysqlDelete = "WHERE order '\"' by ORDER BY z ".toList := by
  have houtside : (Reader.start.readAll mysqlDelete
      (Text.located 0 "from t where order".toList)).scan.region = .outside := by rfl
  have hx : mysqlDelete.alphabet.Encloses Text.singleQuote "by limit".toList := by decide
  have hy : mysqlDelete.alphabet.Encloses Text.singleQuote "\"".toList := by decide
  have hs : mysqlDelete.transcribe "from t where order'by limit'by order by z".toList =
      .ok ⟨[.bare "t".toList, .bare "order".toList, .literal "by limit".toList,
          .bare "by".toList, .bare "z".toList],
        .ofList [⟨"FROM".toList, 0⟩, ⟨"WHERE".toList, 1⟩, ⟨"ORDER BY".toList, 4⟩]⟩ := by rfl
  have ht : mysqlDelete.transcribe "from t where order'\"'by order by z".toList =
      .ok ⟨[.bare "t".toList, .bare "order".toList, .literal "\"".toList, .bare "by".toList,
          .bare "z".toList],
        .ofList [⟨"FROM".toList, 0⟩, ⟨"WHERE".toList, 1⟩, ⟨"ORDER BY".toList, 4⟩]⟩ := by rfl
  refine ⟨houtside, hx, hy, ?_⟩
  rcases transcribe_literal_content mysqlDelete (b := "by order by z".toList) houtside hx hy with
    ⟨s, t, front, back, hs', ht', htwins, -⟩ | ⟨opened, p, q, herror, -⟩
  · cases hs.symm.trans hs'
    cases ht.symm.trans ht'
    exact ⟨_, _, front, back, hs, ht, htwins, by rfl, by rfl⟩
  · cases hs.symm.trans herror

end Dialect

end SqlDelete
