import SqlDelete.Proofs.History

/-!
# Every piece is accounted for

Without keywords a source is read into the tokens of all its pieces. A lexicon with keywords
keeps some of them, in order, and takes the others away: each keyword takes the word that
completed it and, if it has two words, a token read before. Every piece is kept or taken,
and only once, however the keywords are nested in each other.
-/

namespace SqlDelete

/-! ## Reading without keywords -/

/-- The dialect with the same alphabet and no keyword. -/
def Dialect.withoutKeywords (dialect : Dialect) : Dialect :=
  { dialect with lexicon := { dialect.lexicon with keywords := [] } }

theorem Lexicon.readPiece_of_keywords_eq_nil {lexicon : Lexicon} (h : lexicon.keywords = [])
    (piece : Piece) (previous : Option Token) :
    lexicon.readPiece piece previous = .ordinary := by
  cases piece with
  | mark c => rfl
  | literal content => rfl
  | word text =>
      rcases lexicon.read_bare_cases text previous with
        ⟨before, name, -, hname, -⟩ | ⟨-, ⟨name, hname, -⟩ | ⟨-, hread⟩⟩
      · have hmem := (exists_pair_of_completed? hname).1
        rw [h] at hmem
        cases hmem
      · have hmem := (find?_alike hname).1
        rw [h] at hmem
        cases hmem
      · exact hread

theorem Transcript.enterAll_of_keywords_eq_nil {lexicon : Lexicon} (h : lexicon.keywords = [])
    (t : Transcript) (pieces : List Piece) :
    t.enterAll lexicon pieces = ⟨t.tokens ++ pieces.map Piece.token, t.keywords⟩ := by
  induction pieces generalizing t with
  | nil => simp
  | cons piece rest ih =>
      rw [enterAll_cons, enterPiece_eq, Lexicon.readPiece_of_keywords_eq_nil h, ih]
      simp

/-- Without keywords every piece is a token. -/
theorem Dialect.transcribe_withoutKeywords {dialect : Dialect} {source : Text} (h : source ≠ [])
    {pieces : List Piece} (hcut : dialect.alphabet.cut 0 source = .ok pieces) :
    dialect.withoutKeywords.transcribe source = .ok ⟨pieces.map Piece.token, .empty⟩ := by
  have htranscribe : dialect.withoutKeywords.transcribe source =
      .ok (Transcript.empty.enterAll dialect.withoutKeywords.lexicon pieces) :=
    transcribe_of_cut h hcut
  rw [htranscribe, Transcript.enterAll_of_keywords_eq_nil rfl]
  rfl

/-! ## What is kept and what is taken -/

namespace Noting

/-- The pieces that a keyword took. -/
def indices (n : Noting) : List Nat :=
  n.first.toList ++ [n.index]

/-- A keyword takes a word with its letters, or a token with the letters of its first word
and, further on, a word with the letters of its second. -/
def AccountsFor (n : Noting) (pieces : List Piece) : Prop :=
  ∃ text, pieces[n.index]? = some (.word text) ∧
    match n.first with
    | none => Text.Alike n.occurrence.keyword text
    | some i => i < n.index ∧ ∃ first second piece,
        Lexicon.pair? n.occurrence.keyword = some (first, second) ∧
        pieces[i]? = some piece ∧ piece.token.Spells first ∧ Text.Alike second text

theorem length_indices (n : Noting) :
    n.indices.length = 1 + if n.first.isSome then 1 else 0 := by
  unfold indices
  cases n.first <;> rfl

theorem length_flatMap_indices (notings : List Noting) :
    (notings.flatMap indices).length = notings.length + notings.countP (·.first.isSome) := by
  induction notings with
  | nil => rfl
  | cons n rest ih =>
      rw [List.flatMap_cons, List.length_append, ih, length_indices, List.length_cons,
        List.countP_cons]
      omega

/-- No keyword takes a literal. -/
theorem AccountsFor.ne_literal {n : Noting} {pieces : List Piece} (h : n.AccountsFor pieces)
    {index : Nat} (hindex : index ∈ n.indices) (content : Text) :
    pieces[index]? ≠ some (.literal content) := by
  obtain ⟨text, htext, hfirst⟩ := h
  intro hliteral
  rcases List.mem_append.mp hindex with hi | hi
  · rw [Option.mem_toList] at hi
    rw [hi] at hfirst
    obtain ⟨-, first, second, piece, -, hpiece, hspells, -⟩ := hfirst
    rw [hliteral] at hpiece
    cases hpiece
    exact hspells
  · rw [List.mem_singleton.mp hi, htext] at hliteral
    cases hliteral

end Noting

namespace History

/-- The pieces that are kept, and those that are taken. -/
def indices (h : History) : List Nat :=
  h.entries.map Entry.index ++ h.notings.flatMap Noting.indices

/-- What is kept and what is taken of some pieces. -/
structure Accounts (h : History) (pieces : List Piece) : Prop where
  ordered : h.Ordered
  kept : ∀ e ∈ h.entries, ∃ piece, pieces[e.index]? = some piece ∧ piece.token = e.token
  taken : ∀ n ∈ h.notings, n.AccountsFor pieces
  /-- Every piece is kept or taken, and only once. -/
  once : h.indices.Perm (List.range pieces.length)

theorem ReadFrom.accountsFor {lexicon : Lexicon} {pieces : List Piece} {n : Noting}
    (h : ReadFrom lexicon pieces n) : n.AccountsFor pieces := by
  obtain ⟨text, htext, hn⟩ := h
  refine ⟨text, htext, ?_⟩
  cases hfirst : n.first with
  | none =>
      rw [hfirst] at hn
      exact (Lexicon.find?_alike hn).2
  | some i =>
      rw [hfirst] at hn
      obtain ⟨hi, piece, hpiece, hcompleted⟩ := hn
      obtain ⟨-, first, second, hpair, hspells, halike⟩ :=
        Lexicon.exists_pair_of_completed? hcompleted
      exact ⟨hi, first, second, piece, hpair, hpiece, hspells, halike⟩

/-! ### One more piece -/

theorem indices_push (h : History) (token : Token) :
    (h.push token).indices.Perm (h.indices ++ [h.size]) := by
  simp only [indices, push, List.map_append, List.map_cons, List.map_nil, List.append_assoc]
  exact List.perm_append_comm.append_left _

theorem indices_note (h : History) (name : Text) :
    (h.note h.entries none name).indices = h.indices ++ [h.size] := by
  simp [indices, note, Noting.indices]

/-- The entry that is taken back goes over to the keyword. -/
theorem indices_pair {h : History} {rest : List Entry} {entry : Entry}
    (hrest : h.entries = rest ++ [entry]) (name : Text) :
    (h.note rest (some entry.index) name).indices.Perm (h.indices ++ [h.size]) := by
  have hmoved : (rest.map Entry.index ++
      (h.notings.flatMap Noting.indices ++ [entry.index])).Perm h.indices := by
    rw [indices, hrest, List.map_append, List.append_assoc]
    exact List.perm_append_comm.append_left _
  simpa [indices, note, Noting.indices] using hmoved.append_right [h.size]

/-- Entries and notings share out the pieces that were read. -/
theorem Reachable.perm_range {h : History} (hr : h.Reachable) :
    h.indices.Perm (List.range h.size) := by
  induction hr with
  | start => exact .nil
  | push token _ ih =>
      rw [size_push, List.range_succ]
      exact (indices_push _ token).trans (ih.append_right _)
  | note name _ ih =>
      rw [size_note, List.range_succ, indices_note]
      exact ih.append_right _
  | pair name hrest _ ih =>
      rw [size_note, List.range_succ]
      exact (indices_pair hrest name).trans (ih.append_right _)

theorem accounts_ofPieces (lexicon : Lexicon) (pieces : List Piece) :
    (ofPieces lexicon pieces).Accounts pieces := by
  have htraces := traces_ofPieces lexicon pieces
  have honce := (reachable_ofPieces lexicon pieces).perm_range
  rw [htraces.size] at honce
  exact ⟨htraces.ordered, htraces.entries, fun n hn => (htraces.notings n hn).accountsFor,
    honce⟩

/-- What is kept is kept in order. -/
theorem sublist_ofPieces (lexicon : Lexicon) (pieces : List Piece) :
    ((ofPieces lexicon pieces).entries.map Entry.token).Sublist (pieces.map Piece.token) := by
  induction pieces using List.reverseRecOn with
  | nil => exact List.Sublist.refl _
  | append_singleton pieces piece ih =>
      rw [ofPieces_snoc, List.map_append]
      rcases enter_cases lexicon (ofPieces lexicon pieces) piece with
        h | ⟨text, name, -, -, h⟩ | ⟨text, name, rest, entry, -, hrest, -, h⟩
      · rw [h, entries_push, List.map_append]
        exact ih.append (List.Sublist.refl _)
      · rw [h, entries_note]
        exact ih.trans (List.sublist_append_left _ _)
      · rw [hrest, List.map_append] at ih
        rw [h, entries_note]
        exact ((List.sublist_append_left _ _).trans ih).trans (List.sublist_append_left _ _)

variable {h : History} {pieces : List Piece}

theorem Accounts.length_eq (ha : h.Accounts pieces) :
    pieces.length =
      h.entries.length + h.notings.length + h.notings.countP (·.first.isSome) := by
  have hlength := ha.once.length_eq
  rw [indices, List.length_append, List.length_map, Noting.length_flatMap_indices,
    List.length_range] at hlength
  omega

/-- What is taken is not kept. -/
theorem Accounts.index_ne (ha : h.Accounts pieces) {n : Noting} (hn : n ∈ h.notings) {index : Nat}
    (hindex : index ∈ n.indices) : ∀ e ∈ h.entries, e.index ≠ index := by
  have hnodup := ha.once.nodup_iff.mpr List.nodup_range
  rw [indices] at hnodup
  intro e he heq
  exact (List.nodup_append.mp hnodup).2.2 e.index (List.mem_map_of_mem he) index
    (List.mem_flatMap.mpr ⟨n, hn, hindex⟩) heq

/-- A literal is kept. -/
theorem Accounts.mem_entries_of_literal (ha : h.Accounts pieces) {index : Nat} {content : Text}
    (hliteral : pieces[index]? = some (.literal content)) :
    ⟨index, .literal content⟩ ∈ h.entries := by
  have hlt := (List.getElem?_eq_some_iff.mp hliteral).1
  rcases List.mem_append.mp (ha.once.mem_iff.mpr (List.mem_range.mpr hlt)) with hindex | hindex
  · obtain ⟨e, he, rfl⟩ := List.mem_map.mp hindex
    obtain ⟨piece, hpiece, htoken⟩ := ha.kept e he
    rw [hliteral] at hpiece
    cases hpiece
    obtain ⟨index, token⟩ := e
    cases htoken
    exact he
  · obtain ⟨n, hn, hindex⟩ := List.mem_flatMap.mp hindex
    exact absurd hliteral ((ha.taken n hn).ne_literal hindex content)

end History

namespace Dialect

/-- **No token is lost or doubled.** The tokens are a selection of those that are read
without keywords, in order, and the others are shared out among the keywords: each takes the
word that completed it, and one that was made up of two pieces the earlier one too. No
literal is taken. -/
theorem transcribe_accounts {dialect : Dialect} {source : Text} {t : Transcript}
    (ht : dialect.transcribe source = .ok t) :
    ∃ pieces h, dialect.alphabet.cut 0 source = .ok pieces ∧
      dialect.withoutKeywords.transcribe source = .ok ⟨pieces.map Piece.token, .empty⟩ ∧
      h = History.ofPieces dialect.lexicon pieces ∧ t = h.transcript ∧ h.Accounts pieces ∧
      t.tokens.Sublist (pieces.map Piece.token) ∧
      (pieces.map Piece.token).length = t.tokens.length + t.keywords.occurrences.length +
        h.notings.countP (·.first.isSome) ∧
      ∀ index content, (pieces.map Piece.token)[index]? = some (.literal content) →
        ⟨index, .literal content⟩ ∈ h.entries := by
  have hne : source ≠ [] := by
    rintro rfl
    cases ht
  obtain ⟨pieces, hcut, rfl⟩ := exists_history_of_transcribe ht
  have ha := History.accounts_ofPieces dialect.lexicon pieces
  refine ⟨pieces, _, hcut, transcribe_withoutKeywords hne hcut, rfl, rfl, ha,
    History.sublist_ofPieces _ _, ?_, ?_⟩
  · rw [List.length_map, ha.length_eq, History.length_tokens_transcript,
      History.occurrences_transcript, List.length_map]
  · intro index content hliteral
    rw [List.getElem?_map] at hliteral
    obtain ⟨piece, hpiece, htoken⟩ := Option.map_eq_some_iff.mp hliteral
    cases piece with
    | word text => cases htoken
    | mark c => cases htoken
    | literal other =>
        cases htoken
        exact ha.mem_entries_of_literal hpiece

/-- An `ORDER BY` in another, and a `LIMIT` behind both. -/
theorem transcribe_accounts_nested :
    ∃ (t : Transcript) (h : History),
      mysqlDelete.transcribe "order order by by limit'x'".toList = .ok t ∧
      t = h.transcript ∧ t.tokens = [.literal "x".toList] ∧
      h.notings = [⟨2, some 1, ⟨"ORDER BY".toList, 1⟩⟩, ⟨3, some 0, ⟨"ORDER BY".toList, 0⟩⟩,
        ⟨4, none, ⟨"LIMIT".toList, 0⟩⟩] ∧
      mysqlDelete.withoutKeywords.transcribe "order order by by limit'x'".toList =
        .ok ⟨[.bare "order".toList, .bare "order".toList, .bare "by".toList, .bare "by".toList,
          .bare "limit".toList, .literal "x".toList], .empty⟩ ∧
      h.indices.Perm (List.range 6) ∧ 6 = t.tokens.length + t.keywords.occurrences.length + 2 := by
  have ht : mysqlDelete.transcribe "order order by by limit'x'".toList =
      .ok ⟨[.literal "x".toList], .ofList [⟨"ORDER BY".toList, 1⟩, ⟨"ORDER BY".toList, 0⟩,
        ⟨"LIMIT".toList, 0⟩]⟩ := by rfl
  have hpieces : Alphabet.mysql.cut 0 "order order by by limit'x'".toList =
      .ok [.word "order".toList, .word "order".toList, .word "by".toList, .word "by".toList,
        .word "limit".toList, .literal "x".toList] := by
    rw [← Scan.pieces_start_located]
    rfl
  obtain ⟨pieces, h, hcut, hraw, rfl, hh, ha, -, hlength, -⟩ := transcribe_accounts ht
  cases Except.ok.inj (hpieces.symm.trans hcut)
  exact ⟨_, _, ht, hh, rfl, by rfl, hraw, ha.once, hlength⟩

end Dialect

end SqlDelete
