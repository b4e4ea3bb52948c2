import SqlDelete.Proofs.Accounting
import SqlDelete.Proofs.Stream

/-!
# Keywords of two words

Two neighbouring tokens that are the words of a keyword are taken by one, whatever else the
lexicon holds, if the first of them was not taken before and the second is a word. A mark
comes to the tokens without being read, so it begins keywords but completes none.
-/

namespace SqlDelete

namespace History

/-- A keyword whose two words these tokens spell took the pieces at `i` and `i + 1`, and
neither piece is kept. -/
def TakesPair (h : History) (lexicon : Lexicon) (i : Nat) (previous next : Token) : Prop :=
  (∃ n ∈ h.notings, n.first = some i ∧ n.index = i + 1 ∧ n.occurrence.keyword ∈ lexicon.keywords ∧
      ∃ words ∈ Lexicon.pair? n.occurrence.keyword,
        previous.Spells words.1 ∧ next.Spells words.2) ∧
    ∀ e ∈ h.entries, e.index ≠ i ∧ e.index ≠ i + 1

instance (h : History) (lexicon : Lexicon) (i : Nat) (previous next : Token) :
    Decidable (h.TakesPair lexicon i previous next) :=
  inferInstanceAs (Decidable (_ ∧ _))

variable {lexicon : Lexicon} {pieces : List Piece} {i : Nat}

theorem exists_append_of_neighbours {before next : Piece} (hbefore : pieces[i]? = some before)
    (hnext : pieces[i + 1]? = some next) :
    ∃ front back, pieces = front ++ [before] ++ [next] ++ back ∧ front.length = i := by
  obtain ⟨hi, rfl⟩ := List.getElem?_eq_some_iff.mp hbefore
  obtain ⟨hi', rfl⟩ := List.getElem?_eq_some_iff.mp hnext
  refine ⟨pieces.take i, pieces.drop (i + 1 + 1), ?_, List.length_take_of_le (Nat.le_of_lt hi)⟩
  calc pieces
      = pieces.take i ++ pieces.drop i := (List.take_append_drop i pieces).symm
    _ = pieces.take i ++ pieces[i] :: pieces[i + 1] :: pieces.drop (i + 1 + 1) := by
        rw [List.drop_eq_getElem_cons hi, List.drop_eq_getElem_cons hi']
    _ = pieces.take i ++ [pieces[i]] ++ [pieces[i + 1]] ++ pieces.drop (i + 1 + 1) := by simp

/-- A piece that was not taken when it was read is the last entry. -/
theorem entries_snoc_of_free {front : List Piece} {piece : Piece}
    (hfree : ∀ n ∈ (ofPieces lexicon (front ++ [piece])).notings, n.index ≠ front.length) :
    (ofPieces lexicon (front ++ [piece])).entries =
      (ofPieces lexicon front).entries ++ [⟨front.length, piece.token⟩] := by
  have hsize : (ofPieces lexicon front).size = front.length := (traces_ofPieces lexicon front).size
  rw [ofPieces_snoc] at hfree ⊢
  rcases enter_cases lexicon (ofPieces lexicon front) piece with
    h | ⟨text, name, -, -, h⟩ | ⟨text, name, rest, entry, -, -, -, h⟩
  · rw [h, entries_push, hsize]
  · rw [h] at hfree
    exact absurd hsize (hfree _ (mem_notings_note.mpr (Or.inr rfl)))
  · rw [h] at hfree
    exact absurd hsize (hfree _ (mem_notings_note.mpr (Or.inr rfl)))

/-- A word behind a piece that was not taken takes it, if the two are a pair. -/
theorem exists_noting_of_completed? {before : Piece} {word name : Text}
    (hbefore : pieces[i]? = some before) (hword : pieces[i + 1]? = some (.word word))
    (hname : lexicon.completed? before.token word = some name)
    (hfree : ∀ n ∈ (ofPieces lexicon pieces).notings, n.index ≠ i) :
    ∃ n ∈ (ofPieces lexicon pieces).notings, n.first = some i ∧ n.index = i + 1 ∧
      n.occurrence.keyword = name := by
  obtain ⟨front, back, rfl, rfl⟩ := exists_append_of_neighbours hbefore hword
  -- nothing noted later is missing from the whole history, so the first piece was free then
  have hearly : ∀ n ∈ (ofPieces lexicon (front ++ [before])).notings, n.index ≠ front.length := by
    intro n hn
    refine hfree n ((notings_prefix_append lexicon _ back).subset ?_)
    exact (notings_prefix_append lexicon _ _).subset hn
  have hsize := (traces_ofPieces lexicon (front ++ [before])).size
  have hnote := enter_pair (entries_snoc_of_free hearly) hname
  refine ⟨⟨(ofPieces lexicon (front ++ [before])).size, some front.length,
    ⟨name, (ofPieces lexicon front).entries.length⟩⟩, ?_, rfl, by simpa using hsize, rfl⟩
  apply (notings_prefix_append lexicon _ back).subset
  rw [ofPieces_snoc, hnote]
  exact mem_notings_note.mpr (Or.inr rfl)

theorem takesPair_of_pairs {before : Piece} {word : Text} (hbefore : pieces[i]? = some before)
    (hword : pieces[i + 1]? = some (.word word))
    (hpairs : lexicon.Pairs before.token (.bare word))
    (hfree : ∀ n ∈ (ofPieces lexicon pieces).notings, n.index ≠ i) :
    (ofPieces lexicon pieces).TakesPair lexicon i before.token (.bare word) := by
  obtain ⟨keyword, hkeyword, first, second, hpair, hfirst, hsecond⟩ := hpairs
  cases hname : lexicon.completed? before.token word with
  | none =>
      exact absurd (Text.Alike.symm hsecond)
        (Lexicon.completed?_eq_none_iff.mp hname keyword hkeyword first second hpair hfirst)
  | some name =>
      obtain ⟨hmem, first', second', hpair', hfirst', hsecond'⟩ :=
        Lexicon.exists_pair_of_completed? hname
      obtain ⟨n, hn, htook, hindex, rfl⟩ :=
        exists_noting_of_completed? hbefore hword hname hfree
      have ha := accounts_ofPieces lexicon pieces
      refine ⟨⟨n, hn, htook, hindex, hmem, (first', second'), hpair', hfirst', hsecond'.symm⟩,
        fun e he => ⟨?_, ?_⟩⟩
      · exact ha.index_ne hn (by simp [Noting.indices, htook]) e he
      · exact ha.index_ne hn (by simp [Noting.indices, hindex]) e he

end History

namespace Dialect

/-- **Keywords of two words are recognised.** Wherever the two words of a keyword come after
one another among the tokens that are read without keywords, a keyword with these words takes
both, if the second is not a mark and the first did not itself complete a keyword. -/
theorem pairs_taken {dialect : Dialect} {source : Text} {t : Transcript}
    (ht : dialect.transcribe source = .ok t) :
    ∃ pieces h, dialect.alphabet.cut 0 source = .ok pieces ∧
      dialect.withoutKeywords.transcribe source = .ok ⟨pieces.map Piece.token, .empty⟩ ∧
      h = History.ofPieces dialect.lexicon pieces ∧ t = h.transcript ∧ h.Accounts pieces ∧
      ∀ i previous next, (pieces.map Piece.token)[i]? = some previous →
        (pieces.map Piece.token)[i + 1]? = some next → dialect.lexicon.Pairs previous next →
        (∀ c, next = .bare [c] → ¬ dialect.alphabet.IsMark c) →
        (∀ n ∈ h.notings, n.index ≠ i) → h.TakesPair dialect.lexicon i previous next := by
  have hne : source ≠ [] := by
    rintro rfl
    cases ht
  obtain ⟨pieces, hcut, rfl⟩ := exists_history_of_transcribe ht
  refine ⟨pieces, _, hcut, transcribe_withoutKeywords hne hcut, rfl, rfl,
    History.accounts_ofPieces _ _, ?_⟩
  intro i previous next hprevious hnext hpairs hmark hfree
  rw [List.getElem?_map] at hprevious hnext
  obtain ⟨before, hbefore, rfl⟩ := Option.map_eq_some_iff.mp hprevious
  obtain ⟨piece, hpiece, rfl⟩ := Option.map_eq_some_iff.mp hnext
  cases piece with
  | word word => exact History.takesPair_of_pairs hbefore hpiece hpairs hfree
  | mark c =>
      have hfits := Alphabet.fits_of_cut hcut _ (List.mem_of_getElem? hpiece)
      exact absurd hfits (hmark c rfl)
  | literal content =>
      obtain ⟨-, -, -, second, -, -, hsecond⟩ := hpairs
      exact absurd hsecond (Token.not_spells_literal content second)

/-- A dialect whose keywords overlap in chains, one of them beginning with a mark. -/
def chained : Dialect where
  alphabet := .mysql
  lexicon := ⟨["GROUP BY".toList, "BY ALL".toList, ", GROUP".toList], "FROM".toList, []⟩

/-- The comma and the last `by` are first words; `group` was taken by the comma. -/
theorem pairs_taken_chained :
    ∃ h : History, chained.transcribe ",group by all".toList = .ok h.transcript ∧
      h.transcript =
        ⟨[], .ofList [⟨", GROUP".toList, 0⟩, ⟨"BY ALL".toList, 0⟩]⟩ ∧
      h.TakesPair chained.lexicon 0 (.bare ",".toList) (.bare "group".toList) ∧
      h.TakesPair chained.lexicon 2 (.bare "by".toList) (.bare "all".toList) := by
  have ht : chained.transcribe ",group by all".toList =
      .ok ⟨[], .ofList [⟨", GROUP".toList, 0⟩, ⟨"BY ALL".toList, 0⟩]⟩ := by rfl
  have hpieces : chained.alphabet.cut 0 ",group by all".toList =
      .ok [.mark ',', .word "group".toList, .word "by".toList, .word "all".toList] := by
    rw [← Scan.pieces_start_located]
    rfl
  have hcomma : chained.lexicon.Pairs (.bare ",".toList) (.bare "group".toList) :=
    ⟨", GROUP".toList, by decide, _, _, by rfl, by decide, by decide⟩
  have hby : chained.lexicon.Pairs (.bare "by".toList) (.bare "all".toList) :=
    ⟨"BY ALL".toList, by decide, _, _, by rfl, by decide, by decide⟩
  obtain ⟨pieces, h, hcut, -, rfl, hh, -, hpairs⟩ := pairs_taken ht
  cases Except.ok.inj (hpieces.symm.trans hcut)
  refine ⟨_, hh ▸ ht, hh.symm, ?_, ?_⟩
  · exact hpairs 0 _ _ rfl rfl hcomma (by rintro c ⟨⟩) (by decide)
  · exact hpairs 2 _ _ rfl rfl hby (by rintro c ⟨⟩) (by decide)

/-- A dialect with a keyword that is the first word of another, and one that ends in a mark. -/
def shadowed : Dialect where
  alphabet := .mysql
  lexicon := ⟨["ORDER".toList, "ORDER BY".toList, "SET ,".toList], "FROM".toList,
    ["ORDER BY".toList]⟩

/-- Neither pair of the source is taken, though no keyword took a token back: `ORDER` is a
keyword before it could wait for `BY`, and a comma is not read. -/
theorem pairs_passed_over :
    ∃ pieces h, shadowed.alphabet.cut 0 "order by set,".toList = .ok pieces ∧
      shadowed.withoutKeywords.transcribe "order by set,".toList =
        .ok ⟨pieces.map Piece.token, .empty⟩ ∧
      h = History.ofPieces shadowed.lexicon pieces ∧
      shadowed.transcribe "order by set,".toList = .ok h.transcript ∧
      (∀ n ∈ h.notings, n.first = none) ∧
      ((pieces.map Piece.token)[0]? = some (.bare "order".toList) ∧
        (pieces.map Piece.token)[1]? = some (.bare "by".toList) ∧
        shadowed.lexicon.Pairs (.bare "order".toList) (.bare "by".toList) ∧
        ¬ h.TakesPair shadowed.lexicon 0 (.bare "order".toList) (.bare "by".toList)) ∧
      (pieces.map Piece.token)[2]? = some (.bare "set".toList) ∧
        (pieces.map Piece.token)[3]? = some (.bare ",".toList) ∧
        shadowed.lexicon.Pairs (.bare "set".toList) (.bare ",".toList) ∧
        ¬ h.TakesPair shadowed.lexicon 2 (.bare "set".toList) (.bare ",".toList) := by
  have hpieces : shadowed.alphabet.cut 0 "order by set,".toList =
      .ok [.word "order".toList, .word "by".toList, .word "set".toList, .mark ','] := by
    rw [← Scan.pieces_start_located]
    rfl
  have hne : "order by set,".toList ≠ [] := by decide
  have hread := transcribe_of_cut hne hpieces
  rw [← History.transcript_ofPieces] at hread
  refine ⟨_, _, hpieces, transcribe_withoutKeywords hne hpieces, rfl, hread, by decide,
    ⟨rfl, rfl, ?_, by decide⟩, rfl, rfl, ?_, by decide⟩
  · exact ⟨"ORDER BY".toList, by decide, _, _, by rfl, by decide, by decide⟩
  · exact ⟨"SET ,".toList, by decide, _, _, by rfl, by decide, by decide⟩

end Dialect

end SqlDelete
