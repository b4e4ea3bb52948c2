import SqlDelete.Proofs.Mysql

/-!
# Layouts

A statement may be written in many ways: keywords in any letter case, literals
between any quotes, and any separators that leave no token between the items.
Reading gives back the items, whatever the layout: `transcribe_text`.
-/

namespace SqlDelete

/-! ## Texts that are cut in the same way everywhere -/

namespace Alphabet

/-- Separators that leave no token behind. -/
def IsGap (alphabet : Alphabet) (gap : Text) : Prop :=
  ∀ c ∈ gap, c ∈ alphabet.separators ∧ c ∉ alphabet.marks

instance (alphabet : Alphabet) (gap : Text) : Decidable (alphabet.IsGap gap) :=
  List.decidableBAll (fun c => c ∈ alphabet.separators ∧ c ∉ alphabet.marks) gap

/-- A text with these pieces, wherever it stands. -/
def CutsInto (alphabet : Alphabet) (text : Text) (pieces : List Piece) : Prop :=
  ∀ position, alphabet.cut position text = .ok pieces

variable {alphabet : Alphabet} {rest : Text} {pieces : List Piece}

theorem cutsInto_nil : alphabet.CutsInto [] [] :=
  fun position => cut_nil position

theorem CutsInto.gap {gap : Text} (hgap : alphabet.IsGap gap)
    (h : alphabet.CutsInto rest pieces) : alphabet.CutsInto (gap ++ rest) pieces := by
  induction gap with
  | nil => exact h
  | cons c gap ih =>
      have hc := hgap c List.mem_cons_self
      have hrest := ih fun d hd => hgap d (List.mem_cons_of_mem _ hd)
      intro position
      rw [List.cons_append, cut_separator hc.1, separatorPieces, if_neg hc.2, Piece.prepend_nil]
      exact hrest _

theorem CutsInto.word {word : Text} (hword : alphabet.IsWord word) (hrest : alphabet.EndsRun rest)
    (h : alphabet.CutsInto rest pieces) :
    alphabet.CutsInto (word ++ rest) (.word word :: pieces) := by
  intro position
  rw [cut_word hword.1 hword.2 hrest, h, Piece.prepend_ok, List.singleton_append]

theorem CutsInto.mark {c : Char} (hc : alphabet.IsMark c) (h : alphabet.CutsInto rest pieces) :
    alphabet.CutsInto (c :: rest) (.mark c :: pieces) := by
  intro position
  rw [cut_separator hc.1, separatorPieces, if_pos hc.2, h, Piece.prepend_ok, List.singleton_append]

theorem CutsInto.literal {quote : Char} {content : Text}
    (hquote : alphabet.Encloses quote content) (h : alphabet.CutsInto rest pieces) :
    alphabet.CutsInto (quote :: (content ++ quote :: rest)) (.literal content :: pieces) := by
  intro position
  rw [cut_literal hquote.1 hquote.2.1 hquote.2.2, h, Piece.prepend_ok, List.singleton_append]

/-- A text is cut into the same pieces wherever it stands, or is refused at the same place. -/
theorem cutsInto_or_unclosed (alphabet : Alphabet) (text : Text) :
    (∃ pieces, alphabet.CutsInto text pieces) ∨
      ∃ quote offset, ∀ position,
        alphabet.cut position text = .error (.unclosed quote (position + offset)) := by
  -- along the pieces of the text: no step looks at the position, an error only carries it
  induction 0, text using cut_induction alphabet with
  | nil position => exact Or.inl ⟨[], cutsInto_nil⟩
  | separator position c rest hs ih =>
      rcases ih with ⟨pieces, hpieces⟩ | ⟨quote, offset, herror⟩
      · refine Or.inl ⟨alphabet.separatorPieces c ++ pieces, fun position => ?_⟩
        rw [cut_separator hs, hpieces, Piece.prepend_ok]
      · refine Or.inr ⟨quote, c.utf8Size + offset, fun position => ?_⟩
        rw [cut_separator hs, herror, Piece.prepend_error, Nat.add_assoc]
  | literal position quote content after hs hq hcontent ih =>
      rcases ih with ⟨pieces, hpieces⟩ | ⟨other, offset, herror⟩
      · exact Or.inl ⟨_, hpieces.literal ⟨hs, hq, hcontent⟩⟩
      · refine Or.inr ⟨other, Text.byteLength (quote :: (content ++ [quote])) + offset,
          fun position => ?_⟩
        rw [cut_literal hs hq hcontent, herror, Piece.prepend_error, Nat.add_assoc]
  | unclosed position quote rest hs hq hrest =>
      exact Or.inr ⟨quote, 0, fun position => cut_unclosed hs hq hrest position⟩
  | run position run after hne hrun hafter ih =>
      rcases ih with ⟨pieces, hpieces⟩ | ⟨quote, offset, herror⟩
      · exact Or.inl ⟨_, hpieces.word ⟨hne, hrun⟩ hafter⟩
      · refine Or.inr ⟨quote, Text.byteLength run + offset, fun position => ?_⟩
        rw [cut_word hne hrun hafter, herror, Piece.prepend_error, Nat.add_assoc]

theorem endsRun_gap {gap : Text} (hgap : alphabet.IsGap gap) (hne : gap ≠ []) (rest : Text) :
    alphabet.EndsRun (gap ++ rest) := by
  obtain ⟨c, more, rfl⟩ := List.exists_cons_of_ne_nil hne
  rintro d ⟨⟩ hd
  exact hd.1 (hgap c List.mem_cons_self).1

/-- A gap at the end of a text changes nothing. -/
theorem cut_append_gap {gap : Text} (hgap : alphabet.IsGap gap) (position : Nat) (text : Text) :
    alphabet.cut position (text ++ gap) = alphabet.cut position text := by
  cases hcut : alphabet.cut position text with
  | ok pieces =>
      have hends : alphabet.EndsRun gap := by
        intro c hc hordinary
        exact hordinary.1 (hgap c (List.mem_of_head? hc)).1
      have hnone : alphabet.cut (position + Text.byteLength text) gap = .ok [] := by
        simpa using cutsInto_nil.gap hgap (position + Text.byteLength text)
      rw [cut_append hcut hends, hnone, Piece.prepend_ok, List.append_nil]
  | error e =>
      obtain ⟨before, quote, after, pieces, rfl, hpieces, hs, hq, hafter, rfl⟩ :=
        cut_eq_error_iff.mp hcut
      refine cut_eq_error_iff.mpr ⟨before, quote, after ++ gap, pieces, by simp, hpieces, hs, hq,
        fun hmem => ?_, rfl⟩
      rcases List.mem_append.mp hmem with hmem | hmem
      · exact hafter hmem
      · exact hs (hgap quote hmem).1

end Alphabet

/-- A gap at the end of a source changes nothing. -/
theorem Dialect.transcribe_append_gap {dialect : Dialect} {source gap : Text} (h : source ≠ [])
    (hgap : dialect.alphabet.IsGap gap) :
    dialect.transcribe (source ++ gap) = dialect.transcribe source := by
  rw [transcribe_eq_map_cut h, transcribe_eq_map_cut (List.append_ne_nil_of_left_ne_nil h gap),
    Alphabet.cut_append_gap hgap]

/-! ## Items -/

/-- One item of a statement, as it is written. -/
inductive Item where
  /-- A keyword of one word, and how it is spelled. -/
  | keyword (name spelling : Text)
  /-- `ORDER BY`: how each word is spelled, and the gap between them. -/
  | orderBy (first gap second : Text)
  | word (text : Text)
  | mark (c : Char)
  | literal (quote : Char) (content : Text)
deriving DecidableEq

namespace Item

/-- Where an item can stand in a MySQL statement. -/
def Fits : Item → Prop
  | keyword name spelling =>
      name ∈ Lexicon.mysqlDelete.keywords ∧ Lexicon.pair? name = none ∧ Text.Alike spelling name
  | orderBy first gap second =>
      Text.Alike first "ORDER".toList ∧ Text.Alike second "BY".toList ∧
        gap ≠ [] ∧ Alphabet.mysql.IsGap gap
  | word text =>
      Alphabet.mysql.IsWord text ∧ ∀ name ∈ Lexicon.mysqlDelete.keywords,
        Lexicon.pair? name = none → ¬ Text.Alike text name
  | mark c => c ∈ Alphabet.mysql.marks
  | literal quote content => quote ∈ Alphabet.mysql.quotes ∧ quote ∉ content

instance (item : Item) : Decidable item.Fits :=
  match item with
  | keyword _ _ => inferInstanceAs (Decidable (_ ∧ _ ∧ _))
  | orderBy _ _ _ => inferInstanceAs (Decidable (_ ∧ _ ∧ _ ∧ _))
  | word _ => inferInstanceAs (Decidable (_ ∧ _))
  | mark _ => inferInstanceAs (Decidable (_ ∈ _))
  | literal _ _ => inferInstanceAs (Decidable (_ ∧ _))

def written : Item → Text
  | keyword _ spelling => spelling
  | orderBy first gap second => first ++ gap ++ second
  | word text => text
  | mark c => [c]
  | literal quote content => quote :: (content ++ [quote])

def pieces : Item → List Piece
  | keyword _ spelling => [.word spelling]
  | orderBy first _ second => [.word first, .word second]
  | word text => [.word text]
  | mark c => [.mark c]
  | literal _ content => [.literal content]

/-- The token that the item is, unless it is a keyword. -/
def token? : Item → Option Token
  | keyword _ _ => none
  | orderBy _ _ _ => none
  | word text => some (.bare text)
  | mark c => some (.bare [c])
  | literal _ content => some (.literal content)

/-- The keyword that the item is, in the spelling of the lexicon. -/
def keyword? : Item → Option Text
  | keyword name _ => some name
  | orderBy _ _ _ => some "ORDER BY".toList
  | word _ => none
  | mark _ => none
  | literal _ _ => none

/-- Keywords and words: next to each other they would run together. -/
def isWordlike : Item → Bool
  | keyword _ _ => true
  | orderBy _ _ _ => true
  | word _ => true
  | mark _ => false
  | literal _ _ => false

/-- The word that takes a token back if it comes after `ORDER`. -/
def IsBy : Item → Prop
  | word text => Text.Alike text "BY".toList
  | _ => False

instance (item : Item) : Decidable item.IsBy :=
  match item with
  | word _ => inferInstanceAs (Decidable (Text.Alike _ _))
  | keyword _ _ => isFalse id
  | orderBy _ _ _ => isFalse id
  | mark _ => isFalse id
  | literal _ _ => isFalse id

/-- Keywords in order, each before the tokens that follow it; so many tokens come
before the first item. -/
def occurrences : Nat → List Item → List Occurrence
  | _, [] => []
  | n, item :: rest =>
      match item.keyword? with
      | some name => ⟨name, n⟩ :: occurrences n rest
      | none => occurrences (n + 1) rest

theorem isWord_of_fits_keyword {name spelling : Text} (h : (keyword name spelling).Fits) :
    Alphabet.mysql.IsWord spelling := by
  have hwords : ∀ name ∈ Lexicon.mysqlDelete.keywords, Lexicon.pair? name = none →
      Alphabet.mysql.IsWord name := by decide
  exact Alphabet.isWord_mysql_of_alike h.2.2 (hwords name h.1 h.2.1)

theorem find?_of_fits_word {text : Text} (h : (word text).Fits) :
    Lexicon.mysqlDelete.find? text = none := by
  apply Lexicon.find?_mysqlDelete_eq_none_iff.mpr
  intro name hname halike
  rcases Lexicon.pair?_mysqlDelete name hname with hpair | ⟨rfl, -⟩
  · exact h.2 name hname hpair halike.symm
  · -- a word holds no space
    exact absurd (Alphabet.isWord_mysql_of_alike halike h.1) (by decide)

theorem endsRun_written {item : Item} (h : item.Fits) (hitem : item.isWordlike = false)
    (rest : Text) : Alphabet.mysql.EndsRun (item.written ++ rest) := by
  cases item with
  | keyword name spelling => cases hitem
  | orderBy first gap second => cases hitem
  | word text => cases hitem
  | mark c =>
      rintro d ⟨⟩ hd
      exact hd.1 (Alphabet.isMark_mysql h).1
  | literal quote content => exact Alphabet.endsRun_quote h.1 _

/-- An item is cut into its pieces before anything at which a word may end. -/
theorem cutsInto_written {item : Item} (h : item.Fits) {rest : Text} {more : List Piece}
    (hends : item.isWordlike = true → Alphabet.mysql.EndsRun rest)
    (hrest : Alphabet.mysql.CutsInto rest more) :
    Alphabet.mysql.CutsInto (item.written ++ rest) (item.pieces ++ more) := by
  cases item with
  | keyword name spelling => exact hrest.word (isWord_of_fits_keyword h) (hends rfl)
  | orderBy first gap second =>
      obtain ⟨hfirst, hsecond, hne, hgap⟩ := h
      have hbefore := Alphabet.isWord_mysql_of_alike hfirst (by decide)
      have hafter := Alphabet.isWord_mysql_of_alike hsecond (by decide)
      have hcut := (hrest.word hafter (hends rfl)).gap hgap
      have hcuts := hcut.word hbefore (Alphabet.endsRun_gap hgap hne _)
      simpa [written, pieces] using hcuts
  | word text => exact hrest.word h.1 (hends rfl)
  | mark c => exact hrest.mark (Alphabet.isMark_mysql h)
  | literal quote content =>
      have hcuts := hrest.literal (Alphabet.encloses_mysql h.1 h.2)
      simpa [written, pieces] using hcuts

/-! ## Items entering a transcript -/

theorem occurrences_of_keyword {item : Item} {name : Text} (h : item.keyword? = some name)
    (n : Nat) (rest : List Item) :
    occurrences n (item :: rest) = ⟨name, n⟩ :: occurrences n rest := by
  simp [occurrences, h]

theorem occurrences_of_token {item : Item} (h : item.keyword? = none) (n : Nat)
    (rest : List Item) : occurrences n (item :: rest) = occurrences (n + 1) rest := by
  simp [occurrences, h]

theorem token?_of_keyword {item : Item} {name : Text} (h : item.keyword? = some name) :
    item.token? = none := by
  cases item <;> first | rfl | cases h

theorem exists_token_of_not_keyword {item : Item} (h : item.keyword? = none) :
    ∃ token, item.token? = some token := by
  cases item <;> first | exact ⟨_, rfl⟩ | cases h

theorem occurrences_append (n : Nat) (front back : List Item) :
    occurrences n (front ++ back) =
      occurrences n front ++ occurrences (n + (front.filterMap token?).length) back := by
  induction front generalizing n with
  | nil => rfl
  | cons item rest ih =>
      rw [List.cons_append]
      cases hname : item.keyword? with
      | some name =>
          rw [occurrences_of_keyword hname, occurrences_of_keyword hname, ih, List.filterMap_cons,
            token?_of_keyword hname]
          rfl
      | none =>
          obtain ⟨token, htoken⟩ := exists_token_of_not_keyword hname
          rw [occurrences_of_token hname, occurrences_of_token hname, ih, List.filterMap_cons,
            htoken, List.length_cons, Nat.add_right_comm, Nat.add_assoc]

/-- Keyword items in front are noted where the rest begins. -/
theorem occurrences_keywords_append {α : Type} {item : α → Item} {name : α → Text}
    (h : ∀ a, (item a).keyword? = some (name a)) (keywords : List α) (n : Nat)
    (rest : List Item) :
    occurrences n (keywords.map item ++ rest) =
      keywords.map (fun a => ⟨name a, n⟩) ++ occurrences n rest := by
  induction keywords with
  | nil => rfl
  | cons a keywords ih =>
      rw [List.map_cons, List.cons_append, occurrences_of_keyword (h a), ih]
      rfl

theorem filterMap_token?_keywords {α : Type} {item : α → Item} {name : α → Text}
    (h : ∀ a, (item a).keyword? = some (name a)) (keywords : List α) :
    (keywords.map item).filterMap token? = [] := by
  rw [List.filterMap_eq_nil_iff]
  intro other hother
  obtain ⟨a, -, rfl⟩ := List.mem_map.mp hother
  exact token?_of_keyword (h a)

@[simp] theorem map_keyword_occurrences (n : Nat) (items : List Item) :
    (occurrences n items).map Occurrence.keyword = items.filterMap keyword? := by
  induction items generalizing n with
  | nil => rfl
  | cons item rest ih =>
      cases hname : item.keyword? with
      | some name =>
          rw [occurrences_of_keyword hname, List.map_cons, ih, List.filterMap_cons, hname]
      | none => rw [occurrences_of_token hname, ih, List.filterMap_cons, hname]

theorem le_position_of_mem_occurrences {n : Nat} {items : List Item} {o : Occurrence}
    (h : o ∈ occurrences n items) : n ≤ o.position := by
  induction items generalizing n with
  | nil => cases h
  | cons item rest ih =>
      cases hname : item.keyword? with
      | some name =>
          rw [occurrences_of_keyword hname] at h
          rcases List.mem_cons.mp h with rfl | h
          · exact Nat.le_refl _
          · exact ih h
      | none =>
          rw [occurrences_of_token hname] at h
          exact Nat.le_of_succ_le (ih h)

theorem position_le_of_mem_occurrences {n : Nat} {items : List Item} {o : Occurrence}
    (h : o ∈ occurrences n items) : o.position ≤ n + (items.filterMap token?).length := by
  induction items generalizing n with
  | nil => cases h
  | cons item rest ih =>
      cases hname : item.keyword? with
      | some name =>
          rw [occurrences_of_keyword hname] at h
          rw [List.filterMap_cons, token?_of_keyword hname]
          rcases List.mem_cons.mp h with rfl | h
          · exact Nat.le_add_right n _
          · exact ih h
      | none =>
          obtain ⟨token, htoken⟩ := exists_token_of_not_keyword hname
          rw [occurrences_of_token hname] at h
          rw [List.filterMap_cons, htoken, List.length_cons]
          have := ih h
          omega

theorem read_keyword {name spelling : Text} (h : (keyword name spelling).Fits)
    (previous : Option Token) :
    Lexicon.mysqlDelete.read (.bare spelling) previous = .keyword name false := by
  have hkeywords : ∀ name ∈ Lexicon.mysqlDelete.keywords, ¬ Text.Alike name "BY".toList := by
    decide
  have hby : ¬ Text.Alike spelling "BY".toList := fun halike =>
    hkeywords name h.1 (h.2.2.symm.trans halike)
  have hfind : Lexicon.mysqlDelete.find? spelling = some name :=
    Lexicon.find?_mysqlDelete_eq_some_iff.mpr ⟨h.1, h.2.2.symm⟩
  rw [Lexicon.read_mysqlDelete fun _ _ hspells => hby hspells.2, hfind]

/-- `ORDER` waits among the tokens until `BY` takes it back. -/
theorem read_order {first : Text} (h : Text.Alike first "ORDER".toList)
    (previous : Option Token) : Lexicon.mysqlDelete.read (.bare first) previous = .ordinary := by
  have hkeywords : ∀ name ∈ Lexicon.mysqlDelete.keywords,
      ¬ Text.Alike name "ORDER".toList := by decide
  have hby : ¬ Text.Alike first "BY".toList := fun halike =>
    absurd (h.symm.trans halike) (by decide)
  have hfind : Lexicon.mysqlDelete.find? first = none := by
    apply Lexicon.find?_mysqlDelete_eq_none_iff.mpr
    intro name hname halike
    exact hkeywords name hname (halike.trans h)
  rw [Lexicon.read_mysqlDelete fun _ _ hspells => hby hspells.2, hfind]

theorem read_by {first second : Text} (hfirst : Text.Alike first "ORDER".toList)
    (hsecond : Text.Alike second "BY".toList) :
    Lexicon.mysqlDelete.read (.bare second) (some (.bare first)) =
      .keyword "ORDER BY".toList true := by
  have hcompleted : Lexicon.mysqlDelete.completed? (.bare first) second =
      some "ORDER BY".toList :=
    Lexicon.completed?_mysqlDelete_eq_some_iff.mpr ⟨hfirst, hsecond, rfl⟩
  simp [Lexicon.read, hcompleted]

theorem read_word {text : Text} (h : (word text).Fits) {previous : Option Token}
    (hapart : ∀ before ∈ previous, ¬ Dialect.mysqlDelete.Joins before (.bare text)) :
    Lexicon.mysqlDelete.read (.bare text) previous = .ordinary := by
  have hnot : ∀ before ∈ previous,
      ¬ (before.Spells "ORDER".toList ∧ Text.Alike text "BY".toList) := fun before hbefore hspells =>
    hapart before hbefore (Dialect.joins_mysqlDelete_iff.mpr hspells)
  rw [Lexicon.read_mysqlDelete hnot, find?_of_fits_word h]

/-- A keyword item leaves the tokens as they are and is noted at their end. -/
theorem enterAll_keyword {item : Item} (h : item.Fits) {name : Text}
    (hname : item.keyword? = some name) (tokens : List Token) (noted : List Occurrence) :
    Transcript.enterAll Lexicon.mysqlDelete ⟨tokens, .ofList noted⟩ item.pieces =
      ⟨tokens, .ofList (noted ++ [⟨name, tokens.length⟩])⟩ := by
  rw [KeywordIndex.ofList_append_singleton]
  cases item with
  | keyword name' spelling =>
      cases hname
      rw [pieces, Transcript.enterAll_cons, Transcript.enterPiece, Transcript.enter,
        read_keyword h]
      rfl
  | orderBy first gap second =>
      cases hname
      -- `ORDER` is the last token when `BY` is read
      have hlast : (tokens ++ [Token.bare first]).getLast? = some (.bare first) := by simp
      rw [pieces, Transcript.enterAll_cons, Transcript.enterPiece, Transcript.enter,
        read_order h.1]
      simp only [Transcript.enterAll_cons, Transcript.enterAll_nil, Transcript.enterPiece,
        Transcript.enter, Transcript.tokens_push, hlast, read_by h.1 h.2.1]
      simp [Transcript.push, Transcript.pop, Transcript.noteKeyword]
  | word text => cases hname
  | mark c => cases hname
  | literal quote content => cases hname

theorem enterAll_token {item : Item} (h : item.Fits) {token : Token}
    (htoken : item.token? = some token) {tokens : List Token}
    (hapart : ∀ before ∈ tokens.getLast?, ¬ Dialect.mysqlDelete.Joins before token)
    (noted : List Occurrence) :
    Transcript.enterAll Lexicon.mysqlDelete ⟨tokens, .ofList noted⟩ item.pieces =
      ⟨tokens ++ [token], .ofList noted⟩ := by
  cases item with
  | keyword name spelling => cases htoken
  | orderBy first gap second => cases htoken
  | word text =>
      cases htoken
      rw [pieces, Transcript.enterAll_cons, Transcript.enterPiece, Transcript.enter,
        read_word h hapart]
      rfl
  | mark c =>
      cases htoken
      rfl
  | literal quote content =>
      cases htoken
      rfl

theorem not_isBy_of_keyword {item : Item} {name : Text} (h : item.keyword? = some name) :
    ¬ item.IsBy := by
  cases item <;> first | exact id | cases h

theorem not_spells_by {item : Item} (h : ¬ item.IsBy) {token : Token}
    (htoken : item.token? = some token) : ¬ token.Spells "BY".toList := by
  cases item with
  | keyword name spelling => cases htoken
  | orderBy first gap second => cases htoken
  | word text =>
      cases htoken
      exact h
  | mark c =>
      cases htoken
      exact fun halike => absurd halike.length_eq (by simp)
  | literal quote content =>
      cases htoken
      exact Token.not_spells_literal content _

/-- Where no item is `BY`, no token joins the one before it. -/
theorem apart_of_not_isBy {items : List Item} (h : ∀ item ∈ items, ¬ item.IsBy) :
    (items.filterMap token?).IsChain
      fun previous next => ¬ Dialect.mysqlDelete.Joins previous next := by
  apply List.isChain_iff_forall_rel_of_append_cons_cons.mpr
  intro previous next front back heq hjoins
  have hnext : next ∈ items.filterMap token? := by
    rw [heq]
    simp
  obtain ⟨item, hitem, htoken⟩ := List.mem_filterMap.mp hnext
  exact not_spells_by (h item hitem) htoken (Dialect.joins_mysqlDelete_iff.mp hjoins).2

/-- Items enter one after the other: the invariant is that no token joins the next
one, in what is there already and in what is still to come. -/
theorem enterAll_pieces {items : List Item} (hfits : ∀ item ∈ items, item.Fits)
    {tokens : List Token} (noted : List Occurrence) (hapart : (tokens ++ items.filterMap token?).IsChain
      fun previous next => ¬ Dialect.mysqlDelete.Joins previous next) :
    Transcript.enterAll Lexicon.mysqlDelete ⟨tokens, .ofList noted⟩ (items.flatMap pieces) =
      ⟨tokens ++ items.filterMap token?, .ofList (noted ++ occurrences tokens.length items)⟩ := by
  induction items generalizing tokens noted with
  | nil => simp [occurrences]
  | cons item rest ih =>
      have hitem := hfits item List.mem_cons_self
      have hrest : ∀ other ∈ rest, other.Fits := fun other hother =>
        hfits other (List.mem_cons_of_mem _ hother)
      rw [List.flatMap_cons, Transcript.enterAll_append]
      cases hname : item.keyword? with
      | some name =>
          have htoken := token?_of_keyword hname
          rw [List.filterMap_cons, htoken] at hapart ⊢
          rw [enterAll_keyword hitem hname, ih hrest _ hapart, occurrences_of_keyword hname]
          simp
      | none =>
          obtain ⟨token, htoken⟩ := exists_token_of_not_keyword hname
          rw [List.filterMap_cons, htoken] at hapart ⊢
          have hlast : ∀ before ∈ tokens.getLast?,
              ¬ Dialect.mysqlDelete.Joins before token := fun before hbefore =>
            (List.isChain_append.mp hapart).2.2 before hbefore token rfl
          have hmore : (tokens ++ [token] ++ rest.filterMap token?).IsChain
              fun previous next => ¬ Dialect.mysqlDelete.Joins previous next := by
            simpa using hapart
          rw [enterAll_token hitem htoken hlast, ih hrest _ hmore, occurrences_of_token hname]
          simp

end Item

/-! ## Layouts -/

/-- Items in order, each with the gap after it. -/
structure Layout where
  /-- The gap before the first item. -/
  lead : Text
  items : List (Item × Text)
deriving DecidableEq

namespace Layout

def body (items : List (Item × Text)) : Text :=
  items.flatMap fun entry => entry.1.written ++ entry.2

def text (layout : Layout) : Text :=
  layout.lead ++ body layout.items

/-- Gaps are made of separators that leave no token, and keep apart the keywords and
words that are neighbours. -/
structure Fits (layout : Layout) : Prop where
  items : ∀ entry ∈ layout.items, entry.1.Fits
  lead : Alphabet.mysql.IsGap layout.lead
  gaps : ∀ entry ∈ layout.items, Alphabet.mysql.IsGap entry.2
  parted : layout.items.IsChain fun entry next =>
    entry.1.isWordlike = true → next.1.isWordlike = true → entry.2 ≠ []

def tokens (layout : Layout) : List Token :=
  (layout.items.map Prod.fst).filterMap Item.token?

/-- The keywords that the items stand for, each at the number of tokens before it. -/
def occurrences (layout : Layout) : List Occurrence :=
  Item.occurrences 0 (layout.items.map Prod.fst)

@[simp] theorem body_cons (entry : Item × Text) (rest : List (Item × Text)) :
    body (entry :: rest) = entry.1.written ++ (entry.2 ++ body rest) := by
  simp [body]

/-- After a word there is a gap, an item that ends it, or nothing. -/
theorem endsRun_body {entry : Item × Text} {rest : List (Item × Text)}
    (hgap : Alphabet.mysql.IsGap entry.2) (hrest : ∀ next ∈ rest, next.1.Fits)
    (hparted : ∀ next ∈ rest.head?, next.1.isWordlike = true → entry.2 ≠ []) :
    Alphabet.mysql.EndsRun (entry.2 ++ body rest) := by
  by_cases hne : entry.2 = []
  · rw [hne, List.nil_append]
    cases rest with
    | nil => simp [body, Alphabet.EndsRun]
    | cons next more =>
        have hnext : next.1.isWordlike = false := by
          rw [← Bool.not_eq_true]
          exact fun hwordlike => hparted next rfl hwordlike hne
        rw [body_cons]
        exact Item.endsRun_written (hrest next List.mem_cons_self) hnext _
  · exact Alphabet.endsRun_gap hgap hne _

theorem cutsInto_body {items : List (Item × Text)} (hfits : ∀ entry ∈ items, entry.1.Fits)
    (hgaps : ∀ entry ∈ items, Alphabet.mysql.IsGap entry.2)
    (hparted : items.IsChain fun entry next =>
      entry.1.isWordlike = true → next.1.isWordlike = true → entry.2 ≠ []) :
    Alphabet.mysql.CutsInto (body items) ((items.map Prod.fst).flatMap Item.pieces) := by
  induction items with
  | nil => exact Alphabet.cutsInto_nil
  | cons entry rest ih =>
      have hrest : ∀ next ∈ rest, next.1.Fits := fun next hnext =>
        hfits next (List.mem_cons_of_mem _ hnext)
      have hgap := hgaps entry List.mem_cons_self
      obtain ⟨hhead, htail⟩ := List.isChain_cons.mp hparted
      have hcuts := ih hrest (fun next hnext => hgaps next (List.mem_cons_of_mem _ hnext)) htail
      have hends : entry.1.isWordlike = true →
          Alphabet.mysql.EndsRun (entry.2 ++ body rest) := fun hwordlike =>
        endsRun_body hgap hrest fun next hnext => hhead next hnext hwordlike
      rw [body_cons, List.map_cons, List.flatMap_cons]
      exact Item.cutsInto_written (hfits entry List.mem_cons_self) hends (hcuts.gap hgap)

/-- Reading a layout gives its tokens and keywords, if no token would join the next. -/
theorem transcribe_text_of_apart {layout : Layout} (h : layout.Fits)
    (hapart : layout.tokens.IsChain
      fun previous next => ¬ Dialect.mysqlDelete.Joins previous next)
    (hne : layout.text ≠ []) :
    Dialect.mysqlDelete.transcribe layout.text =
      .ok ⟨layout.tokens, .ofList layout.occurrences⟩ := by
  have hcut := (cutsInto_body h.items h.gaps h.parted).gap h.lead
  have hfits : ∀ item ∈ layout.items.map Prod.fst, item.Fits := by
    intro item hitem
    obtain ⟨entry, hentry, rfl⟩ := List.mem_map.mp hitem
    exact h.items entry hentry
  have hstart : ([] ++ layout.tokens).IsChain
      fun previous next => ¬ Dialect.mysqlDelete.Joins previous next := hapart
  rw [Dialect.transcribe_of_cut hne (hcut 0)]
  exact congrArg Except.ok (Item.enterAll_pieces hfits [] hstart)

/-- **Every layout is read back.** Items in any letter case, between any quotes and
with any gaps give their tokens and keywords in order. A word may be `ORDER`; it may
not be `BY`, which could take an `ORDER` back. -/
theorem transcribe_text {layout : Layout} (h : layout.Fits)
    (hby : ∀ entry ∈ layout.items, ¬ entry.1.IsBy) (hne : layout.text ≠ []) :
    ∃ t, Dialect.mysqlDelete.transcribe layout.text = .ok t ∧ t.tokens = layout.tokens ∧
      t.keywords.occurrences = layout.occurrences ∧ t.keywords = .ofList layout.occurrences := by
  have hitems : ∀ item ∈ layout.items.map Prod.fst, ¬ item.IsBy := by
    intro item hitem
    obtain ⟨entry, hentry, rfl⟩ := List.mem_map.mp hitem
    exact hby entry hentry
  exact ⟨_, transcribe_text_of_apart h (Item.apart_of_not_isBy hitems) hne, rfl,
    KeywordIndex.occurrences_ofList layout.occurrences, rfl⟩

/-- A layout with glued and spread items and a word before the keyword it begins. -/
def spread : Layout where
  lead := "\t".toList
  items :=
    [(.keyword "DELETE".toList "dElEtE".toList, "\r\n".toList),
      (.keyword "FROM".toList "From".toList, []),
      (.literal '"' "a'b".toList, []),
      (.keyword "WHERE".toList "where".toList, ";".toList),
      (.word "ORDER".toList, " ".toList),
      (.orderBy "order".toList " ;\n".toList "By".toList, []),
      (.mark '(', []),
      (.literal '\x60' [], []),
      (.word "é>=".toList, [])]

theorem transcribe_text_spread :
    spread.Fits ∧ (∀ entry ∈ spread.items, ¬ entry.1.IsBy) ∧ spread.text ≠ [] ∧
      ∃ t, Dialect.mysqlDelete.transcribe spread.text = .ok t ∧
        t.tokens = [.literal "a'b".toList, .bare "ORDER".toList, .bare "(".toList, .literal [],
          .bare "é>=".toList] ∧
        t.keywords.occurrences = [⟨"DELETE".toList, 0⟩, ⟨"FROM".toList, 0⟩, ⟨"WHERE".toList, 1⟩,
          ⟨"ORDER BY".toList, 2⟩] ∧
        t.keywords = .ofList t.keywords.occurrences := by
  have hfits : spread.Fits := ⟨by decide, by decide, by decide, by decide⟩
  have hby : ∀ entry ∈ spread.items, ¬ entry.1.IsBy := by decide
  have hne : spread.text ≠ [] := by decide
  obtain ⟨t, ht, htokens, hoccurrences, hkeywords⟩ := transcribe_text hfits hby hne
  refine ⟨hfits, hby, hne, t, ht, htokens, hoccurrences, ?_⟩
  rw [hoccurrences, hkeywords]

end Layout

end SqlDelete
