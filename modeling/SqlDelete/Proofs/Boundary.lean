import SqlDelete.Proofs.Table

/-!
# What a clause mentions

A clause is meant to mention its boundary, then the tokens and the keywords read after
it, in the order of reading and without the keywords that no token follows. Keywords are
written by position, and a position also counts the tokens that were taken back after
the keyword. `exact_iff` tells which of these disturb the clause: those that move a
keyword that is due, and those that leave an earlier keyword past the boundary.
-/

namespace SqlDelete

/-- A keyword or a token in a clause, with the piece that it comes from. -/
inductive Mention where
  | keyword (n : Noting)
  | token (e : Entry)
deriving DecidableEq

namespace Mention

def index : Mention → Nat
  | keyword n => n.index
  | token e => e.index

def written : Mention → Text
  | keyword n => n.occurrence.keyword
  | token e => e.token.written

end Mention

namespace History

/-- The last noting of the strongest clause keyword that was noted. -/
def boundary? (h : History) (lexicon : Lexicon) : Option Noting :=
  lexicon.clauseKeywords.findSome? h.latest?

/-- The keywords that a clause writes at a position. -/
def notedAt (h : History) (b : Noting) (position : Nat) : List Noting :=
  h.notings.filter fun n => n.occurrence.position = position ∧
    (position = b.occurrence.position → b.index ≤ n.index)

/-- What a clause writes at a position: keywords, then the token there. -/
def block (h : History) (b : Noting) (entry : Entry × Nat) : List Mention :=
  (h.notedAt b entry.2).map .keyword ++ [.token entry.1]

/-- What the clause from a boundary on writes. -/
def mentions (h : History) (b : Noting) : List Mention :=
  (h.entries.zipIdx.drop b.occurrence.position).flatMap (h.block b)

/-- What the clause from a boundary on has to write: the tokens read after the boundary,
and the keywords from the boundary on that a token follows. -/
def Due (h : History) (b : Noting) : Mention → Prop
  | .keyword n => n ∈ h.notings ∧ b.index ≤ n.index ∧ h.after n.index ≠ []
  | .token e => e ∈ h.after b.index

/-- A clause that writes what is due, each once and in the order of reading. -/
structure Exact (h : History) (b : Noting) : Prop where
  ordered : (h.mentions b).Pairwise (·.index < ·.index)
  complete : ∀ mention, mention ∈ h.mentions b ↔ h.Due b mention

/-- No keyword that is due has moved, and no keyword in front of the boundary stands at a
token past it. -/
structure Undisturbed (h : History) (b : Noting) : Prop where
  onward : ∀ n ∈ h.notings, b.index ≤ n.index → h.after n.index ≠ [] →
    ∀ m ∈ h.notings, ¬ m.Straddles n.index
  behind : ∀ n ∈ h.notings, n.index < b.index → b.occurrence.position < n.occurrence.position →
    h.entries.length ≤ n.occurrence.position

theorem mem_notedAt {h : History} {b n : Noting} {position : Nat} :
    n ∈ h.notedAt b position ↔ n ∈ h.notings ∧ n.occurrence.position = position ∧
      (position = b.occurrence.position → b.index ≤ n.index) := by
  rw [notedAt, List.mem_filter, decide_eq_true_iff]

theorem mem_zipIdx_drop {h : History} {start i : Nat} {e : Entry} :
    (e, i) ∈ h.entries.zipIdx.drop start ↔ start ≤ i ∧ h.entries[i]? = some e := by
  rw [Transcript.drop_zipIdx, List.mk_mem_zipIdx_iff_le_and_getElem?_sub, Nat.zero_add,
    List.getElem?_drop]
  refine and_congr_right fun hle => ?_
  rw [Nat.add_sub_cancel' hle]

theorem pairwise_zipIdx_drop {h : History} {start : Nat} {R : Entry × Nat → Entry × Nat → Prop} :
    (h.entries.zipIdx.drop start).Pairwise R ↔ ∀ i j e other, start ≤ i → i < j →
      h.entries[i]? = some e → h.entries[j]? = some other → R (e, i) (other, j) := by
  rw [Transcript.drop_zipIdx, List.pairwise_iff_getElem]
  simp only [List.getElem_zipIdx, List.getElem_drop, List.length_zipIdx, List.length_drop,
    Nat.zero_add]
  constructor
  · intro hall i j e other hle hlt he hother
    obtain ⟨hi, rfl⟩ := List.getElem?_eq_some_iff.mp he
    obtain ⟨hj, rfl⟩ := List.getElem?_eq_some_iff.mp hother
    have := hall (i - start) (j - start) (by omega) (by omega) (by omega)
    simpa only [Nat.add_sub_cancel' hle, Nat.add_sub_cancel' (Nat.le_trans hle hlt.le)] using this
  · intro hall i j hi hj hlt
    exact hall _ _ _ _ (Nat.le_add_right _ _) (Nat.add_lt_add_left hlt _)
      (List.getElem?_eq_getElem _) (List.getElem?_eq_getElem _)

theorem token_mem_block {h : History} {b : Noting} {e other : Entry} {i : Nat} :
    .token e ∈ h.block b (other, i) ↔ e = other := by
  simp [block]

theorem keyword_mem_block {h : History} {b n : Noting} {e : Entry} {i : Nat} :
    .keyword n ∈ h.block b (e, i) ↔ n ∈ h.notings ∧ n.occurrence.position = i ∧
      (i = b.occurrence.position → b.index ≤ n.index) := by
  simp [block, mem_notedAt]

theorem token_mem_mentions {h : History} {b : Noting} {e : Entry} :
    .token e ∈ h.mentions b ↔ ∃ i, b.occurrence.position ≤ i ∧ h.entries[i]? = some e := by
  simp only [mentions, List.mem_flatMap, Prod.exists, mem_zipIdx_drop, token_mem_block]
  constructor
  · rintro ⟨_, i, hi, rfl⟩
    exact ⟨i, hi⟩
  · rintro ⟨i, hi⟩
    exact ⟨e, i, hi, rfl⟩

theorem keyword_mem_mentions {h : History} {b n : Noting} :
    .keyword n ∈ h.mentions b ↔ n ∈ h.notings ∧
      b.occurrence.position ≤ n.occurrence.position ∧
      n.occurrence.position < h.entries.length ∧
      (n.occurrence.position = b.occurrence.position → b.index ≤ n.index) := by
  simp only [mentions, List.mem_flatMap, Prod.exists, mem_zipIdx_drop, keyword_mem_block]
  constructor
  · rintro ⟨e, i, ⟨hle, he⟩, hn, rfl, hb⟩
    exact ⟨hn, hle, (List.getElem?_eq_some_iff.mp he).1, hb⟩
  · rintro ⟨hn, hle, hlt, hb⟩
    exact ⟨_, _, ⟨hle, List.getElem?_eq_getElem hlt⟩, hn, rfl, hb⟩

/-! ## Places of entries -/

theorem Ordered.index_lt {h : History} (ho : h.Ordered) {i j : Nat} {e other : Entry}
    (he : h.entries[i]? = some e) (hother : h.entries[j]? = some other) (hlt : i < j) :
    e.index < other.index := by
  obtain ⟨hi, rfl⟩ := List.getElem?_eq_some_iff.mp he
  obtain ⟨hj, rfl⟩ := List.getElem?_eq_some_iff.mp hother
  exact List.pairwise_iff_getElem.mp ho.entries i j hi hj hlt

theorem Ordered.place_unique {h : History} (ho : h.Ordered) {i j : Nat} {e : Entry}
    (hi : h.entries[i]? = some e) (hj : h.entries[j]? = some e) : i = j := by
  rcases Nat.lt_trichotomy i j with hlt | heq | hlt
  · exact absurd (ho.index_lt hi hj hlt) (Nat.lt_irrefl _)
  · exact heq
  · exact absurd (ho.index_lt hj hi hlt) (Nat.lt_irrefl _)

/-- An entry was read after a keyword if it stands behind all that was read before. -/
theorem Reachable.before_le_iff {h : History} (hr : h.Reachable) {n : Noting}
    (hn : n ∈ h.notings) {i : Nat} {e : Entry} (he : h.entries[i]? = some e) :
    h.before n.index ≤ i ↔ n.index < e.index := by
  constructor
  · intro hle
    have hmem : e ∈ h.entries.drop (h.before n.index) := by
      rw [List.mem_iff_getElem?]
      exact ⟨i - h.before n.index, by rw [List.getElem?_drop, Nat.add_sub_cancel' hle, he]⟩
    rw [hr.drop_before hn] at hmem
    exact (mem_after.mp hmem).2
  · intro hlt
    have hmem : e ∈ h.after n.index := mem_after.mpr ⟨List.mem_of_getElem? he, hlt⟩
    rw [← hr.drop_before hn] at hmem
    obtain ⟨j, hj⟩ := List.mem_iff_getElem?.mp hmem
    rw [List.getElem?_drop] at hj
    rw [← hr.ordered.place_unique hj he]
    exact Nat.le_add_right _ _

theorem Reachable.after_ne_nil_iff {h : History} (hr : h.Reachable) {n : Noting}
    (hn : n ∈ h.notings) : h.after n.index ≠ [] ↔ h.before n.index < h.entries.length := by
  rw [← hr.drop_before hn, Ne, List.drop_eq_nil_iff, Nat.not_le]

theorem Reachable.before_le_position {h : History} (hr : h.Reachable) {n : Noting}
    (hn : n ∈ h.notings) : h.before n.index ≤ n.occurrence.position := by
  rw [hr.position_eq n hn]
  exact Nat.le_add_right _ _

/-! ## When a clause is exact -/

/-- A block is in order and ends with its token. -/
theorem Reachable.block_ordered {h : History} (hr : h.Reachable) (b : Noting) {e : Entry}
    {i : Nat} (he : h.entries[i]? = some e) :
    (h.block b (e, i)).Pairwise (·.index < ·.index) ∧
      ∀ mention ∈ h.block b (e, i), mention.index ≤ e.index := by
  have hlt : ∀ n ∈ h.notedAt b i, n.index < e.index := by
    intro n hn
    obtain ⟨hmem, rfl, -⟩ := mem_notedAt.mp hn
    exact (hr.before_le_iff hmem he).mp (hr.before_le_position hmem)
  constructor
  · refine List.pairwise_append.mpr ⟨?_, List.pairwise_singleton _ _, ?_⟩
    · rw [List.pairwise_map]
      exact hr.ordered.notings.sublist List.filter_sublist
    · intro mention hmention token htoken
      obtain ⟨n, hn, rfl⟩ := List.mem_map.mp hmention
      rw [List.mem_singleton.mp htoken]
      exact hlt n hn
  · intro mention hmention
    rcases List.mem_append.mp hmention with hmention | hmention
    · obtain ⟨n, hn, rfl⟩ := List.mem_map.mp hmention
      exact Nat.le_of_lt (hlt n hn)
    · rw [List.mem_singleton.mp hmention]
      exact Nat.le_refl _

/-- What a clause writes is in order if each keyword comes after the tokens in front of it. -/
theorem Reachable.mentions_ordered_iff {h : History} (hr : h.Reachable) {b : Noting} :
    (h.mentions b).Pairwise (·.index < ·.index) ↔
      ∀ n, .keyword n ∈ h.mentions b → ∀ i e, b.occurrence.position ≤ i →
        h.entries[i]? = some e → i < n.occurrence.position → e.index < n.index := by
  rw [mentions, List.pairwise_flatMap, pairwise_zipIdx_drop, ← mentions]
  constructor
  · -- a keyword is written in the block of its position, behind the blocks before it
    rintro ⟨-, hblocks⟩ n hn i e hle he hlt
    obtain ⟨hmem, -, hlength, hb⟩ := keyword_mem_mentions.mp hn
    exact hblocks i _ e _ hle hlt he (List.getElem?_eq_getElem hlength) (.token e)
      (token_mem_block.mpr rfl) (.keyword n) (keyword_mem_block.mpr ⟨hmem, rfl, hb⟩)
  · intro hkeywords
    constructor
    · rintro ⟨e, i⟩ hentry
      exact (hr.block_ordered b (mem_zipIdx_drop.mp hentry).2).1
    · intro i j e other hle hlt he hother mention hmention next hnext
      refine Nat.lt_of_le_of_lt ((hr.block_ordered b he).2 mention hmention) ?_
      cases next with
      | token other' =>
          rw [token_mem_block.mp hnext]
          exact hr.ordered.index_lt he hother hlt
      | keyword n =>
          obtain ⟨hmem, rfl, hb⟩ := keyword_mem_block.mp hnext
          have hlength := (List.getElem?_eq_some_iff.mp hother).1
          have hn := keyword_mem_mentions.mpr ⟨hmem, Nat.le_trans hle hlt.le, hlength, hb⟩
          exact hkeywords n hn i e hle he hlt

/-- A keyword that is due stands at the next token that was read. -/
theorem Undisturbed.position_eq {h : History} {b : Noting} (hu : h.Undisturbed b)
    (hr : h.Reachable) {n : Noting} (hn : n ∈ h.notings) (hle : b.index ≤ n.index)
    (hafter : h.after n.index ≠ []) : n.occurrence.position = h.before n.index := by
  rw [hr.position_eq n hn, drift_eq_zero_iff.mpr (hu.onward n hn hle hafter), Nat.add_zero]

theorem Undisturbed.complete {h : History} {b : Noting} (hu : h.Undisturbed b)
    (hr : h.Reachable) (hb : b ∈ h.notings) (mention : Mention) :
    mention ∈ h.mentions b ↔ h.Due b mention := by
  cases mention with
  | token e =>
      rw [token_mem_mentions]
      constructor
      · rintro ⟨i, hle, he⟩
        have hbefore := Nat.le_trans (hr.before_le_position hb) hle
        exact mem_after.mpr ⟨List.mem_of_getElem? he, (hr.before_le_iff hb he).mp hbefore⟩
      · intro hdue
        obtain ⟨hmem, hlt⟩ := mem_after.mp hdue
        obtain ⟨i, he⟩ := List.mem_iff_getElem?.mp hmem
        refine ⟨i, ?_, he⟩
        rw [hu.position_eq hr hb (Nat.le_refl _) (List.ne_nil_of_mem hdue)]
        exact (hr.before_le_iff hb he).mpr hlt
  | keyword n =>
      rw [keyword_mem_mentions]
      constructor
      · rintro ⟨hn, hle, hlength, hshared⟩
        refine ⟨hn, ?_, ?_⟩
        · -- an earlier keyword is not past the boundary, and not written where it stands
          by_contra hlt
          have hposition : b.occurrence.position < n.occurrence.position :=
            Nat.lt_of_le_of_ne hle fun heq => hlt (hshared heq.symm)
          exact absurd hlength (Nat.not_lt.mpr (hu.behind n hn (Nat.not_le.mp hlt) hposition))
        · rw [hr.after_ne_nil_iff hn]
          exact Nat.lt_of_le_of_lt (hr.before_le_position hn) hlength
      · rintro ⟨hn, hle, hafter⟩
        have hlength := (hr.after_ne_nil_iff hn).mp hafter
        have hmono := h.before_mono hle
        have hafter' : h.after b.index ≠ [] :=
          (hr.after_ne_nil_iff hb).mpr (Nat.lt_of_le_of_lt hmono hlength)
        rw [hu.position_eq hr hn hle hafter, hu.position_eq hr hb (Nat.le_refl _) hafter']
        exact ⟨hn, hmono, hlength, fun _ => hle⟩

/-- **What disturbs a clause**: a clause is exact if no keyword that is due has moved, and
no earlier keyword stands at a token past the boundary, and not otherwise. -/
theorem Reachable.exact_iff {h : History} (hr : h.Reachable) {b : Noting}
    (hb : b ∈ h.notings) : h.Exact b ↔ h.Undisturbed b := by
  constructor
  · intro hx
    constructor
    · intro n hn hle hafter
      rw [← drift_eq_zero_iff]
      by_contra hdrift
      -- the token next to `n` is due, and is written in front of `n`
      have hlength := (hr.after_ne_nil_iff hn).mp hafter
      obtain ⟨e, he⟩ : ∃ e, h.entries[h.before n.index]? = some e :=
        ⟨_, List.getElem?_eq_getElem hlength⟩
      have hnext := (hr.before_le_iff hn he).mp (Nat.le_refl _)
      have hdue : h.Due b (.token e) :=
        mem_after.mpr ⟨List.mem_of_getElem? he, Nat.lt_of_le_of_lt hle hnext⟩
      obtain ⟨i, hi, he'⟩ := token_mem_mentions.mp ((hx.complete _).mpr hdue)
      rw [hr.ordered.place_unique he' he] at hi
      have hkeyword := (hx.complete (.keyword n)).mpr ⟨hn, hle, hafter⟩
      have hmoved : h.before n.index < n.occurrence.position := by
        rw [hr.position_eq n hn]
        omega
      have hlt := hr.mentions_ordered_iff.mp hx.ordered n hkeyword _ e hi he hmoved
      exact Nat.lt_asymm hlt hnext
    · -- past the boundary and at a token, an earlier keyword is written but not due
      intro n hn hlt hposition
      by_contra hlength
      have hkeyword : .keyword n ∈ h.mentions b := keyword_mem_mentions.mpr
        ⟨hn, Nat.le_of_lt hposition, Nat.not_le.mp hlength, fun heq => by omega⟩
      have hdue : b.index ≤ n.index := ((hx.complete (.keyword n)).mp hkeyword).2.1
      omega
  · intro hu
    refine ⟨hr.mentions_ordered_iff.mpr ?_, hu.complete hr hb⟩
    intro n hn i e _ he hlt
    obtain ⟨hmem, hle, hafter⟩ := (hu.complete hr hb _).mp hn
    rw [hu.position_eq hr hmem hle hafter] at hlt
    have hnot := mt (hr.before_le_iff hmem he).mpr (Nat.not_le.mpr hlt)
    exact Nat.lt_of_le_of_ne (Nat.not_lt.mp hnot) (hr.index_ne e (List.mem_of_getElem? he) n hmem)

/-! ## The text of a clause -/

theorem mem_notings_of_boundary? {h : History} {lexicon : Lexicon} {b : Noting}
    (hb : h.boundary? lexicon = some b) : b ∈ h.notings := by
  obtain ⟨name, -, hlatest⟩ := List.exists_of_findSome?_eq_some hb
  obtain ⟨front, back, heq, -⟩ := latest?_eq_some_iff.mp hlatest
  simp [heq]

theorem Ordered.boundary?_transcript {h : History} (ho : h.Ordered) (lexicon : Lexicon) :
    h.transcript.boundary? lexicon =
      (h.boundary? lexicon).map fun b => (h.ordinal b.index, b.occurrence.position) := by
  rw [Transcript.boundary?, boundary?, List.map_findSome?]
  exact congrArg (List.findSome? · _) (funext ho.latest?_transcript)

theorem Ordered.notedAt_eq {h : History} (ho : h.Ordered) {front back : List Noting}
    {b : Noting} (heq : h.notings = front ++ b :: back) (position : Nat) :
    h.notedAt b position =
      ((if position = b.occurrence.position then [] else front) ++ b :: back).filter
        (·.occurrence.position = position) := by
  have hordered := ho.notings
  rw [heq] at hordered
  obtain ⟨-, hback, hfront⟩ := List.pairwise_append.mp hordered
  have honward : ∀ n ∈ b :: back, b.index ≤ n.index := by
    intro n hn
    rcases List.mem_cons.mp hn with rfl | hn
    · exact Nat.le_refl _
    · exact Nat.le_of_lt (List.rel_of_pairwise_cons hback hn)
  rw [notedAt, heq, List.filter_append, List.filter_append]
  congr 1
  · split
    · rename_i hshared
      rw [List.filter_nil, List.filter_eq_nil_iff]
      intro n hn
      have hlt := hfront n hn b List.mem_cons_self
      simp [hshared, Nat.not_le.mpr hlt]
    · rename_i hne
      exact List.filter_congr fun n _ => by simp [hne]
  · exact List.filter_congr fun n hn => by simp [honward n hn]

/-- The transcript writes at a position what the history has noted there. -/
theorem Ordered.keywordsBefore_transcript {h : History} (ho : h.Ordered) {b : Noting}
    (hb : b ∈ h.notings) (position : Nat) :
    h.transcript.keywordsBefore (h.ordinal b.index, b.occurrence.position) position =
      (h.notedAt b position).map (·.occurrence.keyword) := by
  obtain ⟨front, back, heq⟩ := List.append_of_mem hb
  have htranscript : h.transcript = ⟨h.entries.map Entry.token, .ofList
      (front.map Noting.occurrence ++ (b :: back).map Noting.occurrence)⟩ := by
    rw [transcript, heq, List.map_append]
  have hordinal : h.ordinal b.index = (front.map Noting.occurrence).length := by
    rw [ho.ordinal_eq_length heq, List.length_map]
  rw [htranscript, hordinal, Transcript.keywordsBefore_append, ho.notedAt_eq heq]
  by_cases hshared : position = b.occurrence.position
  · simp only [if_pos hshared, List.nil_append, List.filter_map, List.map_map]
    rfl
  · simp only [if_neg hshared, ← List.map_append, List.filter_map, List.map_map]
    rfl

/-- **The text of a clause** is what its history mentions from the boundary on. -/
theorem Ordered.clause_transcript {h : History} (ho : h.Ordered) {lexicon : Lexicon} {b : Noting}
    (hb : h.boundary? lexicon = some b) :
    h.transcript.clause lexicon = Text.terminated ((h.mentions b).map Mention.written) := by
  have hmem := mem_notings_of_boundary? hb
  rw [Transcript.clause, ho.boundary?_transcript, hb, Option.map_some]
  show Text.terminated (h.transcript.partsFrom _) = _
  rw [Transcript.partsFrom, mentions, List.map_flatMap]
  have htokens : h.transcript.tokens.zipIdx = h.entries.zipIdx.map (Prod.map Entry.token id) := by
    rw [transcript, List.zipIdx_map]
  rw [htokens, ← List.map_drop, List.flatMap_map]
  refine congrArg _ (congrArg (List.flatMap · _) (funext fun entry => ?_))
  rw [block, Prod.map_snd, id, ho.keywordsBefore_transcript hmem, List.map_append, List.map_map]
  rfl

end History

namespace Dialect

/-- **What a clause says.** The text of a clause writes what the history of the source
mentions from the boundary on. These are the boundary, the tokens and the keywords that
were read after it, each once and in the order of reading, without the keywords that no
token follows, exactly if the clause is undisturbed. -/
theorem clause_exact_iff (dialect : Dialect) {source : Text} {t : Transcript}
    (ht : dialect.transcribe source = .ok t) {ordinal start : Nat}
    (hboundary : t.boundary? dialect.lexicon = some (ordinal, start)) :
    ∃ pieces h b, dialect.alphabet.cut 0 source = .ok pieces ∧
      h = History.ofPieces dialect.lexicon pieces ∧ t = h.transcript ∧
      h.Traces dialect.lexicon pieces ∧ h.boundary? dialect.lexicon = some b ∧
      h.ordinal b.index = ordinal ∧ b.occurrence.position = start ∧
      t.clause dialect.lexicon = Text.terminated ((h.mentions b).map Mention.written) ∧
      (h.Exact b ↔ h.Undisturbed b) := by
  obtain ⟨pieces, hcut, rfl⟩ := exists_history_of_transcribe ht
  have hr := History.reachable_ofPieces dialect.lexicon pieces
  rw [hr.ordered.boundary?_transcript] at hboundary
  obtain ⟨b, hb, hplace⟩ := Option.map_eq_some_iff.mp hboundary
  obtain ⟨hordinal, hstart⟩ := Prod.mk.inj hplace
  exact ⟨pieces, _, b, hcut, rfl, rfl, History.traces_ofPieces _ _, hb, hordinal, hstart,
    hr.ordered.clause_transcript hb, hr.exact_iff (History.mem_notings_of_boundary? hb)⟩

/-- A keyword stands between the words of `ORDER BY`, but in front of the boundary. -/
theorem clause_exact_iff_harmless :
    ∃ (t : Transcript) (h : History) (b : Noting),
      mysqlDelete.transcribe "order limit by x where y limit".toList = .ok t ∧
      t.boundary? Lexicon.mysqlDelete = some (2, 1) ∧ t = h.transcript ∧
      h.boundary? Lexicon.mysqlDelete = some b ∧ h.Straddled ∧ h.Undisturbed b ∧ h.Exact b ∧
      t.clause Lexicon.mysqlDelete = "WHERE y ".toList := by
  have ht : mysqlDelete.transcribe "order limit by x where y limit".toList =
      .ok ⟨[.bare "x".toList, .bare "y".toList], .ofList [⟨"LIMIT".toList, 1⟩,
        ⟨"ORDER BY".toList, 0⟩, ⟨"WHERE".toList, 1⟩, ⟨"LIMIT".toList, 2⟩]⟩ := by rfl
  have hpieces : mysqlDelete.alphabet.cut 0 "order limit by x where y limit".toList =
      .ok [.word "order".toList, .word "limit".toList, .word "by".toList, .word "x".toList,
        .word "where".toList, .word "y".toList, .word "limit".toList] := by
    rw [← Scan.pieces_start_located]
    rfl
  have hboundary : Transcript.boundary? ⟨[.bare "x".toList, .bare "y".toList],
      .ofList [⟨"LIMIT".toList, 1⟩, ⟨"ORDER BY".toList, 0⟩, ⟨"WHERE".toList, 1⟩,
        ⟨"LIMIT".toList, 2⟩]⟩ Lexicon.mysqlDelete = some (2, 1) := by rfl
  obtain ⟨pieces, h, b, hcut, rfl, hh, -, hb, -, -, -, hexact⟩ :=
    clause_exact_iff mysqlDelete ht hboundary
  rw [hpieces] at hcut
  cases hcut
  have hb' : b = ⟨4, none, ⟨"WHERE".toList, 1⟩⟩ := Option.some.inj (hb.symm.trans (by rfl))
  have hundisturbed : (History.ofPieces mysqlDelete.lexicon [.word "order".toList,
      .word "limit".toList, .word "by".toList, .word "x".toList, .word "where".toList,
      .word "y".toList, .word "limit".toList]).Undisturbed b := by
    rw [hb']
    exact ⟨by decide +kernel, by decide +kernel⟩
  refine ⟨_, _, b, ht, hboundary, hh, hb, ?_, hundisturbed, hexact.mpr hundisturbed, by rfl⟩
  exact ⟨⟨2, some 0, ⟨"ORDER BY".toList, 0⟩⟩, by decide +kernel, 0, rfl,
    ⟨1, none, ⟨"LIMIT".toList, 1⟩⟩, by decide +kernel, by decide, by decide⟩

/-- A keyword read before the boundary is written behind a token read after it. -/
theorem earlier_keyword_written :
    ∃ pieces b n, mysqlDelete.alphabet.cut 0 "delete from t order limit by x y".toList =
        .ok pieces ∧
      (History.ofPieces mysqlDelete.lexicon pieces).boundary? mysqlDelete.lexicon = some b ∧
      n.index < b.index ∧
      .keyword n ∈ (History.ofPieces mysqlDelete.lexicon pieces).mentions b ∧
      ∃ t, mysqlDelete.transcribe "delete from t order limit by x y".toList = .ok t ∧
        t.clause mysqlDelete.lexicon = "ORDER BY x LIMIT y ".toList :=
  ⟨[.word "delete".toList, .word "from".toList, .word "t".toList, .word "order".toList,
      .word "limit".toList, .word "by".toList, .word "x".toList, .word "y".toList],
    ⟨5, some 3, ⟨"ORDER BY".toList, 1⟩⟩, ⟨4, none, ⟨"LIMIT".toList, 2⟩⟩,
    (Scan.pieces_start_located 0 _).symm.trans (by rfl), by rfl, by decide, by decide +kernel, _,
    by rfl, by rfl⟩

end Dialect

end SqlDelete
