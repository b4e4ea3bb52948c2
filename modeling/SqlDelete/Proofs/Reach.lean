import Mathlib.Algebra.Group.Nat.Defs
import Mathlib.Data.List.GetD
import SqlDelete.Proofs.Draw

/-!
# Every sample can be drawn

A draw reaches a value if some bytes make just this value and are used up by it, whatever
follows them. What a draw reaches is put together from what its parts reach: the bytes for
the second part stand behind those for the first. With what a draw yields, this says which
samples are drawn.
-/

namespace SqlDelete

/-! ## Bytes of a number -/

/-- So many base-256 digits of a number, the lowest first. -/
def digits : Nat → Nat → List UInt8
  | 0, _ => []
  | count + 1, n => UInt8.ofNat n :: digits count (n / 256)

@[simp] theorem length_digits (count n : Nat) : (digits count n).length = count := by
  induction count generalizing n with
  | zero => rfl
  | succ count ih => simp [digits, ih]

theorem littleEndian_digits {count n : Nat} (h : n < 256 ^ count) :
    littleEndian (digits count n) = n := by
  induction count generalizing n with
  | zero =>
      have hn : n = 0 := by simpa using h
      rw [hn]
      rfl
  | succ count ih =>
      have hdiv : n / 256 < 256 ^ count := by
        rw [Nat.pow_succ] at h
        exact Nat.div_lt_of_lt_mul (by rwa [Nat.mul_comm])
      rw [digits, littleEndian, ih hdiv, UInt8.toNat_ofNat']
      exact Nat.mod_add_div n 256

namespace Draw

/-- Some bytes make the value, and nothing behind them is used up. -/
def Reaches {α : Type} (draw : Draw α) (a : α) : Prop :=
  ∃ bytes : List UInt8, ∀ rest, draw.run (bytes ++ rest) = (a, rest)

section

variable {α β : Type} {draw : Draw α} {a b : α}

theorem reaches_pure (h : a = b) : Reaches (pure a) b :=
  ⟨[], fun rest => by rw [h]; rfl⟩

/-- The second draw goes on where the first one stops. -/
theorem Reaches.bind {next : α → Draw β} {c : β} (h : draw.Reaches a)
    (hnext : (next a).Reaches c) : Reaches (draw >>= next) c := by
  obtain ⟨bytes, hbytes⟩ := h
  obtain ⟨more, hmore⟩ := hnext
  refine ⟨bytes ++ more, fun rest => ?_⟩
  rw [List.append_assoc, StateT.run_bind, hbytes]
  exact hmore rest

/-! ## Numbers and choices -/

theorem reaches_number {count n : Nat} (h : n < 256 ^ count) : (number count).Reaches n := by
  refine ⟨digits count n, fun rest => ?_⟩
  show (littleEndian ((digits count n ++ rest).take count), (digits count n ++ rest).drop count) =
    (n, rest)
  rw [List.take_left' (length_digits count n), List.drop_left' (length_digits count n),
    littleEndian_digits h]

theorem reaches_below {count n : Nat} (h : n < count) (hcount : count ≤ 256) :
    (below count).Reaches n :=
  (reaches_number (show n < 256 ^ 1 by omega)).bind (reaches_pure (Nat.mod_eq_of_lt h))

theorem reaches_flag (chosen : Bool) : flag.Reaches chosen :=
  (reaches_number (show chosen.toNat < 256 ^ 1 by cases chosen <;> decide)).bind
    (reaches_pure (by cases chosen <;> rfl))

theorem reaches_int64 (value : Int64) : int64.Reaches value :=
  (reaches_number (show value.toUInt64.toNat < 256 ^ 8 from value.toUInt64.toNat_lt)).bind
    (reaches_pure (by rw [UInt64.ofNat_toNat, Int64.toInt64_toUInt64]))

theorem reaches_uint32 (value : UInt32) : uint32.Reaches value :=
  (reaches_number (show value.toNat < 256 ^ 4 from value.toNat_lt)).bind
    (reaches_pure UInt32.ofNat_toNat)

theorem reaches_choice {items : List α} (h : a ∈ items) (hlength : items.length ≤ 256)
    (fallback : α) : (choice fallback items).Reaches a := by
  obtain ⟨i, hi, rfl⟩ := List.getElem_of_mem h
  exact (reaches_below hi hlength).bind (reaches_pure (List.getD_eq_getElem items fallback hi))

theorem reaches_variant {count n : Nat} (h : n < count) (hcount : count ≤ 0x100000000) :
    (variant count).Reaches n := by
  -- the least number that is scaled to the place or further
  have hsplit := Nat.div_add_mod' (n * 0x100000000 + (count - 1)) count
  have hmod := Nat.mod_lt (n * 0x100000000 + (count - 1)) (Nat.zero_lt_of_lt h)
  generalize (n * 0x100000000 + (count - 1)) / count = m at hsplit
  have hlow : n * 0x100000000 ≤ m * count := by omega
  have hhigh : m * count < (n + 1) * 0x100000000 := by omega
  have hm : m < 0x100000000 :=
    Nat.lt_of_mul_lt_mul_right (show m * count < 0x100000000 * count by omega)
  exact (reaches_number (show m < 256 ^ 4 from hm)).bind
    (reaches_pure (Nat.div_eq_of_lt_le hlow hhigh))

theorem reaches_optional {value : Option α} (h : ∀ a ∈ value, draw.Reaches a) :
    (optional draw).Reaches value := by
  cases value with
  | none => exact (reaches_flag false).bind (reaches_pure rfl)
  | some a => exact (reaches_flag true).bind ((h a rfl).bind (reaches_pure rfl))

/-- The flags of a selection say which items stay. -/
theorem reaches_selection {items chosen : List α} (h : chosen.Sublist items) :
    (selection items).Reaches chosen := by
  induction h with
  | slnil => exact reaches_pure rfl
  | cons item _ ih => exact (reaches_flag false).bind (ih.bind (reaches_pure rfl))
  | cons_cons item _ ih => exact (reaches_flag true).bind (ih.bind (reaches_pure rfl))

end

end Draw

/-! ## Identifiers -/

/-- One to eleven characters of names, an initial first, that are no keyword and no word of
one. -/
structure Text.IsIdentifier (text : Text) : Prop where
  shape : ∃ first rest, text = first :: rest ∧ first ∈ Draw.initials ∧
    ∀ c ∈ rest, c ∈ Draw.nameChars
  length_le : text.length ≤ 11
  free : ∀ name ∈ Lexicon.mysqlDelete.keywords, ∀ word ∈ name :: Text.words name,
    ¬ Text.Alike text word

namespace Draw

theorem reaches_nameRest {text : Text} (h : ∀ c ∈ text, c ∈ nameChars) :
    (nameRest text.length).Reaches text := by
  induction text with
  | nil => exact reaches_pure rfl
  | cons c rest ih =>
      obtain ⟨hc, hrest⟩ := List.forall_mem_cons.mp h
      exact (reaches_choice hc (by decide) 'a').bind ((ih hrest).bind (reaches_pure rfl))

theorem unreserved_of_isIdentifier {text : Text} (h : text.IsIdentifier) :
    unreserved text = text := by
  have hnone : ¬ (reserved.any fun word => Text.Alike word text) = true := by
    intro hany
    obtain ⟨word, hword, halike⟩ := List.any_eq_true.mp hany
    obtain ⟨name, hname, hword⟩ := List.mem_flatMap.mp hword
    exact h.free name hname word (List.mem_cons_of_mem _ hword) (of_decide_eq_true halike).symm
  exact if_neg hnone

theorem reaches_name {text : Text} (h : text.IsIdentifier) : name.Reaches text := by
  have hkept := unreserved_of_isIdentifier h
  have hlength := h.length_le
  obtain ⟨first, rest, rfl, hfirst, hrest⟩ := h.shape
  refine (reaches_below (show rest.length < 11 from hlength) (by decide)).bind ?_
  exact (reaches_choice hfirst (by decide) 'a').bind
    ((reaches_nameRest hrest).bind (reaches_pure hkept))

theorem reaches_wrapping (w : Wrapping) : wrapping.Reaches w := by
  cases w with
  | bare => exact (reaches_variant (n := 0) (by decide) (by decide)).bind (reaches_pure rfl)
  | single => exact (reaches_variant (n := 1) (by decide) (by decide)).bind (reaches_pure rfl)
  | double => exact (reaches_variant (n := 2) (by decide) (by decide)).bind (reaches_pure rfl)
  | back => exact (reaches_variant (n := 3) (by decide) (by decide)).bind (reaches_pure rfl)

theorem reaches_filter {entry : Text × Int64} (h : entry.1.IsIdentifier) :
    filter.Reaches entry :=
  (reaches_name h).bind ((reaches_int64 entry.2).bind (reaches_pure rfl))

/-! ## What is drawn as a name -/

/-- The stem has room in front of a reserved word that is short enough to be drawn. -/
theorem shape_unreserved {first : Char} {rest : Text} (hfirst : first ∈ initials)
    (hrest : ∀ c ∈ rest, c ∈ nameChars) (hlength : rest.length < 11) :
    (∃ head tail, unreserved (first :: rest) = head :: tail ∧ head ∈ initials ∧
      ∀ c ∈ tail, c ∈ nameChars) ∧ (unreserved (first :: rest)).length ≤ 11 := by
  -- of the reserved words only `LOW_PRIORITY` is longer, and it is too long to be drawn
  have hshort : ∀ word ∈ reserved, word.length ≤ 11 → word.length ≤ 9 := by decide
  unfold unreserved
  split
  · rename_i hany
    obtain ⟨word, hword, halike⟩ := List.any_eq_true.mp hany
    have hword := hshort word hword
    rw [(of_decide_eq_true halike).length_eq, List.length_cons] at hword
    have hchars : first ∈ nameChars := List.mem_append_left "0123456789".toList hfirst
    refine ⟨⟨'c', '_' :: first :: rest, rfl, by decide, ?_⟩, ?_⟩
    · exact List.forall_mem_cons.mpr ⟨by decide, List.forall_mem_cons.mpr ⟨hchars, hrest⟩⟩
    · show rest.length + 3 ≤ 11
      have := hword hlength
      omega
  · exact ⟨⟨first, rest, rfl, hfirst, hrest⟩, hlength⟩

theorem yields_identifier : name.Yields Text.IsIdentifier := by
  refine (yields_below (by decide)).bind fun length hlength => ?_
  refine (yields_choice (by decide) 'a').bind fun first hfirst => ?_
  refine (yields_nameRest length).bind fun rest hrest => yields_pure ?_
  obtain ⟨hshape, hle⟩ := shape_unreserved hfirst hrest.2 (hrest.1 ▸ hlength)
  have hname := isName_unreserved (isWord_of_initial hfirst hrest.2)
  refine ⟨hshape, hle, fun name hmem word hword => ?_⟩
  rcases List.mem_cons.mp hword with rfl | hword
  · exact hname.2.1 _ hmem
  · exact hname.2.2 name hmem word hword

end Draw

namespace Sample

theorem reaches_draw {sample : Sample} (h : sample.MadeOf Text.IsIdentifier) :
    draw.Reaches sample := by
  refine (Draw.reaches_selection h.modifiers).bind ?_
  refine (Draw.reaches_name h.table).bind ?_
  refine (Draw.reaches_wrapping sample.wrapping).bind ?_
  refine (Draw.reaches_optional fun _ hmem => Draw.reaches_filter (h.filter _ hmem)).bind ?_
  refine (Draw.reaches_optional fun _ hmem => Draw.reaches_name (h.order _ hmem)).bind ?_
  have hlimit : (Draw.optional Draw.uint32).Reaches sample.limit :=
    Draw.reaches_optional fun n _ => Draw.reaches_uint32 n
  refine hlimit.bind ?_
  exact (Draw.reaches_flag sample.lowercase).bind (Draw.reaches_pure rfl)

/-- **Every intended sample is drawn.** There are bytes that are drawn as just this sample and
used up by it, whatever follows them, exactly if the modifiers of the sample come in their
order and its table and columns are identifiers. Every drawn sample is of this kind, also
where bytes are missing. -/
theorem exists_bytes_of_sample :
    (∀ sample : Sample, (∃ bytes : List UInt8, ∀ rest, draw.run (bytes ++ rest) = (sample, rest)) ↔
      sample.MadeOf Text.IsIdentifier) ∧
    ∀ bytes : List UInt8, (draw.run bytes).1.MadeOf Text.IsIdentifier := by
  have hyields := yields_madeOf Draw.yields_identifier
  refine ⟨fun sample => ⟨fun ⟨bytes, hbytes⟩ => ?_, reaches_draw⟩, hyields⟩
  have hsample := hyields (bytes ++ [])
  rwa [hbytes []] at hsample

/-- A table of eleven characters that begins like a keyword, a column that is a reserved word
behind the stem, a column of one character, and numbers at the ends of their ranges. -/
def outermost : Sample where
  modifiers := ["LOW_PRIORITY".toList, "IGNORE".toList]
  table := "Order_By_99".toList
  wrapping := .double
  filter := some ("c_from".toList, -9223372036854775808)
  order := some "_".toList
  limit := some 4294967295
  lowercase := true

theorem exists_bytes_of_sample_outermost :
    ∃ bytes : List UInt8, ∀ rest, draw.run (bytes ++ rest) = (outermost, rest) := by
  have hchars : ∀ {text : Text}, (text.all fun c => Draw.nameChars.contains c) = true →
      ∀ c ∈ text, c ∈ Draw.nameChars := fun h c hc =>
    List.contains_iff_mem.mp (List.all_eq_true.mp h c hc)
  refine (exists_bytes_of_sample.1 outermost).mpr ⟨by decide, ?_, ?_, ?_⟩
  · exact ⟨⟨'O', _, rfl, by decide, hchars (by decide)⟩, by decide, by decide⟩
  · rintro _ ⟨⟩
    exact ⟨⟨'c', _, rfl, by decide, hchars (by decide)⟩, by decide, by decide⟩
  · rintro _ ⟨⟩
    exact ⟨⟨'_', _, rfl, by decide, hchars (by decide)⟩, by decide, by decide⟩

end Sample

end SqlDelete
