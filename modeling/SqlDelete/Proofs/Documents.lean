import Mathlib.Data.List.Forall2
import SqlDelete.Document.Dialect

/-!
# Documents that show a value

Which documents are read, and as what, said without the reading: a record may be an object
with its fields in any order and among others, or an array; a set lists its members in any
order and as often as it likes. Reading accepts just the documents that show a value, and
what is written is one of them.
-/

namespace SqlDelete

namespace Document

/-! ## Records -/

/-- A value stands under a name: it is that of the first field with the name. -/
def Holds (fields : List (Text × Document)) (name : Text) (value : Document) : Prop :=
  ∃ before behind, fields = before ++ (name, value) :: behind ∧
    ∀ field ∈ before, field.1 ≠ name

/-- A record of the named fields has the values: under their names in an object, whatever
else it holds, or as the items of an array in the order of the names. -/
def IsRecord (names : List Text) (values : List Document) : Document → Prop
  | object fields => List.Forall₂ (Holds fields) names values
  | array items => items = values ∧ items.length = names.length
  | _ => False

theorem lookup_eq_some_iff {fields : List (Text × Document)} {name : Text} {value : Document} :
    fields.lookup name = some value ↔ Holds fields name value := by
  rw [List.lookup_eq_some_iff]
  simp only [Holds, bne_iff_ne, ne_comm]

theorem mapM_eq_some_iff {α β : Type} {f : α → Option β} {xs : List α} {ys : List β} :
    xs.mapM f = some ys ↔ List.Forall₂ (fun x y => f x = some y) xs ys := by
  induction xs generalizing ys with
  | nil => simp [eq_comm]
  | cons x rest ih =>
      simp only [List.mapM_cons, Option.bind_eq_bind, Option.bind_eq_some_iff, ih,
        List.forall₂_cons_left_iff]
      constructor
      · rintro ⟨y, hy, zs, hzs, ⟨⟩⟩
        exact ⟨y, zs, hy, hzs, rfl⟩
      · rintro ⟨y, zs, hy, hzs, rfl⟩
        exact ⟨y, hy, zs, hzs, rfl⟩

theorem fields?_eq_some_iff {names : List Text} {values : List Document} {v : Document} :
    v.fields? names = some values ↔ v.IsRecord names values := by
  cases v with
  | object fields => simp only [fields?, IsRecord, mapM_eq_some_iff, lookup_eq_some_iff]
  | array items =>
      simp only [fields?, IsRecord, Option.ite_none_right_eq_some, Option.some.injEq]
      exact and_comm
  | _ => simp [fields?, IsRecord]

/-- Without a repeated name the order of the fields does not matter. -/
theorem holds_iff_mem {fields : List (Text × Document)} (h : (fields.map Prod.fst).Nodup)
    {name : Text} {value : Document} : Holds fields name value ↔ (name, value) ∈ fields := by
  constructor
  · rintro ⟨before, behind, rfl, -⟩
    simp
  · intro hmem
    obtain ⟨before, behind, rfl⟩ := List.append_of_mem hmem
    refine ⟨before, behind, rfl, fun field hfield heq => ?_⟩
    rw [List.map_append, List.nodup_append] at h
    exact h.2.2 _ (List.mem_map_of_mem hfield) _ (by simp) heq

/-- Two objects without repeated names that have the same fields under some names. -/
structure Agree (names : List Text) (fields others : List (Text × Document)) : Prop where
  nodup : (fields.map Prod.fst).Nodup
  nodup_others : (others.map Prod.fst).Nodup
  mem_iff : ∀ field : Text × Document, field.1 ∈ names → (field ∈ fields ↔ field ∈ others)

theorem Agree.lookup_eq {names : List Text} {fields others : List (Text × Document)}
    (h : Agree names fields others) {name : Text} (hname : name ∈ names) :
    fields.lookup name = others.lookup name := by
  apply Option.ext
  intro value
  rw [lookup_eq_some_iff, lookup_eq_some_iff, holds_iff_mem h.nodup,
    holds_iff_mem h.nodup_others]
  exact h.mem_iff (name, value) hname

/-- The order of the fields and the fields under other names do not matter. -/
theorem Agree.fields?_eq {names : List Text} {fields others : List (Text × Document)}
    (h : Agree names fields others) :
    (object fields).fields? names = (object others).fields? names := by
  have hlookup : ∀ part ⊆ names, part.mapM (fun name => fields.lookup name) =
      part.mapM fun name => others.lookup name := by
    intro part hpart
    induction part with
    | nil => rfl
    | cons name rest ih =>
        obtain ⟨hname, hrest⟩ := List.cons_subset.mp hpart
        rw [List.mapM_cons, List.mapM_cons, h.lookup_eq hname, ih hrest]
  exact hlookup names (List.Subset.refl names)

/-! ## Sets and texts -/

/-- An array of one-character strings lists the members of a set. -/
def Lists (s : CharSet) (v : Document) : Prop :=
  ∃ members : List Char, v = array (members.map fun c => string [c]) ∧
    ∀ c, c ∈ s ↔ c ∈ members

/-- Where an item is read only as it is written, so is a list of items. -/
theorem mapM_eq_some_iff_eq_map {α β : Type} {read : α → Option β} {write : β → α}
    (h : ∀ x y, read x = some y ↔ x = write y) {xs : List α} {ys : List β} :
    xs.mapM read = some ys ↔ xs = ys.map write := by
  simp only [mapM_eq_some_iff, h]
  rw [← List.forall₂_map_right_iff (R := Eq), List.forall₂_eq_eq_eq]

theorem text?_eq_some_iff {v : Document} {t : Text} : v.text? = some t ↔ v = string t := by
  cases v <;> simp [text?]

theorem char?_eq_some_iff {v : Document} {c : Char} : v.char? = some c ↔ v = string [c] := by
  constructor
  · intro h
    unfold char? at h
    split at h
    · cases h
      rfl
    · cases h
  · rintro rfl
    rfl

theorem texts?_eq_some_iff {v : Document} {texts : List Text} :
    v.texts? = some texts ↔ v = array (texts.map string) := by
  cases v with
  | array items =>
      rw [texts?, mapM_eq_some_iff_eq_map fun _ _ => text?_eq_some_iff, array.injEq]
  | _ => simp [texts?]

theorem charSet?_eq_some_iff {v : Document} {s : CharSet} :
    v.charSet? = some s ↔ v.Lists s := by
  cases v with
  | array items =>
      simp only [charSet?, Option.map_eq_some_iff,
        mapM_eq_some_iff_eq_map fun _ _ => char?_eq_some_iff, Lists, array.injEq]
      refine exists_congr fun members => and_congr_right fun _ => ?_
      -- a set is its members, so neither their order nor repetitions are seen
      rw [CharSet.ext_iff]
      simp only [CharSet.mem_ofList, iff_comm]
  | _ => simp [charSet?, Lists]

end Document

/-! ## What shows a dialect -/

/-- A record of three sets. -/
def Alphabet.IsShownBy (alphabet : Alphabet) (v : Document) : Prop :=
  ∃ quotes separators marks, v.IsRecord fieldNames [quotes, separators, marks] ∧
    quotes.Lists alphabet.quotes ∧ separators.Lists alphabet.separators ∧
      marks.Lists alphabet.marks

/-- A record of the keywords, the table keyword and the clause keywords. -/
def Lexicon.IsShownBy (lexicon : Lexicon) (v : Document) : Prop :=
  v.IsRecord fieldNames
    [.array (lexicon.keywords.map .string), .string lexicon.tableKeyword,
      .array (lexicon.clauseKeywords.map .string)]

/-- A record of an alphabet and a lexicon. -/
def Dialect.IsShownBy (dialect : Dialect) (v : Document) : Prop :=
  ∃ alphabet lexicon, v.IsRecord fieldNames [alphabet, lexicon] ∧
    dialect.alphabet.IsShownBy alphabet ∧ dialect.lexicon.IsShownBy lexicon

theorem Alphabet.ofDocument?_eq_some_iff {v : Document} {alphabet : Alphabet} :
    ofDocument? v = some alphabet ↔ alphabet.IsShownBy v := by
  simp only [IsShownBy, ← Document.fields?_eq_some_iff, ← Document.charSet?_eq_some_iff]
  constructor
  · intro h
    obtain ⟨values, hvalues, h⟩ := Option.bind_eq_some_iff.mp h
    split at h
    · rename_i quotes separators marks
      simp only [Option.bind_eq_bind, Option.bind_eq_some_iff] at h
      obtain ⟨_, hquotes, _, hseparators, _, hmarks, ⟨⟩⟩ := h
      exact ⟨quotes, separators, marks, hvalues, hquotes, hseparators, hmarks⟩
    · cases h
  · rintro ⟨quotes, separators, marks, hvalues, hquotes, hseparators, hmarks⟩
    simp [ofDocument?, hvalues, hquotes, hseparators, hmarks]

theorem Lexicon.ofDocument?_eq_some_iff {v : Document} {lexicon : Lexicon} :
    ofDocument? v = some lexicon ↔ lexicon.IsShownBy v := by
  rw [IsShownBy, ← Document.fields?_eq_some_iff]
  constructor
  · intro h
    obtain ⟨values, hvalues, h⟩ := Option.bind_eq_some_iff.mp h
    split at h
    · simp only [Option.bind_eq_bind, Option.bind_eq_some_iff, Document.texts?_eq_some_iff,
        Document.text?_eq_some_iff] at h
      obtain ⟨_, rfl, _, rfl, _, rfl, ⟨⟩⟩ := h
      exact hvalues
    · cases h
  · intro hvalues
    simp [ofDocument?, hvalues, Document.texts?_eq_some_iff.mpr rfl]

theorem Dialect.ofDocument?_eq_some_iff {v : Document} {dialect : Dialect} :
    ofDocument? v = some dialect ↔ dialect.IsShownBy v := by
  simp only [IsShownBy, ← Document.fields?_eq_some_iff, ← Alphabet.ofDocument?_eq_some_iff,
    ← Lexicon.ofDocument?_eq_some_iff]
  constructor
  · intro h
    obtain ⟨values, hvalues, h⟩ := Option.bind_eq_some_iff.mp h
    split at h
    · rename_i alphabet lexicon
      simp only [Option.bind_eq_bind, Option.bind_eq_some_iff] at h
      obtain ⟨_, halphabet, _, hlexicon, ⟨⟩⟩ := h
      exact ⟨alphabet, lexicon, hvalues, halphabet, hlexicon⟩
    · cases h
  · rintro ⟨alphabet, lexicon, hvalues, halphabet, hlexicon⟩
    simp [ofDocument?, hvalues, halphabet, hlexicon]

/-! ## What shows a statement -/

/-- The label as a string, or as the name of the only field of an object without a value. -/
def StatementKind.IsShownBy (kind : StatementKind) (v : Document) : Prop :=
  v = .string kind.label ∨ v = .object [(kind.label, .null)]

/-- A record of a kind and three texts. -/
def Statement.IsShownBy (statement : Statement) (v : Document) : Prop :=
  ∃ kind, v.IsRecord fieldNames
      [kind, .string statement.table, .string statement.clause, .string statement.source] ∧
    statement.kind.IsShownBy kind

theorem StatementKind.ofDocument?_eq_some_iff {v : Document} {kind : StatementKind} :
    ofDocument? v = some kind ↔ kind.IsShownBy v := by
  cases kind
  unfold ofDocument?
  split <;> simp_all [IsShownBy]

theorem Statement.ofDocument?_eq_some_iff {v : Document} {statement : Statement} :
    ofDocument? v = some statement ↔ statement.IsShownBy v := by
  simp only [IsShownBy, ← Document.fields?_eq_some_iff, ← StatementKind.ofDocument?_eq_some_iff]
  constructor
  · intro h
    obtain ⟨values, hvalues, h⟩ := Option.bind_eq_some_iff.mp h
    split at h
    · rename_i kind table clause source
      simp only [Option.bind_eq_bind, Option.bind_eq_some_iff, Document.text?_eq_some_iff] at h
      obtain ⟨_, hkind, _, rfl, _, rfl, _, rfl, ⟨⟩⟩ := h
      exact ⟨kind, hvalues, hkind⟩
    · cases h
  · rintro ⟨kind, hvalues, hkind⟩
    simp [ofDocument?, hvalues, hkind]

/-! ## Reading and writing -/

namespace Document

/-- How values are written to documents and read from them. -/
structure ReadsBack {α : Type} (names : List Text) (write : α → Document)
    (read : Document → Option α) (shows : Document → α → Prop) : Prop where
  /-- What is written is read back. -/
  read_write : ∀ x, read (write x) = some x
  /-- Just the documents that show a value are read, and as that value. -/
  read_iff : ∀ v x, read v = some x ↔ shows v x
  /-- What was read from any document, and is written, is read back. -/
  read_write_read : ∀ v x, read v = some x → (read v).bind (fun y => read (write y)) = some x
  /-- Objects with the same fields under the names are read alike. -/
  read_object : ∀ fields others, Agree names fields others →
    read (object fields) = read (object others)

theorem dialect_readsBack :
    ReadsBack Dialect.fieldNames Dialect.toDocument Dialect.ofDocument?
      fun v dialect => dialect.IsShownBy v where
  read_write := Dialect.ofDocument?_toDocument
  read_iff _ _ := Dialect.ofDocument?_eq_some_iff
  read_write_read v x h := by rw [h, Option.bind_some, Dialect.ofDocument?_toDocument]
  read_object _ _ h := by simp only [Dialect.ofDocument?, h.fields?_eq]

theorem statement_readsBack :
    ReadsBack Statement.fieldNames Statement.toDocument Statement.ofDocument?
      fun v statement => statement.IsShownBy v where
  read_write := Statement.ofDocument?_toDocument
  read_iff _ _ := Statement.ofDocument?_eq_some_iff
  read_write_read v x h := by rw [h, Option.bind_some, Statement.ofDocument?_toDocument]
  read_object _ _ h := by simp only [Statement.ofDocument?, h.fields?_eq]

/-- **Documents read back.** A dialect and a statement that are written are read back. Of all
documents just those are read that show one, in whatever form, and what was read is the same
when it is written and read again; so the dialect that is read then transcribes every source
as the first one does. -/
theorem documents_read_back :
    (ReadsBack Dialect.fieldNames Dialect.toDocument Dialect.ofDocument?
      fun v dialect => dialect.IsShownBy v) ∧
    (ReadsBack Statement.fieldNames Statement.toDocument Statement.ofDocument?
      fun v statement => statement.IsShownBy v) ∧
    ∀ v dialect, Dialect.ofDocument? v = some dialect → ∀ source,
      ((Dialect.ofDocument? v).bind fun read => Dialect.ofDocument? read.toDocument).map
        (fun again => again.transcribe source) = some (dialect.transcribe source) := by
  refine ⟨dialect_readsBack, statement_readsBack, fun v dialect h source => ?_⟩
  rw [dialect_readsBack.read_write_read v dialect h, Option.map_some]

/-- A dialect whose mark does not separate, as an object in another order with a field of its
own, sets in arrays with a repeated quote, and a lexicon in the order of its fields; and a
statement as an array, its kind as an object. -/
theorem documents_read_back_rearranged :
    let v := object
      [("vocabulary".toList, array [array [string "ORDER BY".toList], string "FROM".toList,
          array [string "ORDER BY".toList]]),
        ("version".toList, number 15 1),
        ("chars".toList, object
          [("join_words".toList, array [string "-".toList]),
            ("separators".toList, array [string " ".toList, string ",".toList, string " ".toList]),
            ("pair_delimiters".toList, array [string "|".toList, string "|".toList])])]
    let w := array [object [("DELETE".toList, null)], string "t".toList, string "".toList,
      string "delete from t".toList]
    (((Dialect.ofDocument? v).bind fun read => Dialect.ofDocument? read.toDocument).map
      (fun again => again.transcribe "a-b, order by |c d|".toList) =
        some (.ok ⟨[.bare "a-b".toList, .literal "c d".toList],
          .ofList [⟨"ORDER BY".toList, 1⟩]⟩)) ∧
    ((Statement.ofDocument? w).bind fun read => Statement.ofDocument? read.toDocument) =
      some ⟨.delete, "t".toList, [], "delete from t".toList⟩ := by
  intro v w
  have hv : Dialect.ofDocument? v = some ⟨⟨.ofList ['|'], .ofList [' ', ','], .ofList ['-']⟩,
      ⟨["ORDER BY".toList], "FROM".toList, ["ORDER BY".toList]⟩⟩ := by rfl
  have hw : Statement.ofDocument? w = some ⟨.delete, "t".toList, [], "delete from t".toList⟩ := by
    rfl
  refine ⟨(documents_read_back.2.2 v _ hv _).trans ?_,
    documents_read_back.2.1.read_write_read w _ hw⟩
  rfl

end Document

end SqlDelete
