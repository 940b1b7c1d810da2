import GeneticProgramming.Proofs.Stream.Agreement

/-!
# The first difference between schemas

Operators are compared in the order of their numbers, and two operators field by field; the first
field that differs is reported, whatever comes behind it: `Palette.readSchema_difference`.
-/

namespace GeneticProgramming

open Reader

variable {C D : Type}

/-! ## Operators -/

/-- What a schema tells of an operator. -/
inductive Field where
  | name
  /-- The number of arguments, and whether the context is looked at. -/
  | arity
  | returns
  | argument (position : Nat)
  | argumentBytes
  | returnBytes
deriving DecidableEq, Repr

namespace Field

/-- An operator that was written and one of the reader's differ in a field. -/
def Differs (e : Entry C) (f : Entry D) : Field → Prop
  | name => e.operator.name ≠ f.operator.name
  | arity => e.arity ≠ f.arity ∨ e.operator.consultsContext ≠ f.operator.consultsContext
  | returns => e.returns ≠ f.returns
  | argument position => e.arguments[position]? ≠ f.arguments[position]?
  | argumentBytes => e.operator.argumentSize ≠ f.operator.argumentSize
  | returnBytes => e.operator.returns.size ≠ f.operator.returns.size

instance (e : Entry C) (f : Entry D) : DecidablePred (Differs e f) := fun
  | name => inferInstanceAs (Decidable (_ ≠ _))
  | arity => inferInstanceAs (Decidable (_ ∨ _))
  | returns => inferInstanceAs (Decidable (_ ≠ _))
  | argument _ => inferInstanceAs (Decidable (_ ≠ _))
  | argumentBytes => inferInstanceAs (Decidable (_ ≠ _))
  | returnBytes => inferInstanceAs (Decidable (_ ≠ _))

/-- What is reported of a field that differs; the reader's own is what was expected. -/
def error (id : OperatorId) (e : Entry C) (f : Entry D) : Field → StreamError
  | name => .invalidName id f.operator.name e.operator.name
  | arity => .mismatchedArity id
  | returns => .mismatchedReturnType id
  | argument position => .mismatchedArgumentType id position
  | argumentBytes => .mismatchedBytes id f.operator.argumentSize e.operator.argumentSize
  | returnBytes => .mismatchedBytes id f.operator.returns.size e.operator.returns.size

/-- The fields of an operator with so many arguments, in the order in which they are compared. -/
def all (arguments : Nat) : List Field :=
  name :: arity :: returns :: ((List.range arguments).map argument ++ [argumentBytes, returnBytes])

theorem mem_all {arguments : Nat} {field : Field} :
    field ∈ all arguments ↔ ∀ position, field = argument position → position < arguments := by
  cases field <;> simp [all]

end Field

namespace Entry

/-- The first field in which operators differ. -/
def difference (e : Entry C) (f : Entry D) : Option Field :=
  (Field.all e.arity).find? (Field.Differs e f ·)

variable {e : Entry C} {f : Entry D}

/-- The argument types of operators with as many arguments are compared by their positions. -/
theorem find?_argument (hlen : e.arity = f.arity) :
    ((List.range e.arity).map Field.argument).find? (Field.Differs e f ·) =
      (Description.argumentMismatch e.arguments f.arguments).map Field.argument := by
  have hzip : (e.arguments.zip f.arguments).length = e.arity := by
    rw [List.length_zip]
    exact min_eq_left (Nat.le_of_eq hlen)
  have hpair (i : Nat) (hi : i < (e.arguments.zip f.arguments).length) :
      decide ((e.arguments.zip f.arguments)[i].1 ≠ (e.arguments.zip f.arguments)[i].2) = true ↔
        (Field.argument i).Differs e f := by
    have hleft : i < e.arguments.length := Nat.lt_of_lt_of_eq hi hzip
    have hright : i < f.arguments.length := Nat.lt_of_lt_of_eq hleft hlen
    change _ ↔ e.arguments[i]? ≠ f.arguments[i]?
    rw [List.getElem_zip, decide_eq_true_iff, List.getElem?_eq_getElem hleft,
      List.getElem?_eq_getElem hright, Option.some_inj.ne]
  rw [List.find?_map]
  congr 1
  cases hmismatch : Description.argumentMismatch e.arguments f.arguments with
  | none =>
    have hsame : e.arguments = f.arguments := Description.eq_of_argumentMismatch hlen hmismatch
    rw [List.find?_eq_none]
    intro position _ hdiffers
    exact of_decide_eq_true hdiffers (congrArg (·[position]?) hsame)
  | some position =>
    obtain ⟨hlt, hne, hbefore⟩ := List.findIdx?_eq_some_iff_getElem.1 hmismatch
    rw [List.find?_range_eq_some]
    refine ⟨decide_eq_true ((hpair position hlt).1 hne), List.mem_range.2 (hzip ▸ hlt), ?_⟩
    intro i hi
    rw [Bool.not_eq_true', Function.comp_apply, decide_eq_false_iff_not,
      ← hpair i (Nat.lt_trans hi hlt)]
    exact hbefore i hi

end Entry

/-- Reports the first of these fields in which operators differ. -/
def Field.report (id : OperatorId) (e : Entry C) (f : Entry D) (fields : List Field) :
    Except StreamError Unit :=
  match fields.find? (Differs e f ·) with
  | none => .ok ()
  | some field => .error (field.error id e f)

section Report

variable {id : OperatorId} {e : Entry C} {f : Entry D} {fields : List Field}

/-- A check of a field comes before those of the other ones. -/
theorem Field.report_cons (field : Field) {c : Prop} [Decidable c] {x y : Except StreamError Unit}
    (hc : c ↔ field.Differs e f) (hx : x = .error (field.error id e f))
    (hy : ¬ field.Differs e f → y = report id e f fields) :
    (if c then x else y) = report id e f (field :: fields) := by
  unfold report
  rw [List.find?_cons]
  by_cases h : field.Differs e f
  · rw [if_pos (hc.2 h), decide_eq_true h]
    exact hx
  · rw [if_neg (mt hc.1 h), decide_eq_false h]
    exact hy h

theorem Field.report_arguments (hlen : e.arity = f.arity) :
    report id e f ((List.range e.arity).map argument ++ fields) =
      match Description.argumentMismatch e.arguments f.arguments with
      | some position => .error (.mismatchedArgumentType id position)
      | none => report id e f fields := by
  unfold report
  rw [List.find?_append, Entry.find?_argument hlen]
  cases Description.argumentMismatch e.arguments f.arguments with
  | none => rfl
  | some position => rfl

end Report

/-- Whether the context is looked at is told by a number. -/
theorem contextArity_eq_iff {b c : Bool} :
    (if b = true then 1 else 0) = (if c = true then 1 else 0) ↔ b = c := by
  cases b <;> cases c <;> decide

theorem Description.compare_ofEntry (id : OperatorId) (e : Entry C) (f : Entry D) :
    (ofEntry id e).compare (ofEntry id f) = Field.report id e f (Field.all e.arity) := by
  refine (if_neg (not_not.2 rfl)).trans ?_
  refine Field.report_cons .name Iff.rfl rfl fun _ => ?_
  refine Field.report_cons .arity ?_ rfl fun harity => ?_
  · rw [Bool.or_eq_true, decide_eq_true_eq, decide_eq_true_eq]
    exact or_congr_right (not_congr contextArity_eq_iff)
  refine Field.report_cons .returns Iff.rfl rfl fun _ => ?_
  have hlen : e.arity = f.arity := by
    by_contra hne
    exact harity (Or.inl hne)
  refine (if_neg (not_not.2 hlen)).trans ?_
  rw [Field.report_arguments hlen]
  dsimp only [ofEntry]
  cases Description.argumentMismatch e.arguments f.arguments with
  | some position => rfl
  | none =>
    refine Field.report_cons .argumentBytes Iff.rfl rfl fun _ => ?_
    exact Field.report_cons .returnBytes Iff.rfl rfl fun _ => rfl

theorem Description.compare_eq_ok {id : OperatorId} {e : Entry C} {f : Entry D}
    (h : e.difference f = none) : (ofEntry id e).compare (ofEntry id f) = .ok () := by
  unfold Entry.difference at h
  rw [compare_ofEntry, Field.report, h]

theorem Description.compare_eq_error {id : OperatorId} {e : Entry C} {f : Entry D} {field : Field}
    (h : e.difference f = some field) :
    (ofEntry id e).compare (ofEntry id f) = .error (field.error id e f) := by
  unfold Entry.difference at h
  rw [compare_ofEntry, Field.report, h]

/-- Operators of which a schema tells the same. -/
structure Entry.Same (e : Entry C) (f : Entry D) : Prop extends Palette.Alike e f where
  argumentSize : f.operator.argumentSize = e.operator.argumentSize

theorem Entry.difference_eq_none_iff {e : Entry C} {f : Entry D} :
    e.difference f = none ↔ e.Same f := by
  simp only [difference, List.find?_eq_none, decide_eq_true_eq]
  constructor
  · intro h
    have hname : ¬ Field.name.Differs e f := h .name (Field.mem_all.2 nofun)
    have harity : ¬ Field.arity.Differs e f := h .arity (Field.mem_all.2 nofun)
    have hreturns : ¬ Field.returns.Differs e f := h .returns (Field.mem_all.2 nofun)
    have hargumentBytes := h .argumentBytes (Field.mem_all.2 nofun)
    have hreturnBytes := h .returnBytes (Field.mem_all.2 nofun)
    simp only [Field.Differs, not_or, not_not] at hname harity hreturns hargumentBytes hreturnBytes
    obtain ⟨harity, hcontext⟩ := harity
    have harguments : e.arguments = f.arguments := by
      apply List.ext_getElem?
      intro position
      by_cases hlt : position < e.arity
      · refine not_not.1 (h (.argument position) (Field.mem_all.2 ?_))
        rintro _ ⟨⟩
        exact hlt
      · have hlt' : ¬ position < f.arity := harity ▸ hlt
        rw [List.getElem?_eq_none (Nat.le_of_not_lt hlt),
          List.getElem?_eq_none (Nat.le_of_not_lt hlt')]
    exact ⟨⟨hname.symm, hcontext.symm, hreturns.symm, harguments.symm, hreturnBytes.symm⟩,
      hargumentBytes.symm⟩
  · rintro ⟨⟨hname, hcontext, hreturns, harguments, hsize⟩, hargumentSize⟩ field -
    cases field with
    | name => exact not_not.2 hname.symm
    | arity =>
      have harity : e.arity = f.arity := congrArg List.length harguments.symm
      exact not_or.2 ⟨not_not.2 harity, not_not.2 hcontext.symm⟩
    | returns => exact not_not.2 hreturns.symm
    | argument position => exact not_not.2 (congrArg (·[position]?) harguments.symm)
    | argumentBytes => exact not_not.2 hargumentSize.symm
    | returnBytes => exact not_not.2 hsize.symm

namespace Palette

variable {a : Palette C} {b : Palette D}

/-- Operators with a number are the first ones of two palettes that differ, and this is the first
field in which they do. -/
structure FirstDiffers (a : Palette C) (b : Palette D) (id : OperatorId) (e : Entry C) (f : Entry D)
    (field : Field) : Prop where
  left : a.entry? id = some e
  right : b.entry? id = some f
  before : ∀ i < id, ∀ e' f', a.entry? i = some e' → b.entry? i = some f' → e'.difference f' = none
  difference : e.difference f = some field

/-- What is reported of an operator is reported of the palette. -/
theorem compareAll_error {d own : Description} (hd : d.Fits) {e : StreamError}
    (h : d.compare own = .error e) (more : List Description) (rest : Bytes) :
    compareAll (own :: more) (d.toBytes ++ rest) = .error e := by
  rw [compareAll, (Description.reads hd).bind_eq, h]
  rfl

theorem exists_entry {id : OperatorId} (h : id < a.size) : ∃ e, a.entry? id = some e :=
  ⟨_, List.getElem?_eq_getElem h⟩

theorem exists_schema_eq {id : OperatorId} {e : Entry C} (he : a.entry? id = some e) :
    ∃ h : id < a.schema.length, a.schema[id] = .ofEntry id e := by
  apply List.getElem?_eq_some_iff.1
  rw [schema_getElem?, he]
  rfl

/-- Operators that do not differ are described alike, up to any number. -/
theorem forall₂_take (ha : a.IsBuilt) (hport : a.Portable) (hsize : a.size = b.size) {n : Nat}
    (h : ∀ i < n, ∀ e f, a.entry? i = some e → b.entry? i = some f → e.difference f = none) :
    List.Forall₂ (fun d own => d.Fits ∧ d.compare own = .ok ()) (a.schema.take n)
      (b.schema.take n) := by
  rw [List.forall₂_iff_get]
  constructor
  · rw [List.length_take, List.length_take, length_schema, length_schema, hsize]
  · intro i hi hi'
    have hbounds : i < n ∧ i < a.size := by
      rwa [List.length_take, length_schema, lt_min_iff] at hi
    obtain ⟨e, he⟩ := exists_entry hbounds.2
    obtain ⟨f, hf⟩ := exists_entry (Nat.lt_of_lt_of_eq hbounds.2 hsize)
    obtain ⟨hleft, hd⟩ := exists_schema_eq he
    obtain ⟨_, hown⟩ := exists_schema_eq hf
    rw [List.get_eq_getElem, List.get_eq_getElem, List.getElem_take, List.getElem_take, hd, hown]
    refine ⟨?_, Description.compare_eq_ok (h i hbounds.1 _ _ he hf)⟩
    exact (fits_of_mem_schema ha hport (hd ▸ List.getElem_mem hleft)).1

theorem readSchema_eq (hcount : a.size < 2 ^ 64) (b : Palette D) (rest : Bytes) :
    b.readSchema (a.schemaBytes ++ rest) =
      if a.size ≠ b.size then .error (.unexpectedSize b.size a.size)
      else compareAll b.schema (a.schema.flatMap Description.toBytes ++ rest) := by
  have hword : a.schema.length < 2 ^ 64 := Nat.lt_of_le_of_lt (Nat.le_of_eq a.length_schema) hcount
  rw [schemaBytes, Bytes.ofList, List.append_assoc, readSchema, (nat_reads hword).bind_eq,
    a.length_schema]
  split
  · rfl
  · rfl

theorem Portable.size_lt (hport : a.Portable) : a.size < 2 ^ 64 :=
  Nat.lt_of_le_of_lt hport.size (by decide)

/-- If the operators before them pass, the comparison comes to the operators with a number. -/
theorem readSchema_reaches (hcount : a.size < 2 ^ 64) (hsize : a.size = b.size) {id : OperatorId}
    {e : Entry C} {f : Entry D} (he : a.entry? id = some e) (hf : b.entry? id = some f)
    (hbefore : List.Forall₂ (fun d own => d.Fits ∧ d.compare own = .ok ()) (a.schema.take id)
      (b.schema.take id)) (rest : Bytes) :
    b.readSchema (a.schemaBytes ++ rest) =
      compareAll (.ofEntry id f :: b.schema.drop (id + 1)) ((Description.ofEntry id e).toBytes ++
        ((a.schema.drop (id + 1)).flatMap Description.toBytes ++ rest)) := by
  obtain ⟨hleft, hd⟩ := exists_schema_eq he
  obtain ⟨hright, hown⟩ := exists_schema_eq hf
  have hpassed := compareAll_append hbefore (b.schema.drop id)
    ((a.schema.drop id).flatMap Description.toBytes ++ rest)
  rw [← List.append_assoc, ← List.flatMap_append, List.take_append_drop, List.take_append_drop,
    List.drop_eq_getElem_cons hleft, List.drop_eq_getElem_cons hright, hd, hown, List.flatMap_cons,
    List.append_assoc] at hpassed
  rw [readSchema_eq hcount, if_neg (not_not.2 hsize), hpassed]

/-- Of the first operators that differ, the first difference is reported. -/
theorem FirstDiffers.reported (ha : a.IsBuilt) (hport : a.Portable) (hsize : a.size = b.size)
    {id : OperatorId} {e : Entry C} {f : Entry D} {field : Field}
    (h : FirstDiffers a b id e f field) (rest : Bytes) :
    b.readSchema (a.schemaBytes ++ rest) = .error (field.error id e f) := by
  have hin : e ∈ a.entries := List.mem_of_getElem? h.left
  have hfits := fits_ofEntry ha hport.size h.left (hport.arities e hin) (hport.names e hin)
  rw [readSchema_reaches hport.size_lt hsize h.left h.right (forall₂_take ha hport hsize h.before)]
  exact compareAll_error hfits (Description.compare_eq_error h.difference) _ _

/-- Palettes that differ in no operator accept the schemas of each other. -/
theorem readSchema_of_same (ha : a.IsBuilt) (hport : a.Portable) (hsize : a.size = b.size)
    (h : ∀ (id : OperatorId) e f, a.entry? id = some e → b.entry? id = some f →
      e.difference f = none) (rest : Bytes) :
    b.readSchema (a.schemaBytes ++ rest) = .ok ((), rest) := by
  have hall := forall₂_take ha hport hsize fun i (_ : i < a.size) => h i
  rw [List.take_of_length_le (Nat.le_of_eq a.length_schema),
    List.take_of_length_le (Nat.le_of_eq (b.length_schema.trans hsize.symm))] at hall
  have hread := compareAll_append hall [] rest
  rw [List.append_nil] at hread
  rw [readSchema_eq hport.size_lt, if_neg (not_not.2 hsize), hread]
  rfl

/-- If operators differ, there are first ones that do. -/
theorem exists_firstDiffers (h : ¬ ∀ (id : OperatorId) e f, a.entry? id = some e →
    b.entry? id = some f → e.difference f = none) :
    ∃ id e f field, FirstDiffers a b id e f field := by
  classical
  push Not at h
  obtain ⟨e, f, he, hf, hne⟩ := Nat.find_spec h
  obtain ⟨field, hfield⟩ := Option.ne_none_iff_exists'.1 hne
  refine ⟨Nat.find h, e, f, field, he, hf, ?_, hfield⟩
  intro i hi e' f' he' hf'
  by_contra hdiffers
  exact Nat.find_min h hi ⟨e', f', he', hf', hdiffers⟩

/-- If the numbers of operators differ, that is reported; and else the first field that differs of
the first operator that does, and if there is none, the schema is accepted. -/
theorem readSchema_difference (ha : a.IsBuilt) (hport : a.Portable) (b : Palette D) (rest : Bytes) :
    (a.size ≠ b.size →
      b.readSchema (a.schemaBytes ++ rest) = .error (.unexpectedSize b.size a.size)) ∧
    (a.size = b.size →
      (∀ id e f field, FirstDiffers a b id e f field →
        b.readSchema (a.schemaBytes ++ rest) = .error (field.error id e f)) ∧
      ((∃ id e f field, FirstDiffers a b id e f field) ∨
        b.readSchema (a.schemaBytes ++ rest) = .ok ((), rest))) ∧
    (b.readSchema (a.schemaBytes ++ rest) = .ok ((), rest) ↔ a.size = b.size ∧
      ∀ (id : OperatorId) e f, a.entry? id = some e → b.entry? id = some f → e.Same f) := by
  refine ⟨?sizes, fun hsize => ⟨?reported, ?all⟩, ?accepted⟩
  case sizes =>
    intro hsize
    rw [readSchema_eq hport.size_lt, if_pos hsize]
  case reported => exact fun id e f field h => h.reported ha hport hsize rest
  case all =>
    by_contra hno
    rw [not_or] at hno
    by_cases h : ∀ (id : OperatorId) e f, a.entry? id = some e → b.entry? id = some f →
        e.difference f = none
    · exact hno.2 (readSchema_of_same ha hport hsize h rest)
    · exact hno.1 (exists_firstDiffers h)
  case accepted =>
    simp only [← Entry.difference_eq_none_iff]
    constructor
    · intro hread
      have hsize : a.size = b.size := by
        by_contra hne
        rw [readSchema_eq hport.size_lt, if_pos hne] at hread
        contradiction
      refine ⟨hsize, ?_⟩
      by_contra h
      obtain ⟨id, e, f, field, hfirst⟩ := exists_firstDiffers h
      rw [hfirst.reported ha hport hsize] at hread
      contradiction
    · rintro ⟨hsize, h⟩
      exact readSchema_of_same ha hport hsize h rest

/-! ### Two differences -/

/-- As `singles`, but one operator has an argument less and the other one another name. -/
def quarters : Palette Unit where
  types := ⟨[.single]⟩
  entries := [⟨⟨some "add", .compute [.single] .single fun (x, _) => x⟩, 0, [0]⟩,
    ⟨⟨some "quarter", .literal .single (pure ⟨0x3E800000⟩)⟩, 0, []⟩]
  grounds := [0]
  root := none

theorem isBuilt_quarters : quarters.IsBuilt := ⟨quarters.entries.map Entry.operator, none, rfl⟩

/-- Of the two differences, that of the name is not reported. -/
theorem readSchema_difference_quarters : singles.IsBuilt ∧ singles.Portable ∧ quarters.IsBuilt ∧
    quarters.readSchema (singles.schemaBytes ++ [7]) = .error (.mismatchedArity 0) := by
  refine ⟨isBuilt_singles, portable_singles, isBuilt_quarters, ?_⟩
  have h := readSchema_difference isBuilt_singles portable_singles quarters [7]
  refine (h.2.1 rfl).1 0 _ _ .arity ⟨rfl, rfl, ?_, rfl⟩
  intro i hi
  contradiction

end Palette

end GeneticProgramming
