import GeneticProgramming.Proofs.Stream.RoundTrip
import Mathlib.Data.List.Nodup

/-!
# Palettes that accept a schema

A palette that accepts the schema of another one has the same operators up to a renaming of types:
`Palette.readSchema_renamed`.  A stream tells a type by its number and its stored size alone, so
different types are taken for each other if these are the same.
-/

namespace GeneticProgramming

open Reader

namespace Reader

variable {α β : Type}

theorem past_of_read {c : Prop} [Decidable c] {e : StreamError} {k : β → Reader α} {r : Reader α}
    {bytes : Bytes} {out : α × Bytes} (h : (if c then throw e >>= k else r) bytes = .ok out) :
    ¬ c ∧ r bytes = .ok out := by
  split at h
  · contradiction
  · next hc => exact ⟨hc, h⟩

/-- What needs no stream leaves it as it is. -/
theorem eq_of_lift {x : Except StreamError α} {bytes : Bytes} {out : α × Bytes}
    (h : (liftM x : Reader α) bytes = .ok out) : x = .ok out.1 ∧ out.2 = bytes := by
  obtain ⟨y, rfl, h⟩ := exists_of_bind_eq_ok h
  injection h with h
  subst h
  exact ⟨rfl, rfl⟩

end Reader

namespace Description

variable {d own : Description}

/-- A description that could be held in memory, where lengths are words. -/
structure Addressable (d : Description) : Prop where
  name : ∀ name, d.name = some name → name.utf8ByteSize < 2 ^ 64
  count : d.arguments.length < 2 ^ 64

/-- A name that is too long is refused. -/
theorem readName_long (id : Nat) {name : String} (hlong : longestName < name.utf8ByteSize)
    (hword : name.utf8ByteSize < 2 ^ 64) (rest : Bytes) :
    readName id (nameBytes (some name) ++ rest) = .error (.invalidName id none none) := by
  have hlen : name.toUTF8.toList.length = name.utf8ByteSize := by
    rw [Bytes.toList_eq, Array.length_toList]
    rfl
  have hbytes : nameBytes (some name) ++ rest =
      [1] ++ (Bytes.ofNat name.utf8ByteSize ++ (name.toUTF8.toList ++ rest)) := by
    rw [← hlen, nameBytes, Bytes.ofString, List.cons_append, List.append_assoc]
    rfl
  rw [hbytes, readName, (byte_reads 1).bind_eq]
  change (nat >>= _) _ = _
  rw [(nat_reads hword).bind_eq, if_pos hlong]
  rfl

/-- A description whose name is no longer than a reader takes. -/
def IsLegible (d : Description) : Prop := ∀ name, d.name = some name → name.utf8ByteSize ≤ longestName

/-- So is a description with such a name, whatever the rest of it is. -/
theorem read_long {name : String} (hname : d.name = some name)
    (hlong : longestName < name.utf8ByteSize) (hword : name.utf8ByteSize < 2 ^ 64) (rest : Bytes) :
    read (d.toBytes ++ rest) = .error (.invalidName (d.id % 2 ^ 64) none none) := by
  unfold toBytes
  simp only [List.append_assoc]
  rw [hname, read, (nat_reads_mod d.id).bind_eq]
  change Except.bind _ _ = _
  rw [readName_long _ hlong hword]
  rfl

theorem isLegible_of_read (h : d.Addressable) {found : Description} {rest left : Bytes}
    (hread : read (d.toBytes ++ rest) = .ok (found, left)) : d.IsLegible := by
  intro name hname
  by_contra hlong
  rw [read_long hname (Nat.lt_of_not_le hlong) (h.name name hname)] at hread
  contradiction

/-- Of a description that is read, what its stream keeps of it is read. -/
theorem read_eq_ok (h : d.Addressable) {found : Description} {rest left : Bytes}
    (hread : read (d.toBytes ++ rest) = .ok (found, left)) : found = d.stored ∧ left = rest := by
  rw [stored_reads (isLegible_of_read h hread) h.count] at hread
  injection hread with hread
  injection hread with hfound hleft
  exact ⟨hfound.symm, hleft.symm⟩

/-- Where argument types are as many, a first difference is found unless there is none. -/
theorem eq_of_argumentMismatch {found expected : List Nat} (hlen : found.length = expected.length)
    (h : argumentMismatch found expected = none) : found = expected := by
  rw [argumentMismatch, List.findIdx?_eq_none_iff] at h
  apply List.ext_getElem hlen
  intro i hi hi'
  have hpair := h (found[i], expected[i])
    (List.mem_iff_getElem.2 ⟨i, by rw [List.length_zip, hlen, min_self]; exact hi',
      List.getElem_zip⟩)
  simpa using hpair

/-- A description that passes for an operator's tells the same of it. -/
theorem eq_of_compare (hown : own.arity = own.arguments.length) {found : Description}
    (h : found.compare own = .ok ()) : found = own := by
  obtain ⟨hid, h⟩ := past_of_eq_ok h
  obtain ⟨hname, h⟩ := past_of_eq_ok h
  obtain ⟨harity, h⟩ := past_of_eq_ok h
  obtain ⟨hreturns, h⟩ := past_of_eq_ok h
  obtain ⟨hcount, h⟩ := past_of_eq_ok h
  dsimp only at h
  cases hmismatch : argumentMismatch found.arguments own.arguments with
  | some position =>
    rw [hmismatch] at h
    contradiction
  | none =>
    rw [hmismatch] at h
    obtain ⟨hbytes, h⟩ := past_of_eq_ok h
    have hreturn : found.returnBytes = own.returnBytes := by
      by_contra hne
      rw [if_pos hne] at h
      contradiction
    rw [Bool.or_eq_true, decide_eq_true_eq, decide_eq_true_eq, not_or] at harity
    simp only [ne_eq, not_not] at hid hname harity hreturns hcount hbytes
    have harguments := eq_of_argumentMismatch (hcount.trans hown) hmismatch
    cases found
    cases own
    congr
    · exact harity.1
    · exact harity.2

end Description

namespace Palette

variable {C D : Type} {a : Palette C} {b : Palette D}

/-- A palette that could be held in memory. -/
structure Addressable (p : Palette C) : Prop where
  size : p.size < 2 ^ 64
  operators : ∀ d ∈ p.schema, d.Addressable

theorem Portable.addressable (hport : a.Portable) (ha : a.IsBuilt) : a.Addressable := by
  constructor
  · exact Nat.lt_of_le_of_lt hport.size (by decide)
  · intro d hd
    obtain ⟨hfits, -⟩ := fits_of_mem_schema ha hport hd
    exact ⟨fun name hname => Nat.lt_of_le_of_lt (hfits.name name hname) (by decide), hfits.count⟩

theorem compareAll_eq_ok {ds owns : List Description} (hlen : ds.length = owns.length)
    (hds : ∀ d ∈ ds, d.Addressable) (howns : ∀ own ∈ owns, own.arity = own.arguments.length)
    {rest left : Bytes}
    (h : compareAll owns (ds.flatMap Description.toBytes ++ rest) = .ok ((), left)) :
    ds.map Description.stored = owns ∧ left = rest ∧ ∀ d ∈ ds, d.IsLegible := by
  induction owns generalizing ds with
  | nil =>
    obtain rfl := List.length_eq_zero_iff.1 hlen
    injection h with h
    injection h with _ h
    exact ⟨rfl, h.symm, fun d hd => absurd hd List.not_mem_nil⟩
  | cons own owns ih =>
    cases ds with
    | nil => contradiction
    | cons d ds =>
      obtain ⟨hd, hds⟩ := List.forall_mem_cons.1 hds
      obtain ⟨hown, howns⟩ := List.forall_mem_cons.1 howns
      rw [List.flatMap_cons, List.append_assoc] at h
      obtain ⟨⟨found, _⟩, hread, h⟩ := exists_of_bind_eq_ok h
      have hlegible := Description.isLegible_of_read hd hread
      obtain ⟨rfl, rfl⟩ := Description.read_eq_ok hd hread
      obtain ⟨⟨_, _⟩, hcompare, h⟩ := exists_of_bind_eq_ok h
      obtain ⟨hcompare, rfl⟩ := eq_of_lift hcompare
      obtain ⟨htail, hleft, hrest⟩ := ih (Nat.succ.inj hlen) hds howns h
      rw [List.map_cons, Description.eq_of_compare hown hcompare, htail]
      exact ⟨rfl, hleft, List.forall_mem_cons.2 ⟨hlegible, hrest⟩⟩

/-- A schema that is accepted is, as far as a stream tells, that of the palette. -/
theorem schema_eq_of_readSchema (ha : a.Addressable) {rest left : Bytes}
    (h : b.readSchema (a.schemaBytes ++ rest) = .ok ((), left)) :
    a.schema.map Description.stored = b.schema ∧ left = rest ∧ ∀ d ∈ a.schema, d.IsLegible := by
  have hword : a.schema.length < 2 ^ 64 := a.length_schema ▸ ha.size
  rw [schemaBytes, Bytes.ofList, List.append_assoc, readSchema, (nat_reads hword).bind_eq] at h
  obtain ⟨hsize, h⟩ := past_of_read h
  refine compareAll_eq_ok ((not_not.1 hsize).trans b.length_schema.symm) ha.operators ?_ h
  intro own hown
  obtain ⟨_, -, rfl⟩ := List.mem_map.1 hown
  rfl

theorem schema_getElem? (p : Palette C) (id : OperatorId) :
    p.schema[id]? = (p.entry? id).map (.ofEntry id) := by
  rw [schema, List.getElem?_map, List.getElem?_zipIdx, entry?]
  cases p.entries[id]? with
  | none => rfl
  | some e => simp

/-- A palette with no more operators than numbers for them is portable if it accepts its own
schema. -/
theorem portable_of_readSchema (ha : a.Addressable) (hsize : a.size ≤ 2 ^ 32) {rest left : Bytes}
    (h : a.readSchema (a.schemaBytes ++ rest) = .ok ((), left)) : a.Portable := by
  obtain ⟨hschema, -, hlegible⟩ := schema_eq_of_readSchema ha h
  have hentry : ∀ e ∈ a.entries, ∃ id, a.schema[id]? = some (Description.ofEntry id e) := by
    intro e he
    obtain ⟨id, hid⟩ := List.mem_iff_getElem?.1 he
    exact ⟨id, by rw [schema_getElem?, entry?, hid, Option.map_some]⟩
  refine ⟨fun e he => ?_, hsize, fun e he => ?_⟩
  · obtain ⟨id, hid⟩ := hentry e he
    exact hlegible _ (List.mem_of_getElem? hid)
  · obtain ⟨id, hid⟩ := hentry e he
    have hget := congrArg (·[id]?) hschema
    simp only [List.getElem?_map, hid, Option.map_some] at hget
    have harity : e.arity % 2 ^ 16 = e.arity := congrArg Description.arity (Option.some.inj hget)
    rw [← harity]
    exact Nat.mod_lt _ (by decide)

/-- Operators of two palettes of which streams tell the same, other than the bytes of their
arguments. -/
structure Alike (e : Entry C) (f : Entry D) : Prop where
  name : f.operator.name = e.operator.name
  consultsContext : f.operator.consultsContext = e.operator.consultsContext
  returns : f.returns = e.returns
  arguments : f.arguments = e.arguments
  size : f.operator.returns.size = e.operator.returns.size

theorem alike_of_schema (ha : a.IsBuilt) (hsize : a.size < 2 ^ 64)
    (h : a.schema.map Description.stored = b.schema) {id : OperatorId} {e : Entry C} {f : Entry D}
    (he : a.entry? id = some e) (hf : b.entry? id = some f) : Alike e f := by
  have hget := congrArg (·[id]?) h
  simp only [List.getElem?_map, schema_getElem?, he, hf, Option.map_some] at hget
  injection hget with hget
  simp only [Description.stored, Description.ofEntry, Description.mk.injEq] at hget
  obtain ⟨-, hname, -, hreturnBytes, -, hcontext, hreturns, harguments⟩ := hget
  have hword : a.types.count ≤ 2 ^ 64 := Nat.le_of_lt (Nat.lt_of_le_of_lt ha.types_le hsize)
  have hstored : e.operator.returns.size ≤ 65535 := (ha.typed he).sizes _ List.mem_cons_self
  constructor
  case name => exact hname.symm
  case consultsContext =>
    cases hcase : e.operator.consultsContext <;> cases hcase' : f.operator.consultsContext <;>
      simp_all
  case returns =>
    rw [← hreturns, Nat.mod_eq_of_lt (Nat.lt_of_lt_of_le (ha.returns_lt he) hword)]
  case arguments =>
    rw [← harguments]
    refine (List.map_congr_left fun t ht => ?_).trans (List.map_id' _)
    exact Nat.mod_eq_of_lt (Nat.lt_of_lt_of_le (ha.arguments_lt he t ht) hword)
  case size => omega

/-! ## Renamings -/

/-- The operators of a palette are those of another one with their types renamed: each type to one
of the same stored size, and different types to different ones. -/
structure Renamed (a : Palette C) (b : Palette D) (rename : ValueType → ValueType) : Prop where
  injective : ∀ t ∈ a.types.types, ∀ u ∈ a.types.types, rename t = rename u → t = u
  sizes : ∀ t ∈ a.types.types, (rename t).size = t.size
  size : b.size = a.size
  numbers : b.types.types = a.types.types.map rename
  operators : ∀ (id : OperatorId) e f, a.entry? id = some e → b.entry? id = some f →
    f.operator.name = e.operator.name ∧ f.operator.consultsContext = e.operator.consultsContext ∧
      f.operator.arguments = e.operator.arguments.map rename ∧
      f.operator.returns = rename e.operator.returns

/-- The type that has the number of a type in another palette. -/
def rename (a : Palette C) (b : Palette D) (t : ValueType) : ValueType :=
  ((a.types.find? t).bind b.type?).getD t

section Renaming

variable (hsize : a.size = b.size)
  (halike : ∀ (id : OperatorId) e f, a.entry? id = some e → b.entry? id = some f → Alike e f)
include hsize halike

/-- An operator of one palette has a fellow in the other. -/
theorem exists_alike {id : OperatorId} {e : Entry C} (he : a.entry? id = some e) :
    ∃ f, b.entry? id = some f ∧ Alike e f := by
  obtain ⟨hlt, -⟩ := List.getElem?_eq_some_iff.1 he
  have hlt : id < b.entries.length := Nat.lt_of_lt_of_eq hlt hsize
  have hf : b.entry? id = some b.entries[id] := List.getElem?_eq_getElem hlt
  exact ⟨_, hf, halike id e _ he hf⟩

variable (ha : a.IsBuilt) (hb : b.IsBuilt)
include ha hb

/-- Each number is that of a type which some operator returns, so there are as many types. -/
theorem count_eq_of_alike : a.types.count = b.types.count := by
  apply Nat.le_antisymm
  · apply Nat.le_of_not_lt
    intro hlt
    obtain ⟨id, e, he, hreturns, -⟩ := ha.exists_operator hlt
    obtain ⟨f, hf, hef⟩ := exists_alike hsize halike he
    have hbound := hb.returns_lt hf
    rw [hef.returns, hreturns] at hbound
    exact Nat.lt_irrefl _ hbound
  · apply Nat.le_of_not_lt
    intro hlt
    obtain ⟨id, f, hf, hreturns, -⟩ := hb.exists_operator hlt
    obtain ⟨hid, -⟩ := List.getElem?_eq_some_iff.1 hf
    have hid : id < a.entries.length := Nat.lt_of_lt_of_eq hid hsize.symm
    have he : a.entry? id = some a.entries[id] := List.getElem?_eq_getElem hid
    have hbound := ha.returns_lt he
    rw [← (halike id _ f he hf).returns, hreturns] at hbound
    exact Nat.lt_irrefl _ hbound

theorem type?_rename (id : TypeId) :
    b.types.type? id = (a.types.type? id).map (rename a b) := by
  have hcount : a.types.types.length = b.types.types.length :=
    count_eq_of_alike hsize halike ha hb
  cases ht : a.types.type? id with
  | none =>
    have hle := List.getElem?_eq_none_iff.1 ht
    exact List.getElem?_eq_none_iff.2 (hcount ▸ hle)
  | some t =>
    obtain ⟨hlt, -⟩ := List.getElem?_eq_some_iff.1 ht
    have hu : b.type? id = some (b.types.types.get ⟨id, hcount ▸ hlt⟩) :=
      List.getElem?_eq_getElem _
    rw [Option.map_some, rename, TypeTable.find?_of_type? ha.nodup_types ht, Option.bind_some, hu,
      Option.getD_some]
    exact hu

/-- Types that have the same numbers in both palettes are renamed into each other. -/
theorem eq_map_rename {ids : List TypeId} {ts us : List ValueType}
    (hts : ids.map a.types.type? = ts.map some) (hus : ids.map b.types.type? = us.map some) :
    us = ts.map (rename a b) := by
  apply (List.map_injective_iff.2 (Option.some_injective ValueType))
  calc us.map some
      = ids.map b.types.type? := hus.symm
    _ = (ids.map a.types.type?).map (Option.map (rename a b)) := by
        rw [List.map_map]
        exact List.map_congr_left fun id _ => type?_rename hsize halike ha hb id
    _ = (ts.map (rename a b)).map some := by
        rw [hts, List.map_map, List.map_map]
        rfl

theorem returns_rename {id : OperatorId} {e : Entry C} {f : Entry D} (he : a.entry? id = some e)
    (hf : b.entry? id = some f) : f.operator.returns = rename a b e.operator.returns := by
  have hreturns : b.types.type? e.returns = some f.operator.returns :=
    (halike id e f he hf).returns ▸ (hb.typed hf).returns
  rw [type?_rename hsize halike ha hb, (ha.typed he).returns] at hreturns
  injection hreturns with hreturns
  exact hreturns.symm

theorem renamed_of_alike : Renamed a b (rename a b) := by
  have hnumbers : b.types.types = a.types.types.map (rename a b) := by
    apply List.ext_getElem?
    intro id
    rw [List.getElem?_map]
    exact type?_rename hsize halike ha hb id
  constructor
  case injective => exact List.inj_on_of_nodup_map (hnumbers ▸ hb.nodup_types)
  case sizes =>
    intro t ht
    obtain ⟨number, hlt, rfl⟩ := List.mem_iff_getElem.1 ht
    obtain ⟨id, e, he, rfl, -⟩ := ha.exists_operator hlt
    obtain ⟨f, hf, hef⟩ := exists_alike hsize halike he
    have hreturns := (ha.typed he).returns
    rw [TypeTable.type?, List.getElem?_eq_getElem hlt] at hreturns
    injection hreturns with hreturns
    rw [hreturns, ← returns_rename hsize halike ha hb he hf]
    exact hef.size
  case size => exact hsize.symm
  case numbers => exact hnumbers
  case operators =>
    intro id e f he hf
    have h := halike id e f he hf
    have harguments := eq_map_rename hsize halike ha hb (ha.typed he).arguments
      (h.arguments ▸ (hb.typed hf).arguments)
    exact ⟨h.name, h.consultsContext, harguments, returns_rename hsize halike ha hb he hf⟩

end Renaming

/-! ## What streams do not tell -/

namespace Renamed

variable {rename : ValueType → ValueType} (h : Renamed a b rename)
include h

theorem type?_eq (id : TypeId) : b.types.type? id = (a.types.type? id).map rename := by
  rw [TypeTable.type?, TypeTable.type?, h.numbers, List.getElem?_map]

variable (ha : a.IsBuilt) (hb : b.IsBuilt) {id : OperatorId} {e : Entry C} {f : Entry D}
  (he : a.entry? id = some e) (hf : b.entry? id = some f)
include ha hb he hf

/-- Renamed types keep their numbers. -/
theorem returns_eq : f.returns = e.returns := by
  have hnumber : b.types.type? e.returns = some f.operator.returns := by
    rw [h.type?_eq, (ha.typed he).returns, (h.operators id e f he hf).2.2.2, Option.map_some]
  have hfind := TypeTable.find?_of_type? hb.nodup_types hnumber
  rw [TypeTable.find?_of_type? hb.nodup_types (hb.typed hf).returns] at hfind
  exact Option.some.inj hfind

theorem arguments_eq : f.arguments = e.arguments := by
  have hnumbers : e.arguments.map b.types.type? = f.operator.arguments.map some := by
    rw [(h.operators id e f he hf).2.2.1, List.map_map]
    calc e.arguments.map b.types.type?
        = (e.arguments.map a.types.type?).map (Option.map rename) := by
          rw [List.map_map]
          exact List.map_congr_left fun id _ => h.type?_eq id
      _ = e.operator.arguments.map (some ∘ rename) := by
          rw [(ha.typed he).arguments, List.map_map]
          rfl
  have hfind := TypeTable.map_find?_of_type? hb.nodup_types hnumbers
  rw [TypeTable.map_find?_of_type? hb.nodup_types (hb.typed hf).arguments] at hfind
  exact List.map_injective_iff.2 (Option.some_injective _) hfind

theorem description_eq : Description.ofEntry id f = Description.ofEntry id e := by
  obtain ⟨hname, hcontext, harguments, hreturns⟩ := h.operators id e f he hf
  have hmem : ∀ t ∈ e.operator.arguments, t ∈ a.types.types := by
    intro t ht
    have hmem : some t ∈ e.arguments.map a.types.type? :=
      (ha.typed he).arguments ▸ List.mem_map_of_mem ht
    obtain ⟨number, -, hnumber⟩ := List.mem_map.1 hmem
    exact List.mem_of_getElem? hnumber
  have hsize : f.operator.argumentSize = e.operator.argumentSize := by
    rw [Operator.argumentSize, Operator.argumentSize, harguments, List.map_map]
    exact congrArg List.sum (List.map_congr_left fun t ht => h.sizes t (hmem t ht))
  have hreturnSize : f.operator.returns.size = e.operator.returns.size :=
    hreturns ▸ h.sizes _ (List.mem_of_getElem? (ha.typed he).returns)
  simp only [Description.ofEntry, Entry.arity, hname, hcontext, hsize, hreturnSize,
    h.returns_eq ha hb he hf, h.arguments_eq ha hb he hf]

omit he hf in
theorem schema_eq : b.schema = a.schema := by
  apply List.ext_getElem?
  intro id
  rw [schema_getElem?, schema_getElem?]
  cases he : a.entry? id with
  | none =>
    have hle : b.size ≤ id := h.size.trans_le (List.getElem?_eq_none_iff.1 he)
    have hf : b.entry? id = none := List.getElem?_eq_none_iff.2 hle
    rw [hf]
    rfl
  | some e =>
    obtain ⟨hlt, -⟩ := List.getElem?_eq_some_iff.1 he
    have hlt : id < b.entries.length := Nat.lt_of_lt_of_eq hlt h.size.symm
    have hf : b.entry? id = some b.entries[id] := List.getElem?_eq_getElem hlt
    rw [hf]
    exact congrArg some (h.description_eq ha hb he hf)

omit he hf in
/-- A schema does not tell types from those that they are renamed to. -/
theorem schema_reads (hport : a.Portable) : Reads b.readSchema a.schemaBytes () := by
  have hreader : b.readSchema = a.readSchema := by
    unfold readSchema
    rw [h.schema_eq ha hb, h.size]
  rw [hreader]
  exact Palette.schema_reads ha hport

end Renamed

/-- A palette that accepts the schema of another one, which only has to be one that memory could hold,
has taken just that schema from the stream and has the operators of the other one with their types
renamed. -/
theorem exists_renamed_of_readSchema (ha : a.IsBuilt) (hb : b.IsBuilt) (hmemory : a.Addressable)
    {rest left : Bytes} (h : b.readSchema (a.schemaBytes ++ rest) = .ok ((), left)) :
    left = rest ∧ ∃ rename, Renamed a b rename := by
  obtain ⟨hschema, hleft, -⟩ := schema_eq_of_readSchema hmemory h
  have hsize : a.size = b.size := by
    have hlen := congrArg List.length hschema
    rwa [List.length_map, length_schema, length_schema] at hlen
  have halike : ∀ (id : OperatorId) e f, a.entry? id = some e → b.entry? id = some f →
      Alike e f := fun _ _ _ => alike_of_schema ha hmemory.size hschema
  exact ⟨hleft, _, renamed_of_alike hsize halike ha hb⟩

/-- A palette that accepts the schema of another one has taken just that schema from the stream,
and has the operators of the other one with their types renamed; and it accepts the schema of each
palette of which that holds, if streams can tell that palette at all. -/
theorem readSchema_renamed (ha : a.IsBuilt) (hb : b.IsBuilt) :
    (a.Addressable → ∀ rest left, b.readSchema (a.schemaBytes ++ rest) = .ok ((), left) →
      left = rest ∧ ∃ rename, Renamed a b rename) ∧
    (a.Portable → ∀ rename, Renamed a b rename →
      ∀ rest, b.readSchema (a.schemaBytes ++ rest) = .ok ((), rest)) :=
  ⟨fun hmemory _ _ h => exists_renamed_of_readSchema ha hb hmemory h,
    fun hport _ hrenamed => hrenamed.schema_reads ha hb hport⟩

/-! ### Numbers that are taken for each other -/

section Mistaken

def singles : Palette Unit where
  types := ⟨[.single]⟩
  entries := [⟨⟨some "add", .compute [.single, .single] .single fun (x, y, _) => x + y⟩, 0, [0, 0]⟩,
    ⟨⟨some "half", .literal .single (pure ⟨0x3F000000⟩)⟩, 0, []⟩]
  grounds := [0]
  root := none

def integers : Palette Unit where
  types := ⟨[.int64]⟩
  entries := [⟨⟨some "add", .compute [.int64, .int64] .int64 fun (x, y, _) => x + y⟩, 0, [0, 0]⟩,
    ⟨⟨some "half", .literal .int64 (pure 0)⟩, 0, []⟩]
  grounds := [0]
  root := none

theorem isBuilt_singles : singles.IsBuilt := ⟨singles.entries.map Entry.operator, none, rfl⟩

theorem isBuilt_integers : integers.IsBuilt := ⟨integers.entries.map Entry.operator, none, rfl⟩

theorem portable_singles : singles.Portable := ⟨by decide, by decide, by decide⟩

/-- One half, alone. -/
def oneHalf : Tree := ⟨[⟨1, 8, ⟨true, false⟩⟩], Stack.empty.pushRun [.word 0x3F000000]⟩

theorem renamed_singles_integers : Renamed singles integers fun _ => .int64 := by
  constructor
  case injective => decide
  case sizes => decide
  case size => rfl
  case numbers => rfl
  case operators =>
    intro id e f he hf
    match id with
    | 0 =>
      cases he
      cases hf
      exact ⟨rfl, rfl, rfl, rfl⟩
    | 1 =>
      cases he
      cases hf
      exact ⟨rfl, rfl, rfl, rfl⟩
    | _ + 2 => contradiction

/-- The type that comes first is a single in one palette and an integer in the other, and their
schemas are alike, so one half is read as an integer. -/
theorem readSchema_singles_integers :
    singles.IsBuilt ∧ integers.IsBuilt ∧
      integers.readSchema singles.schemaBytes = .ok ((), []) ∧
      singles.entries.map (·.operator.returns) = [.single, .single] ∧
      integers.entries.map (·.operator.returns) = [.int64, .int64] ∧
      Tree.read integers oneHalf.write.bytes = .ok (oneHalf, []) ∧
      (oneHalf.values.valueAt .single 0).toOption = some ⟨0x3F000000⟩ ∧
      (oneHalf.values.valueAt .int64 0).toOption = some 0x3F000000 := by
  refine ⟨isBuilt_singles, isBuilt_integers, ?_, rfl, rfl, ?_, by decide, by decide⟩
  · have h := renamed_singles_integers.schema_reads isBuilt_singles isBuilt_integers
      portable_singles
    rw [← List.append_nil singles.schemaBytes]
    exact h []
  · decide +kernel

theorem readSchema_renamed_singles : singles.IsBuilt ∧ integers.IsBuilt ∧ singles.Addressable ∧
    singles.Portable ∧ integers.readSchema (singles.schemaBytes ++ [7]) = .ok ((), [7]) ∧
    ∃ rename, Renamed singles integers rename := by
  have hmemory := portable_singles.addressable isBuilt_singles
  have hread := (readSchema_renamed isBuilt_singles isBuilt_integers).2 portable_singles _
    renamed_singles_integers [7]
  have h := (readSchema_renamed isBuilt_singles isBuilt_integers).1 hmemory [7] [7] hread
  exact ⟨isBuilt_singles, isBuilt_integers, hmemory, portable_singles, hread, h.2⟩

end Mistaken

end Palette

end GeneticProgramming
