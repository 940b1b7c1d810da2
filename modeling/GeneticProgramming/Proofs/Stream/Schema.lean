import GeneticProgramming.Proofs.Palette.Grounded
import GeneticProgramming.Proofs.Stream.Reading
import GeneticProgramming.Stream.Schema
import Mathlib.Data.List.Forall2

/-!
# Schemas come back

A palette accepts the schema that it wrote, if names are no longer than a reader takes and numbers
are no wider than their fields: `Palette.schema_reads`.
-/

namespace GeneticProgramming

open Reader

namespace Description

/-- A description whose numbers fit their fields. -/
structure Fits (d : Description) : Prop where
  id : d.id < 2 ^ 64
  name : ∀ name, d.name = some name → name.utf8ByteSize ≤ longestName
  argumentBytes : d.argumentBytes < 2 ^ 64
  returnBytes : d.returnBytes < 2 ^ 64
  arity : d.arity < 2 ^ 16
  contextArity : d.contextArity < 2 ^ 16
  returns : d.returns < 2 ^ 64
  count : d.arguments.length < 2 ^ 64
  arguments : ∀ t ∈ d.arguments, t < 2 ^ 64

theorem name_reads (id : Nat) {name : Option String}
    (h : ∀ s, name = some s → s.utf8ByteSize ≤ longestName) :
    Reads (readName id) (nameBytes name) name := by
  cases name with
  | none => exact Reads.andThen (byte_reads 0) (Reads.pure none)
  | some s =>
    have hlen : s.toUTF8.toList.length ≤ longestName := by
      rw [Bytes.toList_eq, Array.length_toList]
      exact h s rfl
    have hword : s.toUTF8.toList.length < 2 ^ 64 := Nat.lt_of_le_of_lt hlen (by decide)
    refine Reads.bind (byte_reads 1) ?_
    refine Reads.bind (nat_reads hword) (Reads.past (Nat.not_lt.2 hlen) ?_)
    refine Reads.andThen (take_reads rfl) ?_
    rw [fromUTF8?_bytes]
    exact Reads.pure (some s)

/-- What a stream keeps of a description: of each number, what fits its field. -/
def stored (d : Description) : Description where
  id := d.id % 2 ^ 64
  name := d.name
  argumentBytes := d.argumentBytes % 2 ^ 64
  returnBytes := d.returnBytes % 2 ^ 64
  arity := d.arity % 2 ^ 16
  contextArity := d.contextArity % 2 ^ 16
  returns := d.returns % 2 ^ 64
  arguments := d.arguments.map (· % 2 ^ 64)

theorem stored_reads {d : Description}
    (hname : ∀ name, d.name = some name → name.utf8ByteSize ≤ longestName)
    (hcount : d.arguments.length < 2 ^ 64) : Reads read d.toBytes d.stored := by
  unfold toBytes
  simp only [List.append_assoc]
  refine Reads.bind (nat_reads_mod d.id) (Reads.bind (name_reads _ hname) ?_)
  refine Reads.bind (nat_reads_mod d.argumentBytes) (Reads.bind (nat_reads_mod d.returnBytes) ?_)
  refine Reads.bind (nat16_reads_mod d.arity) (Reads.bind (nat16_reads_mod d.contextArity) ?_)
  refine Reads.bind (nat_reads_mod d.returns) ?_
  exact Reads.andThen (list_reads hcount fun t _ => nat_reads_mod t) (Reads.pure d.stored)

theorem stored_eq {d : Description} (h : d.Fits) : d.stored = d := by
  have harguments : d.arguments.map (· % 2 ^ 64) = d.arguments := by
    rw [List.map_congr_left fun t ht => Nat.mod_eq_of_lt (h.arguments t ht), List.map_id']
  unfold stored
  rw [Nat.mod_eq_of_lt h.id, Nat.mod_eq_of_lt h.argumentBytes, Nat.mod_eq_of_lt h.returnBytes,
    Nat.mod_eq_of_lt h.arity, Nat.mod_eq_of_lt h.contextArity, Nat.mod_eq_of_lt h.returns,
    harguments]

theorem reads {d : Description} (h : d.Fits) : Reads read d.toBytes d := by
  have hread := stored_reads h.name h.count
  rwa [stored_eq h] at hread

theorem argumentMismatch_self (ts : List Nat) : argumentMismatch ts ts = none := by
  rw [argumentMismatch, List.findIdx?_eq_none_iff]
  intro pair hpair
  obtain ⟨a, b⟩ := pair
  rw [List.zip_eq_zipWith, List.zipWith_self] at hpair
  obtain ⟨t, -, heq⟩ := List.mem_map.1 hpair
  injection heq with ha hb
  simp only [← ha, ← hb, ne_eq, not_true_eq_false, decide_false]

theorem compare_self {d : Description} (h : d.arguments.length = d.arity) :
    d.compare d = .ok () := by
  simp only [compare, ne_eq, not_true_eq_false, if_false, decide_false, Bool.or_self,
    Bool.false_eq_true, h, argumentMismatch_self, bind, Except.bind, pure, Except.pure]

end Description

namespace Palette

variable {C : Type} {p : Palette C}

/-- A palette whose schema can be read again: names are no longer than a reader takes, and the
numbers of operators and arguments are no wider than the types that count them. -/
structure Portable (p : Palette C) : Prop where
  names : ∀ e ∈ p.entries, ∀ name, e.operator.name = some name →
    name.utf8ByteSize ≤ Description.longestName
  size : p.size ≤ 2 ^ 32
  arities : ∀ e ∈ p.entries, e.arity < 2 ^ 16

/-- There are no more types than operators, since each type is returned by one. -/
theorem IsBuilt.types_le (h : p.IsBuilt) : p.types.count ≤ p.size := by
  have hsubset : List.range p.types.count ⊆ p.entries.map Entry.returns := by
    intro t ht
    obtain ⟨id, e, he, rfl, -⟩ := h.exists_operator (List.mem_range.1 ht)
    exact List.mem_map_of_mem (List.mem_of_getElem? he)
  have hle := List.Nodup.length_le_of_subset List.nodup_range hsubset
  rwa [List.length_range, List.length_map] at hle

theorem sum_sizes_le {ts : List ValueType} (h : ∀ t ∈ ts, t.size ≤ 65535) :
    (ts.map ValueType.size).sum ≤ 65535 * ts.length := by
  induction ts with
  | nil => exact Nat.le_refl 0
  | cons t ts ih =>
    obtain ⟨ht, hts⟩ := List.forall_mem_cons.1 h
    have hsum := ih hts
    rw [List.map_cons, List.sum_cons, List.length_cons]
    omega

theorem length_schema (p : Palette C) : p.schema.length = p.size := by
  rw [schema, List.length_map, List.length_zipIdx, size]

/-- The description of an operator fits its fields if the name is no longer than a reader takes. -/
theorem fits_ofEntry (hp : p.IsBuilt) (hsize : p.size ≤ 2 ^ 32) {id : OperatorId} {e : Entry C}
    (he : p.entry? id = some e) (harity : e.arity < 2 ^ 16)
    (hname : ∀ name, e.operator.name = some name →
      name.utf8ByteSize ≤ Description.longestName) : (Description.ofEntry id e).Fits := by
  have htypes := hp.types_le
  have hid : id < p.size := (List.getElem?_eq_some_iff.1 he).1
  have hcount : e.arguments.length < 2 ^ 16 := harity
  have hwide : p.types.count ≤ 2 ^ 64 := by omega
  have hsizes := (hp.typed he).sizes
  have hsum := sum_sizes_le fun t ht => hsizes t (List.mem_cons_of_mem _ ht)
  rw [← hp.length_arguments he] at hsum
  have hreturn : e.operator.returns.size ≤ 65535 := hsizes _ List.mem_cons_self
  refine ⟨?_, hname, ?_, ?_, harity, ?_, ?_, ?_, ?_⟩
  · exact Nat.lt_of_lt_of_le hid (Nat.le_trans hsize (by decide))
  · change (e.operator.arguments.map ValueType.size).sum < 2 ^ 64
    omega
  · change e.operator.returns.size < 2 ^ 64
    omega
  · change (if e.operator.consultsContext then 1 else 0) < 2 ^ 16
    split <;> decide
  · exact Nat.lt_of_lt_of_le (hp.returns_lt he) hwide
  · change e.arguments.length < 2 ^ 64
    omega
  · exact fun t ht => Nat.lt_of_lt_of_le (hp.arguments_lt he t ht) hwide

theorem fits_of_mem_schema (hp : p.IsBuilt) (hport : p.Portable) {d : Description}
    (hd : d ∈ p.schema) : d.Fits ∧ d.arguments.length = d.arity := by
  obtain ⟨⟨e, id⟩, hmem, rfl⟩ := List.mem_map.1 hd
  have he : p.entry? id = some e := List.mem_zipIdx_iff_getElem?.1 hmem
  have hin : e ∈ p.entries := List.mem_of_getElem? he
  exact ⟨fits_ofEntry hp hport.size he (hport.arities e hin) (hport.names e hin), rfl⟩

/-- Operators that do not differ are passed. -/
theorem compareAll_append {ds owns : List Description}
    (h : List.Forall₂ (fun d own => d.Fits ∧ d.compare own = .ok ()) ds owns)
    (more : List Description) (rest : Bytes) :
    compareAll (owns ++ more) (ds.flatMap Description.toBytes ++ rest) = compareAll more rest := by
  induction h with
  | nil => rfl
  | cons hd _ ih =>
    obtain ⟨hfits, hcompare⟩ := hd
    rw [List.flatMap_cons, List.append_assoc, List.cons_append, compareAll,
      (Description.reads hfits).bind_eq, hcompare]
    exact ih

theorem compareAll_reads {ds : List Description}
    (h : ∀ d ∈ ds, d.Fits ∧ d.arguments.length = d.arity) :
    Reads (compareAll ds) (ds.flatMap Description.toBytes) () := by
  have hself : List.Forall₂ (fun d own => d.Fits ∧ d.compare own = .ok ()) ds ds :=
    List.forall₂_same.2 fun d hd => ⟨(h d hd).1, Description.compare_self (h d hd).2⟩
  intro rest
  have hread := compareAll_append hself [] rest
  rwa [List.append_nil] at hread

/-- A palette accepts its own schema. -/
theorem schema_reads (hp : p.IsBuilt) (hport : p.Portable) :
    Reads p.readSchema p.schemaBytes () := by
  have hwide : p.schema.length < 2 ^ 64 :=
    Nat.lt_of_le_of_lt (p.length_schema ▸ hport.size) (by decide)
  refine Reads.bind (nat_reads hwide) (Reads.past (not_not.2 p.length_schema) ?_)
  exact compareAll_reads fun d hd => fits_of_mem_schema hp hport hd

end Palette

end GeneticProgramming
