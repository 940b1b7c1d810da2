import GeneticProgramming.Proofs.Stream.Schema
import GeneticProgramming.Proofs.Tree.Made
import GeneticProgramming.Proofs.Tree.Shape
import GeneticProgramming.Stream.State

/-!
# States come back

What is written of trees, populations and states is read as what it was, except that each tree
comes back with its literals in one run: `SavedState.reads`.  Literals that are references are not
written, so trees have to be plain.
-/

namespace GeneticProgramming

open Reader

variable {C : Type} {p : Palette C}

/-! ## Trees -/

namespace Tree

/-- No literal is a reference. -/
def IsPlain (t : Tree) : Prop := ∀ r ∈ t.records, r.flags.shared = false

/-- A tree whose numbers of nodes and bytes are machine words. -/
structure Fits (t : Tree) : Prop where
  size : t.size < 2 ^ 64
  bytes : t.values.size < 2 ^ 64

/-- A tree with its literals in one run. -/
def packed (t : Tree) : Tree := ⟨t.records, Stack.empty.pushRun t.values.contents⟩

@[simp] theorem records_packed (t : Tree) : t.packed.records = t.records := rfl

@[simp] theorem contents_packed (t : Tree) : t.packed.values.contents = t.values.contents :=
  Stack.contents_pushRun Stack.empty t.values.contents

variable {t : Tree}

theorem write_eq (h : t.IsPlain) : t.write = .ofBytes t.toBytes := by
  have hnone : t.records.find? (·.flags.shared) = none :=
    List.find?_eq_none.2 fun r hr => by rw [h r hr]; exact Bool.false_ne_true
  rw [write, hnone]

/-- Only plain trees are written. -/
theorem isPlain_of_write (h : t.write.failure = none) : t.IsPlain := by
  unfold write at h
  cases hfind : t.records.find? (·.flags.shared) with
  | none => exact fun r hr => Bool.eq_false_iff.2 (List.find?_eq_none.1 hfind r hr)
  | some r =>
    rw [hfind] at h
    contradiction

/-- The literals of a plain tree are data. -/
theorem Over.isShared_eq (h : t.Over p) (hplain : t.IsPlain) :
    ∀ c ∈ t.values.contents, c.isShared = false := by
  intro c hc
  rw [h.lists.contents] at hc
  obtain ⟨literal, hliteral, hc⟩ := List.mem_flatten.1 hc
  obtain ⟨n, hn, rfl⟩ := List.mem_map.1 hliteral
  obtain ⟨e, -, hrecord, hshared⟩ := (h.genuine n hn).entry
  have hmem : n.record ∈ t.records := h.lists.records ▸ List.mem_map_of_mem hn
  have hflag := hplain n.record hmem
  rw [hrecord] at hflag
  have hflag : (e.operator.isLiteral && e.operator.returns.isShared) = false := hflag
  have hlen : n.literal.length = n.record.words := h.lists.fits n hn
  rw [hrecord, words_recordOf] at hlen
  rw [hshared c hc]
  cases hliteral : e.operator.isLiteral with
  | true => rwa [hliteral, Bool.true_and] at hflag
  | false =>
    rw [hliteral, if_neg Bool.false_ne_true, List.length_eq_zero_iff] at hlen
    rw [hlen] at hc
    exact absurd hc List.not_mem_nil

theorem length_literalBytes (t : Tree) : t.literalBytes.length = t.values.size := by
  rw [literalBytes, Cell.length_flatMap_bytes, Stack.length_contents, Stack.size]

theorem record_reads (hp : p.IsBuilt) (hport : p.Portable) (index : Nat) {r : Record} {e : Entry C}
    (he : p.entry? r.operator = some e) (hr : r = recordOf e r.operator)
    (hshared : r.flags.shared = false) : Reads (readRecord p index) r.toBytes r := by
  obtain ⟨id, size, flags⟩ := r
  injection hr with _ hsize hflags
  have hid : id < 2 ^ 32 :=
    Nat.lt_of_lt_of_le (List.getElem?_eq_some_iff.1 he).1 hport.size
  have hbound : size < 2 ^ 16 := by
    have hle := (hp.typed he).sizes e.operator.returns List.mem_cons_self
    omega
  unfold Record.toBytes
  rw [List.append_assoc]
  refine Reads.bind (nat16_reads hbound) ?_
  refine Reads.bind (nat_reads (Nat.lt_trans hid (by decide))) ?_
  refine Reads.andThen (byte_reads flags.bits) ?_
  dsimp only at he hshared ⊢
  rw [if_pos hid, he, Flags.ofBits_bits]
  have hclean : ¬ (flags.shared || e.flags.shared) = true := by
    rw [← hflags, hshared]
    exact Bool.false_ne_true
  exact Reads.past (not_not.2 hsize)
    (Reads.past hclean (Reads.past (not_not.2 hflags) (Reads.pure _)))

theorem records_reads (hp : p.IsBuilt) (hport : p.Portable) (index : Nat) {rs : List Record}
    (h : ∀ r ∈ rs, ∃ e, p.entry? r.operator = some e ∧ r = recordOf e r.operator)
    (hplain : ∀ r ∈ rs, r.flags.shared = false) :
    Reads (readRecords p index rs.length) (rs.flatMap Record.toBytes) rs := by
  induction rs generalizing index with
  | nil => exact Reads.pure []
  | cons r rs ih =>
    obtain ⟨⟨e, he, hr⟩, hrs⟩ := List.forall_mem_cons.1 h
    obtain ⟨hshared, hplain⟩ := List.forall_mem_cons.1 hplain
    rw [List.flatMap_cons]
    refine Reads.bind (record_reads hp hport index he hr hshared) ?_
    exact Reads.andThen (ih (index + 1) hrs hplain) (Reads.pure (r :: rs))

theorem check_packed (h : t.check p = .ok ()) : t.packed.check p = .ok () := by
  refine check_of_words h t.records_packed ?_
  rw [← Stack.length_contents, ← Stack.length_contents, contents_packed]

/-- A tree is read from its parts one after another. -/
theorem reads_of_parts {count : Nat} {rs : List Record} {number records size payload : Bytes}
    (hnumber : Reads nat number count) (hrecords : Reads (readRecords p 0 count) records rs)
    (hsize : Reads nat size (8 * literalWords rs)) (hpayload : payload.length = 8 * literalWords rs)
    (hcheck : check p ⟨rs, Stack.empty.pushRun (Cell.ofBytes payload)⟩ = .ok ()) :
    Reads (Tree.read p) (number ++ (records ++ (size ++ payload)))
      ⟨rs, Stack.empty.pushRun (Cell.ofBytes payload)⟩ := by
  refine Reads.bind hnumber (Reads.bind hrecords (Reads.bind hsize ?_))
  refine Reads.past (not_not.2 rfl) (Reads.andThen (take_reads hpayload) ?_)
  dsimp only
  rw [hcheck]
  exact Reads.pure _

/-- A plain tree is read with its literals in one run. -/
theorem tree_reads (hp : p.IsBuilt) (hport : p.Portable) (hover : t.Over p)
    (hcheck : t.check p = .ok ()) (hplain : t.IsPlain) (hfits : t.Fits) :
    Reads (Tree.read p) t.toBytes t.packed := by
  have hlen : t.literalBytes.length = 8 * literalWords t.records := by
    rw [length_literalBytes, (check_eq_ok_iff.1 hcheck).1, Stack.size]
  have hwide : t.literalBytes.length < 2 ^ 64 := length_literalBytes t ▸ hfits.bytes
  have hcells : Cell.ofBytes t.literalBytes = t.values.contents :=
    Cell.ofBytes_flatMap_bytes (hover.isShared_eq hplain)
  have hpacked : check p ⟨t.records, Stack.empty.pushRun (Cell.ofBytes t.literalBytes)⟩ = .ok () := by
    rw [hcells]
    exact check_packed hcheck
  have hsize : Reads nat (Bytes.ofNat t.literalBytes.length) (8 * literalWords t.records) :=
    hlen ▸ nat_reads hwide
  have hreads := reads_of_parts (nat_reads hfits.size)
    (records_reads hp hport 0 (fun r hr => hover.entry hr) hplain) hsize hlen hpacked
  rw [hcells] at hreads
  unfold toBytes Bytes.ofList
  simp only [List.append_assoc]
  exact hreads

end Tree

/-! ## Populations -/

namespace Fitness

theorem reads (f : Fitness) : Reads read f.toBytes f := by
  unfold toBytes
  simp only [List.append_assoc]
  refine Reads.bind (double_reads f.raw) (Reads.bind (double_reads f.standardized) ?_)
  refine Reads.bind (double_reads f.adjusted) (Reads.andThen (word_reads _) ?_)
  exact Reads.pure f

end Fitness

namespace Statistics

theorem reads {s : Statistics} (h : s.normalized.length < 2 ^ 64) : Reads read s.toBytes s := by
  unfold toBytes
  simp only [List.append_assoc]
  refine Reads.bind (double_reads s.best) (Reads.bind (double_reads s.worst) ?_)
  refine Reads.bind (double_reads s.average) (Reads.bind (double_reads s.overall) ?_)
  exact Reads.andThen (list_reads_self h fun x _ => double_reads x) (Reads.pure s)

end Statistics

namespace Individual

def packed (i : Individual) : Individual := { i with tree := i.tree.packed }

def toBytes (i : Individual) : Bytes := i.fitness.toBytes ++ i.tree.toBytes

theorem write_eq {i : Individual} (h : i.tree.IsPlain) : i.write = .ofBytes i.toBytes := by
  rw [write, Tree.write_eq h]
  rfl

end Individual

/-- A tree that can be written and read again. -/
structure Tree.Storable (p : Palette C) (t : Tree) : Prop where
  records : t.Over p
  check : t.check p = .ok ()
  plain : t.IsPlain
  fits : t.Fits

theorem Tree.Storable.reads {t : Tree} (hp : p.IsBuilt) (hport : p.Portable) (h : t.Storable p) :
    Reads (Tree.read p) t.toBytes t.packed :=
  tree_reads hp hport h.records h.check h.plain h.fits

/-- Records of the palette without references, with data for their literals, can be stored. -/
theorem Tree.storable_of_data {rs : List Record} {cells : List Cell} (hrs : ∀ r ∈ rs,
      ∃ e, p.entry? r.operator = some e ∧ r = recordOf e r.operator ∧ e.flags.shared = false)
    (hcells : ∀ c ∈ cells, c.isShared = false)
    (hcheck : check p ⟨rs, Stack.empty.pushRun cells⟩ = .ok ())
    (hfits : Fits ⟨rs, Stack.empty.pushRun cells⟩) :
    Storable p ⟨rs, Stack.empty.pushRun cells⟩ := by
  have hlen : literalWords rs = cells.length := by
    have hsize := (check_eq_ok_iff.1 hcheck).1
    rwa [← Stack.length_contents, Stack.contents_pushRun] at hsize
  refine ⟨(sound_of_data hrs hcells hlen).1, hcheck, fun r hr => ?_, hfits⟩
  obtain ⟨e, -, hrecord, hshared⟩ := hrs r hr
  rw [hrecord]
  exact hshared

/-- What is written after something else succeeds if both do. -/
theorem Output.failure_append_eq_none {a b : Output} :
    (a ++ b).failure = none ↔ a.failure = none ∧ b.failure = none := by
  change (Output.append a b).failure = none ↔ _
  unfold Output.append
  cases ha : a.failure with
  | none => simp
  | some e => simp [ha]

namespace Population

variable {pop : Population}

theorem isPlain_of_write (h : pop.write.failure = none) : ∀ i ∈ pop, i.tree.IsPlain := by
  have hconcat := (Output.failure_append_eq_none.1 h).2
  clear h
  induction pop with
  | nil => exact fun i hi => absurd hi List.not_mem_nil
  | cons i pop ih =>
    obtain ⟨hi, hpop⟩ := Output.failure_append_eq_none.1 hconcat
    refine List.forall_mem_cons.2 ⟨?_, ih hpop⟩
    exact Tree.isPlain_of_write (Output.failure_append_eq_none.1 hi).2

theorem concat_write (h : ∀ i ∈ pop, i.tree.IsPlain) :
    Output.concat (pop.map Individual.write) = .ofBytes (pop.flatMap Individual.toBytes) := by
  induction pop with
  | nil => rfl
  | cons i pop ih =>
    obtain ⟨hi, hpop⟩ := List.forall_mem_cons.1 h
    change Output.append i.write (Output.concat (pop.map Individual.write)) = _
    rw [ih hpop, Individual.write_eq hi]
    rfl

theorem write_eq (h : ∀ i ∈ pop, i.tree.IsPlain) :
    pop.write = .ofBytes (Bytes.ofList Individual.toBytes pop) := by
  rw [write, concat_write h]
  rfl

theorem reads (hp : p.IsBuilt) (hport : p.Portable) (h : ∀ i ∈ pop, i.tree.Storable p)
    (hlen : pop.length < 2 ^ 64) :
    Reads (read p) (Bytes.ofList Individual.toBytes pop) (pop.map Individual.packed) := by
  refine list_reads hlen fun i hi => Reads.bind (Fitness.reads i.fitness) ?_
  obtain ⟨hover, hcheck, hplain, hfits⟩ := h i hi
  exact Reads.andThen (Tree.tree_reads hp hport hover hcheck hplain hfits) (Reads.pure i.packed)

end Population

/-! ## States -/

namespace SavedState

/-- A state whose lists have machine words for lengths. -/
structure Fits (s : SavedState) : Prop where
  history : s.history.length < 2 ^ 64
  shares : ∀ x ∈ s.stats :: s.history, x.normalized.length < 2 ^ 64
  population : s.population.length < 2 ^ 64

def toBytes (p : Palette C) (s : SavedState) : Bytes :=
  p.schemaBytes ++ Bytes.ofList Statistics.toBytes s.history ++ s.stats.toBytes ++
    Bytes.ofList Individual.toBytes s.population

variable {s : SavedState}

theorem write_eq (h : ∀ i ∈ s.population, i.tree.IsPlain) :
    s.write p = .ofBytes (s.toBytes p) := by
  rw [write, Population.write_eq h]
  rfl

theorem isPlain_of_write (h : (s.write p).failure = none) : ∀ i ∈ s.population, i.tree.IsPlain :=
  Population.isPlain_of_write (Output.failure_append_eq_none.1 h).2

/-- A state of storable trees is read as it was written. -/
theorem reads (hp : p.IsBuilt) (hport : p.Portable) (h : ∀ i ∈ s.population, i.tree.Storable p)
    (hfits : s.Fits) :
    Reads (read p) (s.toBytes p) { s with population := s.population.map Individual.packed } := by
  obtain ⟨hstats, hshares⟩ := List.forall_mem_cons.1 hfits.shares
  unfold toBytes
  simp only [List.append_assoc]
  refine Reads.bind (Palette.schema_reads hp hport) ?_
  refine Reads.bind
    (list_reads_self hfits.history fun x hx => Statistics.reads (hshares x hx)) ?_
  refine Reads.bind (Statistics.reads hstats) ?_
  exact Reads.andThen (Population.reads hp hport h hfits.population) (Reads.pure _)

end SavedState

end GeneticProgramming
