import GeneticProgramming.Proofs.Run.Carrying
import GeneticProgramming.Proofs.Run.Resume
import GeneticProgramming.Proofs.Stream.Agreement

/-!
# Lineages

Runs of one palette save their states whenever they like, and load what others saved.  They may have
different configurations, and trees that return different types come together in them; but each tree
is well-typed, so that what one run saves is what another one loads: `Run.Lineage.loadState_eq`.
-/

namespace GeneticProgramming

open GeneticProgramming.Tree

variable {C : Type} {p : Palette C}

/-- A well-typed tree of any type. -/
def Tree.IsTyped (p : Palette C) (t : Tree) : Prop := ∃ type, t.Proper p type

namespace Run

variable {r r' source target loaded : Run C} {objective : Objective C} {files : Files}
  {s : Stepped C} {bytes : Bytes} {May : Run C → Prop}

/-- A run writes its state in these bytes, and all sizes in it are machine words. -/
structure Saves (r : Run C) (bytes : Bytes) : Prop where
  written : r.writeState = .ofBytes bytes
  sizes : r.saved.Fits
  trees : ∀ x ∈ r.population, x.tree.Fits

/-- The runs of a palette that come of new ones by steps, with one fitness function, and by loading
what another one saved, whatever the run that loads is doing.  The run that saves may be restricted. -/
inductive Lineage (p : Palette C) (objective : Objective C) (May : Run C → Prop) : Run C → Prop where
  | new {c : Configuration} {r : Run C} : Run.new p c = .ok (.ok r) → Lineage p objective May r
  | step {r : Run C} {files : Files} {s : Stepped C} : Lineage p objective May r →
      r.step objective files = .ok s → Lineage p objective May s.run
  | stop {r : Run C} (stopRequested : Bool) :
      Lineage p objective May r → Lineage p objective May { r with stopRequested }
  | sync {r : Run C} (sync : Option Sync) :
      Lineage p objective May r → Lineage p objective May { r with sync }
  | load {target source loaded : Run C} {bytes : Bytes} :
      Lineage p objective May target → Lineage p objective May source → May source →
        source.Saves bytes → target.loadState bytes = .ok loaded → Lineage p objective May loaded

/-- Whatever steps a run takes by itself, its lineage has it. -/
theorem Lineage.runFor (h : Lineage p objective May r) {steps : Nat}
    (hs : r.runFor objective steps files = .ok s) : Lineage p objective May s.run :=
  runFor_induction .step h hs

/-! ## Types -/

/-- What a run of a lineage is made of. -/
structure IsTyped (p : Palette C) (r : Run C) : Prop where
  palette : r.palette = p
  valid : r.configuration.Valid
  root : r.root < p.types.count
  population : ∀ x ∈ r.population, x.tree.IsTyped p
  next : ∀ x ∈ r.next, x.tree.IsTyped p

/-- Trees of different types are bred together, each child of the type of a parent. -/
theorem inherits_isTyped (hp : r.palette.IsBuilt) : r.Inherits (Tree.IsTyped r.palette) where
  duplicate := fun ⟨type, ht⟩ => ⟨type, ht.duplicate⟩
  mutant := by
    intro t ⟨type, ht⟩
    have hfine := ht.fine (Nat.le_max_right r.configuration.maxTreeDepth _)
    exact (mutant_yields hp (Nat.le_max_left _ _) hfine).mono fun u hu => ⟨type, hu.proper⟩
  cross := by
    intro t u ⟨type, ht⟩ ⟨other, hu⟩
    have hdepth := Nat.le_max_right r.configuration.maxTreeDepth
      (max (t.depth r.palette) (u.depth r.palette))
    have hfine := ht.fine (Nat.le_trans (Nat.le_max_left _ _) hdepth)
    have hother := hu.fine (Nat.le_trans (Nat.le_max_right _ _) hdepth)
    exact (cross_yields hp (Nat.le_max_left _ _) hfine hother).mono fun out hout =>
      ⟨⟨type, hout.1.proper⟩, ⟨other, hout.2.proper⟩⟩

namespace IsTyped

theorem iff_carries : r.IsTyped p ↔ r.Carries p (Tree.IsTyped p) :=
  ⟨fun h => ⟨h.palette, h.valid, h.root, h.population, h.next⟩,
    fun h => ⟨h.palette, h.valid, h.root, h.population, h.next⟩⟩

theorem handed (hp : p.IsBuilt) : Handed p (Tree.IsTyped p) where
  proper ht := ⟨_, ht⟩
  inherits := by
    rintro r rfl
    exact inherits_isTyped hp

theorem of_new (hp : p.IsBuilt) {c : Configuration} (h : Run.new p c = .ok (.ok r)) :
    r.IsTyped p :=
  iff_carries.2 (.of_new hp h)

theorem step (hp : p.IsBuilt) (h : r.IsTyped p) (hs : r.step objective files = .ok s) :
    s.run.IsTyped p :=
  iff_carries.2 ((iff_carries.1 h).step hp (handed hp) hs)

end IsTyped

/-! ## What is loaded -/

/-- A population as it comes back from a stream. -/
abbrev repacked (r : Run C) : SavedState :=
  { r.saved with population := r.population.map Individual.packed }

theorem repacked_alike (r : Run C) : r.population.Alike r.repacked.population :=
  packed_individuals_alike r.population

namespace Saves

theorem isPlain (h : r.Saves bytes) : ∀ x ∈ r.population, x.tree.IsPlain :=
  SavedState.isPlain_of_write (p := r.palette) (congrArg Output.failure h.written)

theorem bytes_eq (h : r.Saves bytes) : bytes = r.saved.toBytes r.palette := by
  have hwritten := h.written
  rw [writeState, SavedState.write_eq h.isPlain] at hwritten
  exact (congrArg Output.bytes hwritten).symm

/-- What a well-typed run saved is loaded by each run of its palette. -/
theorem loadState_eq (hp : p.IsBuilt) (hport : p.Portable) (h : source.Saves bytes)
    (hsource : source.IsTyped p) (hpalette : target.palette = p) :
    target.loadState bytes = .ok (target.resume source.repacked) := by
  rw [h.bytes_eq, hsource.palette]
  refine loadState_toBytes hp hport (fun x hx => ?_) h.sizes hpalette
  obtain ⟨type, hproper⟩ := hsource.population x hx
  exact hproper.storable (h.isPlain x hx) (h.trees x hx)

/-- Where anything is loaded, the palette accepts its own schema. -/
theorem portable (hmemory : p.Addressable) (hsize : p.size ≤ 2 ^ 32) (h : source.Saves bytes)
    (hsource : source.palette = p) (hpalette : target.palette = p)
    (hload : target.loadState bytes = .ok loaded) : p.Portable := by
  rw [h.bytes_eq, hsource, SavedState.toBytes, List.append_assoc, List.append_assoc] at hload
  obtain ⟨⟨_, _⟩, hread, -⟩ := exists_of_bind_eq_ok hload
  rw [hpalette] at hread
  obtain ⟨⟨_, _⟩, hschema, -⟩ := exists_of_bind_eq_ok hread
  exact Palette.portable_of_readSchema hmemory hsize hschema

end Saves

theorem IsTyped.resume (hp : p.IsBuilt) (hport : p.Portable) (htarget : target.IsTyped p)
    (hsource : source.IsTyped p) (h : source.Saves bytes) :
    (target.resume source.repacked).IsTyped p := by
  refine ⟨htarget.palette, htarget.valid, htarget.root, fun x hx => ?_,
    fun x hx => absurd hx List.not_mem_nil⟩
  obtain ⟨y, hy, rfl⟩ := List.mem_map.1 hx
  obtain ⟨type, hproper⟩ := hsource.population y hy
  exact ⟨type, hproper.packed hp hport (h.isPlain y hy) (h.trees y hy)⟩

namespace Lineage

theorem isTyped (hp : p.IsBuilt) (hmemory : p.Addressable) (hsize : p.size ≤ 2 ^ 32)
    (h : Lineage p objective May r) : r.IsTyped p := by
  induction h with
  | new hnew => exact .of_new hp hnew
  | step _ hs ih => exact ih.step hp hs
  | stop _ _ ih => exact ⟨ih.palette, ih.valid, ih.root, ih.population, ih.next⟩
  | sync _ _ ih => exact ⟨ih.palette, ih.valid, ih.root, ih.population, ih.next⟩
  | load _ _ _ hsaves hload htarget hsource =>
    have hport := hsaves.portable hmemory hsize hsource.palette htarget.palette hload
    rw [hsaves.loadState_eq hp hport hsource htarget.palette] at hload
    injection hload with hload
    exact hload ▸ htarget.resume hp hport hsource hsaves

/-- What a run of a lineage saved is loaded by another one as it was, if anything is. -/
theorem loadState_eq (hp : p.IsBuilt) (hmemory : p.Addressable) (hsize : p.size ≤ 2 ^ 32)
    (hsource : Lineage p objective May source) (hsaves : source.Saves bytes)
    (hpalette : target.palette = p) (hload : target.loadState bytes = .ok loaded) :
    loaded = target.resume source.repacked := by
  have htyped := hsource.isTyped hp hmemory hsize
  have hport := hsaves.portable hmemory hsize htyped.palette hpalette hload
  rw [hsaves.loadState_eq hp hport htyped hpalette] at hload
  injection hload with hload
  exact hload.symm

end Lineage

end Run

end GeneticProgramming
