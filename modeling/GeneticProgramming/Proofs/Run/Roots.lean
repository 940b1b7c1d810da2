import GeneticProgramming.Proofs.Run.Scored
import GeneticProgramming.Proofs.Stream.Exact
import GeneticProgramming.Proofs.Stream.Literals

/-!
# The types of loaded trees

Where the palette names no root type, each run draws one from its seed.  A stream does not tell
which one its trees were bred for, and a reader checks that each tree is well-typed by itself.  So a
run takes over trees of any types, and empty ones; those that another run of its palette saved
return its root type exactly if both runs have the same one: `Run.loaded_roots`.
-/

namespace GeneticProgramming

open GeneticProgramming.Tree

variable {C : Type} {p : Palette C}

/-- A tree that is read is empty, or returns a type of the palette. -/
theorem Tree.root_of_check {t : Tree} (hp : p.IsBuilt) (h : t.check p = .ok ()) :
    t.isEmpty = true ∨ ∃ type < p.types.count, t.rootType? p = some type := by
  rcases (check_eq_ok_iff.1 h).2 with hempty | ⟨type, hspells⟩
  · exact .inl (List.isEmpty_iff.2 hempty)
  · refine .inr ⟨type, ?_, rootType?_eq hspells⟩
    generalize t.records = rs at hspells
    cases hspells with
    | cons he _ => exact hp.returns_lt he

theorem Tree.Storable.empty (p : Palette C) : Tree.empty.Storable p :=
  ⟨Sound.empty.1, rfl, fun r hr => absurd hr List.not_mem_nil, ⟨by decide, by decide⟩⟩

namespace Run

variable {c : Configuration} {start r source target loaded : Run C} {root type : TypeId}
  {objective : Objective C} {files : Files} {s : Stepped C} {bytes : Bytes} {pop : Population}

/-- All trees of a run return this type. -/
def Returns (r : Run C) (type : TypeId) : Prop :=
  ∀ x ∈ r.population, x.tree.isEmpty = false ∧ x.tree.rootType? r.palette = some type

/-! ## Loading -/

/-- What a run becomes that takes a state or a generation from the front of a stream. -/
inductive Loads (target : Run C) (bytes : Bytes) : Run C → Prop where
  | state {loaded : Run C} : target.loadState bytes = .ok loaded → Loads target bytes loaded
  | generation {loaded : Run C} :
      target.loadGeneration bytes = .ok loaded → Loads target bytes loaded

/-- What holds of each tree that is read holds of the trees of a run that loads. -/
theorem Loads.forall_mem {Q : Tree → Prop} (hq : Yields (Tree.read target.palette) Q)
    (h : target.Loads bytes loaded) :
    loaded.root = target.root ∧ ∀ x ∈ loaded.population, Q x.tree := by
  cases h with
  | state hload =>
    obtain ⟨⟨saved, rest⟩, hread, hload⟩ := exists_of_bind_eq_ok hload
    injection hload with hload
    subst hload
    exact ⟨rfl, SavedState.read_yields hq _ _ _ hread⟩
  | generation hload =>
    obtain ⟨⟨population, rest⟩, hread, hload⟩ := exists_of_bind_eq_ok hload
    injection hload with hload
    subst hload
    exact ⟨rfl, Population.read_yields hq _ _ _ hread⟩

/-- The bytes of a generation of any types are loaded by each run of its palette. -/
theorem loadGeneration_toBytes (hp : p.IsBuilt) (hport : p.Portable)
    (hstorable : ∀ x ∈ pop, x.tree.Storable p) (hlen : pop.length < 2 ^ 64)
    (hpalette : target.palette = p) :
    target.loadGeneration (Bytes.ofList Individual.toBytes pop) = .ok { target with
      population := pop.map Individual.packed, next := [], solved := false
      phase := .evaluate } := by
  have hread := Population.reads hp hport hstorable hlen []
  rw [List.append_nil] at hread
  unfold loadGeneration
  rw [hpalette, StateT.run, hread]
  rfl

/-- A run writes its generation in these bytes, and all sizes in it are machine words. -/
structure SavesGeneration (r : Run C) (bytes : Bytes) : Prop where
  written : r.writeGeneration = .ofBytes bytes
  size : r.population.length < 2 ^ 64
  trees : ∀ x ∈ r.population, x.tree.Fits

/-- A run that saves its state can save its generation, too. -/
theorem Saves.savesGeneration (h : r.Saves bytes) :
    r.SavesGeneration (Bytes.ofList Individual.toBytes r.population) :=
  ⟨Population.write_eq h.isPlain, h.sizes.population, h.trees⟩

namespace SavesGeneration

theorem isPlain (h : r.SavesGeneration bytes) : ∀ x ∈ r.population, x.tree.IsPlain :=
  Population.isPlain_of_write (congrArg Output.failure h.written)

theorem bytes_eq (h : r.SavesGeneration bytes) :
    bytes = Bytes.ofList Individual.toBytes r.population := by
  have hwritten := h.written
  rw [writeGeneration, Population.write_eq h.isPlain] at hwritten
  exact (congrArg Output.bytes hwritten).symm

theorem loadGeneration_eq (hp : p.IsBuilt) (hport : p.Portable) (h : source.SavesGeneration bytes)
    (hsource : source.IsTyped p) (hpalette : target.palette = p) :
    target.loadGeneration bytes = .ok { target with
      population := source.population.map Individual.packed
      next := [], solved := false, phase := .evaluate } := by
  rw [h.bytes_eq]
  refine loadGeneration_toBytes hp hport (fun x hx => ?_) h.size hpalette
  obtain ⟨type, hproper⟩ := hsource.population x hx
  exact hproper.storable (h.isPlain x hx) (h.trees x hx)

end SavesGeneration

/-! ## Root types -/

theorem Reached.isTyped (hp : p.IsBuilt) (hnew : Run.new p c = .ok (.ok start))
    (h : Reached start r) : r.IsTyped p := by
  induction h with
  | refl => exact .of_new hp hnew
  | step _ hs ih => exact ih.step hp hs
  | stop _ _ ih => exact ⟨ih.palette, ih.valid, ih.root, ih.population, ih.next⟩
  | sync _ _ ih => exact ⟨ih.palette, ih.valid, ih.root, ih.population, ih.next⟩

/-- The trees of a run come back with the type that they were bred for, and with no other. -/
theorem Invariant.returns_packed_iff (h : Invariant p c root source)
    (hsome : source.population ≠ []) (hpalette : loaded.palette = p)
    (hpop : loaded.population = source.population.map Individual.packed) :
    loaded.Returns type ↔ root = type := by
  have hwhole := h.population.resolve_left fun hempty => hsome hempty.1
  have hpacked : ∀ x ∈ source.population, x.packed.tree.isEmpty = false ∧
      x.packed.tree.rootType? p = some root := by
    intro x hx
    have hproper := (hwhole.allowed x hx).proper
    exact ⟨hproper.isEmpty, rootType?_eq hproper.spells⟩
  unfold Returns
  rw [hpop, hpalette, List.forall_mem_map]
  constructor
  · intro hall
    obtain ⟨x, hx⟩ := List.exists_mem_of_ne_nil _ hsome
    have hboth := (hpacked x hx).2.symm.trans (hall x hx).2
    exact Option.some.inj hboth
  · rintro rfl
    exact hpacked

/-- A run that loads keeps its root type, and each tree that it takes over is empty or returns some
type of the palette.  What another run of the palette saved, be it a state or a generation, is taken
over whatever its root type is; then all trees return the root type of the run that loads if, and
only if, it is that of the run that saved. -/
theorem loaded_roots (hp : p.IsBuilt) (hpalette : target.palette = p) :
    (∀ bytes loaded, target.Loads bytes loaded → loaded.root = target.root ∧
      ∀ x ∈ loaded.population, x.tree.check p = .ok () ∧
        (x.tree.isEmpty = true ∨ ∃ type < p.types.count, x.tree.rootType? p = some type)) ∧
    (p.Portable → ∀ c start source, Run.new p c = .ok (.ok start) → Reached start source →
      source.population ≠ [] →
      (∀ bytes, source.Saves bytes → ∃ loaded, target.loadState bytes = .ok loaded ∧
        (loaded.Returns target.root ↔ source.root = target.root)) ∧
      ∀ bytes, source.SavesGeneration bytes → ∃ loaded, target.loadGeneration bytes = .ok loaded ∧
        (loaded.Returns target.root ↔ source.root = target.root)) := by
  constructor
  · intro bytes loaded hloads
    have hchecked : Yields (Tree.read target.palette) fun t => t.check p = .ok () :=
      hpalette ▸ (read_yields target.palette).mono fun _ ht => ht.2.1
    obtain ⟨hroot, htrees⟩ := hloads.forall_mem hchecked
    exact ⟨hroot, fun x hx => ⟨htrees x hx, root_of_check hp (htrees x hx)⟩⟩
  · intro hport c start source hnew hreached hsome
    have hinvariant := hreached.invariant hp hnew
    have htyped := hreached.isTyped hp hnew
    rw [hinvariant.root]
    constructor
    · intro bytes hsaves
      exact ⟨_, hsaves.loadState_eq hp hport htyped hpalette,
        hinvariant.returns_packed_iff hsome hpalette rfl⟩
    · intro bytes hsaves
      exact ⟨_, hsaves.loadGeneration_eq hp hport htyped hpalette,
        hinvariant.returns_packed_iff hsome hpalette rfl⟩

/-! ### Two runs with root types of their own -/

/-- Truth values and letters, without a root type. -/
def mixed : Palette Unit where
  types := ⟨[.bool, .uint8]⟩
  entries := [⟨coin, 0, []⟩, ⟨both, 0, [0, 0]⟩, ⟨SavedState.letter, 1, []⟩,
    ⟨SavedState.shift, 1, [1, 1]⟩]
  grounds := [0, 0]
  root := none

theorem isBuilt_mixed : mixed.IsBuilt :=
  ⟨[coin, both, SavedState.letter, SavedState.shift], none, rfl⟩

theorem portable_mixed : mixed.Portable := ⟨by decide, by decide, by decide⟩

/-- A run that breeds letters. -/
def spelling : Configuration := { lone with seed := 1 }

/-- A run that breeds truth values. -/
def deciding : Configuration := { lone with seed := 2 }

/-- A run that has planted letters, and one that was told to plant truth values. -/
theorem exists_foreign : ∃ start source target bytes, Run.new mixed spelling = .ok (.ok start) ∧
    Reached start source ∧ source.root = 1 ∧ source.population ≠ [] ∧ source.Saves bytes ∧
    Run.new mixed deciding = .ok (.ok target) ∧ target.root = 0 := by
  obtain ⟨start, s, hnew, hstep, htest⟩ : ∃ start s, Run.new mixed spelling = .ok (.ok start) ∧
      start.step smallness .empty = .ok s ∧
        (s.run.root = 1 && !s.run.population.isEmpty && s.run.isSavable) = true :=
    exists_of_trial (f := fun start => start.step smallness .empty) (by decide +kernel)
  obtain ⟨target, s', hnew', hstays, htest'⟩ : ∃ target s',
      Run.new mixed deciding = .ok (.ok target) ∧
      target.runFor smallness 0 .empty = .ok s' ∧ decide (s'.run.root = 0) = true :=
    exists_of_trial (f := fun start => runFor smallness 0 start .empty) (by decide +kernel)
  simp only [Bool.and_eq_true, decide_eq_true_eq, Bool.not_eq_true', List.isEmpty_eq_false_iff]
    at htest htest'
  obtain ⟨⟨hroot, hsome⟩, hsavable⟩ := htest
  injection hstays with hstays
  subst hstays
  exact ⟨start, s.run, target, _, hnew, .step .refl hstep, hroot, hsome,
    saves_of_isSavable hsavable, hnew', htest'⟩

/-- A run takes over trees of another type than its own, from a state and from a generation, and a
generation whose only tree is empty. -/
theorem foreign_loaded : ∃ start source target state generation empty : Run Unit,
    Run.new mixed spelling = .ok (.ok start) ∧ Reached start source ∧
    Run.new mixed deciding = .ok (.ok target) ∧
    (∃ bytes, source.Saves bytes ∧ target.loadState bytes = .ok state ∧
      ¬ state.Returns target.root) ∧
    (∃ bytes, source.SavesGeneration bytes ∧ target.loadGeneration bytes = .ok generation ∧
      ¬ generation.Returns target.root) ∧
    ∃ bytes, target.loadGeneration bytes = .ok empty ∧
      ∃ x ∈ empty.population, x.tree.isEmpty = true := by
  obtain ⟨start, source, target, bytes, hnew, hreached, hroot, hsome, hsaves, hnew', hroot'⟩ :=
    exists_foreign
  have hinvariant := hreached.invariant isBuilt_mixed hnew
  have htyped := hreached.isTyped isBuilt_mixed hnew
  have hpalette := (IsTyped.of_new isBuilt_mixed hnew').palette
  have hforeign : ∀ loaded : Run Unit, loaded.palette = mixed →
      loaded.population = source.population.map Individual.packed →
        ¬ loaded.Returns target.root := by
    intro loaded hkept hpop hreturns
    have hsame := (hinvariant.returns_packed_iff hsome hkept hpop).1 hreturns
    rw [← hinvariant.root, hroot, hroot'] at hsame
    contradiction
  have hgeneration := hsaves.savesGeneration
  have hstate := hsaves.loadState_eq isBuilt_mixed portable_mixed htyped hpalette
  have htaken := hgeneration.loadGeneration_eq isBuilt_mixed portable_mixed htyped hpalette
  have hempty : target.loadGeneration (Bytes.ofList Individual.toBytes [.ofTree .empty]) = _ :=
    loadGeneration_toBytes isBuilt_mixed portable_mixed
      (List.forall_mem_singleton.2 (.empty mixed)) (by decide) hpalette
  refine ⟨start, source, target, _, _, _, hnew, hreached, hnew', ⟨bytes, hsaves, hstate, ?_⟩,
    ⟨_, hgeneration, htaken, ?_⟩, _, hempty, ?_⟩
  · exact hforeign _ hpalette rfl
  · exact hforeign _ hpalette rfl
  · exact ⟨_, List.mem_singleton_self _, rfl⟩

theorem loaded_roots_mixed : mixed.IsBuilt ∧
    ∃ (start source target loaded : Run Unit) (bytes : Bytes),
    Run.new mixed spelling = .ok (.ok start) ∧ Reached start source ∧ source.population ≠ [] ∧
    source.Saves bytes ∧ target.palette = mixed ∧ source.root ≠ target.root ∧
    target.loadState bytes = .ok loaded ∧ loaded.root = target.root ∧
    (loaded.Returns target.root ↔ source.root = target.root) ∧
    ∀ x ∈ loaded.population, x.tree.isEmpty = true ∨
      ∃ type < mixed.types.count, x.tree.rootType? mixed = some type := by
  obtain ⟨start, source, target, bytes, hnew, hreached, hroot, hsome, hsaves, hnew', hroot'⟩ :=
    exists_foreign
  have hpalette := (IsTyped.of_new isBuilt_mixed hnew').palette
  obtain ⟨hany, hsaved⟩ := loaded_roots isBuilt_mixed hpalette
  obtain ⟨hstate, -⟩ := hsaved portable_mixed _ _ _ hnew hreached hsome
  obtain ⟨loaded, hload, hreturns⟩ := hstate bytes hsaves
  obtain ⟨hkept, htrees⟩ := hany bytes loaded (.state hload)
  refine ⟨isBuilt_mixed, start, source, target, loaded, bytes, hnew, hreached, hsome, hsaves,
    hpalette, ?_, hload, hkept, hreturns, fun x hx => (htrees x hx).2⟩
  rw [hroot, hroot']
  decide

end Run

end GeneticProgramming
