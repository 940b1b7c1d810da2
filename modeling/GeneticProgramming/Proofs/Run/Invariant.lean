import GeneticProgramming.Proofs.Run.Steps
import GeneticProgramming.Proofs.Variation.Edits

/-!
# What runs keep

A run of any length, with any fitness functions, breeds populations of the configured size whose
trees are well-typed, return the root type and are no deeper than the greatest depth, or than the
ground of the root type if that lies deeper: `Run.population_sound`.
-/

namespace GeneticProgramming

open GeneticProgramming.Tree

variable {C : Type} {p : Palette C}

/-! ## Configurations and root types -/

/-- What a valid configuration promises of its sizes and depths. -/
structure Configuration.Valid (c : Configuration) : Prop where
  populated : 0 < c.populationSize
  elites : c.elites ≤ c.populationSize
  window : c.initialDepth.least ≤ c.initialDepth.most
  depth : c.initialDepth.most ≤ c.maxTreeDepth

theorem Configuration.le_of_checkWindow {least most : Nat} (h : checkWindow least most = .ok ()) :
    least ≤ most := by
  unfold checkWindow at h
  split at h
  · contradiction
  · omega

theorem Configuration.valid_of_validate {c : Configuration} (h : c.validate = .ok ()) :
    c.Valid := by
  unfold validate at h
  obtain ⟨hpopulated, h⟩ := past_of_eq_ok h
  obtain ⟨helites, h⟩ := past_of_eq_ok h
  obtain ⟨-, h⟩ := past_of_eq_ok h
  obtain ⟨_, hwindow, h⟩ := exists_of_bind_eq_ok h
  obtain ⟨_, hdepth, -⟩ := exists_of_bind_eq_ok h
  exact ⟨Nat.pos_of_ne_zero hpopulated, Nat.le_of_not_lt helites, le_of_checkWindow hwindow,
    le_of_checkWindow hdepth⟩

namespace Palette

theorem IsBuilt.root_lt (hp : p.IsBuilt) {root : TypeId} (hroot : p.root = some root) :
    root < p.types.count := by
  obtain ⟨_, type, -, -, -, h⟩ := hp.steps
  rw [hroot] at h
  unfold findRoot at h
  split at h
  · injection h with h
    contradiction
  · split at h
    · next id hid =>
      split at h
      · injection h with h
        injection h with h
        subst h
        exact (List.findIdx?_eq_some_iff_getElem.1 hid).1
      · contradiction
    · contradiction

theorem pickRootType_yields (hp : p.IsBuilt) :
    Yields p.pickRootType fun x => ∀ root, x = .ok root → root < p.types.count := by
  have hmem : ∀ {test : TypeId → Bool} {root : TypeId},
      root ∈ (List.range p.types.count).filter test → root < p.types.count :=
    fun h => List.mem_range.1 (List.mem_filter.1 h).1
  unfold pickRootType
  cases hroot : p.root with
  | some root =>
    refine Yields.pure fun root' h => ?_
    injection h with h
    exact h ▸ hp.root_lt hroot
  | none =>
    refine Yields.bind (Draw.element_yields _) fun found hfound => ?_
    cases found with
    | some root =>
      refine Yields.pure fun root' h => ?_
      injection h with h
      exact h ▸ hmem hfound
    | none =>
      refine Yields.bind (Draw.element_yields _) fun found hfound => ?_
      cases found with
      | some root =>
        refine Yields.pure fun root' h => ?_
        injection h with h
        exact h ▸ hmem hfound
      | none => exact Yields.pure fun root' h => nomatch h

end Palette

/-! ## Planting -/

theorem Initializer.shape_le {kind : Initializer} {w : DepthWindow} {slot depth : Nat}
    {grown : Bool} (h : kind.shape w slot = .ok (depth, grown)) (hw : w.least ≤ w.most) :
    depth ≤ w.most := by
  obtain ⟨span, hspan, h⟩ := exists_of_bind_eq_ok h
  injection h with h
  have hspan : span = w.most - w.least + 1 := by
    unfold demandWord at hspan
    split at hspan
    · injection hspan with hspan
      exact hspan.symm
    · contradiction
  cases kind with
  | rampedHalfHalf =>
    injection h with hdepth
    have hlt := Nat.mod_lt slot (show 0 < span by omega)
    omega
  | _ =>
    injection h with hdepth
    exact Nat.le_of_eq hdepth.symm

/-- A well-typed tree no deeper than `n`, or than the ground of its type. -/
structure Tree.Fine (p : Palette C) (n : Nat) (type : TypeId) (t : Tree) : Prop where
  proper : t.Proper p type
  depth : t.depth p ≤ max n (p.ground type)

theorem Tree.Fine.duplicate {n : Nat} {type : TypeId} {t : Tree} (h : t.Fine p n type) :
    t.duplicate.Fine p n type :=
  ⟨h.proper.duplicate, h.depth⟩

theorem Tree.Proper.fine {n : Nat} {type : TypeId} {t : Tree} (h : t.Proper p type)
    (hn : t.depth p ≤ n) : t.Fine p n type :=
  ⟨h, Nat.le_trans hn (Nat.le_max_left _ _)⟩

theorem Initializer.plant_yields (hp : p.IsBuilt) (kind : Initializer) (slot : Nat) {type : TypeId}
    (htype : type < p.types.count) {w : DepthWindow} (hw : w.least ≤ w.most) (chance : Double) :
    Attempt.Yields (kind.plant p slot type w chance) (Tree.Fine p w.most type) fun _ => False := by
  refine Attempt.Yields.bind (Attempt.Yields.lift fun shape hshape => hshape) fun shape hshape => ?_
  obtain ⟨depth, grown⟩ := shape
  have hle := shape_le hshape hw
  refine (Generator.extend_yields hp _ ⟨min w.least depth, depth⟩ htype .empty).mono
    (fun t ht => ?_) fun _ h => h
  have hproper : t.Proper p type := AppendsTypes.proper (ht.mono fun rs hrs => hrs.spells)
  obtain ⟨-, rs, hrs, hreaches⟩ := ht
  have hrecords : t.records = rs := hrs
  refine ⟨hproper, Nat.le_trans (depth_le_iff.2 fun d hd => ?_)
    (Nat.max_le.2 ⟨Nat.le_trans hle (Nat.le_max_left _ _), Nat.le_max_right _ _⟩)⟩
  rw [hrecords] at hd
  obtain ⟨_, hd⟩ := hreaches.rule d hd
  exact hd

namespace Run

variable {r r' : Run C} {t u : Tree} {c : Configuration}

/-- The trees that a run of a configuration may hold. -/
abbrev Allows (p : Palette C) (c : Configuration) (root : TypeId) (t : Tree) : Prop :=
  t.Fine p c.maxTreeDepth root

/-- Enough such trees for a generation. -/
structure Whole (p : Palette C) (c : Configuration) (root : TypeId) (pop : Population) : Prop where
  size : pop.length = c.populationSize
  allowed : ∀ x ∈ pop, Allows p c root x.tree

theorem plant_allowed (hp : r.palette.IsBuilt) (hvalid : r.configuration.Valid)
    (hroot : r.root < r.palette.types.count) {slot : Nat} (h : r.plant slot = .ok (.ok t)) :
    Allows r.palette r.configuration r.root t := by
  obtain ⟨out, hout, h⟩ := exists_of_bind_eq_ok h
  injection h with h
  obtain ⟨result, g⟩ := out
  dsimp only at h
  subst h
  have hfine : t.Fine r.palette r.configuration.initialDepth.most r.root :=
    Initializer.plant_yields hp _ slot hroot hvalid.window _ _ _ _ hout
  exact ⟨hfine.proper, Nat.le_trans hfine.depth (Nat.max_le.2
    ⟨Nat.le_trans hvalid.depth (Nat.le_max_left _ _), Nat.le_max_right _ _⟩)⟩

theorem plantAll_whole (hp : r.palette.IsBuilt) (hvalid : r.configuration.Valid)
    (hroot : r.root < r.palette.types.count) {r' : Run C} (h : r.plantAll = .ok (.ok r')) :
    Whole r.palette r.configuration r.root r'.population := by
  obtain ⟨results, hresults, h⟩ := exists_of_bind_eq_ok h
  obtain ⟨hlen, hplanted⟩ := mapM_eq_ok hresults
  split at h
  · injection h with h
    contradiction
  · next trees htrees =>
    obtain ⟨hlen', hgood⟩ := mapM_eq_ok htrees
    injection h with h
    injection h with h
    subst h
    refine ⟨?_, fun x hx => ?_⟩
    · simp only [List.length_map, hlen', hlen, List.length_range]
    · obtain ⟨t, ht, rfl⟩ := List.mem_map.1 hx
      obtain ⟨result, hresult, heq⟩ := hgood t ht
      obtain ⟨slot, -, hslot⟩ := hplanted result hresult
      exact plant_allowed hp hvalid hroot (by rw [hslot]; exact congrArg _ heq)

/-! ## Scoring -/

/-- What is true of the trees of a population is true of them whatever their scores are. -/
theorem forall_of_map_tree {Q : Tree → Prop} {pop pop' : Population} (h : ∀ x ∈ pop, Q x.tree)
    (htrees : pop'.map Individual.tree = pop.map Individual.tree) : ∀ x ∈ pop', Q x.tree := by
  intro x hx
  have hmem : x.tree ∈ pop.map Individual.tree := htrees ▸ List.mem_map_of_mem hx
  obtain ⟨y, hy, heq⟩ := List.mem_map.1 hmem
  exact heq ▸ h y hy

theorem Whole.of_map_tree {root : TypeId} {pop pop' : Population} (h : Whole p c root pop)
    (htrees : pop'.map Individual.tree = pop.map Individual.tree) : Whole p c root pop' := by
  have hlen := congrArg List.length htrees
  rw [List.length_map, List.length_map] at hlen
  exact ⟨hlen.trans h.size, forall_of_map_tree h.allowed htrees⟩

/-! ## Breeding -/

/-- The trees that a run may hold. -/
abbrev Permits (r : Run C) (t : Tree) : Prop := Allows r.palette r.configuration r.root t

section Fine

variable {n : Nat} {type other : TypeId}

/-- A child that is too deep gives way to its parent, which is of the same type. -/
theorem capped_fine (hn : r.configuration.maxTreeDepth ≤ n) (hchild : t.Proper r.palette type)
    (hparent : u.Fine r.palette n type) : (r.capped t u).Fine r.palette n type := by
  unfold capped
  split
  · exact hparent.duplicate
  · next hdepth => exact hchild.fine (Nat.le_trans (Nat.le_of_not_lt hdepth) hn)

theorem mutant_yields (hp : r.palette.IsBuilt) (hn : r.configuration.maxTreeDepth ≤ n)
    (ht : t.Fine r.palette n type) : Yields (r.mutant t) (Tree.Fine r.palette n type) := by
  refine Yields.bind (Mutation.apply_yields hp _ ht.proper.duplicate) fun result hresult => ?_
  cases result with
  | ok child => exact Yields.pure (capped_fine hn hresult ht)
  | error e => exact Yields.pure ht.duplicate

/-- Each child is of the type of the parent in its place. -/
theorem cross_yields (hp : r.palette.IsBuilt) (hn : r.configuration.maxTreeDepth ≤ n)
    (ht : t.Fine r.palette n type) (hu : u.Fine r.palette n other) :
    Yields (r.cross t u) fun out => out.1.Fine r.palette n type ∧ out.2.Fine r.palette n other := by
  refine Yields.bind (Crossover.apply_yields hp _ ht.proper hu.proper) fun result hresult => ?_
  cases result with
  | ok out =>
    exact Yields.pure ⟨capped_fine hn hresult.1 ht, capped_fine hn hresult.2 hu⟩
  | error e =>
    refine Yields.ite (fun _ => ?_) fun _ => Yields.pure ⟨ht.duplicate, hu.duplicate⟩
    refine Yields.bind (mutant_yields hp hn ht) fun left hleft => ?_
    exact Yields.bind (mutant_yields hp hn hu) fun right hright => Yields.pure ⟨hleft, hright⟩

end Fine

/-- A property of trees that their copies, mutants and crosses inherit. -/
structure Inherits (r : Run C) (Q : Tree → Prop) : Prop where
  duplicate : ∀ {t : Tree}, Q t → Q t.duplicate
  mutant : ∀ {t : Tree}, Q t → Yields (r.mutant t) Q
  cross : ∀ {t u : Tree}, Q t → Q u → Yields (r.cross t u) fun out => Q out.1 ∧ Q out.2

theorem inherits_permits (hp : r.palette.IsBuilt) : r.Inherits r.Permits where
  duplicate ht := ht.duplicate
  mutant ht := mutant_yields hp (Nat.le_refl _) ht
  cross ht hu := cross_yields hp (Nat.le_refl _) ht hu

section Inherits

variable {Q : Tree → Prop}

theorem pickPair_yields (hpop : ∀ x ∈ r.population, Q x.tree) (s : Selector) :
    Yields (r.pickPair s) fun out => Q out.1.1 ∧ Q out.1.2 := by
  have hpick : ∀ s : Selector, Yields (s.pickTree r.population) fun out => Q out.1 := by
    intro s
    refine Yields.bind (Yields.trivial _) fun picked _ => ?_
    refine Yields.bind (Yields.lift fun x hx => eq_of_demand hx) fun x hx => ?_
    exact Yields.pure (hpop x (List.mem_of_getElem? hx))
  refine Yields.bind (hpick s) fun first hfirst => ?_
  exact Yields.bind (hpick first.2) fun second hsecond => Yields.pure ⟨hfirst, hsecond⟩

/-- Whatever is done to the parents, two trees come of it that are like them. -/
theorem vary_yields (hq : r.Inherits Q) (hpop : ∀ x ∈ r.population, Q x.tree)
    (s : Selectors) : Yields (r.vary s) fun out => Q out.1.1 ∧ Q out.1.2 := by
  refine Yields.bind (Yields.trivial _) fun choice _ => ?_
  split
  · refine Yields.bind (pickPair_yields hpop _) fun picked hpicked => ?_
    exact Yields.bind (hq.cross hpicked.1 hpicked.2) fun out hout => Yields.pure hout
  · refine Yields.bind (pickPair_yields hpop _) fun picked hpicked => ?_
    refine Yields.bind (hq.mutant hpicked.1) fun left hleft => ?_
    exact Yields.bind (hq.mutant hpicked.2) fun right hright => Yields.pure ⟨hleft, hright⟩
  · refine Yields.bind (pickPair_yields hpop _) fun picked hpicked => ?_
    exact Yields.pure ⟨hq.duplicate hpicked.1, hq.duplicate hpicked.2⟩

theorem offspring_inherit (hq : r.Inherits Q) (hpop : ∀ x ∈ r.population, Q x.tree)
    {slot count : Nat} {s s' : Selectors} {trees : List Tree}
    (h : r.offspring slot count s = .ok (trees, s')) :
    trees.length = 2 * count ∧ ∀ t ∈ trees, Q t := by
  induction count generalizing slot s s' trees with
  | zero =>
    injection h with h
    injection h with h
    subst h
    exact ⟨rfl, fun t ht => absurd ht List.not_mem_nil⟩
  | succ count ih =>
    obtain ⟨⟨⟨⟨t, u⟩, next⟩, g⟩, hvary, h⟩ := exists_of_bind_eq_ok h
    obtain ⟨⟨rest, last⟩, hrest, h⟩ := exists_of_bind_eq_ok h
    injection h with h
    injection h with h
    subst h
    obtain ⟨ht, hu⟩ := vary_yields hq hpop s _ _ _ hvary
    obtain ⟨hlen, hall⟩ := ih hrest
    refine ⟨by rw [List.length_cons, List.length_cons, hlen]; omega, ?_⟩
    exact List.forall_mem_cons.2 ⟨ht, List.forall_mem_cons.2 ⟨hu, hall⟩⟩

theorem bestIndividuals_mem {pop : Population} {n : Nat} {x : Individual}
    (h : x ∈ pop.bestIndividuals n) : x ∈ pop := by
  obtain ⟨i, -, hi⟩ := List.mem_filterMap.1 h
  exact List.mem_of_getElem? hi

theorem length_bestIndividuals_le (pop : Population) (n : Nat) :
    (pop.bestIndividuals n).length ≤ n :=
  Nat.le_trans (List.length_filterMap_le _ _) (List.length_take_le _ _)

/-- The next generation is of the configured size, and its trees are like the current ones. -/
theorem breed_inherits (hq : r.Inherits Q) (hpop : ∀ x ∈ r.population, Q x.tree)
    (helites : r.configuration.elites ≤ r.configuration.populationSize) {r' : Run C}
    (h : r.breed = .ok (.ok r')) :
    r'.next.length = r.configuration.populationSize ∧ ∀ x ∈ r'.next, Q x.tree := by
  rw [breed_eq, breedWith_eq_ok_iff] at h
  obtain ⟨_, _, children, _, -, -, hchildren, rfl⟩ := h
  obtain ⟨hlen, hall⟩ := offspring_inherit hq hpop hchildren
  have hbest : r.elites.length ≤ r.configuration.elites :=
    Nat.le_trans (Nat.le_of_eq (List.length_map _)) (length_bestIndividuals_le _ _)
  refine ⟨?_, fun x hx => ?_⟩
  · rw [pairs] at hlen
    simp only [litter, List.length_map, List.length_append, List.length_take, hlen]
    omega
  · obtain ⟨t, ht, rfl⟩ := List.mem_map.1 hx
    rcases List.mem_append.1 ht with ht | ht
    · obtain ⟨y, hy, rfl⟩ := List.mem_map.1 ht
      exact hq.duplicate (hpop y (bestIndividuals_mem hy))
    · exact hall t (List.mem_of_mem_take ht)

end Inherits

/-- A whole population breeds a whole population. -/
theorem breed_whole (hp : r.palette.IsBuilt) (hvalid : r.configuration.Valid)
    (hpop : ∀ x ∈ r.population, r.Permits x.tree) {r' : Run C} (h : r.breed = .ok (.ok r')) :
    Whole r.palette r.configuration r.root r'.next := by
  obtain ⟨hsize, hallowed⟩ := breed_inherits (inherits_permits hp) hpop hvalid.elites h
  exact ⟨hsize, hallowed⟩

/-! ## Stepping -/

/-- Runs that come of another one in any number of steps, with any fitness functions; between the
steps they may be asked to stop, or to write other files. -/
inductive Reached (start : Run C) : Run C → Prop where
  | refl : Reached start start
  | step {r : Run C} {objective : Objective C} {files : Files} {s : Stepped C} :
      Reached start r → r.step objective files = .ok s → Reached start s.run
  | stop {r : Run C} (stopRequested : Bool) :
      Reached start r → Reached start { r with stopRequested }
  | sync {r : Run C} (sync : Option Sync) : Reached start r → Reached start { r with sync }

/-- Whatever steps a run takes by itself, it is reached. -/
theorem Reached.runFor {start : Run C} (h : Reached start r) {objective : Objective C}
    {steps : Nat} {files : Files} {s : Stepped C} (hs : r.runFor objective steps files = .ok s) :
    Reached start s.run :=
  runFor_induction .step h hs

/-- What holds between any two steps: until a population is planted there is none. -/
structure Invariant (p : Palette C) (c : Configuration) (type : TypeId) (r : Run C) : Prop where
  palette : r.palette = p
  configuration : r.configuration = c
  root : r.root = type
  population : r.population = [] ∧ (r.phase = .initial ∨ r.phase = .terminate) ∨
    Whole p c type r.population
  next : r.phase = .swap → Whole p c type r.next

variable {root : TypeId}

theorem Invariant.of_whole (hpalette : r.palette = p) (hconfiguration : r.configuration = c)
    (hroot : r.root = root) (hpop : Whole p c root r.population) (hnext : r.phase ≠ .swap) :
    Invariant p c root r :=
  ⟨hpalette, hconfiguration, hroot, .inr hpop, fun h => absurd h hnext⟩

/-- A run before its first step. -/
abbrev fresh (p : Palette C) (c : Configuration) (root : TypeId) (variation : Weights) : Run C where
  palette := p
  configuration := c
  root
  variation
  selectors := .ofConfiguration c
  population := []
  next := []
  stats := .zero
  history := []
  generation := 0
  phase := .initial
  solved := false
  stopRequested := false
  sync := none

theorem new_eq_ok (h : Run.new p c = .ok (.ok r)) : c.validate = .ok () ∧
    ∃ root variation g, p.pickRootType.run (.ofSeed c.seed) = .ok (.ok root, g) ∧
      r = fresh p c root variation := by
  unfold Run.new at h
  split at h
  · injection h with h
    contradiction
  · next hno =>
    have hvalidate : c.validate = .ok () := by
      cases hvalidate : c.validate with
      | ok u => rfl
      | error e => exact absurd hvalidate (hno e)
    obtain ⟨⟨result, g⟩, hpick, h⟩ := exists_of_bind_eq_ok h
    cases result with
    | error e =>
      injection h with h
      contradiction
    | ok root =>
      obtain ⟨variation, -, h⟩ := exists_of_bind_eq_ok h
      cases variation with
      | none =>
        injection h with h
        contradiction
      | some variation =>
        injection h with h
        injection h with h
        exact ⟨hvalidate, root, variation, g, hpick, h.symm⟩

theorem Invariant.whole (h : Invariant p c root r) (hinitial : r.phase ≠ .initial)
    (hterminate : r.phase ≠ .terminate) : Whole p c root r.population :=
  h.population.resolve_left fun hempty => hempty.2.elim hinitial hterminate

theorem invariant_of_new (hp : p.IsBuilt) (h : Run.new p c = .ok (.ok r)) :
    c.Valid ∧ r.root < p.types.count ∧ Invariant p c r.root r := by
  obtain ⟨hvalidate, root, variation, g, hpick, rfl⟩ := new_eq_ok h
  have hroot := Palette.pickRootType_yields hp _ _ _ hpick
  exact ⟨Configuration.valid_of_validate hvalidate, hroot root rfl, rfl, rfl, rfl,
    .inl ⟨rfl, .inl rfl⟩, nofun⟩

theorem Whole.ne_nil {pop : Population} (hvalid : c.Valid)
    (h : Whole p c root pop) : pop ≠ [] := by
  intro hnil
  have hsize := h.size
  rw [hnil, List.length_nil] at hsize
  exact Nat.lt_irrefl 0 (hsize ▸ hvalid.populated)

theorem Invariant.of_becomes (hp : p.IsBuilt) (hvalid : c.Valid) (hknown : root < p.types.count)
    (h : Invariant p c root r) {objective : Objective C} (hbecomes : r.Becomes objective r') :
    Invariant p c root r' ∧ (r.population ≠ [] → r'.population ≠ []) := by
  obtain ⟨rfl, rfl, rfl, hpop, hnext⟩ := h
  have hsame : Invariant r.palette r.configuration r.root r := ⟨rfl, rfl, rfl, hpop, hnext⟩
  unfold Becomes at hbecomes
  cases hphase : r.phase with
  | initial =>
    rw [hphase] at hbecomes
    obtain ⟨hplant, population, rfl⟩ := hbecomes
    have hplanted := plantAll_whole hp hvalid hknown hplant
    exact ⟨.of_whole rfl rfl rfl hplanted nofun, fun _ => hplanted.ne_nil hvalid⟩
  | evaluate =>
    rw [hphase] at hbecomes
    obtain ⟨population, solved, hscore, rfl⟩ := hbecomes
    have hpop := hsame.whole (by rw [hphase]; nofun) (by rw [hphase]; nofun)
    have hscored := hpop.of_map_tree (map_tree_scoreFrom hscore)
    exact ⟨.of_whole rfl rfl rfl hscored nofun, fun _ => hscored.ne_nil hvalid⟩
  | report =>
    rw [hphase] at hbecomes
    subst hbecomes
    have hpop := hsame.whole (by rw [hphase]; nofun) (by rw [hphase]; nofun)
    refine ⟨.of_whole rfl rfl rfl hpop ?_, id⟩
    dsimp only
    split <;> nofun
  | selectAndVary =>
    rw [hphase] at hbecomes
    obtain ⟨selectors, next, hbreed, -, rfl⟩ := hbecomes
    have hpop := hsame.whole (by rw [hphase]; nofun) (by rw [hphase]; nofun)
    have hbred := breed_whole hp hvalid hpop.allowed hbreed
    exact ⟨⟨rfl, rfl, rfl, .inr hpop, fun _ => hbred⟩, id⟩
  | swap =>
    rw [hphase] at hbecomes
    subst hbecomes
    have hbred := hnext hphase
    exact ⟨.of_whole rfl rfl rfl hbred nofun, fun _ => hbred.ne_nil hvalid⟩
  | terminate =>
    rw [hphase] at hbecomes
    subst hbecomes
    exact ⟨hsame, id⟩

/-- A failure leaves the trees as they were. -/
theorem Invariant.of_leaves (h : Invariant p c root r) (hleaves : r.Leaves r') :
    Invariant p c root r' ∧ (r.population ≠ [] → r'.population ≠ []) := by
  obtain ⟨population, htrees, rfl⟩ := hleaves.eq_with
  refine ⟨⟨h.palette, h.configuration, h.root, ?_, h.next⟩, fun hne hnil => hne ?_⟩
  · rcases h.population with ⟨hempty, hphase⟩ | hwhole
    · rw [hempty] at htrees
      exact .inl ⟨List.map_eq_nil_iff.1 htrees, hphase⟩
    · exact .inr (hwhole.of_map_tree htrees)
  · have hnil : population = [] := hnil
    rw [hnil] at htrees
    exact List.map_eq_nil_iff.1 htrees.symm

theorem Invariant.step (hp : p.IsBuilt) (hvalid : c.Valid) (hknown : root < p.types.count)
    (h : Invariant p c root r) {objective : Objective C} {files : Files} {s : Stepped C}
    (hs : r.step objective files = .ok s) :
    Invariant p c root s.run ∧ (r.population ≠ [] → s.run.population ≠ []) := by
  rcases step_cases hs with ⟨-, hrun | hbecomes⟩ | ⟨-, hleaves⟩
  · rw [hrun]
    exact ⟨⟨h.palette, h.configuration, h.root,
      h.population.imp_left fun hempty => ⟨hempty.1, .inr rfl⟩, nofun⟩, id⟩
  · exact h.of_becomes hp hvalid hknown hbecomes
  · exact h.of_leaves hleaves

theorem Reached.invariant {start : Run C} (hp : p.IsBuilt) (hnew : Run.new p c = .ok (.ok start))
    (h : Reached start r) : Invariant p c start.root r := by
  obtain ⟨hvalid, hknown, hstart⟩ := invariant_of_new hp hnew
  induction h with
  | refl => exact hstart
  | step _ hs ih => exact (ih.step hp hvalid hknown hs).1
  | stop _ _ ih => exact ⟨ih.palette, ih.configuration, ih.root, ih.population, ih.next⟩
  | sync _ _ ih => exact ⟨ih.palette, ih.configuration, ih.root, ih.population, ih.next⟩

/-- Before a population is planted there is none; from then on there always is one of the configured
size.  All its trees pass the check, return the root type and keep to the greatest depth, or to the
ground of the root type where that lies deeper. -/
theorem population_sound {start : Run C} (hp : p.IsBuilt) (hnew : Run.new p c = .ok (.ok start))
    (h : Reached start r) :
    (r.population = [] ∧ (r.phase = .initial ∨ r.phase = .terminate) ∨
        r.population ≠ [] ∧ r.population.length = c.populationSize) ∧
      (∀ x ∈ r.population, x.tree.check p = .ok () ∧ x.tree.isEmpty = false ∧
        x.tree.rootType? p = some start.root ∧
        x.tree.depth p ≤ max c.maxTreeDepth (p.ground start.root)) ∧
      ∀ objective files s, r.step objective files = .ok s → r.population ≠ [] →
        s.run.population ≠ [] := by
  obtain ⟨hvalid, hknown, -⟩ := invariant_of_new hp hnew
  have hinvariant := h.invariant hp hnew
  refine ⟨?_, fun x hx => ?_, fun objective files s hs hne => ?_⟩
  · exact hinvariant.population.imp_right fun hwhole => ⟨hwhole.ne_nil hvalid, hwhole.size⟩
  · rcases hinvariant.population with ⟨hempty, -⟩ | hwhole
    · rw [hempty] at hx
      exact absurd hx List.not_mem_nil
    · obtain ⟨hproper, hdepth⟩ := hwhole.allowed x hx
      exact ⟨hproper.check, hproper.isEmpty, rootType?_eq hproper.spells, hdepth⟩
  · exact (hinvariant.step hp hvalid hknown hs).2 hne

/-! ### A run of one individual -/

def coin : Operator Unit := ⟨none, .literal .bool (return (← Draw.word) % 2 = 0)⟩

def both : Operator Unit := ⟨some "both", .compute [.bool, .bool] .bool fun (x, y, _) => x && y⟩

def coins : Palette Unit := ⟨⟨[.bool]⟩, [⟨coin, 0, []⟩, ⟨both, 0, [0, 0]⟩], [0], none⟩

def lone : Configuration :=
  { Configuration.standard with populationSize := 1, elites := 0, maxGenerations := 1 }

/-- Small trees are fit, and none is small enough. -/
def smallness : Objective Unit := fun _ t _ =>
  .ok (.ok ⟨{ Fitness.unscored with standardized := .ofNat t.size }, false⟩)

theorem isBuilt_coins : coins.IsBuilt := ⟨[coin, both], none, rfl⟩

/-- What comes of a fresh run, where nothing faults. -/
def trial? (p : Palette C) (c : Configuration) (f : Run C → Except Fault (Stepped C)) :
    Option (Stepped C) := do
  (f (← (← (Run.new p c).toOption).toOption)).toOption

theorem exists_of_trial {f : Run C → Except Fault (Stepped C)} {test : Stepped C → Bool}
    (h : (trial? p c f).any test = true) :
    ∃ start s, Run.new p c = .ok (.ok start) ∧ f start = .ok s ∧ test s = true := by
  unfold trial? at h
  cases hnew : Run.new p c with
  | error e => simp [hnew, Except.toOption] at h
  | ok result =>
    cases result with
    | error e => simp [hnew, Except.toOption] at h
    | ok start =>
      cases hf : f start with
      | error e => simp [hnew, hf, Except.toOption] at h
      | ok s =>
        refine ⟨start, s, rfl, hf, ?_⟩
        simpa [hnew, hf, Except.toOption] using h

theorem exists_lonely : ∃ start s, Run.new coins lone = .ok (.ok start) ∧
    start.finish smallness .empty = .ok s ∧ (!s.run.population.isEmpty) = true :=
  exists_of_trial (by decide +kernel)

theorem population_sound_coins : coins.IsBuilt ∧ ∃ start r, Run.new coins lone = .ok (.ok start) ∧
    Reached start r ∧
    (r.population = [] ∧ (r.phase = .initial ∨ r.phase = .terminate) ∨
        r.population ≠ [] ∧ r.population.length = lone.populationSize) ∧
      (∀ x ∈ r.population, x.tree.check coins = .ok () ∧ x.tree.isEmpty = false ∧
        x.tree.rootType? coins = some start.root ∧
        x.tree.depth coins ≤ max lone.maxTreeDepth (coins.ground start.root)) ∧
      (∀ objective files s, r.step objective files = .ok s → r.population ≠ [] →
        s.run.population ≠ []) ∧ r.population ≠ [] := by
  obtain ⟨start, s, hnew, hfinish, hsome⟩ := exists_lonely
  have hne : s.run.population ≠ [] := by simpa using hsome
  have hreached : Reached start s.run := Reached.refl.runFor hfinish
  obtain ⟨hsize, hsound, hstays⟩ := population_sound isBuilt_coins hnew hreached
  exact ⟨isBuilt_coins, start, s.run, hnew, hreached, hsize, hsound, hstays, hne⟩

end Run

end GeneticProgramming
