import GeneticProgramming.Proofs.Population.Picking
import GeneticProgramming.Proofs.Run.Crew
import GeneticProgramming.Proofs.Run.Invariant
import GeneticProgramming.Proofs.Variation.Offspring

/-!
# Runs that resolve

A configuration may be valid and hold numbers that no random draw can work with: weights whose sum
is infinite, a chance that is no number, or sizes that fit no machine word.  Each of them is used in
one phase, and `Configuration.Sane` says which.  A run is made of a valid configuration or refused if
the weights have a finite sum; and from any run that is reached, each step of a phase whose numbers
are sane has a result, which is a failure only if the fitness function failed, or ends in the fault
of a literal's own draw: `Run.resolves_of_validate`.
-/

namespace GeneticProgramming

open GeneticProgramming.Tree

variable {C : Type} {p : Palette C} {c : Configuration}

/-! ## What a phase asks of a configuration -/

/-- The number of depths of a window. -/
def DepthWindow.span (w : DepthWindow) : Nat := w.most - w.least + 1

namespace Configuration

/-- The sum of the weights of crossover, mutation and reproduction. -/
def total (c : Configuration) : Double :=
  c.crossoverChance + c.mutationChance + c.reproductionChance

/-- The sizes that a phase uses fit the machine, and the chances that it draws with are numbers. -/
def Sane (c : Configuration) : Phase → Prop
  | .initial =>
    c.initialDepth.span < 2 ^ 64 ∧ (c.initializer = .full ∨ c.growTerminalChance.isNaN = false)
  | .selectAndVary =>
    Run.individualSize * c.populationSize < 2 ^ 63 ∧ c.crossover.Usable ∧ c.mutation.Usable
  | _ => True

/-- A valid configuration has weights that are not negative. -/
theorem le_of_mem_chances (h : c.validate = .ok ()) {w : Double} (hw : w ∈ c.chances) :
    Double.zero.le w = true := by
  unfold validate at h
  obtain ⟨-, h⟩ := past_of_eq_ok h
  obtain ⟨-, h⟩ := past_of_eq_ok h
  obtain ⟨hgood, -⟩ := past_of_eq_ok h
  rw [Bool.or_eq_true, not_or, List.any_eq_true] at hgood
  have hw' : (!w.isFinite || w.lt .zero) = false := by
    by_contra hnot
    exact hgood.1 ⟨w, hw, by rwa [Bool.not_eq_false] at hnot⟩
  rw [Bool.or_eq_false_iff, Bool.not_eq_false'] at hw'
  exact Double.zero_le_of_not_lt hw'.1 hw'.2

end Configuration

/-! ## What is drawn on the way -/

theorem Palette.pickRootType_faults (p : Palette C) (F : Fault → Prop) :
    Draw.FaultsOnly p.pickRootType F := by
  unfold pickRootType
  cases p.root with
  | some root => exact .pure _
  | none =>
    refine .andThen (Draw.element_faults _) fun found => ?_
    cases found with
    | some root => exact .pure _
    | none =>
      refine .andThen (Draw.element_faults _) fun found => ?_
      cases found with
      | some root => exact .pure _
      | none => exact .pure _

namespace Initializer

variable {kind : Initializer} {w : DepthWindow} {type : TypeId} {chance : Double}

theorem exists_shape (hspan : w.span < 2 ^ 64) (kind : Initializer) (slot : Nat) :
    ∃ depth grown, kind.shape w slot = .ok (depth, grown) ∧ (grown = true → kind ≠ .full) := by
  unfold shape
  rw [DepthWindow.span] at hspan
  rw [demandWord_of_lt hspan]
  cases kind with
  | full => exact ⟨_, _, rfl, nofun⟩
  | _ => exact ⟨_, _, rfl, nofun⟩

theorem plant_faults (hp : p.IsBuilt) (hspan : w.span < 2 ^ 64)
    (hchance : kind = .full ∨ chance.isNaN = false) (slot : Nat) (htype : type < p.types.count) :
    Attempt.FaultsOnly (kind.plant p slot type w chance) p.LiteralFault := by
  obtain ⟨depth, grown, hshape, hgrown⟩ := exists_shape hspan kind slot
  refine .known hshape ?_
  refine Generator.extend_faults hp ?_ _ htype .empty
  cases grown with
  | true => exact hchance.resolve_left (hgrown rfl)
  | false => exact trivial

theorem plant_overflow (hspan : 2 ^ 64 ≤ w.span) (slot : Nat) (g : Random) :
    (kind.plant p slot type w chance).run g = .error .overflow := by
  have hshape : kind.shape w slot = .error .overflow := by
    unfold shape demandWord
    rw [DepthWindow.span] at hspan
    rw [if_neg (Nat.not_lt.2 hspan)]
    rfl
  unfold plant
  rw [hshape]
  rfl

end Initializer

/-- An objective scores each individual of a population, or fails with a message of its own. -/
def Objective.Answers (objective : Objective C) (p : Palette C) (pop : Population) : Prop :=
  ∀ i x, pop[i]? = some x → ∃ result, objective p x.tree i = .ok result

/-- Selectors that were prepared for a population. -/
def Selectors.Ready (pop : Population) (s : Selectors) : Prop := ∀ role, (s.of role).Ready pop

theorem Selectors.exists_prepare {pop : Population} (s : Selectors) (hne : pop ≠ []) :
    ∃ s', s.prepare pop (.ofPopulation pop) = .ok s' ∧ s'.Ready pop := by
  obtain ⟨crossover, hcrossover, hcrossed⟩ := s.crossover.exists_prepare hne rfl
  obtain ⟨mutation, hmutation, hmutated⟩ := s.mutation.exists_prepare hne rfl
  obtain ⟨reproduction, hreproduction, hreproduced⟩ := s.reproduction.exists_prepare hne rfl
  refine ⟨⟨crossover, mutation, reproduction⟩, ?_, fun role => ?_⟩
  · unfold prepare
    rw [hcrossover, hmutation, hreproduction]
    rfl
  · cases role with
    | crossover => exact hcrossed
    | mutation => exact hmutated
    | reproduction => exact hreproduced

theorem Selectors.Ready.put {pop : Population} {s : Selectors} (h : s.Ready pop) {role : Role}
    {x : Selector} (hx : x.Ready pop) : (s.put role x).Ready pop := by
  intro other
  rcases eq_or_ne other role with rfl | hne
  · rw [of_put]
    exact hx
  · rw [of_put_of_ne s hne]
    exact h other

namespace Run

variable {r r' start : Run C} {objective : Objective C} {files : Files} {s : Stepped C}

/-! ## Making a run -/

/-- A run is refused for want of a root type, or it comes down to its weights. -/
theorem new_cases (p : Palette C) (hvalidate : c.validate = .ok ()) :
    Run.new p c = .ok (.error (.configuration .emptyRootType)) ∨
      ∃ root : TypeId, Run.new p c = do
        match ← Weights.ofList c.chances with
        | none => return .error (.configuration .invalidChances)
        | some variation => return .ok (fresh p c root variation) := by
  unfold Run.new
  rw [hvalidate]
  dsimp only
  cases hpick : p.pickRootType.run (.ofSeed c.seed) with
  | error f => exact (p.pickRootType_faults (fun _ => False) _ f hpick).elim
  | ok out =>
    obtain ⟨result, g⟩ := out
    cases result with
    | error e => exact .inl rfl
    | ok root => exact .inr ⟨root, rfl⟩

theorem exists_new (p : Palette C) (hvalidate : c.validate = .ok ())
    (htotal : c.total.isFinite = true) : ∃ result, Run.new p c = .ok result := by
  rcases new_cases p hvalidate with hnew | ⟨root, hnew⟩
  · exact ⟨_, hnew⟩
  · obtain ⟨weights, hweights⟩ : ∃ weights, Weights.ofList c.chances = .ok weights :=
      Weights.exists_ofList fun _ => htotal
    rw [hweights] at hnew
    cases weights with
    | none => exact ⟨_, hnew⟩
    | some variation => exact ⟨_, hnew⟩

theorem new_of_total (p : Palette C) (hvalidate : c.validate = .ok ())
    (htotal : c.total.isFinite = false) : Run.new p c = .error .badRange ∨
      Run.new p c = .ok (.error (.configuration .emptyRootType)) := by
  rcases new_cases p hvalidate with hnew | ⟨root, hnew⟩
  · exact .inr hnew
  · have hweights : Weights.ofList c.chances = .error .badRange :=
      Weights.ofList_eq_badRange (fun w hw => c.le_of_mem_chances hvalidate hw) htotal
    rw [hweights] at hnew
    exact .inl hnew

/-! ## Planting -/

theorem plant_resolves (hp : r.palette.IsBuilt) (hvalid : r.configuration.Valid)
    (hroot : r.root < r.palette.types.count) (hsane : r.configuration.Sane .initial) (slot : Nat) :
    Resolves (fun out => ∃ t, out = .ok t) r.palette.LiteralFault (r.plant slot) := by
  have hyields := Initializer.plant_yields hp r.configuration.initializer slot hroot hvalid.window
    r.configuration.growTerminalChance
  have hfaults := Initializer.plant_faults hp hsane.1 hsane.2 slot hroot
  refine .bind (.run hyields hfaults _) fun out hout => .ok ?_
  obtain ⟨result, g⟩ := out
  cases result with
  | ok t => exact ⟨t, rfl⟩
  | error e => exact hout.elim

theorem plantAll_resolves (hp : r.palette.IsBuilt) (hvalid : r.configuration.Valid)
    (hroot : r.root < r.palette.types.count) (hsane : r.configuration.Sane .initial) :
    Resolves (fun out => ∃ r', out = .ok r') r.palette.LiteralFault r.plantAll := by
  refine .bind (.mapM _ fun slot _ => plant_resolves hp hvalid hroot hsane slot)
    fun results hresults => ?_
  obtain ⟨trees, htrees⟩ := exists_mapM_id hresults
  rw [htrees]
  exact .ok ⟨_, rfl⟩

theorem plantAll_overflow (hvalid : r.configuration.Valid)
    (hspan : 2 ^ 64 ≤ r.configuration.initialDepth.span) : r.plantAll = .error .overflow := by
  have hplant : ∀ slot, r.plant slot = .error .overflow := by
    intro slot
    unfold plant
    dsimp only
    rw [Initializer.plant_overflow hspan]
    rfl
  obtain ⟨n, hn⟩ := Nat.exists_eq_succ_of_ne_zero (Nat.ne_of_gt hvalid.populated)
  unfold plantAll
  rw [hn, List.range_succ_eq_map, List.mapM_cons, hplant]
  rfl

/-! ## Scoring -/

/-- A failure of the fitness function. -/
def IsFitness (e : RunError) : Prop := ∃ message, e = .fitness message

theorem exists_score (h : objective.Answers r.palette r.population) :
    ∃ scored result, r.score objective = .ok (scored, result) ∧
      ∀ e, result = .error e → IsFitness e := by
  obtain ⟨⟨population, solved⟩, hscore⟩ := exists_scoreFrom (i := 0) fun j x hx => by
    rw [Nat.zero_add]
    exact h j x hx
  unfold score
  rw [hscore]
  cases solved with
  | error e =>
    refine ⟨_, _, rfl, fun e' he => ?_⟩
    injection he with he
    exact ⟨e, he.symm⟩
  | ok solved => exact ⟨_, _, rfl, nofun⟩

/-! ## Varying -/

section Varying

variable {t u : Tree} {type other : TypeId} {selectors : Selectors}

theorem mutant_faults (hp : r.palette.IsBuilt) (hm : r.configuration.mutation.Usable)
    (ht : t.Proper r.palette type) (hsize : t.size < 2 ^ 64) :
    Draw.FaultsOnly (r.mutant t) r.palette.LiteralFault := by
  refine .andThen (hm.apply_faults hp ht.duplicate hsize) fun result => ?_
  cases result with
  | ok child => exact .pure _
  | error e => exact .pure _

theorem cross_faults (hp : r.palette.IsBuilt) (hc : r.configuration.crossover.Usable)
    (hm : r.configuration.mutation.Usable) (ht : t.Proper r.palette type)
    (hu : u.Proper r.palette other) (htsize : t.size < 2 ^ 64) (husize : u.size < 2 ^ 64) :
    Draw.FaultsOnly (r.cross t u) r.palette.LiteralFault := by
  refine .andThen (hc.apply_faults hp ht hu htsize husize) fun result => ?_
  cases result with
  | ok children => exact .pure _
  | error e =>
    refine .ite (fun _ => ?_) fun _ => .pure _
    refine .andThen (mutant_faults hp hm ht htsize) fun left => ?_
    exact .andThen (mutant_faults hp hm hu husize) fun right => .pure _

theorem produce_faults (hp : r.palette.IsBuilt) (hsane : r.configuration.Sane .selectAndVary)
    (role : Role) (ht : t.Proper r.palette type) (hu : u.Proper r.palette other)
    (htsize : t.size < 2 ^ 64) (husize : u.size < 2 ^ 64) :
    Draw.FaultsOnly (r.produce role t u) r.palette.LiteralFault := by
  obtain ⟨-, hcrossover, hmutation⟩ := hsane
  cases role with
  | crossover => exact cross_faults hp hcrossover hmutation ht hu htsize husize
  | mutation =>
    refine .andThen (mutant_faults hp hmutation ht htsize) fun left => ?_
    exact .andThen (mutant_faults hp hmutation hu husize) fun right => .pure _
  | reproduction => exact .pure _

/-- A tree that a run may hold, and that a machine can hold. -/
structure Holds (r : Run C) (t : Tree) : Prop where
  permitted : r.Permits t
  size : t.size < 2 ^ 64

/-- A run that can breed: it has someone to pick, and sane numbers. -/
structure Fertile (r : Run C) : Prop where
  built : r.palette.IsBuilt
  population : r.population ≠ []
  held : ∀ x ∈ r.population, r.Holds x.tree
  sane : r.configuration.Sane .selectAndVary

namespace Fertile

theorem vary_faults (h : r.Fertile) (hready : selectors.Ready r.population) :
    Draw.FaultsOnly (r.vary selectors) r.palette.LiteralFault := by
  rw [vary_eq]
  refine .map (.andThen r.variation.index_faults fun index => ?_)
  have hpicker := hready (Role.ofIndex index)
  refine .bind (hpicker.pickTree_faults h.population)
    (hpicker.pickTree_yields h.population h.held) fun first hfirst => ?_
  obtain ⟨ht, hpicker⟩ := hfirst
  refine .bind (hpicker.pickTree_faults h.population)
    (hpicker.pickTree_yields h.population h.held) fun second hsecond => ?_
  obtain ⟨hu, -⟩ := hsecond
  exact .andThen (produce_faults h.built h.sane _ ht.permitted.proper hu.permitted.proper ht.size
    hu.size) fun children => .pure _

theorem vary_ready (h : r.Fertile) (hready : selectors.Ready r.population) :
    Yields (r.vary selectors) fun out => out.2.Ready r.population := by
  rw [vary_eq]
  refine Yields.map (P := fun out => out.2.Ready r.population) ?_ fun out hout => hout
  refine Yields.bind (Yields.trivial _) fun index _ => ?_
  refine Yields.bind ((hready _).pickTree_yields h.population h.held) fun first hfirst => ?_
  refine Yields.bind (hfirst.2.pickTree_yields h.population h.held) fun second hsecond => ?_
  exact Yields.bind (Yields.trivial _) fun children _ => Yields.pure (hready.put hsecond.2)

theorem offspring_resolves (h : r.Fertile) (hready : selectors.Ready r.population)
    (slot count : Nat) :
    Resolves (fun _ => True) r.palette.LiteralFault (r.offspring slot count selectors) := by
  induction count generalizing slot selectors with
  | zero => exact .ok trivial
  | succ count ih =>
    refine .bind (.run (h.vary_ready hready) (h.vary_faults hready) _) fun out hout => ?_
    exact .bind (ih hout (slot + 1)) fun rest _ => .ok trivial

theorem breed_resolves (h : r.Fertile) (hstats : r.stats = .ofPopulation r.population) :
    Resolves (fun out => ∃ r', out = .ok r') r.palette.LiteralFault r.breed := by
  obtain ⟨prepared, hprepare, hready⟩ := r.selectors.exists_prepare h.population
  rw [breed_eq, breedWith, hstats, hprepare]
  dsimp only
  rw [demandBlock_of_lt h.sane.1]
  change Resolves _ _ (r.offspring 0 r.pairs prepared >>= _)
  refine .bind (h.offspring_resolves hready 0 r.pairs) fun out _ => ?_
  exact .ok ⟨_, rfl⟩

end Fertile

theorem breed_overflow (hne : r.population ≠ []) (hstats : r.stats = .ofPopulation r.population)
    (hroom : 2 ^ 63 ≤ individualSize * r.configuration.populationSize) :
    r.breed = .error .overflow := by
  obtain ⟨prepared, hprepare, -⟩ := r.selectors.exists_prepare hne
  rw [breed_eq, breedWith, hstats, hprepare]
  dsimp only
  rw [demandBlock, if_neg (Nat.not_lt.2 hroom)]
  rfl

end Varying

/-! ## Statistics -/

/-- From its report on, until the next one takes its place, a population has statistics. -/
def IsTallied (r : Run C) : Prop :=
  r.phase = .report ∨ r.phase = .selectAndVary ∨ r.phase = .swap →
    r.stats = .ofPopulation r.population

namespace IsTallied

theorem of_phase (h : r.phase = .initial ∨ r.phase = .evaluate ∨ r.phase = .terminate) :
    r.IsTallied := by
  intro hphase
  rcases h with h | h | h <;> rw [h] at hphase <;> exact absurd hphase (by decide)

theorem of_becomes (h : r.IsTallied) (hbecomes : r.Becomes objective r') : r'.IsTallied := by
  unfold Becomes at hbecomes
  cases hphase : r.phase <;> rw [hphase] at hbecomes
  case initial =>
    obtain ⟨-, population, rfl⟩ := hbecomes
    exact of_phase (.inr (.inl rfl))
  case evaluate =>
    obtain ⟨population, solved, -, rfl⟩ := hbecomes
    exact fun _ => rfl
  case report =>
    subst hbecomes
    exact fun _ => h (.inl hphase)
  case selectAndVary =>
    obtain ⟨selectors, next, -, -, rfl⟩ := hbecomes
    exact fun _ => h (.inr (.inl hphase))
  case swap =>
    subst hbecomes
    exact of_phase (.inr (.inl rfl))
  case terminate =>
    exact hbecomes ▸ h

theorem of_leaves (h : r.IsTallied) (hleaves : r.Leaves r') : r'.IsTallied := by
  unfold Leaves at hleaves
  split at hleaves
  · exact hleaves ▸ h
  · exact hleaves ▸ h
  · next hphase =>
    obtain ⟨population, -, rfl⟩ := hleaves
    exact of_phase (.inr (.inl hphase))
  · exact hleaves.elim

end IsTallied

theorem Reached.isTallied (hnew : Run.new p c = .ok (.ok start)) (h : Reached start r) :
    r.IsTallied := by
  induction h with
  | refl =>
    obtain ⟨-, root, variation, -, -, rfl⟩ := new_eq_ok hnew
    exact .of_phase (.inl rfl)
  | step _ hs ih =>
    rcases step_cases hs with ⟨-, hrun | hbecomes⟩ | ⟨-, hleaves⟩
    · rw [hrun]
      exact .of_phase (.inr (.inr rfl))
    · exact ih.of_becomes hbecomes
    · exact ih.of_leaves hleaves
  | stop _ _ ih => exact ih
  | sync _ _ ih => exact ih

/-! ## Stepping -/

/-- What a step may end in: its failure, if there is one, is that of the fitness function. -/
def Advances (s : Stepped C) : Prop := ∀ e, s.failure = some e → IsFitness e

theorem Advances.of_none (h : s.failure = none) : Advances s := by
  intro e he
  rw [h] at he
  contradiction

theorem Reached.valid (hp : p.IsBuilt) (hnew : Run.new p c = .ok (.ok start))
    (h : Reached start r) : r.configuration.Valid := by
  rw [(h.invariant hp hnew).configuration]
  exact (invariant_of_new hp hnew).1

theorem Reached.whole (hp : p.IsBuilt) (hnew : Run.new p c = .ok (.ok start))
    (h : Reached start r) (hphase : r.phase = .selectAndVary) :
    Whole r.palette r.configuration r.root r.population := by
  have hinvariant := h.invariant hp hnew
  have hwhole := hinvariant.whole (by rw [hphase]; nofun) (by rw [hphase]; nofun)
  rw [hinvariant.palette, hinvariant.configuration, hinvariant.root]
  exact hwhole

theorem Reached.population_ne_nil (hp : p.IsBuilt) (hnew : Run.new p c = .ok (.ok start))
    (h : Reached start r) (hphase : r.phase = .selectAndVary) : r.population ≠ [] :=
  (h.whole hp hnew hphase).ne_nil (h.valid hp hnew)

theorem Reached.fertile (hp : p.IsBuilt) (hnew : Run.new p c = .ok (.ok start))
    (h : Reached start r) (hphase : r.phase = .selectAndVary) (hsane : c.Sane .selectAndVary)
    (hsize : ∀ x ∈ r.population, x.tree.size < 2 ^ 64) : r.Fertile := by
  have hwhole := h.whole hp hnew hphase
  have hne := h.population_ne_nil hp hnew hphase
  obtain ⟨rfl, rfl, -, -, -⟩ := h.invariant hp hnew
  exact ⟨hp, hne, fun x hx => ⟨hwhole.allowed x hx, hsize x hx⟩, hsane⟩

theorem Reached.perform_resolves (hp : p.IsBuilt) (hnew : Run.new p c = .ok (.ok start))
    (h : Reached start r) (hsize : ∀ x ∈ r.population, x.tree.size < 2 ^ 64)
    (hanswers : objective.Answers p r.population) (hsane : c.Sane r.phase) (files : Files) :
    Resolves Advances p.LiteralFault (r.perform objective files) := by
  obtain ⟨-, hknown, -⟩ := invariant_of_new hp hnew
  have hvalid := h.valid hp hnew
  obtain ⟨rfl, rfl, hroot, -, -⟩ := h.invariant hp hnew
  rw [← hroot] at hknown
  unfold perform
  cases hphase : r.phase with
  | initial =>
    rw [hphase] at hsane
    refine .bind (plantAll_resolves hp hvalid hknown hsane) fun out hout => ?_
    obtain ⟨r', rfl⟩ := hout
    exact .ok (.of_none rfl)
  | evaluate =>
    obtain ⟨scored, result, hscore, hresult⟩ := exists_score hanswers
    rw [hscore]
    cases result with
    | ok solved => exact .ok (.of_none rfl)
    | error e =>
      refine .ok fun e' he => ?_
      injection he with he
      exact he ▸ hresult e rfl
  | report => exact .ok (.of_none rfl)
  | selectAndVary =>
    rw [hphase] at hsane
    have hfertile := h.fertile hp hnew hphase hsane hsize
    refine .bind (hfertile.breed_resolves (h.isTallied hnew (.inr (.inl hphase)))) fun out hout => ?_
    obtain ⟨r', rfl⟩ := hout
    exact .ok (.of_none rfl)
  | swap => exact .ok (.of_none rfl)
  | terminate => exact .ok (.of_none rfl)

/-- A run is made of a valid configuration, or refused, if the weights of the variations have a
finite sum; if they have none that ends in a fault, unless there is no root type either.  From each
run that is reached, a step whose phase has sane numbers advances or ends in a literal's own fault,
with any objective that answers and any trees that a machine can hold.  A step ends in a fault where
the depths of the initial trees, or the room for the next generation, are too great to be counted.
The depths are counted with checked sums, as `Initializer.shape` says, and the stream of the run is
read up to `Draw.attempts`. -/
theorem resolves_of_validate (hp : p.IsBuilt) (hvalidate : c.validate = .ok ()) :
    (c.total.isFinite = true → ∃ result, Run.new p c = .ok result) ∧
    (c.total.isFinite = false → Run.new p c = .error .badRange ∨
      Run.new p c = .ok (.error (.configuration .emptyRootType))) ∧
    ∀ start r : Run C, Run.new p c = .ok (.ok start) → Reached start r →
      ∀ (objective : Objective C) files,
        ((∀ x ∈ r.population, x.tree.size < 2 ^ 64) → objective.Answers p r.population →
          (r.stopRequested = false → c.Sane r.phase) →
            Resolves Advances p.LiteralFault (r.step objective files)) ∧
        (r.stopRequested = false → r.phase = .initial → 2 ^ 64 ≤ c.initialDepth.span →
          r.step objective files = .error .overflow) ∧
        (r.stopRequested = false → r.phase = .selectAndVary →
          2 ^ 63 ≤ individualSize * c.populationSize →
            r.step objective files = .error .overflow) := by
  refine ⟨exists_new p hvalidate, new_of_total p hvalidate, ?_⟩
  intro start r hnew hreached objective files
  refine ⟨fun hsize hanswers hsane => ?_, fun hstop hphase hspan => ?_, fun hstop hphase hroom => ?_⟩
  · cases hstop : r.stopRequested with
    | true =>
      rw [step, hstop]
      exact .ok (.of_none rfl)
    | false =>
      rw [step_eq_perform hstop]
      exact hreached.perform_resolves hp hnew hsize hanswers (hsane hstop) files
  · have hplant : r.plantAll = .error .overflow := by
      rw [← (hreached.invariant hp hnew).configuration] at hspan
      exact plantAll_overflow (hreached.valid hp hnew) hspan
    rw [step_eq_perform hstop, perform, hphase]
    dsimp only
    rw [hplant]
    rfl
  · have hbreed : r.breed = .error .overflow := by
      rw [← (hreached.invariant hp hnew).configuration] at hroom
      exact breed_overflow (hreached.population_ne_nil hp hnew hphase)
        (hreached.isTallied hnew (.inr (.inl hphase))) hroom
    rw [step_eq_perform hstop, perform, hphase]
    dsimp only
    rw [hbreed]
    rfl

/-! ### Numbers that go wrong -/

/-- Each weight is finite, and their sum is not. -/
def heavy : Configuration :=
  { lone with crossoverChance := ⟨0x7FEE42D130773B76⟩, mutationChance := ⟨0x7FEE42D130773B76⟩ }

/-- There is one depth more than a machine word counts. -/
def wide : Configuration :=
  { lone with initialDepth := ⟨0, 2 ^ 64 - 1⟩, maxTreeDepth := 2 ^ 64 - 1 }

/-- Terminals are asked for with a chance that is no number. -/
def vague : Configuration :=
  { lone with initializer := .grow, initialDepth := ⟨0, 1⟩, growTerminalChance := .nan }

/-- The fault that a computation ends in. -/
def fault? {α : Type} : Except Fault α → Option Fault
  | .ok _ => none
  | .error f => some f

theorem eq_error_of_fault? {α : Type} {x : Except Fault α} {f : Fault} (h : fault? x = some f) :
    x = .error f := by
  cases x with
  | ok a => contradiction
  | error e =>
    injection h with h
    rw [h]

/-- The fault that the first step of a run ends in. -/
def firstFault? (p : Palette C) (c : Configuration) (objective : Objective C) : Option Fault := do
  fault? ((← (← (Run.new p c).toOption).toOption).step objective .empty)

theorem exists_of_firstFault? {f : Fault} (h : firstFault? p c objective = some f) :
    ∃ start, Run.new p c = .ok (.ok start) ∧ start.step objective .empty = .error f := by
  unfold firstFault? at h
  obtain ⟨result, hresult, h⟩ := Option.bind_eq_some_iff.1 h
  obtain ⟨start, hstart, h⟩ := Option.bind_eq_some_iff.1 h
  rw [eq_ok_of_toOption hstart] at hresult
  exact ⟨start, eq_ok_of_toOption hresult, eq_error_of_fault? h⟩

/-- Valid configurations of which no run is made, or no population is planted. -/
theorem valid_faults : coins.IsBuilt ∧
    (heavy.validate = .ok () ∧ Run.new coins heavy = .error .badRange) ∧
    (wide.validate = .ok () ∧ ∃ start, Run.new coins wide = .ok (.ok start) ∧
      start.step smallness .empty = .error .overflow) ∧
    (vague.validate = .ok () ∧ ∃ start, Run.new coins vague = .ok (.ok start) ∧
      start.step smallness .empty = .error .badProbability) :=
  ⟨isBuilt_coins,
    ⟨by decide +kernel, eq_error_of_fault? (by decide +kernel)⟩,
    ⟨by decide +kernel, exists_of_firstFault? (by decide +kernel)⟩,
    by decide +kernel, exists_of_firstFault? (by decide +kernel)⟩

theorem answers_smallness (pop : Population) : smallness.Answers coins pop :=
  fun _ _ _ => ⟨_, rfl⟩

theorem sane_lone : lone.Sane .selectAndVary :=
  ⟨by decide, ⟨rfl, fun _ => rfl⟩, rfl, rfl⟩

theorem exists_bearing : ∃ start s, Run.new coins lone = .ok (.ok start) ∧
    runFor smallness 3 start .empty = .ok s ∧
      (s.run.phase = .selectAndVary && s.run.population.all fun x => x.tree.size < 2 ^ 64) = true :=
  exists_of_trial (f := fun start => runFor smallness 3 start .empty) (by decide +kernel)

theorem resolves_of_validate_coins : coins.IsBuilt ∧ lone.validate = .ok () ∧
    lone.total.isFinite = true ∧ (∃ result, Run.new coins lone = .ok result) ∧
    (∃ start r, Run.new coins lone = .ok (.ok start) ∧ Reached start r ∧
      r.phase = .selectAndVary ∧ lone.Sane r.phase ∧ smallness.Answers coins r.population ∧
      (∀ x ∈ r.population, x.tree.size < 2 ^ 64) ∧
      Resolves Advances coins.LiteralFault (r.step smallness .empty)) ∧
    wide.validate = .ok () ∧ 2 ^ 64 ≤ wide.initialDepth.span ∧
    ∃ start, Run.new coins wide = .ok (.ok start) ∧ start.stopRequested = false ∧
      start.phase = .initial ∧ start.step smallness .empty = .error .overflow := by
  have hvalidate : lone.validate = .ok () := by decide +kernel
  have htotal : lone.total.isFinite = true := by decide +kernel
  obtain ⟨hmade, -, hresolves⟩ := resolves_of_validate isBuilt_coins hvalidate
  obtain ⟨start, s, hnew, hrun, htest⟩ := exists_bearing
  simp only [Bool.and_eq_true, decide_eq_true_eq, List.all_eq_true] at htest
  obtain ⟨hphase, hsize⟩ := htest
  have hreached : Reached start s.run := Reached.refl.runFor hrun
  have hsane : lone.Sane s.run.phase := hphase ▸ sane_lone
  have hstep := (hresolves start s.run hnew hreached smallness .empty).1 hsize
    (answers_smallness _) fun _ => hsane
  have hwide : wide.validate = .ok () := by decide +kernel
  have hspan : 2 ^ 64 ≤ wide.initialDepth.span := by decide
  obtain ⟨broad, hbroad, -⟩ : ∃ start, Run.new coins wide = .ok (.ok start) ∧
      start.step smallness .empty = .error .overflow := exists_of_firstFault? (by decide +kernel)
  obtain ⟨-, root, variation, -, -, hfresh⟩ := new_eq_ok hbroad
  have hstop : broad.stopRequested = false := hfresh ▸ rfl
  have hinitial : broad.phase = .initial := hfresh ▸ rfl
  have hoverflow := ((resolves_of_validate isBuilt_coins hwide).2.2 broad broad hbroad .refl smallness
    .empty).2.1 hstop hinitial hspan
  exact ⟨isBuilt_coins, hvalidate, htotal, hmade htotal,
    ⟨start, s.run, hnew, hreached, hphase, hsane, answers_smallness _, hsize, hstep⟩,
    hwide, hspan, broad, hbroad, hstop, hinitial, hoverflow⟩

end Run

end GeneticProgramming
