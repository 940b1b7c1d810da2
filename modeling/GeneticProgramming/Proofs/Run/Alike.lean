import GeneticProgramming.Proofs.Evaluation.Alike
import GeneticProgramming.Proofs.Run.Ending
import GeneticProgramming.Proofs.Variation.Alike
import GeneticProgramming.Regression.Problem

/-!
# Alike runs

Runs are alike if they differ at most in how their trees are stored, in preparations of selectors,
and in the files they keep.  Alike runs take the same steps, fail in the same way, and stay alike:
`Run.Alike.runFor`.
-/

namespace GeneticProgramming

variable {C : Type} {p : Palette C}

/-- A fitness function that is told by the tree, whatever pages its literals lie in, and its
index. -/
def Objective.IsPure (objective : Objective C) (p : Palette C) : Prop :=
  ∀ t u i, t.Sound p → u.Sound p → t.Alike u → objective p t i = objective p u i

/-- An objective that adds up a tree's values over cases is pure. -/
theorem Objective.isPure_of_foldCases {Case α : Type} (type : ValueType) (context : Case → C)
    (add : α → Case → type.Carrier → α) (sum : α) (cases : List Case) (score : α → Verdict) :
    Objective.IsPure (fun p t _ => do
      return (← p.foldCases t type context add sum cases).map score) p := by
  intro t u i ht hu h
  dsimp only
  rw [Palette.foldCases_congr ht hu h]

theorem Regression.isPure_objective (p : Palette Single) : Regression.objective.IsPure p :=
  Objective.isPure_of_foldCases _ _ _ _ _ _

theorem Selectors.prepare_congr {s s' : Selectors} {pop pop' : Population}
    (hkinds : s.kinds = s'.kinds) (h : pop.Alike pop') (stats : Statistics) :
    s.prepare pop stats = s'.prepare pop' stats := by
  injection hkinds with hcrossover hkinds
  injection hkinds with hmutation hreproduction
  unfold prepare
  rw [Selector.prepare_eq_of_kind hcrossover, Selector.prepare_eq_of_kind hmutation,
    Selector.prepare_eq_of_kind hreproduction]
  simp only [Selector.prepare_congr _ h]

theorem Draw.Alike.run {α β : Type} {R : α → β → Prop} {x : Draw α} {y : Draw β}
    (h : Draw.Alike R x y) (g : Random) : Agree (fun a b => R a.1 b.1) (x.run g) (y.run g) := by
  rcases h g with ⟨a, b, g', ha, hb, hab⟩ | ⟨e, ha, hb⟩
  · exact .inl ⟨(a, g'), (b, g'), ha, hb, hab⟩
  · exact .inr ⟨e, ha, hb⟩

namespace Run

variable {r r' : Run C} {t t' u u' : Tree}

/-- Runs that differ at most in how trees are stored, in preparations and in files. -/
structure Alike (r r' : Run C) : Prop where
  palette : r.palette = r'.palette
  configuration : r.configuration = r'.configuration
  root : r.root = r'.root
  variation : r.variation = r'.variation
  selectors : r.selectors.kinds = r'.selectors.kinds
  population : r.population.Alike r'.population
  next : r.phase = .swap → r.next.Alike r'.next
  stats : r.stats = r'.stats
  history : r.history = r'.history
  generation : r.generation = r'.generation
  phase : r.phase = r'.phase
  solved : r.solved = r'.solved
  stopRequested : r.stopRequested = r'.stopRequested

theorem isFinished_congr (hsolved : r.solved = r'.solved)
    (hconfiguration : r.configuration = r'.configuration)
    (hgeneration : r.generation = r'.generation) : r.isFinished = r'.isFinished := by
  rw [isFinished, isFinished, hsolved, hconfiguration, hgeneration]

namespace Alike

theorem phased (h : r.Alike r') (phase : Phase) (hnext : phase = .swap → r.next.Alike r'.next) :
    Alike { r with phase } { r' with phase } :=
  ⟨h.palette, h.configuration, h.root, h.variation, h.selectors, h.population, hnext, h.stats,
    h.history, h.generation, rfl, h.solved, h.stopRequested⟩

/-! ## Planting -/

theorem plantAll (h : r.Alike r') : Agree (Agree Alike) r.plantAll r'.plantAll := by
  have hplant : ∀ slot, r.plant slot = r'.plant slot := by
    intro slot
    simp only [plant, stream, h.configuration, h.palette, h.root]
  unfold Run.plantAll
  rw [funext hplant, h.configuration]
  refine Agree.same fun trees => ?_
  split
  · exact Agree.ok (Agree.error _)
  · exact Agree.ok (Agree.ok ⟨h.palette, rfl, h.root, h.variation, h.selectors,
      Population.Alike.refl _, nofun, h.stats, rfl, rfl, rfl, rfl, h.stopRequested⟩)

/-! ## Scoring -/

theorem scoreFrom {objective : Objective C} (hpure : objective.IsPure p) {pop pop' : Population}
    (h : pop.Alike pop') (hsound : ∀ x ∈ pop, x.tree.Sound p) (hsound' : ∀ x ∈ pop', x.tree.Sound p)
    (i : Nat) : Agree (fun x y => Population.Alike x.1 y.1 ∧ x.2 = y.2)
      (scoreFrom p objective i pop) (scoreFrom p objective i pop') := by
  induction h generalizing i with
  | nil => exact Agree.ok ⟨.nil, rfl⟩
  | cons hx hxs ih =>
    obtain ⟨hsound, hsounds⟩ := List.forall_mem_cons.1 hsound
    obtain ⟨hsound', hsounds'⟩ := List.forall_mem_cons.1 hsound'
    unfold Run.scoreFrom
    rw [hpure _ _ i hsound hsound' hx.tree]
    refine Agree.same fun verdict => ?_
    cases verdict with
    | error e => exact Agree.ok ⟨.cons hx hxs, rfl⟩
    | ok verdict =>
      refine Agree.bind (ih hsounds hsounds' (i + 1)) fun out out' hout => ?_
      exact Agree.ok ⟨.cons ⟨hx.tree, rfl⟩ hout.1, by rw [hout.2]⟩

theorem score {objective : Objective C} (h : r.Alike r') (hpure : objective.IsPure r.palette)
    (hsound : ∀ x ∈ r.population, x.tree.Sound r.palette)
    (hsound' : ∀ x ∈ r'.population, x.tree.Sound r.palette) :
    Agree (fun x y => x.1.Alike y.1 ∧ x.2 = y.2) (r.score objective) (r'.score objective) := by
  unfold Run.score
  rw [← h.palette]
  refine Agree.bind (scoreFrom hpure h.population hsound hsound' 0) fun out out' hout => ?_
  obtain ⟨population, solved⟩ := out
  obtain ⟨population', solved'⟩ := out'
  obtain ⟨hpopulation, rfl⟩ := hout
  cases solved with
  | error e =>
    exact Agree.ok ⟨⟨rfl, h.configuration, h.root, h.variation, h.selectors, hpopulation,
      h.next, h.stats, h.history, h.generation, h.phase, h.solved, h.stopRequested⟩, rfl⟩
  | ok solved =>
    exact Agree.ok ⟨⟨rfl, h.configuration, h.root, h.variation, h.selectors, hpopulation,
      h.next, hpopulation.statistics, h.history, h.generation, h.phase, h.solved,
      h.stopRequested⟩, rfl⟩

/-! ## Breeding -/

theorem capped (h : r.Alike r') (ht : t.Alike t') (hu : u.Alike u') :
    (r.capped t u).Alike (r'.capped t' u') := by
  unfold Run.capped
  rw [h.configuration, h.palette, ht.depth]
  split
  · exact hu.duplicate
  · exact ht

theorem mutant (h : r.Alike r') (ht : t.Alike t') :
    Draw.Alike Tree.Alike (r.mutant t) (r'.mutant t') := by
  unfold Run.mutant
  rw [h.configuration, h.palette]
  refine Draw.Alike.bind (Mutation.apply_alike _ ht.duplicate) fun out out' hout => ?_
  match out, out', hout with
  | .ok _, .ok _, hchild => exact Draw.Alike.pure (h.capped hchild ht)
  | .error _, .error _, _ => exact Draw.Alike.pure ht.duplicate

/-- Both of two trees are alike. -/
abbrev Both (x y : Tree × Tree) : Prop := x.1.Alike y.1 ∧ x.2.Alike y.2

theorem cross (h : r.Alike r') (ht : t.Alike t') (hu : u.Alike u') :
    Draw.Alike Both (r.cross t u) (r'.cross t' u') := by
  unfold Run.cross
  rw [h.configuration, h.palette]
  refine Draw.Alike.bind (Crossover.apply_alike _ ht hu) fun out out' hout => ?_
  match out, out', hout with
  | .ok (_, _), .ok (_, _), hchildren =>
    exact Draw.Alike.pure ⟨h.capped hchildren.1 ht, h.capped hchildren.2 hu⟩
  | .error _, .error _, _ =>
    refine Draw.Alike.ite Iff.rfl (fun _ => ?_) fun _ => ?_
    · refine Draw.Alike.bind (h.mutant ht) fun left left' hleft => ?_
      refine Draw.Alike.bind (h.mutant hu) fun right right' hright => ?_
      exact Draw.Alike.pure ⟨hleft, hright⟩
    · exact Draw.Alike.pure ⟨ht.duplicate, hu.duplicate⟩

theorem pickPair (h : r.Alike r') (s : Selector) :
    Draw.Alike (fun x y => Both x.1 y.1 ∧ x.2 = y.2) (r.pickPair s) (r'.pickPair s) := by
  refine Draw.Alike.bind (s.pickTree_alike h.population) fun first first' hfirst => ?_
  obtain ⟨t, s⟩ := first
  obtain ⟨t', s'⟩ := first'
  obtain ⟨ht, rfl⟩ := hfirst
  refine Draw.Alike.bind (s.pickTree_alike h.population) fun second second' hsecond => ?_
  exact Draw.Alike.pure ⟨⟨ht, hsecond.1⟩, hsecond.2⟩

theorem vary (h : r.Alike r') (s : Selectors) :
    Draw.Alike (fun x y => Both x.1 y.1 ∧ x.2 = y.2) (r.vary s) (r'.vary s) := by
  unfold Run.vary
  rw [h.variation]
  refine Draw.Alike.same fun choice => ?_
  split
  · refine Draw.Alike.bind (h.pickPair _) fun picked picked' hpicked => ?_
    refine Draw.Alike.bind (h.cross hpicked.1.1 hpicked.1.2) fun out out' hout => ?_
    exact Draw.Alike.pure ⟨hout, congrArg (fun x => { s with crossover := x }) hpicked.2⟩
  · refine Draw.Alike.bind (h.pickPair _) fun picked picked' hpicked => ?_
    refine Draw.Alike.bind (h.mutant hpicked.1.1) fun left left' hleft => ?_
    refine Draw.Alike.bind (h.mutant hpicked.1.2) fun right right' hright => ?_
    exact Draw.Alike.pure ⟨⟨hleft, hright⟩, congrArg (fun x => { s with mutation := x }) hpicked.2⟩
  · refine Draw.Alike.bind (h.pickPair _) fun picked picked' hpicked => ?_
    exact Draw.Alike.pure ⟨⟨hpicked.1.1.duplicate, hpicked.1.2.duplicate⟩,
      congrArg (fun x => { s with reproduction := x }) hpicked.2⟩

theorem offspring (h : r.Alike r') (slot count : Nat) (s : Selectors) :
    Agree (fun x y => List.Forall₂ Tree.Alike x.1 y.1 ∧ x.2 = y.2) (r.offspring slot count s)
      (r'.offspring slot count s) := by
  induction count generalizing slot s with
  | zero => exact Agree.ok ⟨.nil, rfl⟩
  | succ count ih =>
    have hstream : r.stream (r.generation + 1) slot = r'.stream (r'.generation + 1) slot := by
      rw [stream, stream, h.configuration, h.generation]
    unfold Run.offspring
    rw [hstream]
    refine Agree.bind ((h.vary s).run _) fun out out' hout => ?_
    obtain ⟨⟨⟨t, u⟩, s⟩, g⟩ := out
    obtain ⟨⟨⟨t', u'⟩, s'⟩, g'⟩ := out'
    obtain ⟨⟨ht, hu⟩, rfl⟩ := hout
    refine Agree.bind (ih (slot + 1) s) fun rest rest' hrest => ?_
    exact Agree.ok ⟨.cons ht (.cons hu hrest.1), hrest.2⟩

theorem elites (h : r.Alike r') : List.Forall₂ Tree.Alike r.elites r'.elites := by
  rw [Run.elites, Run.elites, h.configuration]
  refine List.rel_map (R := Individual.Alike) (fun x x' hx => hx.tree.duplicate) ?_
  exact h.population.bestIndividuals _

theorem pairs (h : r.Alike r') : r.pairs = r'.pairs := by
  rw [Run.pairs, Run.pairs, h.configuration, h.elites.length_eq]

theorem litter (h : r.Alike r') {ts ts' : List Tree} (hts : List.Forall₂ Tree.Alike ts ts') :
    (r.litter ts).Alike (r'.litter ts') := by
  rw [Run.litter, Run.litter, h.configuration, h.elites.length_eq]
  refine List.rel_map (R := Tree.Alike) (fun t t' ht => ⟨ht, rfl⟩) ?_
  exact List.rel_append h.elites (List.forall₂_take _ hts)

theorem breed (h : r.Alike r') (hphase : r.phase = .selectAndVary) :
    Agree (Agree fun x y => x.Alike y ∧ x.next.Alike y.next) r.breed r'.breed := by
  rw [breed_eq, breed_eq, breedWith, breedWith,
    ← Selectors.prepare_congr h.selectors h.population, h.stats, h.configuration, h.pairs]
  cases r.selectors.prepare r.population r'.stats with
  | error e => exact Agree.ok (Agree.error _)
  | ok selectors =>
    dsimp only
    refine Agree.same fun _ => ?_
    refine Agree.bind (h.offspring 0 _ selectors) fun out out' hout => ?_
    obtain ⟨children, selectors⟩ := out
    obtain ⟨children', selectors'⟩ := out'
    obtain ⟨hchildren, rfl⟩ := hout
    refine Agree.ok (Agree.ok ⟨⟨h.palette, rfl, h.root, h.variation, rfl, h.population,
      fun hswap => ?_, rfl, h.history, h.generation, h.phase, h.solved, h.stopRequested⟩, ?_⟩)
    · change r.phase = .swap at hswap
      rw [hphase] at hswap
      contradiction
    · exact h.litter hchildren

/-! ## Stepping -/

/-- Steps that end alike, but for their files. -/
def StepsAlike (s s' : Stepped C) : Prop := s.run.Alike s'.run ∧ s.failure = s'.failure

theorem stepped {x y : Except RunError (Run C)} {phase : Phase} (h : r.Alike r')
    (hxy : Agree (fun a b => a.Alike b ∧ (phase = .swap → a.next.Alike b.next)) x y)
    (files files' : Files) :
    StepsAlike (stepped r files phase x) (stepped r' files' phase y) := by
  rcases hxy with ⟨a, b, rfl, rfl, hab, hnext⟩ | ⟨e, rfl, rfl⟩
  · exact ⟨hab.phased phase hnext, rfl⟩
  · exact ⟨h, rfl⟩

theorem perform {objective : Objective C} (h : r.Alike r') (hpure : objective.IsPure r.palette)
    (hsound : ∀ x ∈ r.population, x.tree.Sound r.palette)
    (hsound' : ∀ x ∈ r'.population, x.tree.Sound r.palette) (files files' : Files) :
    Agree StepsAlike (r.perform objective files) (r'.perform objective files') := by
  unfold Run.perform
  rw [← h.phase]
  cases hphase : r.phase with
  | initial =>
    refine Agree.bind h.plantAll fun x y hxy => Agree.ok (h.stepped ?_ files files')
    exact hxy.mono fun a b hab => ⟨hab, nofun⟩
  | evaluate =>
    refine Agree.bind (h.score hpure hsound hsound') fun out out' hout => ?_
    obtain ⟨scored, solved⟩ := out
    obtain ⟨scored', solved'⟩ := out'
    obtain ⟨hscored, rfl⟩ := hout
    cases solved with
    | error e => exact Agree.ok ⟨hscored, rfl⟩
    | ok solved =>
      exact Agree.ok ⟨⟨hscored.palette, hscored.configuration, hscored.root, hscored.variation,
        hscored.selectors, hscored.population, nofun, hscored.stats, hscored.history,
        hscored.generation, rfl, rfl, hscored.stopRequested⟩, rfl⟩
  | report =>
    have hhistory : r.history ++ [r.stats] = r'.history ++ [r'.stats] := by
      rw [h.history, h.stats]
    refine Agree.ok ⟨⟨h.palette, h.configuration, h.root, h.variation, h.selectors, h.population,
      fun hswap => ?_, h.stats, hhistory, h.generation, ?_, h.solved, h.stopRequested⟩, rfl⟩
    · dsimp only at hswap
      split at hswap <;> contradiction
    · exact congrArg (fun b => if b = true then Phase.terminate else Phase.selectAndVary)
        (isFinished_congr h.solved h.configuration h.generation)
  | selectAndVary =>
    refine Agree.bind (h.breed hphase) fun x y hxy => Agree.ok (h.stepped ?_ files files')
    exact hxy.mono fun a b hab => ⟨hab.1, fun _ => hab.2⟩
  | swap =>
    refine Agree.ok ⟨⟨h.palette, h.configuration, h.root, h.variation, h.selectors,
      h.next hphase, nofun, h.stats, h.history, ?_, rfl, rfl, h.stopRequested⟩, rfl⟩
    exact congrArg (· + 1) h.generation
  | terminate => exact Agree.ok ⟨h, rfl⟩

theorem step {objective : Objective C} (h : r.Alike r') (hpure : objective.IsPure r.palette)
    (hsound : ∀ x ∈ r.population, x.tree.Sound r.palette)
    (hsound' : ∀ x ∈ r'.population, x.tree.Sound r.palette) (files files' : Files) :
    Agree StepsAlike (r.step objective files) (r'.step objective files') := by
  unfold Run.step
  dsimp only
  split
  · next hstop =>
    rw [if_pos (h.stopRequested ▸ hstop)]
    exact (h.phased .terminate nofun).perform hpure hsound hsound' files files'
  · next hstop =>
    rw [if_neg (h.stopRequested ▸ hstop)]
    exact h.perform hpure hsound hsound' files files'

end Alike

theorem Invariant.sound {c : Configuration} {root : TypeId} (h : Invariant p c root r) :
    ∀ x ∈ r.population, x.tree.Sound p := by
  intro x hx
  rcases h.population with ⟨hempty, -⟩ | hwhole
  · rw [hempty] at hx
    exact absurd hx List.not_mem_nil
  · exact (hwhole.allowed x hx).proper.sound

/-- Alike runs stay alike for any number of steps. -/
theorem Alike.runFor {c : Configuration} {root : TypeId} {objective : Objective C}
    (hp : p.IsBuilt) (hvalid : c.Valid) (hknown : root < p.types.count)
    (hpure : objective.IsPure p) (h : r.Alike r') (hr : Invariant p c root r)
    (hr' : Invariant p c root r') (steps : Nat) (files files' : Files) :
    Agree Alike.StepsAlike (r.runFor objective steps files) (r'.runFor objective steps files') := by
  induction steps generalizing r r' files files' with
  | zero => exact Agree.ok ⟨h, rfl⟩
  | succ steps ih =>
    have hstep := h.step (hr.palette ▸ hpure) (hr.palette ▸ hr.sound) (hr.palette ▸ hr'.sound)
      files files'
    unfold Run.runFor
    rcases hstep with ⟨s, s', hs, hs', hrun, hfailure⟩ | ⟨e, hs, hs'⟩
    · rw [hs, hs']
      refine Agree.ite (by rw [hfailure, hrun.phase]) (fun _ => Agree.ok ⟨hrun, hfailure⟩)
        fun _ => ?_
      exact ih hrun (hr.step hp hvalid hknown hs).1 (hr'.step hp hvalid hknown hs').1 _ _
    · rw [hs, hs']
      exact Agree.error e

end Run

end GeneticProgramming
