import GeneticProgramming.Proofs.Population.Alike
import GeneticProgramming.Run.Basic

/-!
# What steps make of runs

What each phase makes of a run is said once, as `Run.Becomes`; a step that fails leaves all but
scores as it was.  Whatever is known of runs between steps comes from there.
-/

namespace GeneticProgramming

variable {C : Type}

/-- What the selectors of a run were made for. -/
def Selectors.kinds (s : Selectors) : SelectionKind × SelectionKind × SelectionKind :=
  (s.crossover.kind, s.mutation.kind, s.reproduction.kind)

theorem Selectors.kinds_of_prepare {s s' : Selectors} {pop : Population} {stats : Statistics}
    (h : s.prepare pop stats = .ok s') : s'.kinds = s.kinds := by
  unfold prepare at h
  obtain ⟨crossover, hcrossover, h⟩ := exists_of_bind_eq_ok h
  obtain ⟨mutation, hmutation, h⟩ := exists_of_bind_eq_ok h
  obtain ⟨reproduction, hreproduction, h⟩ := exists_of_bind_eq_ok h
  injection h with h
  rw [← h, kinds, kinds, Selector.kind_of_prepare hcrossover, Selector.kind_of_prepare hmutation,
    Selector.kind_of_prepare hreproduction]

namespace Run

variable {p : Palette C} {r r' : Run C} {objective : Objective C} {files : Files} {s : Stepped C}

/-! ## What a step makes of a run -/

/-- What a phase makes of a run where it succeeds. -/
def Becomes (objective : Objective C) (r r' : Run C) : Prop :=
  match r.phase with
  | .initial => r.plantAll = .ok (.ok r') ∧ ∃ population, r' = { r with
      population, next := [], history := [], generation := 0, solved := false, phase := .evaluate }
  | .evaluate => ∃ population solved,
      scoreFrom r.palette objective 0 r.population = .ok (population, .ok solved) ∧ r' = { r with
        population, solved, stats := .ofPopulation population, phase := .report }
  | .report => r' = { r with
      history := r.history ++ [r.stats]
      phase := if r.isFinished then .terminate else .selectAndVary }
  | .selectAndVary => ∃ selectors next, r.breed = .ok (.ok { r with selectors, next }) ∧
      selectors.kinds = r.selectors.kinds ∧ r' = { r with selectors, next, phase := .swap }
  | .swap => r' = { r.advance with phase := .evaluate }
  | .terminate => r' = r

/-- What a phase leaves of a run where it fails, as only planting, scoring and breeding do. -/
def Leaves (r r' : Run C) : Prop :=
  match r.phase with
  | .initial | .selectAndVary => r' = r
  | .evaluate => ∃ population,
      population.map Individual.tree = r.population.map Individual.tree ∧ r' = { r with population }
  | _ => False

theorem Leaves.eq_with (h : r.Leaves r') : ∃ population,
    population.map Individual.tree = r.population.map Individual.tree ∧
      r' = { r with population } := by
  unfold Leaves at h
  split at h
  · exact ⟨r.population, rfl, h⟩
  · exact ⟨r.population, rfl, h⟩
  · exact h
  · exact h.elim

theorem map_tree_scoreFrom {i : Nat} {pop scored : Population}
    {solved : Except String Bool} (h : scoreFrom p objective i pop = .ok (scored, solved)) :
    scored.map Individual.tree = pop.map Individual.tree := by
  induction pop generalizing i scored solved with
  | nil =>
    injection h with h
    injection h with h
    rw [← h]
  | cons x xs ih =>
    obtain ⟨verdict, -, h⟩ := exists_of_bind_eq_ok h
    cases verdict with
    | error e =>
      injection h with h
      injection h with h
      rw [← h]
    | ok verdict =>
      obtain ⟨⟨rest, solved'⟩, hrest, h⟩ := exists_of_bind_eq_ok h
      injection h with h
      injection h with h
      rw [← h, List.map_cons, List.map_cons, ih hrest]

theorem scoreFrom_cons {i : Nat} {x : Individual} {verdict : Verdict}
    (h : objective p x.tree i = .ok (.ok verdict)) (xs : Population) :
    scoreFrom p objective i (x :: xs) = (do
      let (rest, solved) ← scoreFrom p objective (i + 1) xs
      return (⟨x.tree, verdict.fitness.finalize⟩ :: rest, solved.map (verdict.solved || ·))) := by
  rw [scoreFrom, h]
  rfl

/-- An objective that answers for each individual scores a population, or fails. -/
theorem exists_scoreFrom {i : Nat} {pop : Population}
    (h : ∀ j x, pop[j]? = some x → ∃ result, objective p x.tree (i + j) = .ok result) :
    ∃ out, scoreFrom p objective i pop = .ok out := by
  induction pop generalizing i with
  | nil => exact ⟨_, rfl⟩
  | cons x xs ih =>
    obtain ⟨result, hresult⟩ : ∃ result, objective p x.tree i = .ok result := h 0 x rfl
    cases result with
    | error e =>
      rw [scoreFrom, hresult]
      exact ⟨_, rfl⟩
    | ok verdict =>
      have hrest : ∀ j y, xs[j]? = some y →
          ∃ result, objective p y.tree (i + 1 + j) = .ok result := by
        intro j y hy
        rw [Nat.add_assoc, Nat.add_comm 1 j]
        exact h (j + 1) y hy
      obtain ⟨out, hout⟩ := ih hrest
      refine ⟨(⟨x.tree, verdict.fitness.finalize⟩ :: out.1, out.2.map (verdict.solved || ·)), ?_⟩
      rw [scoreFrom_cons hresult, hout]
      rfl

/-- Where scoring succeeds, it scores the first individual and then the others. -/
theorem scoreFrom_cons_eq_ok {i : Nat} {x : Individual} {xs scored : Population} {solved : Bool}
    (h : scoreFrom p objective i (x :: xs) = .ok (scored, .ok solved)) :
    ∃ verdict rest solved', objective p x.tree i = .ok (.ok verdict) ∧
      scoreFrom p objective (i + 1) xs = .ok (rest, .ok solved') ∧
      scored = ⟨x.tree, verdict.fitness.finalize⟩ :: rest ∧
      solved = (verdict.solved || solved') := by
  obtain ⟨verdict, hverdict, h⟩ := exists_of_bind_eq_ok h
  cases verdict with
  | error e =>
    injection h with h
    injection h with _ h
    contradiction
  | ok verdict =>
    obtain ⟨⟨rest, solved'⟩, hrest, h⟩ := exists_of_bind_eq_ok h
    injection h with h
    injection h with hscored h
    cases solved' with
    | error e => contradiction
    | ok solved' =>
      injection h with h
      exact ⟨verdict, rest, solved', hverdict, hrest, hscored.symm, h.symm⟩

theorem kinds_of_vary (r : Run C) (selectors : Selectors) :
    Yields (r.vary selectors) fun out => out.2.kinds = selectors.kinds := by
  have hpick : ∀ s : Selector, Yields (r.pickPair s) fun out => out.2.kind = s.kind := by
    intro s
    refine Yields.bind (s.pickTree_kind r.population) fun first hfirst => ?_
    refine Yields.bind (first.2.pickTree_kind r.population) fun second hsecond => ?_
    exact Yields.pure (hsecond.trans hfirst)
  refine Yields.bind (Yields.trivial _) fun choice _ => ?_
  split
  · refine Yields.bind (hpick _) fun picked hpicked => ?_
    refine Yields.bind (Yields.trivial _) fun out _ => Yields.pure ?_
    rw [Selectors.kinds, hpicked, Selectors.kinds]
  · refine Yields.bind (hpick _) fun picked hpicked => ?_
    refine Yields.bind (Yields.trivial _) fun left _ => ?_
    refine Yields.bind (Yields.trivial _) fun right _ => Yields.pure ?_
    rw [Selectors.kinds, hpicked, Selectors.kinds]
  · refine Yields.bind (hpick _) fun picked hpicked => Yields.pure ?_
    rw [Selectors.kinds, hpicked, Selectors.kinds]

theorem kinds_of_offspring {slot count : Nat} {selectors last : Selectors} {trees : List Tree}
    (h : r.offspring slot count selectors = .ok (trees, last)) : last.kinds = selectors.kinds := by
  induction count generalizing slot selectors last trees with
  | zero =>
    injection h with h
    injection h with _ h
    rw [h]
  | succ count ih =>
    obtain ⟨⟨⟨⟨t, u⟩, next⟩, g⟩, hvary, h⟩ := exists_of_bind_eq_ok h
    obtain ⟨⟨rest, after⟩, hrest, h⟩ := exists_of_bind_eq_ok h
    injection h with h
    injection h with _ h
    have hnext : next.kinds = selectors.kinds := r.kinds_of_vary selectors _ _ _ hvary
    rw [← h, ih hrest, hnext]

theorem becomes_of_plantAll (h : r.plantAll = .ok (.ok r')) :
    ∃ population, r' = { r with
      population, next := [], history := [], generation := 0, solved := false
      phase := .evaluate } := by
  obtain ⟨results, -, h⟩ := exists_of_bind_eq_ok h
  split at h
  · injection h with h
    contradiction
  · next trees _ =>
    injection h with h
    injection h with h
    exact ⟨trees.map .ofTree, h.symm⟩

/-! ## What breeding makes -/

/-- Copies of the trees that are carried over. -/
def elites (r : Run C) : List Tree :=
  (r.population.bestIndividuals r.configuration.elites).map (·.tree.duplicate)

/-- The number of slots that are to be filled. -/
def pairs (r : Run C) : Nat := (r.configuration.populationSize - r.elites.length + 1) / 2

/-- The next generation, with these trees behind the elites as far as there is room. -/
def litter (r : Run C) (children : List Tree) : Population :=
  (r.elites ++ children.take (r.configuration.populationSize - r.elites.length)).map .ofTree

/-- What `breed` does, however the offspring comes about. -/
def breedWith (r : Run C)
    (offspring : Nat → Selectors → Except Fault (List Tree × Selectors)) :
    Except Fault (Except RunError (Run C)) := do
  match r.selectors.prepare r.population r.stats with
  | .error e => return .error (.selection e)
  | .ok selectors =>
    let _ ← demandBlock (individualSize * r.configuration.populationSize)
    let (children, selectors) ← offspring r.pairs selectors
    return .ok { r with selectors, next := r.litter children }

theorem breed_eq (r : Run C) : r.breed = r.breedWith (r.offspring 0) := rfl

theorem breedWith_eq_ok_iff {offspring : Nat → Selectors → Except Fault (List Tree × Selectors)} :
    r.breedWith offspring = .ok (.ok r') ↔ ∃ start block children last,
      r.selectors.prepare r.population r.stats = .ok start ∧
      demandBlock (individualSize * r.configuration.populationSize) = .ok block ∧
      offspring r.pairs start = .ok (children, last) ∧
      r' = { r with selectors := last, next := r.litter children } := by
  unfold breedWith
  constructor
  · intro h
    split at h
    · injection h with h
      contradiction
    · next start hstart =>
      obtain ⟨block, hblock, h⟩ := exists_of_bind_eq_ok h
      obtain ⟨⟨children, last⟩, hchildren, h⟩ := exists_of_bind_eq_ok h
      injection h with h
      injection h with h
      exact ⟨start, block, children, last, hstart, hblock, hchildren, h.symm⟩
  · rintro ⟨start, block, children, last, hstart, hblock, hchildren, rfl⟩
    rw [hstart]
    dsimp only
    rw [hblock, hchildren]
    rfl

theorem becomes_of_breed (h : r.breed = .ok (.ok r')) :
    ∃ selectors next, selectors.kinds = r.selectors.kinds ∧ r' = { r with selectors, next } := by
  rw [breed_eq, breedWith_eq_ok_iff] at h
  obtain ⟨start, _, children, last, hstart, -, hchildren, rfl⟩ := h
  exact ⟨last, _, (kinds_of_offspring hchildren).trans (Selectors.kinds_of_prepare hstart), rfl⟩

/-! ## Phases and steps -/

/-- A phase succeeds, or fails in one of the three ways. -/
theorem perform_cases (h : r.perform objective files = .ok s) :
    s.failure = none ∧ r.Becomes objective s.run ∨ s.failure ≠ none ∧ r.Leaves s.run := by
  unfold perform at h
  unfold Becomes Leaves
  cases hphase : r.phase with
  | initial =>
    rw [hphase] at h
    obtain ⟨result, hplant, h⟩ := exists_of_bind_eq_ok h
    injection h with h
    subst h
    cases result with
    | error e => exact .inr ⟨nofun, rfl⟩
    | ok planted =>
      obtain ⟨population, rfl⟩ := becomes_of_plantAll hplant
      exact .inl ⟨rfl, hplant, population, rfl⟩
  | evaluate =>
    rw [hphase] at h
    obtain ⟨⟨scored, result⟩, hscore, h⟩ := exists_of_bind_eq_ok h
    obtain ⟨⟨population, solved⟩, hpopulation, hscore⟩ := exists_of_bind_eq_ok hscore
    cases solved with
    | error e =>
      injection hscore with hscore
      injection hscore with hscored hresult
      subst hscored hresult
      injection h with h
      subst h
      exact .inr ⟨nofun, population, map_tree_scoreFrom hpopulation, by rw [← hphase]⟩
    | ok solved =>
      injection hscore with hscore
      injection hscore with hscored hresult
      subst hscored hresult
      injection h with h
      subst h
      exact .inl ⟨rfl, population, solved, hpopulation, rfl⟩
  | report =>
    rw [hphase] at h
    injection h with h
    subst h
    exact .inl ⟨rfl, rfl⟩
  | selectAndVary =>
    rw [hphase] at h
    obtain ⟨result, hbreed, h⟩ := exists_of_bind_eq_ok h
    injection h with h
    subst h
    cases result with
    | error e => exact .inr ⟨nofun, rfl⟩
    | ok bred =>
      obtain ⟨selectors, next, hkinds, rfl⟩ := becomes_of_breed hbreed
      exact .inl ⟨rfl, selectors, next, by rw [hbreed, ← hphase], hkinds, rfl⟩
  | swap =>
    rw [hphase] at h
    injection h with h
    subst h
    exact .inl ⟨rfl, rfl⟩
  | terminate =>
    rw [hphase] at h
    injection h with h
    subst h
    exact .inl ⟨rfl, rfl⟩

theorem step_eq_perform (hstop : r.stopRequested = false) (objective : Objective C)
    (files : Files) : r.step objective files = r.perform objective files := by
  rw [step, hstop]
  rfl

/-- A step ends a run that was asked to stop, or does what the phase asks for. -/
theorem step_cases (h : r.step objective files = .ok s) :
    s.failure = none ∧ (s.run = { r with phase := .terminate } ∨ r.Becomes objective s.run) ∨
      s.failure ≠ none ∧ r.Leaves s.run := by
  unfold step at h
  dsimp only at h
  split at h
  · injection h with h
    subst h
    exact .inl ⟨rfl, .inl rfl⟩
  · exact (perform_cases h).imp_left fun hdone => ⟨hdone.1, .inr hdone.2⟩

/-- What a step leaves alone. -/
structure Keeps (r r' : Run C) : Prop where
  palette : r'.palette = r.palette
  configuration : r'.configuration = r.configuration
  root : r'.root = r.root
  variation : r'.variation = r.variation
  stopRequested : r'.stopRequested = r.stopRequested
  sync : r'.sync = r.sync

namespace Keeps

theorem refl (r : Run C) : r.Keeps r := ⟨rfl, rfl, rfl, rfl, rfl, rfl⟩

theorem trans {r'' : Run C} (h : r.Keeps r') (h' : r'.Keeps r'') : r.Keeps r'' :=
  ⟨h'.palette.trans h.palette, h'.configuration.trans h.configuration, h'.root.trans h.root,
    h'.variation.trans h.variation, h'.stopRequested.trans h.stopRequested, h'.sync.trans h.sync⟩

end Keeps

theorem Becomes.keeps (h : r.Becomes objective r') : r.Keeps r' := by
  unfold Becomes at h
  cases hphase : r.phase <;> rw [hphase] at h
  case initial =>
    obtain ⟨-, population, rfl⟩ := h
    exact ⟨rfl, rfl, rfl, rfl, rfl, rfl⟩
  case evaluate =>
    obtain ⟨population, solved, -, rfl⟩ := h
    exact ⟨rfl, rfl, rfl, rfl, rfl, rfl⟩
  case selectAndVary =>
    obtain ⟨selectors, next, -, -, rfl⟩ := h
    exact ⟨rfl, rfl, rfl, rfl, rfl, rfl⟩
  all_goals
    subst h
    exact ⟨rfl, rfl, rfl, rfl, rfl, rfl⟩

theorem Leaves.keeps (h : r.Leaves r') : r.Keeps r' := by
  obtain ⟨population, -, rfl⟩ := h.eq_with
  exact ⟨rfl, rfl, rfl, rfl, rfl, rfl⟩

theorem keeps_of_step (h : r.step objective files = .ok s) : r.Keeps s.run := by
  rcases step_cases h with ⟨-, hrun | hbecomes⟩ | ⟨-, hleaves⟩
  · rw [hrun]
    exact ⟨rfl, rfl, rfl, rfl, rfl, rfl⟩
  · exact hbecomes.keeps
  · exact hleaves.keeps

/-- What each step keeps, any number of them keeps. -/
theorem runFor_induction {P : Run C → Prop}
    (hstep : ∀ {r : Run C} {files : Files} {s : Stepped C},
      P r → r.step objective files = .ok s → P s.run)
    {steps : Nat} (hr : P r) (h : r.runFor objective steps files = .ok s) : P s.run := by
  induction steps generalizing r files with
  | zero =>
    injection h with h
    exact h ▸ hr
  | succ steps ih =>
    obtain ⟨next, hnext, h⟩ := exists_of_bind_eq_ok h
    split at h
    · injection h with h
      exact h ▸ hstep hr hnext
    · exact ih (hstep hr hnext) h

theorem keeps_of_runFor {steps : Nat} (h : r.runFor objective steps files = .ok s) :
    r.Keeps s.run :=
  runFor_induction (fun hkeeps hs => hkeeps.trans (keeps_of_step hs)) (.refl r) h

/-- A run that has reported a generation which is not the last one. -/
def reported (r : Run C) : Run C :=
  { r with history := r.history ++ [r.stats], phase := .selectAndVary }

theorem step_report (hphase : r.phase = .report) (hstop : r.stopRequested = false)
    (hgoes : r.isFinished = false) (objective : Objective C) (files : Files) :
    r.step objective files = .ok ⟨r.reported, r.reported.flush files, none⟩ := by
  have hfinished : isFinished { r with history := r.history ++ [r.stats] } = false := hgoes
  rw [step_eq_perform hstop, perform, hphase]
  dsimp only
  rw [hphase] at hfinished
  rw [hfinished]
  rfl

/-- A step that leads to a report did not fail. -/
theorem failure_of_step (h : r.step objective files = .ok s) (hphase : s.run.phase = .report) :
    s.failure = none := by
  rcases step_cases h with ⟨hnone, -⟩ | ⟨-, hleaves⟩
  · exact hnone
  · -- a failure leaves the phase, and a report does not fail
    obtain ⟨population, -, hrun⟩ := hleaves.eq_with
    have hreport : r.phase = .report := by
      rw [hrun] at hphase
      exact hphase
    unfold Leaves at hleaves
    rw [hreport] at hleaves
    exact hleaves.elim

theorem failure_of_runFor {steps : Nat} (h : r.runFor objective steps files = .ok s)
    (hphase : s.run.phase = .report) : s.failure = none := by
  induction steps generalizing r files with
  | zero =>
    injection h with h
    subst h
    rfl
  | succ steps ih =>
    obtain ⟨next, hnext, h⟩ := exists_of_bind_eq_ok h
    split at h
    · injection h with h
      subst h
      exact failure_of_step hnext hphase
    · exact ih h

end Run

end GeneticProgramming
