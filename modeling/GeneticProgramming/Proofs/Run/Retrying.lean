import GeneticProgramming.Proofs.Run.Crew
import GeneticProgramming.Proofs.Run.Invariant

/-!
# Steps that fail and are taken again

Individuals are scored side by side and selectors are prepared in their places, one after the other,
so where a step fails it is not told how much of it was done: `Run.Fails` admits any part.  Scores
that are left behind are overwritten without being looked at, and a selector that was prepared is
prepared again to the same effect.  So a failed step makes no difference to the next one:
`Run.failure_harmless`.
-/

namespace GeneticProgramming

variable {C : Type}

/-! ## Selectors prepared in place -/

/-- The roles in the order in which their selectors are prepared. -/
def Role.all : List Role := [.crossover, .mutation, .reproduction]

namespace Selectors

/-- Prepares the selectors for some roles one after the other, up to the first one that cannot be
prepared; those before it stay prepared. -/
def prepareInPlace (pop : Population) (stats : Statistics) :
    List Role → Selectors → Selectors × Option SelectionError
  | [], s => (s, none)
  | role :: roles, s =>
    match (s.of role).prepare pop stats with
    | .error e => (s, some e)
    | .ok x => prepareInPlace pop stats roles (s.put role x)

variable {s left : Selectors} {pop : Population} {stats : Statistics} {roles : List Role}
  {role : Role} {failure : Option SelectionError} {e : SelectionError}

theorem prepare_eq_error_iff : s.prepare pop stats = .error e ↔
    (s.prepareInPlace pop stats Role.all).2 = some e := by
  simp only [prepare, Role.all, prepareInPlace, of, put]
  cases s.crossover.prepare pop stats with
  | error e' => simp [bind, Except.bind]
  | ok crossover =>
    cases s.mutation.prepare pop stats with
    | error e' => simp [bind, Except.bind]
    | ok mutation =>
      cases s.reproduction.prepare pop stats with
      | error e' => simp [bind, Except.bind]
      | ok reproduction => simp [bind, Except.bind, pure, Except.pure]

theorem of_prepareInPlace (h : s.prepareInPlace pop stats roles = (left, failure))
    (hrole : role ∉ roles) : left.of role = s.of role := by
  induction roles generalizing s with
  | nil =>
    injection h with h
    rw [h]
  | cons first roles ih =>
    obtain ⟨hne, hrest⟩ := not_or.1 (mt List.mem_cons.2 hrole)
    unfold prepareInPlace at h
    split at h
    · injection h with h
      rw [h]
    · next x _ => rw [ih h hrest, of_put_of_ne s hne]

/-- What was prepared is prepared again to the same effect. -/
theorem prepareInPlace_again (h : s.prepareInPlace pop stats roles = (left, failure))
    (hroles : roles.Nodup) : left.prepareInPlace pop stats roles = (left, failure) := by
  induction roles generalizing s with
  | nil =>
    injection h with _ h
    rw [prepareInPlace, h]
  | cons role roles ih =>
    obtain ⟨hrole, hrest⟩ := List.nodup_cons.1 hroles
    unfold prepareInPlace at h
    cases hx : (s.of role).prepare pop stats with
    | error e =>
      rw [hx] at h
      injection h with hleft hfailure
      rw [← hleft, prepareInPlace, hx, ← hfailure]
    | ok x =>
      rw [hx] at h
      have hof : left.of role = x := by rw [of_prepareInPlace h hrole, of_put]
      have hagain : x.prepare pop stats = .ok x := by
        rw [Selector.prepare_eq_of_kind (Selector.kind_of_prepare hx), hx]
      rw [prepareInPlace, hof, hagain]
      dsimp only
      rw [← hof, put_of]
      exact ih h hrest

end Selectors

/-- An objective that scores every individual of a population. -/
def Objective.Succeeds (objective : Objective C) (p : Palette C) (pop : Population) : Prop :=
  ∀ i x, pop[i]? = some x → ∃ verdict, objective p x.tree i = .ok (.ok verdict)

namespace Run

variable {p : Palette C} {r left : Run C} {objective retry : Objective C} {files : Files}
  {s : Stepped C} {e : RunError} {pop pop' scored : Population} {i : Nat}

/-! ## Individuals scored in any order -/

/-- Some individuals of a population have been scored, the others are as they were. -/
structure Rescored (p : Palette C) (objective : Objective C) (pop scored : Population) : Prop where
  length : scored.length = pop.length
  each : ∀ i x, pop[i]? = some x → scored[i]? = some x ∨ ∃ verdict,
    objective p x.tree i = .ok (.ok verdict) ∧ scored[i]? = some ⟨x.tree, verdict.fitness.finalize⟩

theorem Rescored.map_tree (h : Rescored p objective pop scored) :
    scored.map Individual.tree = pop.map Individual.tree := by
  refine List.ext_getElem? fun i => ?_
  rw [List.getElem?_map, List.getElem?_map]
  cases hx : pop[i]? with
  | none =>
    rw [List.getElem?_eq_none_iff, ← h.length, ← List.getElem?_eq_none_iff] at hx
    rw [hx]
  | some x =>
    obtain hkept | ⟨verdict, -, hscored⟩ := h.each i x hx
    · rw [hkept]
    · rw [hscored]
      rfl

/-- Where scoring one after the other fails, an individual cannot be scored, and some of the others
have been. -/
theorem rescored_of_scoreFrom {message : String}
    (h : scoreFrom p objective i pop = .ok (scored, .error message)) :
    Rescored p (fun p t j => objective p t (i + j)) pop scored ∧
      ∃ j x, pop[j]? = some x ∧ objective p x.tree (i + j) = .ok (.error message) := by
  induction pop generalizing i scored with
  | nil =>
    injection h with h
    injection h with _ h
    contradiction
  | cons x xs ih =>
    obtain ⟨result, hresult, h⟩ := exists_of_bind_eq_ok h
    cases result with
    | error e =>
      injection h with h
      injection h with hscored he
      injection he with he
      subst hscored he
      exact ⟨⟨rfl, fun _ _ hx => .inl hx⟩, 0, x, rfl, hresult⟩
    | ok verdict =>
      obtain ⟨⟨rest, solved⟩, hrest, h⟩ := exists_of_bind_eq_ok h
      injection h with h
      injection h with hscored hsolved
      cases solved with
      | ok solved => contradiction
      | error e =>
        injection hsolved with hsolved
        subst hscored hsolved
        obtain ⟨⟨hlen, heach⟩, j, y, hy, hfail⟩ := ih hrest
        refine ⟨⟨congrArg Nat.succ hlen, fun k z hz => ?_⟩, j + 1, y, hy, ?_⟩
        · cases k with
          | zero =>
            injection hz with hz
            subst hz
            exact .inr ⟨verdict, hresult, rfl⟩
          | succ k =>
            obtain hkept | ⟨v, hv, hscored⟩ := heach k z hz
            · exact .inl hkept
            · rw [Nat.add_right_comm i 1 k] at hv
              exact .inr ⟨v, hv, hscored⟩
        · rwa [Nat.add_right_comm i 1 j] at hfail

section Retry

variable (hretry : ∀ j x, pop[j]? = some x → ∃ verdict, retry p x.tree (i + j) = .ok (.ok verdict))
include hretry

/-- What trees score is told by the trees alone. -/
theorem scoreFrom_congr (htrees : pop'.map Individual.tree = pop.map Individual.tree) :
    scoreFrom p retry i pop' = scoreFrom p retry i pop := by
  induction pop generalizing pop' i with
  | nil => rw [List.map_eq_nil_iff.1 htrees]
  | cons x xs ih =>
    obtain ⟨y, ys, rfl, htree, htrees⟩ := List.map_eq_cons_iff.1 htrees
    obtain ⟨verdict, hverdict⟩ : ∃ verdict, retry p x.tree i = .ok (.ok verdict) :=
      hretry 0 x rfl
    have hrest := ih (i := i + 1) (fun j z hz => by
      rw [Nat.add_right_comm]
      exact hretry (j + 1) z hz) htrees
    rw [scoreFrom_cons hverdict, scoreFrom_cons (by rwa [htree]), hrest, htree]

theorem exists_scored : ∃ scored solved, scoreFrom p retry i pop = .ok (scored, .ok solved) := by
  obtain ⟨⟨scored, result⟩, hscored⟩ := exists_scoreFrom fun j x hx =>
    (hretry j x hx).imp' Except.ok fun _ hverdict => hverdict
  cases result with
  | ok solved => exact ⟨scored, solved, hscored⟩
  | error message =>
    obtain ⟨-, j, x, hx, hfail⟩ := rescored_of_scoreFrom hscored
    obtain ⟨verdict, hverdict⟩ := hretry j x hx
    rw [hverdict] at hfail
    injection hfail with hfail
    contradiction

end Retry

/-! ## Failing -/

/-- The errors of a step and what it leaves of a run: no tree could be planted in some slot, or some
individual could not be scored, and others have been; or a selector could not be prepared, and
those before it have been. -/
inductive Fails (objective : Objective C) (r : Run C) : RunError → Run C → Prop where
  | plant {slot : Nat} {cause : GenerationError} : r.stopRequested = false →
      r.phase = .initial → slot < r.configuration.populationSize →
      r.plant slot = .ok (.error cause) → Fails objective r (.generation cause) r
  | score {i : Nat} {x : Individual} {message : String} {population : Population} :
      r.stopRequested = false → r.phase = .evaluate → r.population[i]? = some x →
      objective r.palette x.tree i = .ok (.error message) →
      Rescored r.palette objective r.population population →
      Fails objective r (.fitness message) { r with population }
  | prepare {cause : SelectionError} {selectors : Selectors} : r.stopRequested = false →
      r.phase = .selectAndVary →
      r.selectors.prepareInPlace r.population r.stats Role.all = (selectors, some cause) →
      Fails objective r (.selection cause) { r with selectors }

/-- What a step may come to. -/
def StepsTo (objective : Objective C) (files : Files) (r : Run C) (s : Stepped C) : Prop :=
  r.step objective files = .ok s ∧ s.failure = none ∨
    ∃ e left, r.Fails objective e left ∧ s = ⟨left, files, some e⟩

/-- What no failure changes. -/
theorem Fails.eq_with (h : r.Fails objective e left) : ∃ population selectors,
    population.map Individual.tree = r.population.map Individual.tree ∧
      left = { r with population, selectors } := by
  cases h with
  | plant => exact ⟨_, _, rfl, rfl⟩
  | score _ _ _ _ hrescored => exact ⟨_, _, hrescored.map_tree, rfl⟩
  | prepare => exact ⟨_, _, rfl, rfl⟩

theorem Fails.stopRequested (h : r.Fails objective e left) : r.stopRequested = false := by
  cases h <;> assumption

theorem exists_of_plantAll_error (h : r.plantAll = .ok (.error e)) :
    ∃ slot < r.configuration.populationSize, ∃ cause,
      r.plant slot = .ok (.error cause) ∧ e = .generation cause := by
  obtain ⟨results, hresults, h⟩ := exists_of_bind_eq_ok h
  obtain ⟨-, hplanted⟩ := mapM_eq_ok hresults
  split at h
  · next cause hcause =>
    injection h with h
    injection h with h
    obtain ⟨slot, hslot, hplant⟩ := hplanted _ (error_mem_of_mapM_id hcause)
    exact ⟨slot, List.mem_range.1 hslot, cause, hplant, h.symm⟩
  · injection h with h
    contradiction

theorem exists_of_score_error {scored : Run C} (h : r.score objective = .ok (scored, .error e)) :
    ∃ population, Rescored r.palette objective r.population population ∧
      scored = { r with population } ∧ ∃ message, e = .fitness message ∧
        ∃ i x, r.population[i]? = some x ∧
          objective r.palette x.tree i = .ok (.error message) := by
  obtain ⟨⟨population, solved⟩, hpopulation, h⟩ := exists_of_bind_eq_ok h
  cases solved with
  | ok solved =>
    injection h with h
    injection h with _ h
    contradiction
  | error message =>
    injection h with h
    injection h with hscored he
    injection he with he
    obtain ⟨hrescored, i, x, hx, hfail⟩ := rescored_of_scoreFrom hpopulation
    simp only [Nat.zero_add] at hrescored hfail
    exact ⟨population, hrescored, hscored.symm, message, he.symm, i, x, hx, hfail⟩

theorem exists_of_breed_error (h : r.breed = .ok (.error e)) :
    ∃ cause, r.selectors.prepare r.population r.stats = .error cause ∧ e = .selection cause := by
  rw [breed_eq] at h
  unfold breedWith at h
  split at h
  · next cause hcause =>
    injection h with h
    injection h with h
    exact ⟨cause, hcause, h.symm⟩
  · obtain ⟨_, -, h⟩ := exists_of_bind_eq_ok h
    obtain ⟨_, -, h⟩ := exists_of_bind_eq_ok h
    injection h with h
    contradiction

/-- A step that scores and prepares in order is one of those that may fail, but for selectors that
are put back. -/
theorem fails_of_step (h : r.step objective files = .ok s) (he : s.failure = some e) :
    ∃ left, r.Fails objective e left ∧
      s = ⟨{ left with selectors := r.selectors }, files, some e⟩ := by
  cases hstop : r.stopRequested with
  | true =>
    rw [step, hstop] at h
    injection h with h
    rw [← h] at he
    contradiction
  | false =>
    rw [step_eq_perform hstop, perform] at h
    cases hphase : r.phase with
    | initial =>
      rw [hphase] at h
      obtain ⟨result, hplant, h⟩ := exists_of_bind_eq_ok h
      injection h with h
      subst h
      cases result with
      | ok next => contradiction
      | error e' =>
        injection he with he
        subst he
        obtain ⟨slot, hslot, cause, hcause, rfl⟩ := exists_of_plantAll_error hplant
        exact ⟨r, .plant hstop hphase hslot hcause, rfl⟩
    | evaluate =>
      rw [hphase] at h
      obtain ⟨⟨run, result⟩, hscore, h⟩ := exists_of_bind_eq_ok h
      cases result with
      | ok solved =>
        injection h with h
        subst h
        contradiction
      | error e' =>
        injection h with h
        subst h
        injection he with he
        subst he
        obtain ⟨population, hrescored, rfl, message, rfl, i, x, hx, hfail⟩ :=
          exists_of_score_error hscore
        exact ⟨_, .score hstop hphase hx hfail hrescored, rfl⟩
    | selectAndVary =>
      rw [hphase] at h
      obtain ⟨result, hbreed, h⟩ := exists_of_bind_eq_ok h
      injection h with h
      subst h
      cases result with
      | ok next => contradiction
      | error e' =>
        injection he with he
        subst he
        obtain ⟨cause, hcause, rfl⟩ := exists_of_breed_error hbreed
        have hsnd := Selectors.prepare_eq_error_iff.1 hcause
        exact ⟨_, .prepare hstop hphase (Prod.ext rfl hsnd), rfl⟩
    | report | swap | terminate =>
      rw [hphase] at h
      injection h with h
      subst h
      contradiction

/-! ## Taking the step again -/

theorem not_fails_of_succeeds (hphase : r.phase = .evaluate)
    (hretry : retry.Succeeds r.palette r.population) : ¬ r.Fails retry e left := by
  intro h
  cases h with
  | plant _ hinitial =>
    rw [hphase] at hinitial
    contradiction
  | score _ _ hx hfail =>
    obtain ⟨verdict, hverdict⟩ := hretry _ _ hx
    rw [hverdict] at hfail
    injection hfail with hfail
    contradiction
  | prepare _ hvary =>
    rw [hphase] at hvary
    contradiction

theorem Rescored.succeeds (h : Rescored p objective pop scored) (hretry : retry.Succeeds p pop) :
    retry.Succeeds p scored := by
  intro i y hy
  have htree := congrArg (·[i]?) h.map_tree
  simp only [List.getElem?_map, hy, Option.map_some] at htree
  obtain ⟨x, hx, hxy⟩ := Option.map_eq_some_iff.1 htree.symm
  rw [← hxy]
  exact hretry i x hx

theorem step_evaluate (hstop : r.stopRequested = false) (hphase : r.phase = .evaluate)
    (objective : Objective C) (files : Files) : r.step objective files = (do
      match ← r.score objective with
      | (scored, .ok solved) => return ⟨{ scored with solved, phase := .report }, files, none⟩
      | (scored, .error e) => return ⟨scored, files, some e⟩) := by
  have hperform := step_eq_perform hstop objective files
  rw [perform, hphase] at hperform
  exact hperform

/-- Of earlier scores nothing is left where all individuals are scored. -/
theorem step_rescored (hstop : r.stopRequested = false) (hphase : r.phase = .evaluate)
    (htrees : pop.map Individual.tree = r.population.map Individual.tree)
    (hretry : retry.Succeeds r.palette r.population) (files : Files) :
    step { r with population := pop } retry files = r.step retry files := by
  have hscore : scoreFrom r.palette retry 0 pop = scoreFrom r.palette retry 0 r.population :=
    scoreFrom_congr (fun j x hx => by rw [Nat.zero_add]; exact hretry j x hx) htrees
  rw [step_evaluate hstop hphase, step_evaluate (r := { r with population := pop }) hstop hphase,
    score, score, hscore]

/-- If the selectors are put back, the step comes to the same again. -/
theorem Fails.step_eq (h : r.Fails objective e left)
    (hretry : retry.Succeeds r.palette r.population) (files : Files) :
    step { left with selectors := r.selectors } retry files = r.step retry files := by
  cases h with
  | plant => rfl
  | score hstop hphase _ _ hrescored =>
    exact step_rescored hstop hphase hrescored.map_tree hretry files
  | prepare => rfl

theorem exists_step_evaluate (hstop : r.stopRequested = false) (hphase : r.phase = .evaluate)
    (hretry : retry.Succeeds r.palette r.population) (files : Files) :
    ∃ s, r.step retry files = .ok s ∧ s.failure = none := by
  obtain ⟨scored, solved, hscored⟩ := exists_scored (i := 0) fun j x hx => by
    rw [Nat.zero_add]
    exact hretry j x hx
  rw [step_evaluate hstop hphase, score, hscored]
  exact ⟨_, rfl, rfl⟩

theorem step_of_prepare_error {cause : SelectionError} (hstop : r.stopRequested = false)
    (hphase : r.phase = .selectAndVary)
    (h : r.selectors.prepare r.population r.stats = .error cause) (files : Files) :
    r.step objective files = .ok ⟨r, files, some (.selection cause)⟩ := by
  rw [step_eq_perform hstop, perform, hphase]
  dsimp only
  rw [breed_eq, breedWith, h]
  rfl

/-- Selectors that cannot be prepared are found in the same state at each attempt. -/
theorem fails_iff_of_prepareInPlace {cause : SelectionError} {selectors : Selectors}
    (hstop : r.stopRequested = false) (hphase : r.phase = .selectAndVary)
    (h : r.selectors.prepareInPlace r.population r.stats Role.all = (selectors, some cause)) :
    r.Fails objective e left ↔ e = .selection cause ∧ left = { r with selectors } := by
  constructor
  · intro hfails
    cases hfails with
    | plant _ hinitial =>
      rw [hphase] at hinitial
      contradiction
    | score _ hevaluate =>
      rw [hphase] at hevaluate
      contradiction
    | prepare _ _ hprepare =>
      rw [h] at hprepare
      injection hprepare with hselectors hcause
      injection hcause with hcause
      subst hselectors hcause
      exact ⟨rfl, rfl⟩
  · rintro ⟨rfl, rfl⟩
    exact .prepare hstop hphase h

/-- Once a step has failed, it may come to what it might have come to before. -/
theorem Fails.stepsTo_iff (h : r.Fails objective e left)
    (hretry : retry.Succeeds r.palette r.population) :
    left.StepsTo retry files s ↔ r.StepsTo retry files s := by
  cases h with
  | plant => exact Iff.rfl
  | @score i x message population hstop hphase hx hfail hrescored =>
    have hleft : ∀ e l, ¬ Fails retry { r with population } e l := fun e l =>
      not_fails_of_succeeds hphase (hrescored.succeeds hretry)
    have hright : ∀ e l, ¬ r.Fails retry e l := fun e l => not_fails_of_succeeds hphase hretry
    unfold StepsTo
    rw [step_rescored hstop hphase hrescored.map_tree hretry]
    simp only [hleft, hright]
  | @prepare cause selectors hstop hphase hprepare =>
    have hagain := Selectors.prepareInPlace_again hprepare (by decide)
    have herror : ∀ {t : Selectors},
        t.prepareInPlace r.population r.stats Role.all = (selectors, some cause) →
          t.prepare r.population r.stats = .error cause := fun ht =>
      Selectors.prepare_eq_error_iff.2 (congrArg Prod.snd ht)
    have hnever : ∀ run : Run C,
        ¬ (Except.ok ⟨run, files, some (.selection cause)⟩ = (.ok s : Except Fault (Stepped C)) ∧
          s.failure = none) := by
      rintro run ⟨hs, hnone⟩
      injection hs with hs
      rw [← hs] at hnone
      contradiction
    unfold StepsTo
    rw [step_of_prepare_error hstop hphase (herror hprepare),
      step_of_prepare_error (r := { r with selectors }) hstop hphase (herror hagain)]
    simp only [hnever, fails_iff_of_prepareInPlace hstop hphase hprepare,
      fails_iff_of_prepareInPlace (r := { r with selectors }) hstop hphase hagain]

/-- A failed step changes neither the phase nor the generation nor what was reported nor a tree,
and to take it again with an objective that scores every individual comes to what it might have come
to in the first place. -/
theorem failure_harmless (r : Run C) (objective : Objective C) :
    (∀ files s e, r.step objective files = .ok s → s.failure = some e → s.files = files ∧
      (∃ left, r.Fails objective e left ∧ s.run = { left with selectors := r.selectors }) ∧
      ∀ retry : Objective C, retry.Succeeds r.palette r.population → ∀ files,
        s.run.step retry files = r.step retry files) ∧
    ∀ e left, r.Fails objective e left →
      left.phase = r.phase ∧ left.generation = r.generation ∧ left.history = r.history ∧
      left.stats = r.stats ∧
      left.population.map Individual.tree = r.population.map Individual.tree ∧
      ∀ retry : Objective C, retry.Succeeds r.palette r.population → ∀ files,
        (∀ s, left.StepsTo retry files s ↔ r.StepsTo retry files s) ∧
        (r.phase = .evaluate → ∃ s, left.step retry files = .ok s ∧ r.step retry files = .ok s ∧
          s.failure = none) := by
  refine ⟨fun files s e hs he => ?_, fun e left h => ?_⟩
  · obtain ⟨left, hfails, rfl⟩ := fails_of_step hs he
    exact ⟨rfl, ⟨left, hfails, rfl⟩, fun retry hretry => hfails.step_eq hretry⟩
  · obtain ⟨population, selectors, htrees, hleft⟩ := h.eq_with
    refine ⟨by rw [hleft], by rw [hleft], by rw [hleft], by rw [hleft], by rw [hleft, htrees],
      fun retry hretry files => ⟨fun s => h.stepsTo_iff hretry, fun hphase => ?_⟩⟩
    obtain ⟨s, hs, hnone⟩ := exists_step_evaluate h.stopRequested hphase hretry files
    rcases (h.stepsTo_iff hretry).2 (.inl ⟨hs, hnone⟩) with ⟨hagain, -⟩ | ⟨e', l, -, rfl⟩
    · exact ⟨s, hagain, hs, hnone⟩
    · contradiction

/-- A coin that was tossed. -/
def tossed (side : UInt64) : Tree := ⟨[⟨0, 8, ⟨true, false⟩⟩], ⟨[⟨[.word side], [], 511⟩], none⟩⟩

/-- Two coins, of which neither was scored.  The wheel needs shares that are not there. -/
def twoCoins (phase : Phase) : Run Unit where
  palette := coins
  configuration := lone
  root := 0
  variation := ⟨[], .zero⟩
  selectors := ⟨.walk false [] 0, .random, .roulette []⟩
  population := [.ofTree (tossed 0), .ofTree (tossed 1)]
  next := []
  stats := .zero
  history := []
  generation := 0
  phase
  solved := false
  stopRequested := false
  sync := none

/-- Small trees are fit, but for the first one, which is not scored at all. -/
def latecomer : Objective Unit :=
  fun p t i => if i = 0 then .ok (.error "lost") else smallness p t i

/-- The second coin was scored before the first one was found to be lost. -/
def oneScored : Run Unit :=
  { twoCoins .evaluate with
    population := [.ofTree (tossed 0),
      ⟨tossed 1, { Fitness.unscored with standardized := .ofNat 1 }.finalize⟩] }

def twoPrepared : Run Unit :=
  { twoCoins .selectAndVary with
    selectors := ((twoCoins .selectAndVary).selectors.prepareInPlace
      (twoCoins .selectAndVary).population .zero Role.all).1 }

theorem fails_lost : (twoCoins .evaluate).Fails latecomer (.fitness "lost") oneScored := by
  refine .score rfl rfl (i := 0) rfl rfl ⟨rfl, fun i x hx => ?_⟩
  match i with
  | 0 => exact .inl hx
  | 1 =>
    injection hx with hx
    subst hx
    exact .inr ⟨_, rfl, rfl⟩
  | _ + 2 => contradiction

theorem fails_shareless : (twoCoins .selectAndVary).Fails smallness
    (.selection .missingNormalizedFitness) twoPrepared :=
  .prepare rfl rfl rfl

theorem succeeds_smallness (pop : Population) : smallness.Succeeds coins pop :=
  fun _ _ _ => ⟨_, rfl⟩

theorem failure_harmless_coins :
    (twoCoins .evaluate).step latecomer .empty =
      .ok ⟨twoCoins .evaluate, .empty, some (.fitness "lost")⟩ ∧
    (∃ left, (twoCoins .evaluate).Fails latecomer (.fitness "lost") left) ∧
    (twoCoins .evaluate).Fails latecomer (.fitness "lost") oneScored ∧
    (∃ s, oneScored.step smallness .empty = .ok s ∧
      (twoCoins .evaluate).step smallness .empty = .ok s ∧ s.failure = none) ∧
    (twoCoins .selectAndVary).Fails smallness (.selection .missingNormalizedFitness) twoPrepared ∧
    ∀ s, twoPrepared.StepsTo smallness .empty s ↔
      (twoCoins .selectAndVary).StepsTo smallness .empty s := by
  have hstep : (twoCoins .evaluate).step latecomer .empty =
      .ok ⟨twoCoins .evaluate, .empty, some (.fitness "lost")⟩ := rfl
  obtain ⟨-, ⟨left, hleft, -⟩, -⟩ :=
    (failure_harmless (twoCoins .evaluate) latecomer).1 _ _ _ hstep rfl
  obtain ⟨-, -, -, -, -, hscored⟩ :=
    (failure_harmless (twoCoins .evaluate) latecomer).2 _ _ fails_lost
  obtain ⟨-, -, -, -, -, hprepared⟩ :=
    (failure_harmless (twoCoins .selectAndVary) smallness).2 _ _ fails_shareless
  exact ⟨hstep, ⟨left, hleft⟩, fails_lost,
    (hscored smallness (succeeds_smallness _) .empty).2 rfl, fails_shareless,
    (hprepared smallness (succeeds_smallness _) .empty).1⟩

end Run

end GeneticProgramming
