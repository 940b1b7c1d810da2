import GeneticProgramming.Proofs.Run.Lineage

/-!
# What is selected from

A run selects from a population that it has scored, with the statistics of these scores, as long as
nothing is saved out of turn.  A state does not tell what its run was about to do, and each run that
loads it goes on selecting.  So a population that was saved before it was scored is selected from as
it is; and only through such a population can this happen: `Run.Lineage.selects_scored`.
-/

namespace GeneticProgramming

variable {C : Type} {p : Palette C}

/-- Each individual has the scores that an objective gave to its tree, or to the tree that it was
read from, at its place. -/
def Objective.HasScored (objective : Objective C) (p : Palette C) (pop : Population) : Prop :=
  ∀ i x, pop[i]? = some x → ∃ t verdict, Tree.Alike t x.tree ∧
    objective p t i = .ok (.ok verdict) ∧ x.fitness = verdict.fitness.finalize

theorem Objective.HasScored.congr {objective : Objective C} {pop pop' : Population}
    (h : objective.HasScored p pop) (hpop : pop.Alike pop') : objective.HasScored p pop' := by
  intro i x hx
  have hrel := hpop.getElem? i
  rw [hx] at hrel
  generalize hfound : pop[i]? = found at hrel
  cases hrel with
  | some hxy =>
    obtain ⟨t, verdict, halike, hverdict, hfitness⟩ := h i _ hfound
    exact ⟨t, verdict, halike.trans hxy.tree, hverdict, hxy.fitness.symm.trans hfitness⟩

namespace Run

variable {r r' source target loaded : Run C} {objective : Objective C} {files : Files}
  {s : Stepped C} {bytes : Bytes} {May : Run C → Prop}

/-- A run whose population has been scored, and whose statistics are of these scores. -/
structure IsScored (objective : Objective C) (r : Run C) : Prop where
  fitness : objective.HasScored r.palette r.population
  stats : r.stats = .ofPopulation r.population

/-! ## Scoring -/

theorem scores_of_scoreFrom {i : Nat} {pop scored : Population} {solved : Bool}
    (h : scoreFrom p objective i pop = .ok (scored, .ok solved)) {j : Nat} {x : Individual}
    (hx : scored[j]? = some x) : ∃ verdict, objective p x.tree (i + j) = .ok (.ok verdict) ∧
      x.fitness = verdict.fitness.finalize := by
  induction pop generalizing i scored solved j with
  | nil =>
    injection h with h
    injection h with h
    rw [← h] at hx
    contradiction
  | cons y ys ih =>
    obtain ⟨verdict, rest, solved', hverdict, hrest, rfl, -⟩ := scoreFrom_cons_eq_ok h
    cases j with
    | zero =>
      injection hx with hx
      subst hx
      exact ⟨verdict, hverdict, rfl⟩
    | succ j =>
      obtain ⟨v, hv, hfitness⟩ := ih hrest hx
      exact ⟨v, by rwa [Nat.add_right_comm] at hv, hfitness⟩

namespace IsScored

theorem of_scoreFrom {population : Population} {solved : Bool}
    (hscore : scoreFrom r.palette objective 0 r.population = .ok (population, .ok solved)) :
    IsScored objective { r with
      population, solved, stats := .ofPopulation population, phase := .report } := by
  refine ⟨fun i x hx => ?_, rfl⟩
  obtain ⟨verdict, hverdict, hfitness⟩ := scores_of_scoreFrom hscore hx
  rw [Nat.zero_add] at hverdict
  exact ⟨x.tree, verdict, .refl x.tree, hverdict, hfitness⟩

/-- Whether a run is scored is told by its population and its statistics. -/
theorem congr (h : r.IsScored objective) (hpalette : r.palette = r'.palette)
    (hpop : r.population.Alike r'.population) (hstats : r.stats = r'.stats) :
    r'.IsScored objective :=
  ⟨hpalette ▸ h.fitness.congr hpop, hstats ▸ h.stats.trans hpop.statistics⟩

end IsScored

/-! ## What holds in each phase -/

/-- A run that is neither about to score its population nor was stopped before it could. -/
def IsSettled (objective : Objective C) (r : Run C) : Prop :=
  r.phase = .evaluate ∨ r.phase = .terminate → r.IsScored objective

/-- From its report on, until the next one takes its place, a population is scored. -/
structure Standing (objective : Objective C) (r : Run C) : Prop where
  initial : r.phase = .initial → r.population = []
  scored : r.phase = .report ∨ r.phase = .selectAndVary ∨ r.phase = .swap → r.IsScored objective

namespace Standing

/-- Nothing has to be known of the scores before an evaluation, and after the end. -/
theorem of_phase (h : r.phase = .evaluate ∨ r.phase = .terminate) : r.Standing objective := by
  have hother : r.phase ≠ .initial ∧ r.phase ≠ .report ∧ r.phase ≠ .selectAndVary ∧
      r.phase ≠ .swap := by
    rcases h with h | h
    all_goals
      rw [h]
      decide
  obtain ⟨hinitial, hreport, hselects, hswap⟩ := hother
  refine ⟨fun h => absurd h hinitial, ?_⟩
  rintro (h | h | h)
  · exact absurd h hreport
  · exact absurd h hselects
  · exact absurd h hswap

theorem of_isScored (h : r.IsScored objective) (hinitial : r.phase ≠ .initial) :
    r.Standing objective :=
  ⟨fun hphase => absurd hphase hinitial, fun _ => h⟩

theorem of_becomes (h : r.Standing objective) (hbecomes : r.Becomes objective r') :
    r'.Standing objective := by
  unfold Becomes at hbecomes
  cases hphase : r.phase <;> rw [hphase] at hbecomes
  case initial =>
    obtain ⟨-, population, rfl⟩ := hbecomes
    exact of_phase (.inl rfl)
  case evaluate =>
    obtain ⟨population, solved, hscore, rfl⟩ := hbecomes
    exact of_isScored (.of_scoreFrom hscore) nofun
  case report =>
    have hscored := h.scored (.inl hphase)
    subst hbecomes
    refine of_isScored (hscored.congr rfl (.refl r.population) rfl) ?_
    cases r.isFinished <;> nofun
  case selectAndVary =>
    have hscored := h.scored (.inr (.inl hphase))
    obtain ⟨selectors, next, -, -, rfl⟩ := hbecomes
    exact of_isScored (hscored.congr rfl (.refl r.population) rfl) nofun
  case swap =>
    subst hbecomes
    exact of_phase (.inl rfl)
  case terminate =>
    subst hbecomes
    exact h

theorem of_leaves (h : r.Standing objective) (hleaves : r.Leaves r') : r'.Standing objective := by
  unfold Leaves at hleaves
  split at hleaves
  · exact hleaves ▸ h
  · exact hleaves ▸ h
  · next hphase =>
    obtain ⟨population, -, rfl⟩ := hleaves
    exact of_phase (.inl hphase)
  · exact hleaves.elim

theorem step (h : r.Standing objective) (hs : r.step objective files = .ok s) :
    s.run.Standing objective := by
  rcases step_cases hs with ⟨-, hrun | hbecomes⟩ | ⟨-, hleaves⟩
  · rw [hrun]
    exact of_phase (.inr rfl)
  · exact h.of_becomes hbecomes
  · exact h.of_leaves hleaves

end Standing

/-! ## Loading -/

theorem phase_resume (target source : Run C) : (target.resume source.repacked).phase =
    if source.population.isEmpty then .initial else .selectAndVary := by
  change (if (source.population.map Individual.packed).isEmpty then _ else _) = _
  rw [List.isEmpty_map]

/-- What was saved is scored where it is loaded if it was where it was saved. -/
theorem isScored_resume_iff (hpalette : target.palette = source.palette) :
    (target.resume source.repacked).IsScored objective ↔ source.IsScored objective :=
  ⟨fun h => h.congr hpalette source.repacked_alike.symm rfl,
    fun h => h.congr hpalette.symm source.repacked_alike rfl⟩

/-- What a run holds once it is scored, or has nothing to score, is no worse where it is loaded. -/
theorem Standing.resume (h : source.Standing objective) (hsettled : source.IsSettled objective)
    (hpalette : target.palette = source.palette) :
    (target.resume source.repacked).Standing objective := by
  have hphase := phase_resume target source
  cases hempty : source.population.isEmpty with
  | true =>
    -- nothing is there to select from, and the run starts over
    rw [hempty, if_pos rfl] at hphase
    refine ⟨fun _ => ?_, fun hscored => ?_⟩
    · change source.population.map Individual.packed = []
      rw [List.isEmpty_iff.1 hempty]
      rfl
    · rw [hphase] at hscored
      rcases hscored with h | h | h <;> contradiction
  | false =>
    rw [hempty, if_neg Bool.false_ne_true] at hphase
    refine of_isScored ((isScored_resume_iff hpalette).2 ?_) (by rw [hphase]; nofun)
    cases hsaved : source.phase with
    | initial =>
      rw [h.initial hsaved] at hempty
      contradiction
    | evaluate => exact hsettled (.inl hsaved)
    | selectAndVary => exact h.scored (.inr (.inl hsaved))
    | swap => exact h.scored (.inr (.inr hsaved))
    | report => exact h.scored (.inl hsaved)
    | terminate => exact hsettled (.inr hsaved)

theorem standing_of_new {c : Configuration} (h : Run.new p c = .ok (.ok r)) :
    r.Standing objective := by
  obtain ⟨-, root, variation, -, -, rfl⟩ := new_eq_ok h
  refine ⟨fun _ => rfl, ?_⟩
  rintro (h | h | h) <;> contradiction

namespace Lineage

theorem standing (hp : p.IsBuilt) (hmemory : p.Addressable) (hsize : p.size ≤ 2 ^ 32)
    (hsettled : ∀ source, May source → source.IsSettled objective)
    (h : Lineage p objective May r) : r.Standing objective := by
  induction h with
  | new hnew => exact standing_of_new hnew
  | step _ hs ih => exact ih.step hs
  | stop _ _ ih => exact ⟨ih.initial, fun h => (ih.scored h).congr rfl (.refl _) rfl⟩
  | sync _ _ ih => exact ⟨ih.initial, fun h => (ih.scored h).congr rfl (.refl _) rfl⟩
  | load htarget hsource hmay hsaves hload _ hstanding =>
    have hpalette := (htarget.isTyped hp hmemory hsize).palette
    rw [hsource.loadState_eq hp hmemory hsize hsaves hpalette hload]
    refine hstanding.resume (hsettled _ hmay) (hpalette.trans ?_)
    exact (hsource.isTyped hp hmemory hsize).palette.symm

/-- In each run that comes of steps, saving and loading, what is reported and selected from has its
scores from the fitness function, and the statistics are of these scores, as long as no run is loaded
that was saved unscored when it was about to score, or stopped before it could.  This is needed: what
any run saved is loaded by each other one, as far as the palette's schema can be read at all, with
individuals and statistics as they were, scored or not; and unless there are none of them they are
selected from next. -/
theorem selects_scored (hp : p.IsBuilt) (hmemory : p.Addressable) (hsize : p.size ≤ 2 ^ 32)
    (h : Lineage p objective May r) :
    ((∀ source, May source → source.IsSettled objective) →
        r.phase = .report ∨ r.phase = .selectAndVary ∨ r.phase = .swap → r.IsScored objective) ∧
      ∀ (target : Run C) bytes, target.palette = p → r.Saves bytes →
        (p.Portable → ∃ loaded, target.loadState bytes = .ok loaded) ∧
        ∀ loaded, target.loadState bytes = .ok loaded →
          r.population.Alike loaded.population ∧ loaded.stats = r.stats ∧
            (loaded.IsScored objective ↔ r.IsScored objective) ∧
            loaded.phase = if r.population.isEmpty then .initial else .selectAndVary := by
  have htyped := h.isTyped hp hmemory hsize
  refine ⟨fun hsettled => (h.standing hp hmemory hsize hsettled).scored, ?_⟩
  intro target bytes hpalette hsaves
  refine ⟨fun hport => ⟨_, hsaves.loadState_eq hp hport htyped hpalette⟩, fun loaded hload => ?_⟩
  rw [h.loadState_eq hp hmemory hsize hsaves hpalette hload]
  exact ⟨r.repacked_alike, rfl, isScored_resume_iff (hpalette.trans htyped.palette.symm),
    phase_resume target r⟩

end Lineage

/-! ### A lone run that loads what it saved -/

/-- Whether a run can save its state. -/
def isSavable (r : Run C) : Bool :=
  r.writeState.failure.isNone && r.history.length < 2 ^ 64 &&
    (r.stats :: r.history).all (·.normalized.length < 2 ^ 64) && r.population.length < 2 ^ 64 &&
    r.population.all fun x => x.tree.size < 2 ^ 64 && x.tree.values.size < 2 ^ 64

theorem saves_of_isSavable (h : r.isSavable = true) : r.Saves r.writeState.bytes := by
  simp only [isSavable, Bool.and_eq_true, decide_eq_true_eq, List.all_eq_true,
    Option.isNone_iff_eq_none] at h
  obtain ⟨⟨⟨⟨hwhole, hhistory⟩, hshares⟩, hsize⟩, htrees⟩ := h
  refine ⟨?_, ⟨hhistory, hshares, hsize⟩, fun x hx => ⟨(htrees x hx).1, (htrees x hx).2⟩⟩
  rw [Output.ofBytes, ← hwhole]

/-- Whether a run that loads what it just saved goes on to select from individuals without scores,
with statistics of none of them. -/
def selectsUnscored (r : Run Unit) : Bool :=
  match r.loadState r.writeState.bytes with
  | .error _ => false
  | .ok loaded =>
    loaded.phase = .selectAndVary && loaded.stats ≠ .ofPopulation loaded.population &&
      loaded.population.all (·.fitness = .zero) &&
      (loaded.step smallness .empty).toOption.any (·.run.phase = .swap)

theorem exists_planted : ∃ start s, Run.new coins lone = .ok (.ok start) ∧
    start.step smallness .empty = .ok s ∧
      (s.run.isSavable && s.run.selectsUnscored) = true :=
  exists_of_trial (f := fun start => start.step smallness .empty) (by decide +kernel)

/-- A run that was planted, and is saved and loaded before it is scored, selects from individuals
that have no scores. -/
theorem unscored_selected : ∃ r s, Lineage coins smallness (fun _ => True) r ∧
    r.phase = .selectAndVary ∧ r.step smallness .empty = .ok s ∧ s.run.phase = .swap ∧
    (∀ x ∈ r.population, x.fitness = .zero) ∧ ¬ r.IsScored smallness := by
  obtain ⟨start, planted, hnew, hstep, htest⟩ := exists_planted
  rw [Bool.and_eq_true] at htest
  obtain ⟨hsavable, hselects⟩ := htest
  have hplanted : Lineage coins smallness (fun _ => True) planted.run := .step (.new hnew) hstep
  unfold selectsUnscored at hselects
  split at hselects
  · contradiction
  · next loaded hload =>
    simp only [Bool.and_eq_true, decide_eq_true_eq, List.all_eq_true, ne_eq, decide_not,
      Bool.not_eq_true', decide_eq_false_iff_not, Option.any_eq_true] at hselects
    obtain ⟨⟨⟨hphase, hstats⟩, hzero⟩, s, hs, hswap⟩ := hselects
    have hloaded : Lineage coins smallness (fun _ => True) loaded :=
      .load hplanted hplanted trivial (saves_of_isSavable hsavable) hload
    refine ⟨loaded, s, hloaded, hphase, ?_, hswap, hzero, fun hscored => hstats hscored.stats⟩
    cases hresult : loaded.step smallness .empty with
    | error e =>
      rw [hresult] at hs
      contradiction
    | ok result =>
      rw [hresult] at hs
      exact congrArg Except.ok (Option.some.inj hs)

theorem exists_selecting : ∃ start s, Run.new coins lone = .ok (.ok start) ∧
    runFor smallness 3 start .empty = .ok s ∧
      (s.run.phase = .selectAndVary && s.run.isSavable) = true :=
  exists_of_trial (f := fun start => runFor smallness 3 start .empty) (by decide +kernel)

theorem selects_scored_coins : coins.IsBuilt ∧ coins.Addressable ∧ coins.size ≤ 2 ^ 32 ∧
    ∃ r bytes loaded, Lineage coins smallness (IsSettled smallness) r ∧ r.phase = .selectAndVary ∧
      r.Saves bytes ∧ r.loadState bytes = .ok loaded ∧ r.IsScored smallness ∧
      r.population.Alike loaded.population ∧ loaded.stats = r.stats ∧
      (loaded.IsScored smallness ↔ r.IsScored smallness) := by
  obtain ⟨start, s, hnew, hrun, htest⟩ := exists_selecting
  simp only [Bool.and_eq_true, decide_eq_true_eq] at htest
  obtain ⟨hphase, hsavable⟩ := htest
  have hlineage : Lineage coins smallness (IsSettled smallness) s.run := .runFor (.new hnew) hrun
  have hmemory := portable_coins.addressable isBuilt_coins
  have hsaves := saves_of_isSavable hsavable
  obtain ⟨hselects, hloads⟩ :=
    Lineage.selects_scored isBuilt_coins hmemory (by decide) hlineage
  have hpalette := (hlineage.isTyped isBuilt_coins hmemory (by decide)).palette
  obtain ⟨hsome, hloaded⟩ := hloads s.run _ hpalette hsaves
  obtain ⟨loaded, hload⟩ := hsome portable_coins
  obtain ⟨hpopulation, hstats, hscored, -⟩ := hloaded loaded hload
  exact ⟨isBuilt_coins, hmemory, by decide, s.run, _, loaded, hlineage, hphase, hsaves, hload,
    hselects (fun _ h => h) (.inr (.inl hphase)), hpopulation, hstats, hscored⟩

end Run

end GeneticProgramming
