import GeneticProgramming.Proofs.Run.Cycle
import GeneticProgramming.Proofs.Run.Scored

/-!
# Generations beyond the last one

Only a report asks whether a run is over, and a run that loads a state goes on behind the report.
So one generation is bred from whatever was loaded, even from a last one or from one that was
solved; its report ends the run, unless the last generation still lies ahead.  This is
`Run.resumed_generation`.
-/

namespace GeneticProgramming

namespace Run

variable {C : Type} {p : Palette C} {r target loaded : Run C} {objective : Objective C}
  {files : Files} {s : Stepped C} {bytes : Bytes}

/-! ## Where a resumed run stands -/

theorem loadState_eq_ok (h : target.loadState bytes = .ok loaded) :
    ∃ saved, loaded = target.resume saved := by
  obtain ⟨⟨saved, rest⟩, -, h⟩ := exists_of_bind_eq_ok h
  injection h with h
  exact ⟨saved, h.symm⟩

/-- Whatever was loaded, at most one generation follows it that is not configured. -/
theorem under_resume (target : Run C) (saved : SavedState) :
    Under (max target.configuration.maxGenerations ((target.resume saved).generation + 1))
      (target.resume saved) := by
  have hlt : (target.resume saved).generation <
      max target.configuration.maxGenerations ((target.resume saved).generation + 1) :=
    Nat.lt_of_lt_of_le (Nat.lt_succ_self _) (Nat.le_max_right _ _)
  unfold Under
  split
  · exact hlt
  · exact hlt
  · exact Nat.le_of_lt hlt

theorem Reached.under {start : Run C} {last : Nat} (h : Reached start r)
    (hlast : start.configuration.maxGenerations ≤ last) (hstart : Under last start) :
    r.configuration = start.configuration ∧ Under last r := by
  induction h with
  | refl => exact ⟨rfl, hstart⟩
  | step _ hs ih =>
    obtain ⟨hconfiguration, hunder⟩ := ih
    constructor
    · exact (keeps_of_step hs).configuration.trans hconfiguration
    · exact hunder.step (hconfiguration ▸ hlast) hs
  | stop _ _ ih => exact ih
  | sync _ _ ih => exact ih

/-! ## The generation that follows -/

theorem becomes_of_step (hstop : r.stopRequested = false) (hs : r.step objective files = .ok s)
    (hok : s.failure = none) : r.Becomes objective s.run := by
  rcases perform_cases (perform_of_step hstop hs) with ⟨-, hbecomes⟩ | ⟨hfailure, -⟩
  · exact hbecomes
  · exact absurd hok hfailure

/-- A generation is bred and takes the place of the current one, whichever that is. -/
theorem generation_of_bred {s' : Stepped C} {objective' : Objective C} {files' : Files}
    (hphase : r.phase = .selectAndVary) (hstop : r.stopRequested = false)
    (hs : r.step objective files = .ok s) (hok : s.failure = none)
    (hs' : s.run.step objective' files' = .ok s') :
    s'.run.phase = .evaluate ∧ s'.run.generation = r.generation + 1 := by
  have hbred := becomes_of_step hstop hs hok
  have hstop' : s.run.stopRequested = false := hbred.keeps.stopRequested.trans hstop
  unfold Becomes at hbred
  rw [hphase] at hbred
  obtain ⟨selectors, next, -, -, hrun⟩ := hbred
  have hswap : s.run.phase = .swap := congrArg Run.phase hrun
  rcases perform_cases (perform_of_step hstop' hs') with ⟨-, hbecomes⟩ | ⟨-, hleaves⟩
  · unfold Becomes at hbecomes
    rw [hswap] at hbecomes
    rw [hbecomes, hrun]
    exact ⟨rfl, rfl⟩
  · unfold Leaves at hleaves
    rw [hswap] at hleaves
    exact hleaves.elim

/-- No steps take a run that loaded generation `k` beyond the last generation that it is configured
for, or beyond generation `k + 1` if that comes later.  Generation `k + 1` comes in any case, unless
the run is stopped or cannot breed. -/
theorem resumed_generation (hload : target.loadState bytes = .ok loaded) :
    loaded.generation = loaded.history.length - 1 ∧
      (∀ r, Reached loaded r →
        r.generation ≤ max target.configuration.maxGenerations (loaded.generation + 1)) ∧
      (loaded.population ≠ [] → target.stopRequested = false →
        ∀ objective files s, loaded.step objective files = .ok s → s.failure = none →
          ∀ objective' files' s', s.run.step objective' files' = .ok s' →
            s'.run.phase = .evaluate ∧ s'.run.generation = loaded.generation + 1) := by
  obtain ⟨saved, rfl⟩ := loadState_eq_ok hload
  refine ⟨rfl, ?_, ?_⟩
  · intro r hreached
    exact (hreached.under (Nat.le_max_left _ _) (target.under_resume saved)).2.le
  · intro hsome hstop objective files s hs hok objective' files' s' hs'
    have hempty : saved.population.isEmpty = false := List.isEmpty_eq_false_iff.2 hsome
    have hphase : (target.resume saved).phase = .selectAndVary := by
      change (if saved.population.isEmpty then _ else _) = _
      rw [hempty]
      rfl
    exact generation_of_bred hphase hstop hs hok hs'

/-! ### A run that goes on from its last generation -/

/-- What a run that saves its state loads, and how that ends. -/
def again? (r : Run Unit) : Option (Run Unit × Stepped Unit) := do
  let loaded ← (r.loadState r.writeState.bytes).toOption
  return (loaded, ← (loaded.finish smallness .empty).toOption)

theorem again?_eq_some {r loaded : Run Unit} {s : Stepped Unit}
    (h : r.again? = some (loaded, s)) :
    r.loadState r.writeState.bytes = .ok loaded ∧ loaded.finish smallness .empty = .ok s := by
  obtain ⟨found, hload, h⟩ := Option.bind_eq_some_iff.1 h
  obtain ⟨ended, hfinish, h⟩ := Option.bind_eq_some_iff.1 h
  injection h with h
  injection h with hfound hended
  subst hfound hended
  exact ⟨eq_ok_of_toOption hload, eq_ok_of_toOption hfinish⟩

/-- Whether a run is over in generation 1, and reports generation 2 once it has loaded what it
saves. -/
def overruns (r : Run Unit) : Bool :=
  r.phase = .terminate && r.generation = 1 && r.history.length = 2 && r.isSavable &&
    r.again?.any fun (loaded, s) => loaded.generation = 1 && s.run.generation = 2 &&
      s.run.history.length = 3

theorem exists_overrun : ∃ start s, Run.new coins lone = .ok (.ok start) ∧
    start.finish smallness .empty = .ok s ∧ s.run.overruns = true :=
  exists_of_trial (by decide +kernel)

/-- A run that is over in its last generation reports another one after it has loaded what it
saved. -/
theorem last_overrun : ∃ start r loaded r', Run.new coins lone = .ok (.ok start) ∧
    Reached start r ∧ r.phase = .terminate ∧ r.generation = lone.maxGenerations ∧
    r.Saves r.writeState.bytes ∧ r.loadState r.writeState.bytes = .ok loaded ∧
    loaded.generation = r.generation ∧ Reached loaded r' ∧
    max lone.maxGenerations loaded.generation < r'.generation ∧
    r'.history.length = r.history.length + 1 := by
  obtain ⟨start, s, hnew, hfinish, htest⟩ := exists_overrun
  simp only [overruns, Bool.and_eq_true, decide_eq_true_eq, Option.any_eq_true] at htest
  obtain ⟨⟨⟨⟨hphase, hgeneration⟩, hlength⟩, hsavable⟩, ⟨loaded, again⟩, hagain, hlater⟩ := htest
  obtain ⟨hload, hend⟩ := again?_eq_some hagain
  obtain ⟨⟨hloaded, hgoes⟩, hreported⟩ := hlater
  refine ⟨start, s.run, loaded, again.run, hnew, Reached.refl.runFor hfinish, hphase, hgeneration,
    saves_of_isSavable hsavable, hload, hloaded.trans hgeneration.symm, Reached.refl.runFor hend,
    ?_, ?_⟩
  · rw [hloaded, hgoes]
    decide
  · rw [hreported, hlength]

/-- Whether a run can breed, and take over what it bred. -/
def breeds (r : Run Unit) : Bool :=
  !r.population.isEmpty && !r.stopRequested && (r.step smallness .empty).toOption.any fun s =>
    s.failure.isNone && (s.run.step smallness .empty).toOption.isSome

theorem exists_breeding : ∃ start s, Run.new coins lone = .ok (.ok start) ∧
    start.finish smallness .empty = .ok s ∧
      (s.run.again?.any fun (loaded, _) => loaded.breeds) = true :=
  exists_of_trial (by decide +kernel)

theorem resumed_generation_coins : ∃ target loaded : Run Unit, ∃ bytes s s',
    target.loadState bytes = .ok loaded ∧ loaded.population ≠ [] ∧ target.stopRequested = false ∧
    loaded.step smallness .empty = .ok s ∧ s.failure = none ∧
    s.run.step smallness .empty = .ok s' ∧ s'.run.phase = .evaluate ∧
    s'.run.generation = loaded.generation + 1 := by
  obtain ⟨start, ended, -, -, htest⟩ := exists_breeding
  rw [Option.any_eq_true] at htest
  obtain ⟨⟨loaded, again⟩, hagain, hbreeds⟩ := htest
  have hload := (again?_eq_some hagain).1
  simp only [breeds, Bool.and_eq_true, Bool.not_eq_true', List.isEmpty_eq_false_iff,
    Option.any_eq_true, Option.isNone_iff_eq_none, Option.isSome_iff_exists] at hbreeds
  obtain ⟨⟨hsome, hstop⟩, s, hs, hok, s', hs'⟩ := hbreeds
  obtain ⟨-, -, hnext⟩ := resumed_generation hload
  obtain ⟨saved, hloaded⟩ := loadState_eq_ok hload
  have hstop' : ended.run.stopRequested = false := by
    rw [hloaded] at hstop
    exact hstop
  have hstep := eq_ok_of_toOption hs
  have hstep' := eq_ok_of_toOption hs'
  obtain ⟨hphase, hgeneration⟩ := hnext hsome hstop' _ _ s hstep hok _ _ s' hstep'
  exact ⟨ended.run, loaded, _, s, s', hload, hsome, hstop', hstep, hok, hstep', hphase,
    hgeneration⟩

end Run

end GeneticProgramming
