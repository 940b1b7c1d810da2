import GeneticProgramming.Proofs.Run.Ending
import Mathlib.Order.Bounds.Basic

/-!
# The cycle of generations

A run that is only advanced by steps keeps its generation in step with its history, never passes the
last generation, and stays where it terminates.  Left alone, it terminates within a number of steps
that the configuration fixes, in the last generation or in the first one that was reported solved.
The main statement is `Run.driven_cycle`.
-/

namespace GeneticProgramming

namespace Run

variable {C : Type} {p : Palette C} {c : Configuration} {start r r' : Run C}
  {objective : Objective C} {files : Files} {s : Stepped C}

/-! ## Steps that were taken -/

/-- A step that was taken: the run before it, the fitness function that it was given, and what came
of it. -/
structure Tick (C : Type) where
  before : Run C
  objective : Objective C
  result : Stepped C

namespace Tick

variable (tick : Tick C)

def isOk : Bool := tick.result.failure.isNone

/-- The step scored a generation, and the fitness function reported an individual to be a solution.
Where scoring fails, the generation is abandoned and nothing is reported. -/
def Solves : Prop :=
  tick.isOk = true ∧ tick.before.phase = .evaluate ∧ ∃ i x verdict,
    tick.before.population[i]? = some x ∧
      tick.objective tick.before.palette x.tree i = .ok (.ok verdict) ∧ verdict.solved = true

end Tick

/-- Runs that come of another one by the given steps, each with any fitness function; between the
steps they may be asked to stop, or no longer, or to write other files. -/
inductive Driven (start : Run C) : List (Tick C) → Run C → Prop where
  | start : Driven start [] start
  | step {ticks : List (Tick C)} {r : Run C} {objective : Objective C} {files : Files}
      {s : Stepped C} : Driven start ticks r → r.step objective files = .ok s →
      Driven start (ticks ++ [⟨r, objective, s⟩]) s.run
  | stop {ticks : List (Tick C)} {r : Run C} (stopRequested : Bool) :
      Driven start ticks r → Driven start ticks { r with stopRequested }
  | sync {ticks : List (Tick C)} {r : Run C} (sync : Option Sync) :
      Driven start ticks r → Driven start ticks { r with sync }

/-- The steps that did not fail. -/
def okSteps (ticks : List (Tick C)) : Nat := ticks.countP Tick.isOk

/-- The generations that were reported solved. -/
def solvedIn (ticks : List (Tick C)) : Set Nat :=
  {g | ∃ tick ∈ ticks, tick.Solves ∧ tick.before.generation = g}

/-- No step found that the run was asked to stop. -/
def Unstopped (ticks : List (Tick C)) : Prop := ∀ tick ∈ ticks, tick.before.stopRequested = false

section

variable {ticks : List (Tick C)} {tick : Tick C}

theorem Driven.reached (h : Driven start ticks r) : Reached start r := by
  induction h with
  | start => exact .refl
  | step _ hs ih => exact .step ih hs
  | stop b _ ih => exact .stop b ih
  | sync y _ ih => exact .sync y ih

theorem okSteps_append (ticks : List (Tick C)) (tick : Tick C) :
    okSteps (ticks ++ [tick]) = okSteps ticks + if tick.isOk then 1 else 0 := by
  rw [okSteps, List.countP_append, List.countP_singleton, okSteps]

theorem mem_solvedIn_append {g : Nat} : g ∈ solvedIn (ticks ++ [tick]) ↔
    g ∈ solvedIn ticks ∨ tick.Solves ∧ tick.before.generation = g := by
  simp [solvedIn, or_and_right, exists_or]

/-- A step that solves nothing leaves the generations that were solved. -/
theorem solvedIn_append_of_not (h : ¬ tick.Solves) :
    solvedIn (ticks ++ [tick]) = solvedIn ticks := by
  ext g
  rw [mem_solvedIn_append]
  exact or_iff_left fun hsolves => h hsolves.1

/-- A run that goes by itself is driven, with one fitness function, and nothing stops it or lets it
go on between its steps. -/
theorem Driven.append_runFor {steps : Nat} (h : Driven start ticks r)
    (hs : r.runFor objective steps files = .ok s) :
    ∃ taken, Driven start (ticks ++ taken) s.run ∧
      ∀ tick ∈ taken, tick.objective = objective ∧
        tick.before.stopRequested = r.stopRequested := by
  refine (runFor_induction (P := fun r' => r'.stopRequested = r.stopRequested ∧
    ∃ taken, Driven start (ticks ++ taken) r' ∧ ∀ tick ∈ taken, tick.objective = objective ∧
      tick.before.stopRequested = r.stopRequested) ?_ ⟨rfl, [], ?_, ?_⟩ hs).2
  · intro r' files s ⟨hstop, taken, hdriven, htaken⟩ hs
    refine ⟨(keeps_of_step hs).stopRequested.trans hstop, taken ++ [⟨r', objective, s⟩], ?_, ?_⟩
    · rw [← List.append_assoc]
      exact hdriven.step hs
    · exact List.forall_mem_append.2 ⟨htaken, List.forall_mem_singleton.2 ⟨rfl, hstop⟩⟩
  · rwa [List.append_nil]
  · exact fun tick htick => absurd htick List.not_mem_nil

theorem Driven.runFor {steps : Nat} (h : Driven start ticks r) (hstop : r.stopRequested = false)
    (hunstopped : Unstopped ticks) (hs : r.runFor objective steps files = .ok s) :
    ∃ ticks', Driven start ticks' s.run ∧ Unstopped ticks' := by
  obtain ⟨taken, hdriven, htaken⟩ := h.append_runFor hs
  refine ⟨_, hdriven, List.forall_mem_append.2 ⟨hunstopped, fun tick htick => ?_⟩⟩
  exact (htaken tick htick).2.trans hstop

end

/-! ## Generations -/

/-- The generation never passes `last`, and another one is only bred before it. -/
def Under (last : Nat) (r : Run C) : Prop :=
  match r.phase with
  | .selectAndVary | .swap => r.generation < last
  | _ => r.generation ≤ last

namespace Under

variable {last : Nat}

theorem le (h : Under last r) : r.generation ≤ last := by
  unfold Under at h
  split at h
  · exact Nat.le_of_lt h
  · exact Nat.le_of_lt h
  · exact h

/-- A report goes on only before the last generation that is configured, so no later one is bred. -/
theorem of_becomes (hlast : r.configuration.maxGenerations ≤ last) (h : Under last r)
    (hbecomes : r.Becomes objective r') : Under last r' := by
  have hle := h.le
  unfold Under at h
  unfold Becomes at hbecomes
  cases hphase : r.phase <;> rw [hphase] at h hbecomes
  case initial =>
    obtain ⟨-, population, rfl⟩ := hbecomes
    exact Nat.zero_le _
  case evaluate =>
    obtain ⟨population, solved, -, rfl⟩ := hbecomes
    exact h
  case report =>
    subst hbecomes
    cases hfinished : r.isFinished with
    | true => exact hle
    | false =>
      rw [isFinished, Bool.or_eq_false_iff, decide_eq_false_iff_not] at hfinished
      exact Nat.lt_of_lt_of_le (Nat.lt_of_not_le hfinished.2) hlast
  case selectAndVary =>
    obtain ⟨selectors, next, -, -, rfl⟩ := hbecomes
    exact h
  case swap =>
    subst hbecomes
    exact h
  case terminate =>
    subst hbecomes
    unfold Under
    rw [hphase]
    exact h

theorem step (hlast : r.configuration.maxGenerations ≤ last) (h : Under last r)
    (hs : r.step objective files = .ok s) : Under last s.run := by
  rcases step_cases hs with ⟨-, hrun | hbecomes⟩ | ⟨-, hleaves⟩
  · rw [hrun]
    exact h.le
  · exact h.of_becomes hlast hbecomes
  · obtain ⟨population, -, hrun⟩ := hleaves.eq_with
    rw [hrun]
    exact h

end Under

/-- The generation never passes the last one, and another one is only bred before it. -/
def Within (r : Run C) : Prop :=
  match r.phase with
  | .selectAndVary | .swap => r.generation < r.configuration.maxGenerations
  | _ => r.generation ≤ r.configuration.maxGenerations

theorem within_iff : r.Within ↔ Under r.configuration.maxGenerations r := Iff.rfl

theorem Within.le (h : r.Within) : r.generation ≤ r.configuration.maxGenerations :=
  Under.le h

theorem Within.step (h : r.Within) (hs : r.step objective files = .ok s) : s.run.Within := by
  rw [within_iff, (keeps_of_step hs).configuration]
  exact Under.step (Nat.le_refl _) h hs

theorem Reached.within (hnew : Run.new p c = .ok (.ok start)) (h : Reached start r) :
    r.Within := by
  induction h with
  | refl =>
    obtain ⟨-, root, variation, g, -, rfl⟩ := new_eq_ok hnew
    exact Nat.zero_le _
  | step _ hs ih => exact ih.step hs
  | stop _ _ ih => exact ih
  | sync _ _ ih => exact ih

/-- A run that is over stays as it is. -/
theorem step_of_terminate (h : r.phase = .terminate) (objective : Objective C) (files : Files) :
    r.step objective files = .ok ⟨r, files, none⟩ := by
  have hsame : (if r.stopRequested then { r with phase := .terminate } else r) = r := by
    rw [← h]
    exact ite_self r
  rw [step, hsame, perform, h]
  rfl

/-! ## Solutions -/

/-- Scoring tells that the problem is solved if some verdict says so. -/
theorem solved_of_scoreFrom {i : Nat} {pop scored : Population} {solved : Bool}
    (h : scoreFrom p objective i pop = .ok (scored, .ok solved)) :
    solved = true ↔ ∃ j x verdict, pop[j]? = some x ∧
      objective p x.tree (i + j) = .ok (.ok verdict) ∧ verdict.solved = true := by
  induction pop generalizing i scored solved with
  | nil =>
    injection h with h
    injection h with _ h
    injection h with h
    subst h
    simp
  | cons x xs ih =>
    obtain ⟨verdict, rest, solved', hverdict, hrest, -, rfl⟩ := scoreFrom_cons_eq_ok h
    rw [Bool.or_eq_true, ih hrest]
    constructor
    · rintro (hsolved | ⟨j, y, v, hy, hv, hsolved⟩)
      · exact ⟨0, x, verdict, rfl, hverdict, hsolved⟩
      · exact ⟨j + 1, y, v, hy, by rw [← hv, Nat.add_assoc, Nat.add_comm j 1], hsolved⟩
    · rintro ⟨j, y, v, hy, hv, hsolved⟩
      cases j with
      | zero =>
        injection hy with hy
        subst hy
        rw [Nat.add_zero, hverdict] at hv
        injection hv with hv
        injection hv with hv
        exact .inl (hv ▸ hsolved)
      | succ j =>
        exact .inr ⟨j, y, v, hy, by rw [← hv, Nat.add_assoc, Nat.add_comm j 1], hsolved⟩

/-- What a run that was never asked to stop has done. -/
structure Account (ticks : List (Tick C)) (r : Run C) : Prop where
  steps : r.phase = .terminate ∨
    okSteps ticks + r.remaining ≤ 4 * r.configuration.maxGenerations + 3
  solved : match r.phase with
    | .report => ∀ g, g ∈ solvedIn ticks ↔ g = r.generation ∧ r.solved = true
    | .terminate => r.history.length = r.generation + 1 ∧
        IsLeast ({r.configuration.maxGenerations} ∪ solvedIn ticks) r.generation
    | _ => solvedIn ticks = ∅

section

variable {ticks : List (Tick C)}

theorem perform_of_step (hstop : r.stopRequested = false)
    (hs : r.step objective files = .ok s) : r.perform objective files = .ok s :=
  step_eq_perform hstop objective files ▸ hs

/-- Each step that does not fail is one of those that are left. -/
theorem Account.steps_step (h : Account ticks r) (hs : r.perform objective files = .ok s) :
    s.run.phase = .terminate ∨ okSteps (ticks ++ [⟨r, objective, s⟩]) + s.run.remaining ≤
      4 * s.run.configuration.maxGenerations + 3 := by
  rw [okSteps_append]
  rcases perform_cases hs with ⟨hok, hbecomes⟩ | ⟨hfailure, hleaves⟩
  · rcases h.steps with hterminate | hleft
    · unfold Becomes at hbecomes
      rw [hterminate] at hbecomes
      exact .inl (hbecomes ▸ hterminate)
    · refine (remaining_of_becomes hbecomes).imp_right fun hless => ?_
      have hone : (if Tick.isOk ⟨r, objective, s⟩ then 1 else 0) = 1 := by
        rw [Tick.isOk, hok]
        rfl
      rw [hone, hbecomes.keeps.configuration]
      omega
  · have hzero : (if Tick.isOk ⟨r, objective, s⟩ then 1 else 0) = 0 := by
      refine if_neg fun hok => hfailure ?_
      exact Option.isNone_iff_eq_none.1 hok
    obtain ⟨population, -, hrun⟩ := hleaves.eq_with
    rw [hzero, Nat.add_zero, hrun]
    exact h.steps

/-- After a scoring its generation is the only one that may be solved. -/
theorem Account.solved_evaluate (h : Account ticks r) (hphase : r.phase = .evaluate)
    (hok : s.failure = none) {population : Population} {solved : Bool}
    (hscore : scoreFrom r.palette objective 0 r.population = .ok (population, .ok solved)) (g : Nat) :
    g ∈ solvedIn (ticks ++ [⟨r, objective, s⟩]) ↔ g = r.generation ∧ solved = true := by
  have hnone := h.solved
  rw [hphase] at hnone
  have hnone : solvedIn ticks = ∅ := hnone
  rw [mem_solvedIn_append, hnone, Set.mem_empty_iff_false, false_or, solved_of_scoreFrom hscore]
  have hisOk : Tick.isOk ⟨r, objective, s⟩ = true := by
    rw [Tick.isOk, hok]
    rfl
  constructor
  · rintro ⟨⟨-, -, i, x, verdict, hx, hv, hsolved⟩, rfl⟩
    exact ⟨rfl, i, x, verdict, hx, by rwa [Nat.zero_add], hsolved⟩
  · rintro ⟨rfl, i, x, verdict, hx, hv, hsolved⟩
    exact ⟨⟨hisOk, hphase, i, x, verdict, hx, by rwa [Nat.zero_add] at hv, hsolved⟩, rfl⟩

/-- A report that ends a run comes in the last generation or in the first one that is solved. -/
theorem isLeast_of_report {solved : Set Nat} (hle : r.generation ≤ r.configuration.maxGenerations)
    (hsolved : ∀ g, g ∈ solved ↔ g = r.generation ∧ r.solved = true)
    (hfinished : r.isFinished = true) :
    IsLeast ({r.configuration.maxGenerations} ∪ solved) r.generation := by
  rw [isFinished, Bool.or_eq_true, decide_eq_true_eq] at hfinished
  constructor
  · rcases hfinished with hyes | hlast
    · exact .inr ((hsolved _).2 ⟨rfl, hyes⟩)
    · exact .inl (Nat.le_antisymm hle hlast)
  · rintro g (rfl | hg)
    · exact hle
    · exact Nat.le_of_eq ((hsolved g).1 hg).1.symm

theorem Account.step (h : Account ticks r) (hwithin : r.Within) (hledger : Ledger start r)
    (hstop : r.stopRequested = false) (hs : r.step objective files = .ok s) :
    Account (ticks ++ [⟨r, objective, s⟩]) s.run := by
  have hperform := perform_of_step hstop hs
  refine ⟨h.steps_step hperform, ?_⟩
  have hkept : r.phase ≠ .evaluate ∨ s.failure ≠ none →
      solvedIn (ticks ++ [⟨r, objective, s⟩]) = solvedIn ticks := by
    rintro hnot
    refine solvedIn_append_of_not ?_
    rintro ⟨hok, hphase, -⟩
    rcases hnot with hnot | hnot
    · exact hnot hphase
    · exact hnot (Option.isNone_iff_eq_none.1 hok)
  have hsolved := h.solved
  rcases perform_cases hperform with ⟨hok, hbecomes⟩ | ⟨hfailure, hleaves⟩
  · unfold Becomes at hbecomes
    cases hphase : r.phase <;> rw [hphase] at hsolved hbecomes
    case evaluate =>
      obtain ⟨population, solved, hscore, hrun⟩ := hbecomes
      rw [hrun]
      exact h.solved_evaluate hphase hok hscore
    all_goals rw [hkept (.inl (by rw [hphase]; decide))]
    case initial =>
      obtain ⟨-, population, hrun⟩ := hbecomes
      rw [hrun]
      exact hsolved
    case report =>
      have hreported := hledger.reported
      rw [hphase] at hreported
      rw [hbecomes]
      cases hfinished : r.isFinished with
      | true =>
        refine ⟨?_, isLeast_of_report hwithin.le hsolved hfinished⟩
        rw [List.length_append, hreported]
        rfl
      | false =>
        rw [isFinished, Bool.or_eq_false_iff] at hfinished
        refine Set.eq_empty_iff_forall_notMem.2 fun g hg => ?_
        rw [((hsolved g).1 hg).2] at hfinished
        exact Bool.noConfusion hfinished.1
    case selectAndVary =>
      obtain ⟨selectors, next, -, -, hrun⟩ := hbecomes
      rw [hrun]
      exact hsolved
    case swap =>
      rw [hbecomes]
      exact hsolved
    case terminate =>
      rw [hbecomes, hphase]
      exact hsolved
  · obtain ⟨population, -, hrun⟩ := hleaves.eq_with
    rw [hkept (.inr hfailure), hrun]
    exact hsolved

theorem Driven.account (hp : p.IsBuilt) (hnew : Run.new p c = .ok (.ok start))
    (h : Driven start ticks r) (hunstopped : Unstopped ticks) : Account ticks r := by
  obtain ⟨-, root, variation, g, -, hstart⟩ := new_eq_ok hnew
  have hempty : Ledger start start := hstart ▸ ledger_fresh p c root variation
  induction h with
  | start =>
    rw [hstart]
    exact ⟨.inr (Nat.le_of_eq (Nat.zero_add _)), Set.eq_empty_iff_forall_notMem.2 (by simp [solvedIn])⟩
  | @step ticks r objective files s hdriven hs ih =>
    obtain ⟨hbefore, hlast⟩ := List.forall_mem_append.1 hunstopped
    have hreached := hdriven.reached
    exact (ih hbefore).step (hreached.within hnew) (hreached.ledger hp hnew hempty)
      (hlast _ List.mem_cons_self) hs
  | stop b _ ih => exact ⟨(ih hunstopped).steps, (ih hunstopped).solved⟩
  | sync y _ ih => exact ⟨(ih hunstopped).steps, (ih hunstopped).solved⟩

/-- Between any two steps the history has one entry for each generation that was reported, the
generation is not beyond the last one, and a run that is over stays as it is.  A run that is never
asked to stop is over after four steps a generation and three more, those that failed not counted,
and it ends with the report of the last generation or of the first one that was solved. -/
theorem driven_cycle (hp : p.IsBuilt) (hnew : Run.new p c = .ok (.ok start))
    (h : Driven start ticks r) :
    (r.phase = .evaluate ∨ r.phase = .report → r.history.length = r.generation) ∧
      (r.phase = .selectAndVary ∨ r.phase = .swap → r.history.length = r.generation + 1) ∧
      r.generation ≤ c.maxGenerations ∧
      (r.phase = .terminate →
        ∀ objective files, r.step objective files = .ok ⟨r, files, none⟩) ∧
      (Unstopped ticks →
        (4 * c.maxGenerations + 3 ≤ okSteps ticks → r.phase = .terminate) ∧
        (r.phase = .terminate → r.history.length = r.generation + 1 ∧
          IsLeast ({c.maxGenerations} ∪ solvedIn ticks) r.generation)) := by
  have hreached := h.reached
  have hconfiguration := (hreached.invariant hp hnew).configuration
  obtain ⟨-, root, variation, g, -, hstart⟩ := new_eq_ok hnew
  have hreported := (hreached.ledger hp hnew (hstart ▸ ledger_fresh p c root variation)).reported
  refine ⟨?_, ?_, hconfiguration ▸ (hreached.within hnew).le, step_of_terminate, ?_⟩
  · rintro (hphase | hphase) <;> rwa [hphase] at hreported
  · rintro (hphase | hphase) <;> rwa [hphase] at hreported
  · intro hunstopped
    obtain ⟨hsteps, hsolved⟩ := h.account hp hnew hunstopped
    rw [hconfiguration] at hsteps hsolved
    refine ⟨fun hle => hsteps.resolve_right fun hleft => ?_, fun hphase => ?_⟩
    · have := r.remaining_pos
      omega
    · rwa [hphase] at hsolved

end

theorem exists_lonely_end : ∃ start s, Run.new coins lone = .ok (.ok start) ∧
    start.finish smallness .empty = .ok s ∧
      (s.run.phase = .terminate && s.run.generation = 1) = true :=
  exists_of_trial (by decide +kernel)

theorem driven_cycle_coins : coins.IsBuilt ∧ ∃ start ticks r, Run.new coins lone = .ok (.ok start) ∧
    Driven start ticks r ∧ Unstopped ticks ∧ r.phase = .terminate ∧ r.generation = 1 ∧
      r.generation ≤ lone.maxGenerations ∧
      (∀ objective files, r.step objective files = .ok ⟨r, files, none⟩) ∧
      r.history.length = r.generation + 1 ∧
      IsLeast ({lone.maxGenerations} ∪ solvedIn ticks) r.generation := by
  obtain ⟨start, s, hnew, hfinish, hend⟩ := exists_lonely_end
  simp only [Bool.and_eq_true, decide_eq_true_eq] at hend
  obtain ⟨hphase, hgeneration⟩ := hend
  have hstop : start.stopRequested = false := by
    obtain ⟨-, root, variation, g, -, rfl⟩ := new_eq_ok hnew
    rfl
  have hnone : Unstopped ([] : List (Tick Unit)) := fun tick htick => absurd htick List.not_mem_nil
  obtain ⟨ticks, hdriven, hunstopped⟩ := Driven.start.runFor hstop hnone hfinish
  obtain ⟨-, -, hle, hstays, hcycle⟩ := driven_cycle isBuilt_coins hnew hdriven
  obtain ⟨hhistory, hleast⟩ := (hcycle hunstopped).2 hphase
  exact ⟨isBuilt_coins, start, ticks, s.run, hnew, hdriven, hunstopped, hphase, hgeneration, hle,
    hstays hphase, hhistory, hleast⟩

end Run

end GeneticProgramming
