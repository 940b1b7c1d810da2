import GeneticProgramming.Proofs.Run.Handling

/-!
# Whether a loaded run is in the same generation

A state does not hold the number of its generation; whoever loads it takes one less than the number
of reports.  That is right as long as each generation is reported once.  But a generation that is
loaded behind a report is reported again under the same number, and a state that was saved before
the first report is taken up behind it.  `Balance` counts how far the reports run ahead so, and
`Run.Counted.generation_restored` shows that a loaded run is in the same generation exactly if they do not.
-/

namespace GeneticProgramming

open GeneticProgramming.Tree

variable {C : Type} {p : Palette C}

/-- What is counted of a run beside it. -/
structure Balance where
  /-- Whether the current generation has been reported. -/
  reported : Bool
  /-- The reports of generations that had been reported before, less the generations that were
  passed over without a report. -/
  surplus : Int
deriving DecidableEq, Repr

namespace Balance

variable {b : Balance}

/-- Before anything is counted. -/
def opened (reported : Bool) : Balance := ⟨reported, 0⟩

def report (b : Balance) : Balance := ⟨true, if b.reported then b.surplus + 1 else b.surplus⟩

def advance (b : Balance) : Balance := ⟨false, if b.reported then b.surplus else b.surplus - 1⟩

/-- The balance after a phase. -/
def after (b : Balance) : Phase → Balance
  | .initial => opened false
  | .report => b.report
  | .swap => b.advance
  | _ => b

/-- By how much the history is longer than the number of the generation. -/
def ahead (b : Balance) : Int := if b.reported then b.surplus + 1 else b.surplus

theorem ahead_report (b : Balance) : b.report.ahead = b.ahead + 1 := by
  obtain ⟨reported, surplus⟩ := b
  cases reported <;> rfl

theorem ahead_advance (b : Balance) : b.advance.ahead = b.ahead - 1 := by
  obtain ⟨reported, surplus⟩ := b
  cases reported
  · rfl
  · exact (Int.add_sub_cancel surplus 1).symm

/-- Nothing is wrong with a balance: each generation was reported once. -/
structure Even (b : Balance) (phase : Phase) : Prop where
  surplus : b.surplus = 0
  reported : match phase with
    | .evaluate | .report => b.reported = false
    | .selectAndVary | .swap => b.reported = true
    | _ => True

end Balance

namespace Run

variable {r r' start target loaded : Run C} {b : Balance} {objective : Objective C} {files : Files}
  {s : Stepped C} {bytes : Bytes} {c : Configuration}

/-! ## Counting -/

/-- Runs that come of new ones by steps and by loads from any streams, with their balances. -/
inductive Counted (p : Palette C) : Run C → Balance → Prop where
  | new {c : Configuration} {r : Run C} : Run.new p c = .ok (.ok r) → Counted p r (.opened false)
  | step {r : Run C} {b : Balance} {objective : Objective C} {files : Files} {s : Stepped C} :
      Counted p r b → r.step objective files = .ok s → s.failure = none →
        Counted p s.run (if r.stopRequested then b else b.after r.phase)
  | fail {r : Run C} {b : Balance} {objective : Objective C} {files : Files} {s : Stepped C} :
      Counted p r b → r.step objective files = .ok s → s.failure ≠ none → Counted p s.run b
  | stop {r : Run C} {b : Balance} (stopRequested : Bool) :
      Counted p r b → Counted p { r with stopRequested } b
  | sync {r : Run C} {b : Balance} (sync : Option Sync) :
      Counted p r b → Counted p { r with sync } b
  | loadState {r loaded : Run C} {b : Balance} {bytes : Bytes} : Counted p r b →
      r.loadState bytes = .ok loaded → Counted p loaded (.opened !loaded.history.isEmpty)
  | loadGeneration {r loaded : Run C} {b : Balance} {bytes : Bytes} : Counted p r b →
      r.loadGeneration bytes = .ok loaded → Counted p loaded b

theorem Counted.handled (h : Counted p r b) : Handled p r := by
  induction h with
  | new hnew => exact .new hnew
  | step _ hs _ ih => exact .step ih hs
  | fail _ hs _ ih => exact .step ih hs
  | stop stopRequested _ ih => exact .stop stopRequested ih
  | sync sync _ ih => exact .sync sync ih
  | loadState _ hload ih => exact .load ih (.state hload)
  | loadGeneration _ hload ih => exact .load ih (.generation hload)

/-! ## What balances tell -/

/-- A balance tells the length of the history. -/
structure Balanced (r : Run C) (b : Balance) : Prop where
  count : (r.history.length : Int) = r.generation + b.ahead
  some : b.reported = true → r.history ≠ []
  /-- Nothing is selected from before its report, but for a state that was saved before any. -/
  none : r.phase = .selectAndVary → b.reported = false → r.history = [] ∧ r.generation = 0

namespace Balanced

theorem of_becomes (h : r.Balanced b) (hbecomes : r.Becomes objective r') :
    r'.Balanced (b.after r.phase) := by
  unfold Becomes at hbecomes
  cases hphase : r.phase <;> rw [hphase] at hbecomes
  case initial =>
    obtain ⟨-, population, rfl⟩ := hbecomes
    exact ⟨rfl, nofun, nofun⟩
  case evaluate =>
    obtain ⟨population, solved, -, rfl⟩ := hbecomes
    exact ⟨h.count, h.some, nofun⟩
  case report =>
    subst hbecomes
    refine ⟨?_, fun _ => ?_, fun _ hfalse => nomatch hfalse⟩
    · change ((r.history ++ [r.stats]).length : Int) = r.generation + b.report.ahead
      rw [b.ahead_report, List.length_append, List.length_singleton, Nat.cast_add, h.count]
      exact Int.add_assoc _ _ _
    · exact List.append_ne_nil_of_right_ne_nil _ (List.cons_ne_nil _ _)
  case selectAndVary =>
    obtain ⟨selectors, next, -, -, rfl⟩ := hbecomes
    exact ⟨h.count, h.some, nofun⟩
  case swap =>
    subst hbecomes
    refine ⟨?_, nofun, nofun⟩
    change (r.history.length : Int) = (r.generation + 1 : Nat) + b.advance.ahead
    rw [b.ahead_advance, h.count, Nat.cast_add]
    omega
  case terminate =>
    subst hbecomes
    exact ⟨h.count, h.some, h.none⟩

theorem of_leaves (h : r.Balanced b) (hleaves : r.Leaves r') : r'.Balanced b := by
  obtain ⟨population, -, rfl⟩ := hleaves.eq_with
  exact ⟨h.count, h.some, h.none⟩

/-- A loaded run is where its history tells. -/
theorem resume (target : Run C) (saved : SavedState) :
    (target.resume saved).Balanced (.opened !saved.history.isEmpty) := by
  obtain ⟨history, stats, population⟩ := saved
  cases history with
  | nil => exact ⟨rfl, nofun, fun _ _ => ⟨rfl, rfl⟩⟩
  | cons first rest => exact ⟨rfl, fun _ => List.cons_ne_nil first rest, fun _ h => nomatch h⟩

end Balanced

/-- Nothing failed, so the phase is done, unless the run was asked to stop. -/
theorem ends_or_becomes_of_step (hs : r.step objective files = .ok s) (hok : s.failure = none) :
    r.stopRequested = true ∧ s.run = { r with phase := .terminate } ∨
      r.stopRequested = false ∧ r.Becomes objective s.run := by
  cases hstop : r.stopRequested with
  | true =>
    unfold step at hs
    rw [hstop, if_pos rfl] at hs
    injection hs with hs
    exact .inl ⟨rfl, hs ▸ rfl⟩
  | false => exact .inr ⟨rfl, becomes_of_step hstop hs hok⟩

theorem leaves_of_step (hs : r.step objective files = .ok s) (hfails : s.failure ≠ none) :
    r.Leaves s.run :=
  (step_cases hs).elim (fun h => absurd h.1 hfails) fun h => h.2

theorem Counted.balanced (h : Counted p r b) : r.Balanced b := by
  induction h with
  | new hnew =>
    obtain ⟨-, root, variation, -, -, rfl⟩ := new_eq_ok hnew
    exact ⟨rfl, nofun, nofun⟩
  | step _ hs hok ih =>
    rcases ends_or_becomes_of_step hs hok with ⟨hstop, hrun⟩ | ⟨hstop, hbecomes⟩
    · rw [hstop, hrun]
      exact ⟨ih.count, ih.some, nofun⟩
    · rw [hstop]
      exact ih.of_becomes hbecomes
  | fail _ hs hfails ih => exact ih.of_leaves (leaves_of_step hs hfails)
  | stop _ _ ih => exact ⟨ih.count, ih.some, ih.none⟩
  | sync _ _ ih => exact ⟨ih.count, ih.some, ih.none⟩
  | loadState _ hload _ =>
    obtain ⟨saved, rfl⟩ := loadState_eq_ok hload
    exact .resume _ saved
  | loadGeneration _ hload ih =>
    obtain ⟨⟨population, rest⟩, -, hload⟩ := exists_of_bind_eq_ok hload
    injection hload with hload
    subst hload
    exact ⟨ih.count, ih.some, nofun⟩

/-- One less than the length of the history is the generation and the surplus. -/
theorem Balanced.generation (h : r.Balanced b) (hphase : r.phase = .selectAndVary) :
    ((r.history.length - 1 : Nat) : Int) = r.generation + b.surplus := by
  have hcount := h.count
  unfold Balance.ahead at hcount
  cases hreported : b.reported with
  | true =>
    have hsome := List.length_pos_of_ne_nil (h.some hreported)
    rw [hreported, if_pos rfl] at hcount
    omega
  | false =>
    obtain ⟨hempty, hfirst⟩ := h.none hphase hreported
    rw [hreported, hempty, hfirst] at hcount
    rw [hempty, hfirst]
    exact hcount

/-! ## Runs that load nothing -/

theorem even_of_becomes (h : b.Even r.phase) (hbecomes : r.Becomes objective r') :
    (b.after r.phase).Even r'.phase := by
  obtain ⟨reported, surplus⟩ := b
  obtain ⟨rfl, hreported⟩ := h
  unfold Becomes at hbecomes
  cases hphase : r.phase <;> rw [hphase] at hbecomes hreported
  case initial =>
    obtain ⟨-, population, rfl⟩ := hbecomes
    exact ⟨rfl, rfl⟩
  case evaluate =>
    obtain ⟨population, solved, -, rfl⟩ := hbecomes
    exact ⟨rfl, hreported⟩
  case report =>
    obtain rfl : reported = false := hreported
    subst hbecomes
    refine ⟨rfl, ?_⟩
    cases r.isFinished
    · rfl
    · trivial
  case selectAndVary =>
    obtain ⟨selectors, next, -, -, rfl⟩ := hbecomes
    exact ⟨rfl, hreported⟩
  case swap =>
    obtain rfl : reported = true := hreported
    subst hbecomes
    exact ⟨rfl, rfl⟩
  case terminate =>
    subst hbecomes
    rw [hphase]
    exact ⟨rfl, trivial⟩

/-- A run that loads nothing reports each generation once. -/
theorem Reached.counted (hnew : Run.new p c = .ok (.ok start)) (h : Reached start r) :
    ∃ b, Counted p r b ∧ b.Even r.phase := by
  induction h with
  | refl =>
    refine ⟨_, .new hnew, rfl, ?_⟩
    obtain ⟨-, root, variation, -, -, rfl⟩ := new_eq_ok hnew
    trivial
  | @step r _ _ s _ hs ih =>
    obtain ⟨b, hcounted, heven⟩ := ih
    by_cases hok : s.failure = none
    · refine ⟨_, .step hcounted hs hok, ?_⟩
      rcases ends_or_becomes_of_step hs hok with ⟨hstop, hrun⟩ | ⟨hstop, hbecomes⟩
      · rw [hstop, hrun]
        exact ⟨heven.surplus, trivial⟩
      · rw [hstop]
        exact even_of_becomes heven hbecomes
    · obtain ⟨population, -, hrun⟩ := (leaves_of_step hs hok).eq_with
      exact ⟨b, .fail hcounted hs hok, by rw [hrun]; exact heven⟩
  | stop stopRequested _ ih =>
    obtain ⟨b, hcounted, heven⟩ := ih
    exact ⟨b, .stop stopRequested hcounted, heven⟩
  | sync sync _ ih =>
    obtain ⟨b, hcounted, heven⟩ := ih
    exact ⟨b, .sync sync hcounted, heven⟩

/-! ## What a loaded run goes on with -/

/-- Whatever a run has come through, what it saves behind a report is loaded with the same history,
statistics and individuals.  The generation is off by the surplus of its reports: only where there is
none, the loaded run is in the same generation, and draws from the same streams.  Sizes are machine
words, and the trees hold no references. -/
theorem Counted.generation_restored (hp : p.IsBuilt) (hport : p.Portable) (h : Counted p r b)
    (hphase : r.phase = .selectAndVary) (hplain : ∀ x ∈ r.population, x.tree.IsPlain)
    (hsizes : r.saved.Fits) (hfits : ∀ x ∈ r.population, x.tree.Fits) :
    ∃ bytes, r.writeState = .ofBytes bytes ∧ ∀ target : Run C, target.palette = p →
      ∃ loaded, target.loadState bytes = .ok loaded ∧
        loaded.history = r.history ∧ loaded.stats = r.stats ∧
        r.population.Alike loaded.population ∧
        loaded.phase = (if r.population.isEmpty then .initial else .selectAndVary) ∧
        (loaded.generation : Int) = r.generation + b.surplus ∧
        (loaded.generation = r.generation ↔ b.surplus = 0) ∧
        (b.surplus = 0 → target.configuration = r.configuration →
          loaded.stream (loaded.generation + 1) = r.stream (r.generation + 1)) := by
  have hwritten : r.writeState = .ofBytes (r.saved.toBytes r.palette) :=
    SavedState.write_eq (p := r.palette) (s := r.saved) hplain
  have hsaves : r.Saves (r.saved.toBytes r.palette) := ⟨hwritten, hsizes, hfits⟩
  refine ⟨_, hwritten, fun target hpalette => ?_⟩
  have hgeneration : ((target.resume r.repacked).generation : Int) = r.generation + b.surplus :=
    h.balanced.generation hphase
  have hsame : (target.resume r.repacked).generation = r.generation ↔ b.surplus = 0 := by
    omega
  refine ⟨_, h.handled.loadState_eq hp hport hsaves hpalette, rfl, rfl, r.repacked_alike,
    phase_resume target r, hgeneration, hsame, fun hzero hconfiguration => ?_⟩
  have hseed : (target.resume r.repacked).configuration = r.configuration := hconfiguration
  funext slot
  rw [stream, stream, hsame.2 hzero, hseed]

/-! ### A generation that is loaded behind its report -/

/-- What becomes of a run that takes over its own generation again, up to the next report of it. -/
def reloaded? (r : Run Unit) : Option (Run Unit × Stepped Unit) := do
  let loaded ← (r.loadGeneration r.writeGeneration.bytes).toOption
  return (loaded, ← (runFor smallness 2 loaded .empty).toOption)

theorem reloaded?_eq_some {r loaded : Run Unit} {s : Stepped Unit} (h : r.reloaded? = some (loaded, s)) :
    r.loadGeneration r.writeGeneration.bytes = .ok loaded ∧
      runFor smallness 2 loaded .empty = .ok s := by
  obtain ⟨found, hload, h⟩ := Option.bind_eq_some_iff.1 h
  obtain ⟨ended, hrun, h⟩ := Option.bind_eq_some_iff.1 h
  injection h with h
  injection h with hfound hended
  subst hfound hended
  exact ⟨eq_ok_of_toOption hload, eq_ok_of_toOption hrun⟩

theorem exists_reloaded : ∃ start s, Run.new coins lone = .ok (.ok start) ∧
    runFor smallness 3 start .empty = .ok s ∧ (s.run.reloaded?.any fun (_, t) =>
      t.run.phase = .selectAndVary && t.run.generation = 0 && t.run.history.length = 2 &&
        t.run.isSavable) = true :=
  exists_of_trial (f := fun start => runFor smallness 3 start .empty) (by decide +kernel)

/-- The first generation is reported, loaded and reported again.  What is saved then is loaded as
the second one. -/
theorem reloaded_ahead : coins.IsBuilt ∧ coins.Portable ∧ ∃ start r loaded : Run Unit, ∃ bytes,
    Run.new coins lone = .ok (.ok start) ∧ Handled coins r ∧ r.phase = .selectAndVary ∧
    r.Saves bytes ∧ r.generation = 0 ∧ start.loadState bytes = .ok loaded ∧
    loaded.generation = 1 := by
  obtain ⟨start, s, hnew, hrun, htest⟩ := exists_reloaded
  rw [Option.any_eq_true] at htest
  obtain ⟨⟨reloaded, t⟩, hagain, htest⟩ := htest
  obtain ⟨hload, hrun'⟩ := reloaded?_eq_some hagain
  simp only [Bool.and_eq_true, decide_eq_true_eq] at htest
  obtain ⟨⟨⟨hphase, hgeneration⟩, hlength⟩, hsavable⟩ := htest
  have hreported : Handled coins s.run := runFor_induction .step (.new hnew) hrun
  have hreloaded : Handled coins reloaded := .load hreported (.generation hload)
  have hagain : Handled coins t.run := runFor_induction .step hreloaded hrun'
  have hsaves := saves_of_isSavable hsavable
  have hpalette : start.palette = coins := (IsTyped.of_new isBuilt_coins hnew).palette
  refine ⟨isBuilt_coins, portable_coins, start, t.run, _, _, hnew, hagain, hphase, hsaves,
    hgeneration, hagain.loadState_eq isBuilt_coins portable_coins hsaves hpalette, ?_⟩
  change t.run.history.length - 1 = 1
  rw [hlength]

/-- A run that has loaded nothing goes on in its generation. -/
theorem generation_restored_coins : coins.IsBuilt ∧ coins.Portable ∧ ∃ start r b loaded, ∃ bytes,
    Run.new coins lone = .ok (.ok start) ∧ Counted coins r b ∧ r.phase = .selectAndVary ∧
    (∀ x ∈ r.population, x.tree.IsPlain) ∧ r.saved.Fits ∧ (∀ x ∈ r.population, x.tree.Fits) ∧
    r.writeState = .ofBytes bytes ∧ start.loadState bytes = .ok loaded ∧
    loaded.history = r.history ∧ loaded.generation = r.generation := by
  obtain ⟨start, s, hnew, hrun, htest⟩ := exists_selecting
  simp only [Bool.and_eq_true, decide_eq_true_eq] at htest
  obtain ⟨hphase, hsavable⟩ := htest
  obtain ⟨b, hcounted, heven⟩ := (Reached.refl.runFor hrun).counted hnew
  have hsaves := saves_of_isSavable hsavable
  have hpalette : start.palette = coins := (IsTyped.of_new isBuilt_coins hnew).palette
  obtain ⟨bytes, hwritten, hloads⟩ := hcounted.generation_restored isBuilt_coins portable_coins hphase
    hsaves.isPlain hsaves.sizes hsaves.trees
  obtain ⟨loaded, hload, hhistory, -, -, -, -, hgeneration, -⟩ := hloads start hpalette
  exact ⟨isBuilt_coins, portable_coins, start, s.run, b, loaded, bytes, hnew, hcounted, hphase,
    hsaves.isPlain, hsaves.sizes, hsaves.trees, hwritten, hload, hhistory,
    hgeneration.2 heven.surplus⟩

end Run

end GeneticProgramming
