import GeneticProgramming.Proofs.Population.Ranking
import GeneticProgramming.Proofs.Run.Invariant

/-!
# How runs end

A run keeps account of the generations that it reported.  The number of steps that it has left falls
with each step, so a run that is given as many steps ends, and further ones change nothing.
-/

namespace GeneticProgramming

variable {C : Type}

namespace Run

variable {p : Palette C} {c : Configuration} {root : TypeId} {start r r' : Run C}
  {objective : Objective C} {files : Files} {s : Stepped C}

/-! ## What a run keeps account of -/

/-- A run has reported as many generations as its history holds, each with a share for every
individual, and its selectors are of the kinds that it started with. -/
structure Ledger (start r : Run C) : Prop where
  variation : r.variation = start.variation
  selectors : r.selectors.kinds = start.selectors.kinds
  reported : match r.phase with
    | .evaluate | .report => r.history.length = r.generation
    | .selectAndVary | .swap => r.history.length = r.generation + 1
    | _ => True
  shares : ∀ x ∈ r.stats :: r.history, x.normalized.length ≤ r.configuration.populationSize

theorem ledger_fresh (p : Palette C) (c : Configuration) (root : TypeId) (variation : Weights) :
    Ledger (fresh p c root variation) (fresh p c root variation) := by
  refine ⟨rfl, rfl, trivial, fun x hx => ?_⟩
  rw [List.mem_singleton.1 hx]
  exact Nat.zero_le _

theorem Ledger.of_becomes (h : Ledger start r) (hbecomes : r.Becomes objective r')
    (hlen : r.population.length ≤ r.configuration.populationSize) : Ledger start r' := by
  obtain ⟨hvariation, hselectors, hreported, hshares⟩ := h
  obtain ⟨hstats, hhistory⟩ := List.forall_mem_cons.1 hshares
  unfold Becomes at hbecomes
  cases hphase : r.phase with
  | initial =>
    rw [hphase] at hbecomes
    obtain ⟨-, population, rfl⟩ := hbecomes
    refine ⟨hvariation, hselectors, rfl, List.forall_mem_cons.2 ⟨hstats, ?_⟩⟩
    exact fun x hx => absurd hx List.not_mem_nil
  | evaluate =>
    rw [hphase] at hbecomes hreported
    obtain ⟨population, solved, hscore, rfl⟩ := hbecomes
    have hsize := congrArg List.length (map_tree_scoreFrom hscore)
    rw [List.length_map, List.length_map] at hsize
    refine ⟨hvariation, hselectors, hreported, List.forall_mem_cons.2 ⟨?_, hhistory⟩⟩
    rw [Statistics.length_normalized_ofPopulation, hsize]
    exact hlen
  | report =>
    rw [hphase] at hbecomes hreported
    subst hbecomes
    have hcount : (r.history ++ [r.stats]).length = r.generation + 1 := by
      rw [List.length_append, hreported, List.length_singleton]
    refine ⟨hvariation, hselectors, ?_, List.forall_mem_cons.2 ⟨hstats, fun x hx => ?_⟩⟩
    · dsimp only
      cases r.isFinished with
      | true => trivial
      | false => exact hcount
    · rcases List.mem_append.1 hx with hx | hx
      · exact hhistory x hx
      · exact List.mem_singleton.1 hx ▸ hstats
  | selectAndVary =>
    rw [hphase] at hbecomes hreported
    obtain ⟨selectors, next, -, hkinds, rfl⟩ := hbecomes
    exact ⟨hvariation, hkinds.trans hselectors, hreported, hshares⟩
  | swap =>
    rw [hphase] at hbecomes hreported
    subst hbecomes
    exact ⟨hvariation, hselectors, hreported, hshares⟩
  | terminate =>
    rw [hphase] at hbecomes
    subst hbecomes
    exact ⟨hvariation, hselectors, hreported, hshares⟩

theorem Ledger.step (h : Ledger start r)
    (hlen : r.population.length ≤ r.configuration.populationSize)
    (hs : r.step objective files = .ok s) : Ledger start s.run := by
  rcases step_cases hs with ⟨-, hrun | hbecomes⟩ | ⟨-, hleaves⟩
  · rw [hrun]
    exact ⟨h.variation, h.selectors, trivial, h.shares⟩
  · exact h.of_becomes hbecomes hlen
  · obtain ⟨population, -, hrun⟩ := hleaves.eq_with
    rw [hrun]
    exact ⟨h.variation, h.selectors, h.reported, h.shares⟩

theorem Invariant.length_le (h : Invariant p c root r) :
    r.population.length ≤ r.configuration.populationSize := by
  rcases h.population with ⟨hempty, -⟩ | hwhole
  · rw [hempty]
    exact Nat.zero_le _
  · rw [h.configuration]
    exact Nat.le_of_eq hwhole.size

theorem Reached.ledger (hp : p.IsBuilt) (hnew : Run.new p c = .ok (.ok start))
    (hstart : Ledger start start) (h : Reached start r) : Ledger start r := by
  induction h with
  | refl => exact hstart
  | step hreached hs ih => exact ih.step (hreached.invariant hp hnew).length_le hs
  | stop _ _ ih => exact ⟨ih.variation, ih.selectors, ih.reported, ih.shares⟩
  | sync _ _ ih => exact ⟨ih.variation, ih.selectors, ih.reported, ih.shares⟩

/-! ## Steps that are left -/

/-- The steps that a run takes at most, the one included that tells that it is over. -/
def remaining (r : Run C) : Nat :=
  let last := r.configuration.maxGenerations
  match r.phase with
  | .initial => 4 * last + 3
  | .evaluate => 4 * (last - r.generation) + 2
  | .report => 4 * (last - r.generation) + 1
  | .selectAndVary => 4 * (last - (r.generation + 1)) + 4
  | .swap => 4 * (last - (r.generation + 1)) + 3
  | .terminate => 1

/-- Whether a run is over after a step. -/
def Stepped.IsOver (s : Stepped C) : Prop := s.failure.isSome ∨ s.run.phase = .terminate

theorem Stepped.isOver_iff :
    (s.failure.isSome || decide (s.run.phase = .terminate)) = true ↔ s.IsOver := by
  rw [Bool.or_eq_true, decide_eq_true_eq, IsOver]

theorem remaining_le (r : Run C) : r.remaining ≤ 4 * r.configuration.maxGenerations + 8 := by
  unfold remaining
  cases r.phase with
  | terminate => exact Nat.le_trans (show 1 ≤ 8 by decide) (Nat.le_add_left 8 _)
  | _ => dsimp only; omega

theorem remaining_pos (r : Run C) : 0 < r.remaining := by
  unfold remaining
  cases r.phase <;> exact Nat.succ_pos _

theorem remaining_of_becomes (h : r.Becomes objective r') :
    r'.phase = .terminate ∨ r'.remaining < r.remaining := by
  unfold Becomes at h
  unfold remaining
  cases hphase : r.phase with
  | initial =>
    rw [hphase] at h
    obtain ⟨-, population, rfl⟩ := h
    exact .inr (Nat.lt_succ_self _)
  | evaluate =>
    rw [hphase] at h
    obtain ⟨population, solved, -, rfl⟩ := h
    exact .inr (Nat.lt_succ_self _)
  | report =>
    rw [hphase] at h
    subst h
    dsimp only
    cases hfinished : r.isFinished with
    | true => exact .inl (if_pos rfl)
    | false =>
      have hlater : ¬ r.configuration.maxGenerations ≤ r.generation := by
        intro hle
        rw [isFinished, decide_eq_true hle, Bool.or_true] at hfinished
        contradiction
      rw [if_neg Bool.false_ne_true]
      refine .inr ?_
      dsimp only
      omega
  | selectAndVary =>
    rw [hphase] at h
    obtain ⟨selectors, next, -, -, rfl⟩ := h
    exact .inr (Nat.lt_succ_self _)
  | swap =>
    rw [hphase] at h
    subst h
    exact .inr (Nat.lt_succ_self _)
  | terminate =>
    rw [hphase] at h
    subst h
    exact .inl hphase

theorem remaining_of_step (h : r.step objective files = .ok s) :
    s.IsOver ∨ s.run.remaining < r.remaining := by
  rcases step_cases h with ⟨-, hrun | hbecomes⟩ | ⟨hfailure, -⟩
  · exact .inl (.inr (congrArg Run.phase hrun))
  · exact (remaining_of_becomes hbecomes).imp_left .inr
  · exact .inl (.inl (Option.isSome_iff_ne_none.2 hfailure))

/-! ## Running to the end -/

theorem runFor_of_step (h : r.step objective files = .ok s) (hgoes : ¬ s.IsOver) (n : Nat) :
    r.runFor objective (n + 1) files = s.run.runFor objective n s.files := by
  rw [runFor, h]
  exact if_neg fun hover => hgoes (Stepped.isOver_iff.1 hover)

/-- As many steps as are left lead to the end. -/
theorem runFor_isOver {steps : Nat} (hsteps : r.remaining ≤ steps)
    (h : r.runFor objective steps files = .ok s) : s.IsOver := by
  induction steps generalizing r files with
  | zero => exact absurd hsteps (Nat.not_le_of_lt r.remaining_pos)
  | succ steps ih =>
    obtain ⟨next, hnext, h⟩ := exists_of_bind_eq_ok h
    split at h
    · next hover =>
      injection h with h
      subst h
      exact Stepped.isOver_iff.1 hover
    · next hgoes =>
      rcases remaining_of_step hnext with hover | hless
      · exact absurd (Stepped.isOver_iff.2 hover) hgoes
      · exact ih (Nat.le_of_lt_succ (Nat.lt_of_lt_of_le hless hsteps)) h

/-- Steps beyond those that are left change nothing. -/
theorem runFor_eq_of_remaining_le {a b : Nat} (ha : r.remaining ≤ a) (hb : r.remaining ≤ b)
    (files : Files) : r.runFor objective a files = r.runFor objective b files := by
  induction a generalizing r b files with
  | zero => exact absurd ha (Nat.not_le_of_lt r.remaining_pos)
  | succ a ih =>
    obtain ⟨b, rfl⟩ : ∃ b', b = b' + 1 :=
      Nat.exists_eq_succ_of_ne_zero (Nat.ne_of_gt (Nat.lt_of_lt_of_le r.remaining_pos hb))
    unfold runFor
    cases hstep : r.step objective files with
    | error e => rfl
    | ok s =>
      change (if _ then _ else _) = if _ then _ else _
      split
      · rfl
      · next hgoes =>
        rcases remaining_of_step hstep with hover | hless
        · exact absurd (Stepped.isOver_iff.2 hover) hgoes
        · exact ih (Nat.le_of_lt_succ (Nat.lt_of_lt_of_le hless ha))
            (Nat.le_of_lt_succ (Nat.lt_of_lt_of_le hless hb)) s.files

/-- A run that is not over goes on from where it stands. -/
theorem runFor_add {m : Nat} (h : r.runFor objective m files = .ok s) (hgoes : ¬ s.IsOver)
    (n : Nat) : r.runFor objective (n + m) files = s.run.runFor objective n s.files := by
  induction m generalizing r files with
  | zero =>
    injection h with h
    subst h
    rfl
  | succ m ih =>
    obtain ⟨next, hnext, h⟩ := exists_of_bind_eq_ok h
    split at h
    · next hover =>
      injection h with h
      exact absurd (Stepped.isOver_iff.1 (h ▸ hover)) hgoes
    · next hnot =>
      rw [← Nat.add_assoc, runFor_of_step hnext (hnot ∘ Stepped.isOver_iff.2), ih h]

/-- A run that is finished from any point before its end ends as one that is finished from its
start. -/
theorem finish_eq {m : Nat} (h : r.runFor objective m files = .ok s) (hgoes : ¬ s.IsOver) :
    r.finish objective files = s.run.finish objective s.files := by
  have hle := r.remaining_le
  unfold finish
  rw [(keeps_of_runFor h).configuration, ← runFor_add h hgoes]
  exact runFor_eq_of_remaining_le hle (Nat.le_trans hle (Nat.le_add_right _ m)) files

/-- A run that is finished is over. -/
theorem finish_isOver (h : r.finish objective files = .ok s) : s.IsOver :=
  runFor_isOver r.remaining_le h

end Run

end GeneticProgramming
