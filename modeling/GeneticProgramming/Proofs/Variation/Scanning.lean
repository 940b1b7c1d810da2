import GeneticProgramming.Proofs.Variation.Total
import GeneticProgramming.Proofs.Variation.Visits

/-!
# The length of a scan

An advanced mutation goes on for as long as there is a node at the index of its scan, though its
edits may add nodes.  `Mutation.Scans` is this loop without a bound on its rounds.  Each round leaves
fewer nodes ahead than it finds, whatever the edit makes of the tree: behind a region that gives way
to other nodes the scan goes on where these end, and what is ahead then was ahead before.  So the
loop ends after no more draws than the tree has nodes at its start: `Mutation.apply_draws`.
-/

namespace GeneticProgramming

variable {C : Type} {p : Palette C}

namespace Mutation

open GeneticProgramming.Tree

/-! ## Rounds -/

/-- Puts the node at an index to a draw, and edits it if it is due; also answers where the scan goes
on. -/
def round (p : Palette C) (m : Mutation) (chance : Double) (weights : Option Weights) (i : Nat)
    (t : Tree) : Attempt (Nat × Tree) := do
  if ← Draw.chance chance then
    let (u, stop) ← m.edit p t i (← drawEdit weights)
    return (max stop (i + 1), u)
  else return (i + 1, t)

variable {m : Mutation} {chance : Double} {weights : Option Weights} {t u : Tree} {type : TypeId}
  {i j n : Nat} {g g' : Random}

theorem scan_succ (m : Mutation) (chance : Double) (weights : Option Weights) (rounds i : Nat)
    (t : Tree) : m.scan p chance weights (rounds + 1) i t =
      if t.size ≤ i then pure t
      else (do
        let after ← m.round p chance weights i t
        m.scan p chance weights rounds after.1 after.2) := by
  rw [scan]
  split
  · rfl
  · rw [round, bind_assoc]
    congr 1
    funext due
    cases due with
    | false => simp only [Bool.false_eq_true, if_false, pure_bind]
    | true => simp only [if_true, bind_assoc, pure_bind]

/-- A round leaves fewer nodes ahead. -/
theorem Round.Plays.ahead_lt {r : Round} (h : r.Plays p) (ht : r.tree.Proper p type)
    (hnode : r.node < r.tree.size) : r.after.size - r.next < r.tree.size - r.node := by
  obtain ⟨stride, hpos, hahead, -⟩ := h.exists_stride ht
  have hsize := size_sub_eq hahead
  omega

theorem round_yields (hp : p.IsBuilt) (m : Mutation) (chance : Double) (weights : Option Weights)
    (ht : t.Proper p type) (hi : i < t.size) :
    Attempt.Yields (m.round p chance weights i t)
      (fun after => after.2.Proper p type ∧ after.2.size - after.1 < t.size - i)
        fun _ => False := by
  refine Attempt.Yields.bind (Attempt.Yields.draw (Yields.trivial _)) fun due _ => ?_
  refine Attempt.Yields.ite (fun _ => ?_) fun _ => ?_
  · refine Attempt.Yields.bind (Attempt.Yields.draw (Yields.trivial _)) fun kind _ => ?_
    refine Attempt.Yields.bind (edit_edits hp m ht i kind) fun out hout => ?_
    obtain ⟨s, hs, hedits⟩ := hout
    have hplays : (⟨t, i, kind, out.1, max out.2 (i + 1)⟩ : Round).Plays p :=
      ⟨s, out.2, hs, hedits, rfl⟩
    exact Attempt.Yields.pure ⟨hedits.proper ht hs, hplays.ahead_lt ht hi⟩
  · have hplays : (⟨t, i, none, t, i + 1⟩ : Round).Plays p := ⟨rfl, rfl⟩
    exact Attempt.Yields.pure ⟨ht, hplays.ahead_lt ht hi⟩

/-! ## Scans -/

/-- A scan that goes on from an index for as long as there is a node.  It makes so many draws, one
for each round, and ends with the tree behind the last one, or with the error or the fault that a
round ends in. -/
inductive Scans (p : Palette C) (m : Mutation) (chance : Double) (weights : Option Weights) :
    Nat → Nat → Tree → Random → Except Fault (Except GenerationError Tree × Random) → Prop where
  | ends {i : Nat} {t : Tree} {g : Random} : t.size ≤ i →
      Scans p m chance weights 0 i t g (.ok (.ok t, g))
  | goes {n i j : Nat} {t u : Tree} {g g' : Random}
      {out : Except Fault (Except GenerationError Tree × Random)} : i < t.size →
      (m.round p chance weights i t).run g = .ok (.ok (j, u), g') →
      Scans p m chance weights n j u g' out → Scans p m chance weights (n + 1) i t g out
  | refuses {i : Nat} {t : Tree} {g g' : Random} {e : GenerationError} : i < t.size →
      (m.round p chance weights i t).run g = .ok (.error e, g') →
      Scans p m chance weights 1 i t g (.ok (.error e, g'))
  | faults {i : Nat} {t : Tree} {g : Random} {f : Fault} : i < t.size →
      (m.round p chance weights i t).run g = .error f → Scans p m chance weights 1 i t g (.error f)

/-- From a stream a scan goes just one way. -/
theorem Scans.unique {n' : Nat} {out out' : Except Fault (Except GenerationError Tree × Random)}
    (h : Scans p m chance weights n i t g out) (h' : Scans p m chance weights n' i t g out') :
    n' = n ∧ out' = out := by
  induction h generalizing n' with
  | ends hend =>
    cases h' with
    | ends => exact ⟨rfl, rfl⟩
    | goes hi | refuses hi | faults hi => exact absurd hi (Nat.not_lt.2 hend)
  | goes hi hround _ ih =>
    cases h' with
    | ends hend => exact absurd hi (Nat.not_lt.2 hend)
    | goes _ hround' hrest =>
      cases hround.symm.trans hround'
      obtain ⟨hn, hout⟩ := ih hrest
      exact ⟨congrArg (· + 1) hn, hout⟩
    | refuses _ hround' | faults _ hround' => cases hround.symm.trans hround'
  | refuses hi hround =>
    cases h' with
    | ends hend => exact absurd hi (Nat.not_lt.2 hend)
    | goes _ hround' => cases hround.symm.trans hround'
    | refuses _ hround' =>
      cases hround.symm.trans hround'
      exact ⟨rfl, rfl⟩
    | faults _ hround' => cases hround.symm.trans hround'
  | faults hi hround =>
    cases h' with
    | ends hend => exact absurd hi (Nat.not_lt.2 hend)
    | goes _ hround' | refuses _ hround' => cases hround.symm.trans hround'
    | faults _ hround' =>
      cases hround.symm.trans hround'
      exact ⟨rfl, rfl⟩

/-- With a round for each node ahead a bounded scan is the whole scan. -/
theorem exists_scans (hp : p.IsBuilt) (m : Mutation) (chance : Double) (weights : Option Weights)
    {rounds : Nat} (ht : t.Proper p type) (hrounds : t.size - i ≤ rounds) (g : Random) :
    ∃ n ≤ t.size - i,
      Scans p m chance weights n i t g ((m.scan p chance weights rounds i t).run g) := by
  induction rounds generalizing i t g with
  | zero => exact ⟨0, Nat.zero_le _, .ends (by omega)⟩
  | succ rounds ih =>
    rw [scan_succ]
    split
    · next hend => exact ⟨0, Nat.zero_le _, .ends hend⟩
    · next hi =>
      rw [Nat.not_le] at hi
      have hone : 1 ≤ t.size - i := by omega
      cases hround : (m.round p chance weights i t).run g with
      | error f =>
        rw [Attempt.run_bind_fault hround]
        exact ⟨1, hone, .faults hi hround⟩
      | ok out =>
        obtain ⟨after, g'⟩ := out
        cases after with
        | error e =>
          rw [Attempt.run_bind_error hround]
          exact ⟨1, hone, .refuses hi hround⟩
        | ok after =>
          obtain ⟨hu, hless⟩ := round_yields hp m chance weights ht hi g (.ok after) g' hround
          rw [Attempt.run_bind hround]
          obtain ⟨n, hn, hscans⟩ := ih (i := after.1) hu (by omega) g'
          exact ⟨n + 1, by omega, .goes hi hround hscans⟩

/-! ## Mutants -/

/-- An advanced mutation from a stream, with the number of its draws.  An empty tree needs none, and
none is made if the edits cannot be weighed. -/
inductive Draws (p : Palette C) (m : Mutation) (t : Tree) (g : Random) :
    Nat → Except Fault (Except GenerationError Tree × Random) → Prop where
  | empty : t.isEmpty = true → Draws p m t g 0 (.ok (.ok t, g))
  | unweighed {f : Fault} : t.isEmpty = false → Weights.ofList m.chances.weights = .error f →
      Draws p m t g 0 (.error f)
  | scanned {weights : Option Weights} {n : Nat}
      {out : Except Fault (Except GenerationError Tree × Random)} : t.isEmpty = false →
      Weights.ofList m.chances.weights = .ok weights →
      Scans p m (m.nodeChance t) weights n 0 t g out → Draws p m t g n out

theorem Draws.unique {n' : Nat} {out out' : Except Fault (Except GenerationError Tree × Random)}
    (h : Draws p m t g n out) (h' : Draws p m t g n' out') : n' = n ∧ out' = out := by
  cases h with
  | empty hempty =>
    cases h' with
    | empty => exact ⟨rfl, rfl⟩
    | unweighed hsome | scanned hsome => exact absurd (hempty.symm.trans hsome) nofun
  | unweighed hsome hweights =>
    cases h' with
    | empty hempty => exact absurd (hempty.symm.trans hsome) nofun
    | unweighed _ hweights' =>
      cases hweights.symm.trans hweights'
      exact ⟨rfl, rfl⟩
    | scanned _ hweights' => cases hweights.symm.trans hweights'
  | scanned hsome hweights hscans =>
    cases h' with
    | empty hempty => exact absurd (hempty.symm.trans hsome) nofun
    | unweighed _ hweights' => cases hweights.symm.trans hweights'
    | scanned _ hweights' hscans' =>
      cases hweights.symm.trans hweights'
      exact hscans.unique hscans'

theorem exists_draws (hp : p.IsBuilt) (hkind : m.kind = .advanced) (ht : t.Sound p)
    (hcheck : t.check p = .ok ()) (g : Random) :
    ∃ n ≤ t.size, Draws p m t g n ((m.apply p t).run g) := by
  cases hempty : t.isEmpty with
  | true =>
    rw [apply, if_pos hempty]
    exact ⟨0, Nat.zero_le _, .empty hempty⟩
  | false =>
    have hsize : 0 < t.size := List.length_pos_iff.2 (List.isEmpty_eq_false_iff.1 hempty)
    obtain ⟨type, hproper⟩ := exists_proper_of_check ht hcheck hsize
    have happly : m.apply p t = m.applyAdvanced p t := by
      rw [apply, hempty, hkind]
      rfl
    rw [happly, applyAdvanced]
    cases hweights : Weights.ofList m.chances.weights with
    | error f => exact ⟨0, Nat.zero_le _, .unweighed hempty hweights⟩
    | ok weights =>
      obtain ⟨n, hn, hscans⟩ :=
        exists_scans (i := 0) hp m (m.nodeChance t) weights hproper (Nat.le_refl _) g
      exact ⟨n, hn, .scanned hempty hweights hscans⟩

/-- From any stream an advanced mutation makes no more draws than the tree has nodes, whatever its
chances are; for a round of a scan of any well-formed tree leaves fewer nodes ahead.  A stream is
read up to `Draw.attempts`. -/
theorem apply_draws (hp : p.IsBuilt) (hkind : m.kind = .advanced) (ht : t.Sound p)
    (hcheck : t.check p = .ok ()) :
    (∀ g, ∃ n ≤ t.size, ∀ k out, Draws p m t g k out ↔ k = n ∧ out = (m.apply p t).run g) ∧
    ∀ chance weights i (u : Tree), u.Sound p → u.check p = .ok () → i < u.size →
      Attempt.Yields (m.round p chance weights i u) (fun after =>
        after.2.Sound p ∧ after.2.check p = .ok () ∧ after.2.size - after.1 < u.size - i)
        fun _ => False := by
  constructor
  · intro g
    obtain ⟨n, hn, hdraws⟩ := exists_draws hp hkind ht hcheck g
    refine ⟨n, hn, fun k out => ⟨hdraws.unique, ?_⟩⟩
    rintro ⟨rfl, rfl⟩
    exact hdraws
  · intro chance weights i u hsound hu hi
    obtain ⟨type, hproper⟩ := exists_proper_of_check hsound hu (Nat.zero_lt_of_lt hi)
    exact (round_yields hp m chance weights hproper hi).mono
      (fun after hafter => ⟨hafter.1.sound, hafter.1.check, hafter.2⟩) fun _ h => h

/-! ### Edits of each node -/

/-- A scan in which every node is due for an edit. -/
def restless : Mutation := { thrice with perTreeChance := ⟨0x4059000000000000⟩ }

theorem apply_draws_restless : choices.IsBuilt ∧ restless.kind = .advanced ∧ chosen.Sound choices ∧
    chosen.check choices = .ok () ∧ restless.nodeChance chosen = .one ∧
    (∀ g, ∃ n ≤ 4, ∀ k out,
      Draws choices restless chosen g k out ↔ k = n ∧ out = (restless.apply choices chosen).run g) ∧
    ∀ chance weights, Attempt.Yields (restless.round choices chance weights 0 chosen) (fun after =>
      after.2.Sound choices ∧ after.2.check choices = .ok () ∧ after.2.size - after.1 < 4)
      fun _ => False := by
  have hsound := made_chosen.sound
  have hcheck : chosen.check choices = .ok () := rfl
  obtain ⟨hdraws, hround⟩ := apply_draws (m := restless) isBuilt_choices rfl hsound hcheck
  exact ⟨isBuilt_choices, rfl, hsound, hcheck, by decide +kernel, hdraws,
    fun chance weights => hround chance weights 0 chosen hsound hcheck (by decide)⟩

end Mutation

end GeneticProgramming
