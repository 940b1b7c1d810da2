import GeneticProgramming.Population.Selection
import GeneticProgramming.Proofs.Faults
import GeneticProgramming.Proofs.Population.Ranking
import GeneticProgramming.Proofs.Random.Distinct

/-!
# Picks

Distinct numbers below a length are drawn without a fault, as long as no more are wanted than there
are.  So a selector that was prepared for a population is ready: from any stream it picks someone,
and is ready again.
-/

namespace GeneticProgramming

/-! ## Subsets -/

namespace Draw

variable {length amount : Nat} {F : Fault → Prop}

theorem shuffled_faults (h : amount ≤ length) : FaultsOnly (shuffled length amount) F := by
  refine .andThen (.foldlM _ (fun i hi xs => ?_) _) fun xs => .pure _
  have hlt : i < amount := List.mem_range.1 hi
  exact .andThen (belowHalf_faults (by omega)) fun j => .pure _

theorem shuffleBack_faults (xs : List Nat) : FaultsOnly (shuffleBack xs) F := by
  refine .andThen (.foldlM _ (fun i _ ys => ?_) _) fun ys => .pure _
  exact .andThen (belowHalf_faults (Nat.succ_pos i)) fun j => .pure _

theorem floyd_faults (length amount : Nat) : FaultsOnly (floyd length amount) F := by
  refine .ite (fun _ => ?_) fun _ => .andThen ?_ fun drawn => shuffleBack_faults _
  · refine .foldlM _ (fun j _ xs => ?_) _
    exact .andThen (belowHalf_faults (Nat.succ_pos j)) fun t => .pure _
  · refine .foldlM _ (fun j _ xs => ?_) _
    exact .andThen (belowHalf_faults (Nat.succ_pos j)) fun t => .pure _

theorem untaken_faults (h : 0 < length) (taken : List Nat) (tries : Nat) :
    FaultsOnly (untaken length taken tries) F := by
  induction tries with
  | zero => exact .pure _
  | succ tries ih =>
    exact .andThen (belowHalfEagerly_faults h) fun n => .ite (fun _ => ih) fun _ => .pure n

theorem rejecting_faults (h : amount ≤ length) : FaultsOnly (rejecting length amount) F := by
  refine .andThen (.foldlM _ (fun i hi taken => ?_) _) fun drawn => .pure _
  have hlt : i < amount := List.mem_range.1 hi
  exact .andThen (untaken_faults (by omega) taken attempts) fun n => .pure _

theorem subset_faults (h : amount ≤ length) : FaultsOnly (subset length amount) F := by
  refine .ite (fun hlt => absurd hlt (Nat.not_lt.2 h)) fun _ => ?_
  cases subsetRule length amount with
  | shuffle => exact shuffled_faults h
  | floyd => exact floyd_faults length amount
  | rejection => exact rejecting_faults h

end Draw

/-! ## Selectors -/

namespace Selector

variable {s s' : Selector} {pop : Population} {stats : Statistics} {F : Fault → Prop}

/-- A selector that was prepared for a population: a walk goes by indexes of it. -/
def Ready (pop : Population) : Selector → Prop
  | walk _ order _ => order ≠ [] ∧ ∀ i ∈ order, i < pop.length
  | _ => True

/-- A population that is not empty can be selected from, with statistics of its own. -/
theorem exists_prepare (s : Selector) (hne : pop ≠ []) (hstats : stats = .ofPopulation pop) :
    ∃ s', s.prepare pop stats = .ok s' ∧ s'.Ready pop := by
  have hranked := pop.rankedIndexes_ne_nil hne
  have hmem : ∀ i ∈ pop.rankedIndexes, i < pop.length := fun i => pop.lt_of_mem_rankedIndexes
  unfold prepare
  rw [if_neg fun h => hne (List.isEmpty_iff.1 h)]
  match s with
  | tournament size => exact ⟨_, rfl, trivial⟩
  | walk false _ _ => exact ⟨_, rfl, hranked, hmem⟩
  | walk true _ _ =>
    exact ⟨_, rfl, mt List.reverse_eq_nil_iff.1 hranked, fun i hi => hmem i (List.mem_reverse.1 hi)⟩
  | random => exact ⟨_, rfl, trivial⟩
  | roulette _ =>
    have hshares : stats.normalized.length = pop.length :=
      hstats ▸ Statistics.length_normalized_ofPopulation pop
    dsimp only
    rw [if_pos hshares]
    exact ⟨_, rfl, trivial⟩

/-- The fittest of some indexes is one of them, or the first one of all. -/
theorem fittest_lt (hne : pop ≠ []) {is : List Nat} (h : ∀ i ∈ is, i < pop.length) :
    fittest pop is < pop.length := by
  cases is with
  | nil => exact List.length_pos_iff.2 hne
  | cons i is =>
    obtain ⟨hi, his⟩ := List.forall_mem_cons.1 h
    refine List.foldlRecOn (motive := (· < pop.length)) is _ hi fun best hbest j hj => ?_
    split
    · exact his j hj
    · exact hbest

theorem pick_faults (s : Selector) (hne : pop ≠ []) : Draw.FaultsOnly (s.pick pop) F := by
  have hpos := List.length_pos_iff.2 hne
  match s with
  | tournament size =>
    refine .ite (fun h => absurd (List.isEmpty_iff.1 h) hne) fun _ => ?_
    exact .andThen (Draw.subset_faults (Nat.min_le_right _ _)) fun is => .pure _
  | walk reversed order taken =>
    unfold pick
    dsimp only
    split
    · exact .pure _
    · exact .pure _
  | random => exact .andThen (Draw.below_faults hpos) fun i => .pure _
  | roulette cumulative => exact .andThen (.andThen Draw.word_faults fun w => .pure _) fun d => .pure _

theorem Ready.pick_yields (h : s.Ready pop) (hne : pop ≠ []) :
    Yields (s.pick pop) fun out => out.1 < pop.length ∧ out.2.Ready pop := by
  have hpos := List.length_pos_iff.2 hne
  match s, h with
  | tournament size, _ =>
    refine Yields.ite (fun _ => Yields.throw _) fun _ => ?_
    refine Yields.bind (Draw.subset_distinct _ _) fun is his => ?_
    exact Yields.pure ⟨fittest_lt hne his.lt, trivial⟩
  | walk reversed order taken, h =>
    obtain ⟨horder, hmem⟩ := h
    have hlt : taken % order.length < order.length :=
      Nat.mod_lt taken (List.length_pos_iff.2 horder)
    unfold pick
    dsimp only
    rw [List.getElem?_eq_getElem hlt]
    exact Yields.pure ⟨hmem _ (List.getElem_mem hlt), horder, hmem⟩
  | random, _ =>
    exact Yields.bind (Draw.below_yields pop.length) fun i hi => Yields.pure ⟨hi, trivial⟩
  | roulette cumulative, _ =>
    refine Yields.bind (Yields.trivial _) fun d _ => Yields.pure ⟨?_, trivial⟩
    omega

theorem Ready.pickTree_faults (h : s.Ready pop) (hne : pop ≠ []) :
    Draw.FaultsOnly (s.pickTree pop) F := by
  refine .bind (pick_faults s hne) (h.pick_yields hne) fun picked hpicked => ?_
  have hfound : demand pop[picked.1]? = .ok pop[picked.1] := by
    rw [List.getElem?_eq_getElem hpicked.1, demand_some]
  exact .known hfound (.pure _)

theorem Ready.pickTree_yields (h : s.Ready pop) (hne : pop ≠ []) {Q : Tree → Prop}
    (hpop : ∀ x ∈ pop, Q x.tree) :
    Yields (s.pickTree pop) fun out => Q out.1 ∧ out.2.Ready pop := by
  refine Yields.bind (h.pick_yields hne) fun picked hpicked => ?_
  refine Yields.bind (Yields.lift fun x hx => eq_of_demand hx) fun x hx => ?_
  exact Yields.pure ⟨hpop x (List.mem_of_getElem? hx), hpicked.2⟩

end Selector

end GeneticProgramming
