import GeneticProgramming.Population.Statistics
import GeneticProgramming.Proofs.Number.Order

/-!
# Ranks and extremes

Scores that no fitness function set, and those that are no numbers, count as negative infinity.  So
all that ranks and statistics compare stands on one line: the first of the fittest individuals has
the greatest score, and the statistics call that score the best.
-/

namespace GeneticProgramming

namespace Fitness

variable {f g : Fitness} {x : Double}

theorem isNaN_rankKey (x : Double) : (rankKey x).isNaN = false := by
  unfold rankKey
  split
  · decide
  · next hx => exact Bool.not_eq_true _ ▸ hx

theorem rankKey_eq (hx : x.isNaN = false) : rankKey x = x := by
  rw [rankKey, hx]
  rfl

/-- A completed scoring has an adjusted score that counts as it is. -/
theorem rankKey_finalize (f : Fitness) : rankKey f.finalize.adjusted = f.finalize.adjusted :=
  rankKey_eq (isNaN_rankKey _)

theorem le_of_rank_le (h : f.rank ≤ g.rank) :
    (rankKey f.adjusted).le (rankKey g.adjusted) = true :=
  Double.le_of_rank_le (isNaN_rankKey _) (isNaN_rankKey _) h

end Fitness

namespace Population

variable {pop : Population} {n : Nat}

theorem trans_rankAt (pop : Population) (i j k : Nat)
    (hij : decide (pop.rankAt j ≤ pop.rankAt i) = true)
    (hjk : decide (pop.rankAt k ≤ pop.rankAt j) = true) :
    decide (pop.rankAt k ≤ pop.rankAt i) = true := by
  rw [decide_eq_true_eq] at hij hjk ⊢
  exact Int.le_trans hjk hij

theorem total_rankAt (pop : Population) (i j : Nat) :
    (decide (pop.rankAt j ≤ pop.rankAt i) || decide (pop.rankAt i ≤ pop.rankAt j)) = true := by
  rw [Bool.or_eq_true, decide_eq_true_eq, decide_eq_true_eq]
  exact Int.le_total _ _

theorem pairwise_rankedIndexes (pop : Population) :
    pop.rankedIndexes.Pairwise fun i j => pop.rankAt j ≤ pop.rankAt i :=
  (List.pairwise_mergeSort pop.trans_rankAt pop.total_rankAt _).imp of_decide_eq_true

theorem rankedIndexes_ne_nil (hne : pop ≠ []) : pop.rankedIndexes ≠ [] := by
  have hlength := pop.rankedIndexes_perm.length_eq
  rw [List.length_range] at hlength
  exact List.length_pos_iff.1 (hlength ▸ List.length_pos_iff.2 hne)

theorem lt_of_mem_rankedIndexes {i : Nat} (h : i ∈ pop.rankedIndexes) : i < pop.length :=
  List.mem_range.1 (pop.rankedIndexes_perm.mem_iff.1 h)

/-- Nobody's rank is above that of the first in the ranking. -/
theorem rankAt_le_of_best {i j : Nat} (hi : i ∈ pop.bestIndexes 1) (hj : j < pop.length) :
    pop.rankAt j ≤ pop.rankAt i := by
  have hmem : j ∈ pop.rankedIndexes := pop.rankedIndexes_perm.mem_iff.2 (List.mem_range.2 hj)
  have hsorted := pop.pairwise_rankedIndexes
  rw [bestIndexes] at hi
  cases hranked : pop.rankedIndexes with
  | nil => exact absurd (hranked ▸ hmem) List.not_mem_nil
  | cons first rest =>
    rw [hranked] at hi hmem hsorted
    rw [List.mem_singleton.1 hi]
    rcases List.mem_cons.1 hmem with rfl | hrest
    · exact Int.le_refl _
    · exact (List.pairwise_cons.1 hsorted).1 j hrest

/-- Individuals that stand in the order of their ranks keep their places. -/
theorem rankedIndexes_of_pairwise
    (h : (List.range pop.length).Pairwise fun i j => pop.rankAt j ≤ pop.rankAt i) :
    pop.rankedIndexes = List.range pop.length :=
  List.mergeSort_of_pairwise (h.imp fun hle => decide_eq_true hle)

theorem bestIndividuals_of_pairwise
    (h : (List.range pop.length).Pairwise fun i j => pop.rankAt j ≤ pop.rankAt i) (n : Nat) :
    pop.bestIndividuals n = pop.take n := by
  have hfirst : ∀ m, (List.range m).filterMap (pop[·]?) = pop.take m := by
    intro m
    induction m with
    | zero => rfl
    | succ m ih =>
      rw [List.range_succ, List.filterMap_append, ih, List.take_add_one]
      cases hm : pop[m]? with
      | none => simp [hm]
      | some x => simp [hm]
  rw [bestIndividuals, bestIndexes, rankedIndexes_of_pairwise h, List.take_range, hfirst,
    ← List.take_eq_take_min]

/-- One of the fittest is less fit than no other. -/
theorem exists_fittest (hne : pop ≠ []) (hn : 0 < n) :
    ∃ x ∈ pop.bestIndividuals n, ∀ y ∈ pop, y.fitness.rank ≤ x.fitness.rank := by
  have hrank : ∀ {j : Nat} {y : Individual}, pop[j]? = some y → pop.rankAt j = y.fitness.rank := by
    intro j y hy
    rw [rankAt, hy]
    rfl
  obtain ⟨i, rest, hranked⟩ := List.exists_cons_of_ne_nil (rankedIndexes_ne_nil hne)
  have hi : i ∈ pop.rankedIndexes := hranked ▸ List.mem_cons_self
  have hx := List.getElem?_eq_getElem (pop.lt_of_mem_rankedIndexes hi)
  refine ⟨_, List.mem_filterMap.2 ⟨i, ?_, hx⟩, fun y hy => ?_⟩
  · obtain ⟨n, rfl⟩ := Nat.exists_eq_succ_of_ne_zero (Nat.ne_of_gt hn)
    rw [bestIndexes, hranked]
    exact List.mem_cons_self
  · obtain ⟨j, hj⟩ := List.mem_iff_getElem?.1 hy
    rw [← hrank hx, ← hrank hj]
    refine rankAt_le_of_best ?_ (List.getElem?_eq_some_iff.1 hj).1
    rw [bestIndexes, hranked]
    exact List.mem_cons_self

end Population

namespace Statistics

variable {pop : Population} {x : Individual} {bound : Double}

open Fitness

theorem length_normalized_ofPopulation (pop : Population) :
    (ofPopulation pop).normalized.length = pop.length := by
  unfold ofPopulation
  split
  · next h => rw [List.isEmpty_iff.1 h]; rfl
  · unfold ofScores normalize
    dsimp only
    split <;> simp only [List.length_map, List.length_replicate]

theorem best_ofPopulation (hne : pop ≠ []) : (ofPopulation pop).best =
    (pop.map fun x => rankKey x.fitness.adjusted).foldl Double.max .negInfinity := by
  rw [ofPopulation, if_neg fun h => hne (List.isEmpty_iff.1 h)]
  rfl

theorem isNaN_scores (pop : Population) :
    ∀ y ∈ pop.map fun x => rankKey x.fitness.adjusted, y.isNaN = false := by
  intro y hy
  obtain ⟨x, -, rfl⟩ := List.mem_map.1 hy
  exact isNaN_rankKey _

/-- The best of some scores is no NaN, whatever the scores are. -/
theorem isNaN_best (hne : pop ≠ []) : (ofPopulation pop).best.isNaN = false := by
  rw [best_ofPopulation hne]
  exact Double.isNaN_foldl_max (by decide) (isNaN_scores pop)

theorem best_le_iff (hne : pop ≠ []) : (ofPopulation pop).best.le bound = true ↔
    ∀ x ∈ pop, (rankKey x.fitness.adjusted).le bound = true := by
  rw [best_ofPopulation hne, Double.foldl_max_le_iff (by decide) (isNaN_scores pop),
    List.forall_mem_map]
  constructor
  · exact fun h => h.2
  · intro h
    obtain ⟨x, hx⟩ := List.exists_mem_of_ne_nil pop hne
    exact ⟨Double.negInfinity_le (Double.isNaN_of_le (h x hx)).2, h⟩

theorem le_best (hx : x ∈ pop) :
    (rankKey x.fitness.adjusted).le (ofPopulation pop).best = true := by
  have hne := List.ne_nil_of_mem hx
  exact (best_le_iff hne).1 (Double.le_refl (isNaN_best hne)) x hx

/-- No score is better than that of a fittest individual. -/
theorem best_le_of_fittest (hne : pop ≠ []) (h : ∀ y ∈ pop, y.fitness.rank ≤ x.fitness.rank) :
    (ofPopulation pop).best.le (rankKey x.fitness.adjusted) = true :=
  (best_le_iff hne).2 fun y hy => le_of_rank_le (h y hy)

end Statistics

end GeneticProgramming
