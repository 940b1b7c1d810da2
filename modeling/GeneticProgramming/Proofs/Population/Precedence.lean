import GeneticProgramming.Population.Selection
import GeneticProgramming.Proofs.Population.Ranking

/-!
# Who precedes whom

A ranking is a stable sort: it holds every index once, the greater key comes first, and equals stand
as they stand in the population.  Keys are compared in the total order of IEEE 754, so zero comes
before negative zero, and a NaN counts as negative infinity.  The best indexes are a first part of
the ranking, and leave out nobody fitter: `Population.rankedIndexes_bestIndexes`.
-/

namespace GeneticProgramming

namespace Population

variable {pop : Population} {i j : Nat}

/-- The rank key of the individual at an index. -/
def keyAt (pop : Population) (i : Nat) : Double := Fitness.rankKey (Selector.score pop i)

/-- The order of a ranking: the greater key first, and of equal keys the smaller index. -/
def Precedes (pop : Population) (i j : Nat) : Prop :=
  (pop.keyAt j).Below (pop.keyAt i) ∨ pop.keyAt i = pop.keyAt j ∧ i < j

theorem isNaN_keyAt (pop : Population) (i : Nat) : (pop.keyAt i).isNaN = false :=
  Fitness.isNaN_rankKey _

theorem rankAt_eq (h : i < pop.length) : pop.rankAt i = (pop.keyAt i).rank := by
  rw [rankAt, keyAt, Selector.score, List.getElem?_eq_getElem h]
  rfl

/-- The individuals of one rank stand in the ranking as they stand in the population. -/
theorem filter_rankedIndexes (pop : Population) (r : Int) :
    (pop.rankedIndexes.filter fun i => pop.rankAt i = r) =
      (List.range pop.length).filter fun i => pop.rankAt i = r := by
  have hequal : ((List.range pop.length).filter fun i => pop.rankAt i = r).Pairwise
      fun i j => decide (pop.rankAt j ≤ pop.rankAt i) = true := by
    refine List.pairwise_of_forall_mem_list fun i hi j hj => ?_
    have hi := of_decide_eq_true (List.mem_filter.1 hi).2
    have hj := of_decide_eq_true (List.mem_filter.1 hj).2
    exact decide_eq_true (Int.le_of_eq (hj.trans hi.symm))
  have hsub := List.sublist_mergeSort pop.trans_rankAt pop.total_rankAt hequal List.filter_sublist
  have hagain := hsub.filter fun i => decide (pop.rankAt i = r)
  simp only [List.filter_filter, Bool.and_self] at hagain
  exact (hagain.eq_of_length (pop.rankedIndexes_perm.filter _).length_eq.symm).symm

theorem precedes_rankedIndexes (pop : Population) : pop.rankedIndexes.Pairwise pop.Precedes := by
  rw [List.pairwise_iff_forall_sublist]
  intro i j hij
  have hi := pop.lt_of_mem_rankedIndexes (hij.subset List.mem_cons_self)
  have hj := pop.lt_of_mem_rankedIndexes (hij.subset (List.mem_cons_of_mem i List.mem_cons_self))
  have hle := List.pairwise_iff_forall_sublist.1 pop.pairwise_rankedIndexes hij
  rcases Int.lt_or_eq_of_le hle with hlt | heq
  · left
    rw [← Double.rank_lt_iff_below (pop.isNaN_keyAt j) (pop.isNaN_keyAt i), ← rankAt_eq hi,
      ← rankAt_eq hj]
    exact hlt
  · right
    have hkey : pop.keyAt i = pop.keyAt j := by
      rw [← Double.rank_inj, ← rankAt_eq hi, ← rankAt_eq hj, heq]
    -- among equals the ranking is increasing, as the indexes were
    have hsub := hij.filter fun k => decide (pop.rankAt k = pop.rankAt i)
    rw [filter_rankedIndexes, List.filter_eq_self.2 (by simp [heq])] at hsub
    have hsorted := List.pairwise_lt_range (n := pop.length)
    exact ⟨hkey, List.pairwise_iff_forall_sublist.1 hsorted (hsub.trans List.filter_sublist)⟩

/-- Who is left out of the best ones is no fitter than any of them. -/
theorem not_below_of_best {n : Nat} (hi : i ∈ pop.bestIndexes n) (hj : j < pop.length)
    (hout : j ∉ pop.bestIndexes n) : ¬ (pop.keyAt i).Below (pop.keyAt j) := by
  have hmem : j ∈ pop.rankedIndexes := pop.rankedIndexes_perm.mem_iff.2 (List.mem_range.2 hj)
  have hrest : j ∈ pop.rankedIndexes.drop n := by
    rw [← List.take_append_drop n pop.rankedIndexes] at hmem
    exact (List.mem_append.1 hmem).resolve_left hout
  have hsorted := pop.pairwise_rankedIndexes
  rw [← List.take_append_drop n pop.rankedIndexes, List.pairwise_append] at hsorted
  have hle := hsorted.2.2 i hi j hrest
  have hilt := pop.lt_of_mem_rankedIndexes (List.mem_of_mem_take hi)
  rw [rankAt_eq hilt, rankAt_eq hj] at hle
  rw [← Double.rank_lt_iff_below (pop.isNaN_keyAt i) (pop.isNaN_keyAt j)]
  exact Int.not_lt.2 hle

/-- A ranking holds each index once, the fitter ones first and equals in the order of their
indexes; the best ones are a first part of it, and nobody who is left out is fitter than one of
them. -/
theorem rankedIndexes_bestIndexes (pop : Population) :
    pop.rankedIndexes.Perm (List.range pop.length) ∧
      pop.rankedIndexes.Pairwise pop.Precedes ∧
        ∀ n, pop.bestIndexes n <+: pop.rankedIndexes ∧
          (pop.bestIndexes n).length = min n pop.length ∧
            ∀ i ∈ pop.bestIndexes n, ∀ j < pop.length, j ∉ pop.bestIndexes n →
              ¬ (pop.keyAt i).Below (pop.keyAt j) := by
  refine ⟨pop.rankedIndexes_perm, pop.precedes_rankedIndexes, fun n => ⟨?_, ?_, ?_⟩⟩
  · exact List.take_prefix n _
  · rw [bestIndexes, List.length_take, pop.rankedIndexes_perm.length_eq, List.length_range]
  · exact fun i hi j hj hout => not_below_of_best hi hj hout

end Population

end GeneticProgramming
