import GeneticProgramming.Proofs.Population.Picking
import GeneticProgramming.Proofs.Population.Precedence

/-!
# Tournaments

A tournament compares adjusted scores as they are, where the ranking takes a NaN for negative
infinity.  Nothing is greater than a NaN, so one that is drawn first wins, whoever else takes part;
drawn later it never wins.  Apart from that the winner has the greatest key of those drawn, up to
the signs of zeros: `Selector.pick_tournament`.
-/

namespace GeneticProgramming

open Population

variable {pop : Population} {first : Nat}

/-! ## Winners -/

namespace Population

theorem keyAt_of_isNaN {i : Nat} (h : (Selector.score pop i).isNaN = true) :
    pop.keyAt i = .negInfinity := by
  rw [keyAt, Fitness.rankKey, h]
  rfl

theorem keyAt_eq {i : Nat} (h : (Selector.score pop i).isNaN = false) :
    pop.keyAt i = Selector.score pop i :=
  Fitness.rankKey_eq h

end Population

namespace Selector

/-- A number is beaten by the same scores and by the same keys. -/
theorem lt_score (h : (score pop first).isNaN = false) (i : Nat) :
    (score pop first).lt (score pop i) = (pop.keyAt first).lt (pop.keyAt i) := by
  rw [keyAt_eq h]
  cases hi : (score pop i).isNaN with
  | false => rw [keyAt_eq hi]
  | true =>
    have hleast := Double.negInfinity_le h
    rw [Double.le_iff (by decide) h, ← Int64.not_lt, ← Double.lt_iff h (by decide),
      Bool.not_eq_true] at hleast
    rw [keyAt_of_isNaN hi, hleast, Double.lt, hi, Bool.not_true, Bool.and_false, Bool.false_and]

theorem fittest_cons_cons (first i : Nat) (rest : List Nat) : fittest pop (first :: i :: rest) =
    fittest pop ((if (score pop first).lt (score pop i) then i else first) :: rest) := rfl

/-- A NaN that is drawn first is never replaced. -/
theorem fittest_of_isNaN (h : (score pop first).isNaN = true) (rest : List Nat) :
    fittest pop (first :: rest) = first := by
  induction rest with
  | nil => rfl
  | cons i rest ih =>
    have hkeep : (score pop first).lt (score pop i) = false := by
      rw [Double.lt, h, Bool.not_true, Bool.false_and, Bool.false_and]
    rw [fittest_cons_cons, hkeep]
    exact ih

/-- A number that is drawn first gives way to greater ones, so the greatest wins. -/
theorem fittest_greatest (h : (score pop first).isNaN = false) (rest : List Nat) :
    fittest pop (first :: rest) ∈ first :: rest ∧
      ∀ i ∈ first :: rest, (pop.keyAt i).le (pop.keyAt (fittest pop (first :: rest))) = true := by
  induction rest generalizing first with
  | nil =>
    refine ⟨List.mem_singleton_self first, fun i hi => ?_⟩
    rw [List.mem_singleton.1 hi]
    exact Double.le_refl (pop.isNaN_keyAt first)
  | cons i rest ih =>
    rw [fittest_cons_cons, List.forall_mem_cons, List.forall_mem_cons]
    cases hbeats : (score pop first).lt (score pop i) with
    | true =>
      have hi : (score pop i).isNaN = false := by
        rw [Double.lt, Bool.and_eq_true, Bool.and_eq_true, Bool.not_eq_true'] at hbeats
        exact Bool.not_eq_true' _ ▸ hbeats.1.2
      obtain ⟨hmem, hall⟩ := ih hi
      obtain ⟨hwinner, hrest⟩ := List.forall_mem_cons.1 hall
      rw [lt_score h] at hbeats
      rw [Double.lt_iff (pop.isNaN_keyAt first) (pop.isNaN_keyAt i)] at hbeats
      have hle := (Double.le_iff (pop.isNaN_keyAt first) (pop.isNaN_keyAt i)).2
        (Int64.le_of_lt hbeats)
      exact ⟨List.mem_cons_of_mem first hmem, Double.le_trans hle hwinner, hwinner, hrest⟩
    | false =>
      obtain ⟨hmem, hall⟩ := ih h
      obtain ⟨hwinner, hrest⟩ := List.forall_mem_cons.1 hall
      rw [lt_score h] at hbeats
      have hle := Double.le_of_not_lt (pop.isNaN_keyAt first) (pop.isNaN_keyAt i) hbeats
      refine ⟨?_, hwinner, Double.le_trans hle hwinner, hrest⟩
      rcases List.mem_cons.1 hmem with heq | hmem
      · exact List.mem_cons.2 (.inl heq)
      · exact List.mem_cons_of_mem first (List.mem_cons_of_mem i hmem)

/-- The winner is as fit as anyone drawn if and only if a number is drawn first, or nothing that
is greater than negative infinity at all. -/
theorem fittest_greatest_iff (rest : List Nat) :
    (∀ i ∈ first :: rest, (pop.keyAt i).le (pop.keyAt (fittest pop (first :: rest))) = true) ↔
      (score pop first).isNaN = false ∨ ∀ i ∈ rest, pop.keyAt i = .negInfinity := by
  cases h : (score pop first).isNaN with
  | false => exact iff_of_true (fittest_greatest h rest).2 (.inl rfl)
  | true =>
    rw [fittest_of_isNaN h, keyAt_of_isNaN h, List.forall_mem_cons, keyAt_of_isNaN h]
    refine ⟨fun hall => .inr fun i hi => ?_, fun hall => ⟨by decide, fun i hi => ?_⟩⟩
    · exact Double.eq_negInfinity_of_le (hall.2 i hi)
    · rw [hall.resolve_left nofun i hi]
      decide

/-- What is known of the winner among those that are drawn, the first one of which counts. -/
structure Wins (pop : Population) (first : Nat) (rest : List Nat) (winner : Nat) : Prop where
  mem : winner ∈ first :: rest
  greatest_iff : (∀ i ∈ first :: rest, (pop.keyAt i).le (pop.keyAt winner) = true) ↔
    (score pop first).isNaN = false ∨ ∀ i ∈ rest, pop.keyAt i = .negInfinity
  of_isNaN : (score pop first).isNaN = true → winner = first
  zeros_of_below : (score pop first).isNaN = false → ∀ i ∈ first :: rest,
    (pop.keyAt winner).Below (pop.keyAt i) → pop.keyAt winner = .negZero ∧ pop.keyAt i = .zero

theorem fittest_wins (pop : Population) (first : Nat) (rest : List Nat) :
    Wins pop first rest (fittest pop (first :: rest)) where
  mem := by
    cases h : (score pop first).isNaN with
    | true => exact List.mem_cons.2 (.inl (fittest_of_isNaN h rest))
    | false => exact (fittest_greatest h rest).1
  greatest_iff := fittest_greatest_iff rest
  of_isNaN h := fittest_of_isNaN h rest
  zeros_of_below h i hi hbelow := hbelow.eq_zeros ((fittest_greatest h rest).2 i hi)

/-! ## Tournaments -/

/-- Among the whole population the winner is as fit as the first in the ranking. -/
theorem Wins.eq_best {rest : List Nat} {winner : Nat} (h : Wins pop first rest winner)
    (hall : (first :: rest).Perm (List.range pop.length)) (hfirst : (score pop first).isNaN = false)
    {i : Nat} (hi : i ∈ pop.bestIndexes 1) : (pop.keyAt i).eq (pop.keyAt winner) = true := by
  have hkey := pop.isNaN_keyAt i
  have hwinner := pop.isNaN_keyAt winner
  have hle : (pop.keyAt i).le (pop.keyAt winner) = true := by
    refine h.greatest_iff.2 (.inl hfirst) i (hall.mem_iff.2 (List.mem_range.2 ?_))
    exact pop.lt_of_mem_rankedIndexes (List.mem_of_mem_take hi)
  have hge : (pop.keyAt winner).le (pop.keyAt i) = true := by
    have hlt := List.mem_range.1 (hall.mem_iff.1 h.mem)
    have hrank := pop.rankAt_le_of_best hi hlt
    rw [rankAt_eq hlt, rankAt_eq (pop.lt_of_mem_rankedIndexes (List.mem_of_mem_take hi))] at hrank
    exact Double.le_of_rank_le hwinner hkey hrank
  rw [Double.le_iff hkey hwinner] at hle
  rw [Double.le_iff hwinner hkey] at hge
  rw [Double.eq, hkey, hwinner]
  exact decide_eq_true (Int64.le_antisymm hle hge)

/-- A tournament draws distinct individuals, as many as asked for or as there are, and picks the
winner.  A stream is read up to `Draw.attempts`. -/
theorem pick_tournament (hne : pop ≠ []) (size : Nat) (g : Random) :
    ∃ first rest winner g',
      Draw.subset pop.length (min (max size 1) pop.length) g = .ok (first :: rest, g') ∧
        Draw.Distinct pop.length (min (max size 1) pop.length) (first :: rest) ∧
        (tournament size).pick pop g = .ok ((winner, tournament size), g') ∧
        Wins pop first rest winner ∧
        (pop.length ≤ size → (score pop first).isNaN = false →
          ∀ i ∈ pop.bestIndexes 1, (pop.keyAt i).eq (pop.keyAt winner) = true) := by
  have hpos := List.length_pos_iff.2 hne
  have hamount : 0 < min (max size 1) pop.length := by omega
  obtain ⟨is, g', hdraw, hdistinct⟩ :=
    (Draw.subset_faults (Nat.min_le_right (max size 1) pop.length)).exists_eq_ok
      (Draw.subset_distinct _ _) g
  cases is with
  | nil => exact absurd hdistinct.length (Nat.ne_of_lt hamount)
  | cons first rest =>
    refine ⟨first, rest, _, g', hdraw, hdistinct, ?_, fittest_wins pop first rest, ?_⟩
    · unfold pick
      dsimp only
      rw [if_neg fun h => hne (List.isEmpty_iff.1 h)]
      change Except.bind (Draw.subset _ _ g) _ = _
      rw [hdraw]
      rfl
    · intro hsize hfirst i hi
      have hall : min (max size 1) pop.length = pop.length := by omega
      rw [hall] at hdistinct
      exact (fittest_wins pop first rest).eq_best hdistinct.perm_range hfirst hi

/-- An individual without a score, and one with a score. -/
def uneven : Population := [⟨.empty, .unscored⟩, ⟨.empty, { Fitness.zero with adjusted := .one }⟩]

theorem pick_tournament_uneven : uneven ≠ [] ∧ ∃ first rest winner g',
    Draw.subset 2 2 (.ofSeed 0) = .ok (first :: rest, g') ∧
      (tournament 2).pick uneven (.ofSeed 0) = .ok ((winner, tournament 2), g') ∧
      Wins uneven first rest winner := by
  have hne : uneven ≠ [] := List.cons_ne_nil _ _
  obtain ⟨first, rest, winner, g', hdraw, -, hpick, hwins, -⟩ := pick_tournament hne 2 (.ofSeed 0)
  exact ⟨hne, first, rest, winner, g', hdraw, hpick, hwins⟩

/-- The ranking puts the second one first, and a tournament of both picks the other one. -/
theorem uneven_unfair : uneven.rankedIndexes = [1, 0] ∧ (uneven.keyAt 0).Below (uneven.keyAt 1) ∧
    ((tournament 2).pick uneven (.ofSeed 0)).toOption.map (·.1) = some (0, tournament 2) := by
  refine ⟨?_, .inl (by decide), by decide +kernel⟩
  cbv

end Selector

end GeneticProgramming
