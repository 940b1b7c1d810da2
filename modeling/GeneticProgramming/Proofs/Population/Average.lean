import GeneticProgramming.Proofs.Number.Rounding
import GeneticProgramming.Proofs.Population.Ranking

/-!
# Extremes and averages

The worst and the best of the statistics are scores of a population, and all others lie between
them.  The average need not: a score that is not finite counts as zero in the sum, though not in the
extremes, and the sum is rounded.  It does lie between them if the sum is exact and zero is out of
neither bound where it stands for an infinity: `Statistics.average_between`.
-/

namespace GeneticProgramming

open Double

/-- What the statistics make of the scores. -/
def Population.keys (pop : Population) : List Double :=
  pop.map fun x => Fitness.rankKey x.fitness.adjusted

namespace Statistics

variable {pop : Population} {x bound : Double}

theorem ofPopulation_eq (hne : pop ≠ []) : ofPopulation pop = ofScores pop.keys :=
  if_neg fun h => hne (List.isEmpty_iff.1 h)

/-! ## Extremes -/

theorem isNaN_keys (hx : x ∈ pop.keys) : x.isNaN = false := isNaN_scores pop x hx

theorem le_best_of_mem (hx : x ∈ pop.keys) : x.le (ofPopulation pop).best = true := by
  obtain ⟨i, hi, rfl⟩ := List.mem_map.1 hx
  exact le_best hi

theorem worst_ofPopulation (hne : pop ≠ []) :
    (ofPopulation pop).worst = pop.keys.foldl Double.min .infinity := by
  rw [ofPopulation_eq hne]
  rfl

theorem isNaN_worst (hne : pop ≠ []) : (ofPopulation pop).worst.isNaN = false := by
  rw [worst_ofPopulation hne]
  exact isNaN_foldl_min (by decide) fun y => isNaN_keys

theorem worst_le_of_mem (hx : x ∈ pop.keys) : (ofPopulation pop).worst.le x = true := by
  have hne : pop ≠ [] := by
    rintro rfl
    exact absurd hx List.not_mem_nil
  have hle := le_refl (isNaN_worst hne)
  nth_rewrite 2 [worst_ofPopulation hne] at hle
  exact ((le_foldl_min_iff (by decide) fun y => isNaN_keys).1 hle).2 x hx

theorem exists_key (hne : pop ≠ []) : ∃ x, x ∈ pop.keys :=
  List.exists_mem_of_ne_nil _ (mt List.map_eq_nil_iff.1 hne)

theorem best_mem (hne : pop ≠ []) : (ofPopulation pop).best ∈ pop.keys := by
  have hmem := foldl_mem max_choice pop.keys .negInfinity
  have hbest : pop.keys.foldl Double.max .negInfinity = (ofPopulation pop).best :=
    (best_ofPopulation hne).symm
  rw [hbest] at hmem
  rcases List.mem_cons.1 hmem with heq | hmem
  · obtain ⟨x, hx⟩ := exists_key hne
    have hle := le_best_of_mem hx
    rw [heq] at hle ⊢
    exact eq_negInfinity_of_le hle ▸ hx
  · exact hmem

theorem worst_mem (hne : pop ≠ []) : (ofPopulation pop).worst ∈ pop.keys := by
  have hmem := foldl_mem min_choice pop.keys .infinity
  rw [← worst_ofPopulation hne] at hmem
  rcases List.mem_cons.1 hmem with heq | hmem
  · obtain ⟨x, hx⟩ := exists_key hne
    have hle := worst_le_of_mem hx
    rw [heq] at hle ⊢
    exact eq_infinity_of_le hle ▸ hx
  · exact hmem

/-! ## Averages -/

/-- The sum is finite and was not rounded. -/
structure ExactSum (pop : Population) : Prop where
  isFinite : (ofPopulation pop).overall.isFinite = true
  value_eq : (ofPopulation pop).overall.value = (pop.keys.map fun x => (share x).value).sum

/-- A share is no more than a bound of the score, if the bound is not negative where the share is
that of nothing. -/
theorem share_le (hx : x.isNaN = false) (hle : x.le bound = true)
    (hzero : x = .negInfinity → Double.le .zero bound = true) :
    (share x).value ≤ bound.value := by
  have hbound := (isNaN_of_le hle).2
  unfold share
  cases hfinite : x.isFinite with
  | true => exact (le_iff_value_le hx hbound).1 hle
  | false =>
    change Double.zero.value ≤ bound.value
    refine (le_iff_value_le (by decide) hbound).1 ?_
    rcases eq_infinity hx hfinite with rfl | rfl
    · exact le_trans (by decide) hle
    · exact hzero rfl

theorem le_share (hx : x.isNaN = false) (hle : bound.le x = true)
    (hzero : x = .infinity → bound.le .zero = true) :
    bound.value ≤ (share x).value := by
  have hbound := (isNaN_of_le hle).1
  unfold share
  cases hfinite : x.isFinite with
  | true => exact (le_iff_value_le hbound hx).1 hle
  | false =>
    change bound.value ≤ Double.zero.value
    refine (le_iff_value_le hbound (by decide)).1 ?_
    rcases eq_infinity hx hfinite with rfl | rfl
    · exact hzero rfl
    · exact le_trans hle (by decide)

/-- The average of few enough scores is the sum by their number, rounded. -/
theorem rounds_average (hne : pop ≠ []) (hfew : pop.length ≤ 2 ^ 53) (hsum : ExactSum pop) :
    (ofPopulation pop).average.Rounds
      ((pop.keys.map fun x => (share x).value).sum / pop.length) := by
  have hpos : (0 : ℚ) < pop.length := Nat.cast_pos.2 (List.length_pos_iff.2 hne)
  have hvalue := value_ofNat hfew
  have haverage : (ofPopulation pop).average =
      (ofPopulation pop).overall / Double.ofNat pop.length := by
    rw [ofPopulation_eq hne]
    unfold ofScores Population.keys
    rw [List.length_map]
  rw [haverage, ← hsum.value_eq, ← hvalue]
  refine rounds_div hsum.isFinite (isFinite_ofNat hfew) ?_
  rw [hvalue]
  exact hpos.ne'

theorem average_between (hne : pop ≠ []) (hfew : pop.length ≤ 2 ^ 53) (hsum : ExactSum pop) :
    (ofPopulation pop).best ∈ pop.keys ∧ (ofPopulation pop).worst ∈ pop.keys ∧
      (∀ x ∈ pop.keys, (ofPopulation pop).worst.le x = true ∧
        x.le (ofPopulation pop).best = true) ∧
      (.negInfinity ∉ pop.keys ∨ Double.le .zero (ofPopulation pop).best = true →
        (ofPopulation pop).average.le (ofPopulation pop).best = true) ∧
      (.infinity ∉ pop.keys ∨ (ofPopulation pop).worst.le .zero = true →
        (ofPopulation pop).worst.le (ofPopulation pop).average = true) := by
  have hpos : (0 : ℚ) < pop.length := Nat.cast_pos.2 (List.length_pos_iff.2 hne)
  have hrounds := rounds_average hne hfew hsum
  have hlength : (pop.keys.map fun x => (share x).value).length = pop.length := by
    rw [List.length_map, Population.keys, List.length_map]
  refine ⟨best_mem hne, worst_mem hne, fun x hx => ⟨worst_le_of_mem hx, le_best_of_mem hx⟩, ?_, ?_⟩
  · intro h
    refine hrounds.le_of_le _ (isNaN_best hne) ?_
    rw [div_le_iff₀ hpos, mul_comm, ← hlength, ← nsmul_eq_mul]
    refine List.sum_le_card_nsmul _ _ (List.forall_mem_map.2 fun x hx => ?_)
    refine share_le (isNaN_keys hx) (le_best_of_mem hx) ?_
    rintro rfl
    exact h.resolve_left fun hnone => hnone hx
  · intro h
    refine hrounds.ge_of_ge _ (isNaN_worst hne) ?_
    rw [le_div_iff₀ hpos, mul_comm, ← hlength, ← nsmul_eq_mul]
    refine List.card_nsmul_le_sum _ _ (List.forall_mem_map.2 fun x hx => ?_)
    refine le_share (isNaN_keys hx) (worst_le_of_mem hx) ?_
    rintro rfl
    exact h.resolve_left fun hnone => hnone hx

/-- Individuals with these adjusted scores. -/
def scored (scores : List Double) : Population :=
  scores.map fun x => ⟨.empty, { Fitness.zero with adjusted := x }⟩

/-- One and three. -/
def oddScores : Population := scored [.one, ⟨0x4008000000000000⟩]

theorem value_three : (⟨0x4008000000000000⟩ : Double).value = 3 := by
  show 1 * (((2 ^ 52 + 2 ^ 51 : Nat) : ℚ) * 2 ^ (-51 : ℤ)) = 3
  norm_num

theorem exactSum_odd : ExactSum oddScores where
  isFinite := by decide +kernel
  value_eq := by
    have hoverall : (ofPopulation oddScores).overall = ⟨0x4010000000000000⟩ := by decide +kernel
    have hfour : (⟨0x4010000000000000⟩ : Double).value = 4 := by
      show 1 * (((2 ^ 52 : Nat) : ℚ) * 2 ^ (-50 : ℤ)) = 4
      norm_num
    rw [hoverall, hfour]
    show 4 = Double.one.value + ((⟨0x4008000000000000⟩ : Double).value + 0)
    rw [value_one, value_three]
    norm_num

theorem average_between_odd : oddScores ≠ [] ∧ oddScores.length ≤ 2 ^ 53 ∧ ExactSum oddScores ∧
    (ofPopulation oddScores).worst.le (ofPopulation oddScores).average = true ∧
      (ofPopulation oddScores).average.le (ofPopulation oddScores).best = true := by
  have hne : oddScores ≠ [] := List.cons_ne_nil _ _
  have hfew : oddScores.length ≤ 2 ^ 53 := by decide
  obtain ⟨-, -, -, hbest, hworst⟩ := average_between hne hfew exactSum_odd
  exact ⟨hne, hfew, exactSum_odd, hworst (.inl (by decide)), hbest (.inl (by decide))⟩

/-- Nobody is scored: the best score is negative infinity, and the average is zero. -/
theorem average_unscored : (ofPopulation (scored [.nan])).worst = .negInfinity ∧
    (ofPopulation (scored [.nan])).best = .negInfinity ∧
      (ofPopulation (scored [.nan])).average = .zero ∧
        (ofPopulation (scored [.nan])).average.le (ofPopulation (scored [.nan])).best = false := by
  decide +kernel

/-- Three times a tenth is rounded up, and so the average of three tenths is more than a tenth. -/
example : (ofPopulation (scored (List.replicate 3 ⟨0x3FB999999999999A⟩))).best =
      ⟨0x3FB999999999999A⟩ ∧
    (ofPopulation (scored (List.replicate 3 ⟨0x3FB999999999999A⟩))).average =
      ⟨0x3FB999999999999B⟩ := by
  decide +kernel

end Statistics

end GeneticProgramming
