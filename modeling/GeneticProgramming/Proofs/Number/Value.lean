import Mathlib
import GeneticProgramming.Proofs.Number.Order

/-!
# Values of doubles

A finite double stands for a rational number, and the order of doubles is the order of their values:
`Double.le_iff_value_le`.  The word without its sign counts the finite magnitudes from zero on, so
the value grows strictly with it; `Layout.units` is that value, as a multiple of the least positive
one, and goes on beyond the finite magnitudes.  `Layout.Rounds` says that a magnitude lies on the
same side of all others as a number does, which is what rounding guarantees.
-/

namespace GeneticProgramming

namespace Layout

variable {l : Layout} {k m : Nat}

/-- What a magnitude stands for, in multiples of the least positive one. -/
def units (l : Layout) (magnitude : Nat) : Nat :=
  if magnitude < 2 ^ l.fraction then magnitude
  else (2 ^ l.fraction + magnitude % 2 ^ l.fraction) * 2 ^ (magnitude / 2 ^ l.fraction - 1)

/-- A mantissa at a scale has its magnitude, also where it has one digit too many. -/
theorem units_code (hm : m ≤ 2 * 2 ^ l.fraction) (hk : 2 ^ l.fraction ≤ m ∨ k = 0) :
    l.units (k * 2 ^ l.fraction + m) = m * 2 ^ k := by
  unfold units
  have hpos := Nat.two_pow_pos l.fraction
  generalize 2 ^ l.fraction = p at hm hk hpos ⊢
  rcases Nat.lt_or_ge m p with hsmall | hlarge
  · obtain rfl : k = 0 := hk.resolve_left (by omega)
    rw [Nat.zero_mul, Nat.zero_add, if_pos hsmall, Nat.pow_zero, Nat.mul_one]
  · have hnot : ¬ k * p + m < p := by omega
    rw [if_neg hnot]
    rcases Nat.lt_or_eq_of_le hm with hlt | rfl
    · obtain ⟨low, rfl⟩ := Nat.exists_eq_add_of_le hlarge
      have hdiv : (k * p + (p + low)) / p = k + 1 := by
        rw [← Nat.add_assoc, ← Nat.succ_mul, Nat.add_comm, Nat.add_mul_div_right _ _ hpos,
          Nat.div_eq_of_lt (by omega), Nat.zero_add]
      have hmod : (k * p + (p + low)) % p = low := by
        rw [← Nat.add_assoc, ← Nat.succ_mul, Nat.add_comm, Nat.add_mul_mod_self_right,
          Nat.mod_eq_of_lt (by omega)]
      rw [hdiv, hmod, Nat.add_sub_cancel]
    · have hsum : k * p + 2 * p = (k + 2) * p := (Nat.add_mul k 2 p).symm
      rw [hsum, Nat.mul_div_cancel _ hpos, Nat.mul_mod_left, Nat.add_zero,
        show k + 2 - 1 = k + 1 from rfl, Nat.pow_succ]
      ring

/-- Every magnitude has a mantissa and a scale. -/
theorem exists_code (l : Layout) (magnitude : Nat) : ∃ k m, magnitude = k * 2 ^ l.fraction + m ∧
    m < 2 * 2 ^ l.fraction ∧ (2 ^ l.fraction ≤ m ∨ k = 0) := by
  have hpos := Nat.two_pow_pos l.fraction
  generalize 2 ^ l.fraction = p at hpos ⊢
  rcases Nat.lt_or_ge magnitude p with hsmall | hlarge
  · exact ⟨0, magnitude, by omega, by omega, .inr rfl⟩
  · have hdiv : 0 < magnitude / p := Nat.div_pos hlarge hpos
    have hmod := Nat.mod_lt magnitude hpos
    obtain ⟨k, hk⟩ := Nat.exists_eq_succ_of_ne_zero (Nat.ne_of_gt hdiv)
    have hsplit := Nat.div_add_mod magnitude p
    rw [hk, Nat.mul_succ, Nat.mul_comm] at hsplit
    exact ⟨k, p + magnitude % p, by omega, by omega, .inl (by omega)⟩

theorem units_strictMono (l : Layout) : StrictMono l.units := by
  apply strictMono_nat_of_lt_succ
  intro magnitude
  obtain ⟨k, m, rfl, hm, hk⟩ := l.exists_code magnitude
  rw [Nat.add_assoc, units_code (by omega) hk, units_code (by omega) (by omega)]
  exact Nat.mul_lt_mul_of_pos_right (Nat.lt_succ_self m) (Nat.two_pow_pos k)

/-- The least positive value. -/
def least (l : Layout) : ℚ := 2 ^ l.scale 0

theorem least_pos (l : Layout) : 0 < l.least := zpow_pos two_pos _

/-- A mantissa at its scale is a multiple of the least value. -/
theorem mantissa_mul_scale (l : Layout) (bits : Nat) :
    (l.mantissa bits : ℚ) * 2 ^ l.scale bits = l.units (l.magnitude bits) * l.least := by
  have hscale : l.scale bits = (l.exponentField bits - 1 : Nat) + l.scale 0 := by
    have hzero : l.exponentField 0 = 0 := by
      rw [exponentField, magnitude, Nat.zero_mod, Nat.zero_div]
    unfold scale
    rw [hzero]
    omega
  have hmantissa : l.units (l.magnitude bits) =
      l.mantissa bits * 2 ^ (l.exponentField bits - 1) := by
    unfold units mantissa exponentField
    generalize l.magnitude bits = n
    have hpos := Nat.two_pow_pos l.fraction
    rcases Nat.lt_or_ge n (2 ^ l.fraction) with hsmall | hlarge
    · rw [if_pos hsmall, Nat.div_eq_of_lt hsmall, if_pos rfl, Nat.mod_eq_of_lt hsmall, Nat.zero_sub,
        Nat.pow_zero, Nat.mul_one]
    · rw [if_neg (Nat.not_lt.2 hlarge), if_neg (Nat.ne_of_gt (Nat.div_pos hlarge hpos))]
  rw [hscale, zpow_add₀ two_ne_zero, zpow_natCast, ← mul_assoc, ← least, hmantissa]
  push_cast
  rfl

/-! ## Rounding -/

/-- A number, in multiples of the least positive magnitude, is rounded to a magnitude: it never
passes another one. -/
structure Rounds (l : Layout) (r : ℚ) (magnitude : Nat) : Prop where
  le_of_le : ∀ n, r ≤ l.units n → magnitude ≤ n
  ge_of_ge : ∀ n, l.units n ≤ r → n ≤ magnitude

/-- A number that is a magnitude is rounded to that magnitude. -/
theorem Rounds.eq_of_units_eq {r : ℚ} {n : Nat} (h : l.Rounds r m) (hn : l.units n = r) : m = n :=
  Nat.le_antisymm (h.le_of_le n hn.ge) (h.ge_of_ge n hn.le)

/-- An integer beside a number never passes an integer. -/
theorem nearest_le {x : ℚ} {n b : Nat} (hnear : |(n : ℚ) - x| ≤ 1 / 2) (h : x ≤ b) : n ≤ b := by
  have hle : (n : ℚ) < b + 1 := by
    have := (abs_le.1 hnear).2
    linarith
  have hlt : n < b + 1 := by exact_mod_cast hle
  omega

theorem le_nearest {x : ℚ} {n b : Nat} (hnear : |(n : ℚ) - x| ≤ 1 / 2) (h : b ≤ x) : b ≤ n := by
  have hle : (b : ℚ) < n + 1 := by
    have := (abs_le.1 hnear).1
    linarith
  have hlt : b < n + 1 := by exact_mod_cast hle
  omega

/-- A magnitude is a multiple of a scale, or has too few digits to reach it. -/
theorem units_cases (l : Layout) (k n : Nat) : (∃ b, l.units n = b * 2 ^ k) ∨
    0 < k ∧ l.units n < 2 ^ l.fraction * 2 ^ k := by
  obtain ⟨j, m, rfl, hm, hj⟩ := l.exists_code n
  rw [units_code hm.le hj]
  rcases Nat.lt_or_ge j k with hlt | hge
  · right
    refine ⟨Nat.zero_lt_of_lt hlt, ?_⟩
    calc m * 2 ^ j < 2 * 2 ^ l.fraction * 2 ^ j :=
          Nat.mul_lt_mul_of_pos_right hm (Nat.two_pow_pos j)
      _ = 2 ^ l.fraction * 2 ^ (j + 1) := by ring
      _ ≤ 2 ^ l.fraction * 2 ^ k :=
          Nat.mul_le_mul_left _ (Nat.pow_le_pow_right two_pos hlt)
  · left
    obtain ⟨d, rfl⟩ := Nat.exists_eq_add_of_le hge
    exact ⟨m * 2 ^ d, by ring⟩

/-- The nearest integer to a number at a scale that leaves it all digits, or at the least scale, is
its rounding. -/
theorem rounds_code {x : ℚ} (hnear : |(m : ℚ) - x| ≤ 1 / 2) (hm : m ≤ 2 * 2 ^ l.fraction)
    (hk : (2 ^ l.fraction : Nat) ≤ x ∨ k = 0) :
    l.Rounds (x * 2 ^ k) (k * 2 ^ l.fraction + m) := by
  have hpos : (0 : ℚ) < 2 ^ k := by positivity
  have hdigits : 2 ^ l.fraction ≤ m ∨ k = 0 := hk.imp_left (le_nearest hnear)
  have hunits := units_code hm hdigits
  constructor
  · intro n hn
    rw [← l.units_strictMono.le_iff_le, hunits]
    rcases l.units_cases k n with ⟨b, hb⟩ | ⟨hscale, hfew⟩
    · rw [hb] at hn ⊢
      refine Nat.mul_le_mul_right _ (nearest_le hnear ?_)
      push_cast at hn
      exact le_of_mul_le_mul_right hn hpos
    · exfalso
      have hx := hk.resolve_right (Nat.ne_of_gt hscale)
      have hcast : (l.units n : ℚ) < (2 ^ l.fraction : Nat) * 2 ^ k := by exact_mod_cast hfew
      have hle := mul_le_mul_of_nonneg_right hx hpos.le
      linarith
  · intro n hn
    rw [← l.units_strictMono.le_iff_le, hunits]
    rcases l.units_cases k n with ⟨b, hb⟩ | ⟨hscale, hfew⟩
    · rw [hb] at hn ⊢
      refine Nat.mul_le_mul_right _ (le_nearest hnear ?_)
      push_cast at hn
      exact le_of_mul_le_mul_right hn hpos
    · have hfull := hdigits.resolve_right (Nat.ne_of_gt hscale)
      exact hfew.le.trans (Nat.mul_le_mul_right _ hfull)

end Layout

namespace Double

variable {x y : Double}

/-- The number that a finite double stands for; an infinity counts as the first power of two that is
out of range. -/
def value (x : Double) : ℚ :=
  (if x.isNegative then -1 else 1) *
    (Layout.double.mantissa x.bits.toNat * 2 ^ Layout.double.scale x.bits.toNat)

/-- How far a double is away from zero, in multiples of the least positive one. -/
def units (x : Double) : Nat := Layout.double.units (Layout.double.magnitude x.bits.toNat)

theorem value_of_nonneg (h : x.isNegative = false) :
    x.value = x.units * Layout.double.least := by
  rw [value, Layout.mantissa_mul_scale, h, if_neg Bool.false_ne_true, one_mul, units]

theorem value_of_negative (h : x.isNegative = true) :
    x.value = -(x.units * Layout.double.least) := by
  rw [value, Layout.mantissa_mul_scale, h, if_pos rfl, neg_one_mul, units]

/-- The value that a magnitude has without a sign. -/
theorem mono_value (m n : Nat) : (m : ℤ) ≤ n ↔
    (Layout.double.units m : ℚ) * Layout.double.least ≤
      Layout.double.units n * Layout.double.least := by
  rw [mul_le_mul_iff_of_pos_right Layout.double.least_pos, Nat.cast_le (α := ℚ), Int.ofNat_le]
  exact Layout.double.units_strictMono.le_iff_le.symm

/-- The order of doubles is the order of their values. -/
theorem le_iff_value_le (hx : x.isNaN = false) (hy : y.isNaN = false) :
    x.le y = true ↔ x.value ≤ y.value := by
  rw [le_iff hx hy, Int64.le_iff_toInt_le, toInt_position, toInt_position]
  unfold Layout.position
  rw [← isNegative_eq, ← isNegative_eq]
  have hzero : (Layout.double.units 0 : ℚ) * Layout.double.least = 0 := zero_mul _
  have hnonneg : ∀ n : Nat, 0 ≤ (Layout.double.units n : ℚ) * Layout.double.least :=
    fun n => mul_nonneg (Nat.cast_nonneg _) Layout.double.least_pos.le
  cases hsx : x.isNegative <;> cases hsy : y.isNegative
  · rw [value_of_nonneg hsx, value_of_nonneg hsy]
    exact mono_value _ _
  · rw [value_of_nonneg hsx, value_of_negative hsy, units, units]
    generalize Layout.double.magnitude x.bits.toNat = m
    generalize Layout.double.magnitude y.bits.toNat = n
    have hm := mono_value m 0
    have hn := mono_value n 0
    rw [hzero] at hm hn
    have hm' := hnonneg m
    have hn' := hnonneg n
    constructor
    · intro (h : (m : ℤ) ≤ -n)
      have := hm.1 (by omega)
      have := hn.1 (by omega)
      linarith
    · intro h
      have := hm.2 (by linarith)
      have := hn.2 (by linarith)
      change (m : ℤ) ≤ -n
      omega
  · rw [value_of_negative hsx, value_of_nonneg hsy, units, units]
    refine iff_of_true ?_ ((neg_nonpos.2 (hnonneg _)).trans (hnonneg _))
    exact (Int.neg_nonpos_of_nonneg (Int.natCast_nonneg _)).trans (Int.natCast_nonneg _)
  · rw [value_of_negative hsx, value_of_negative hsy, neg_le_neg_iff]
    exact Int.neg_le_neg_iff.trans (mono_value _ _)

theorem lt_iff_value_lt (hx : x.isNaN = false) (hy : y.isNaN = false) :
    x.lt y = true ↔ x.value < y.value := by
  rw [← not_le, ← le_iff_value_le hy hx, lt_iff hx hy, le_iff hy hx, Int64.not_le]

/-! ## Rounding to doubles -/

/-- A number is rounded to a double that never passes another one: it is no less than those below
the number, and no greater than those above. -/
structure Rounds (x : Double) (r : ℚ) : Prop where
  isNaN : x.isNaN = false
  le_of_le : ∀ y : Double, y.isNaN = false → r ≤ y.value → x.le y = true
  ge_of_ge : ∀ y : Double, y.isNaN = false → y.value ≤ r → y.le x = true

/-- A number that is a double is rounded to that double. -/
theorem Rounds.value_eq {r : ℚ} (h : x.Rounds r) (hy : y.isNaN = false) (hr : y.value = r) :
    x.value = r := by
  have hle := (le_iff_value_le h.isNaN hy).1 (h.le_of_le y hy hr.ge)
  have hge := (le_iff_value_le hy h.isNaN).1 (h.ge_of_ge y hy hr.le)
  exact hr ▸ le_antisymm hle hge

end Double

end GeneticProgramming
