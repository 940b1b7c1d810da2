import GeneticProgramming.Proofs.Number.Double
import GeneticProgramming.Proofs.Number.Value

/-!
# Rounded results

The quotient of two finite doubles, and the double of a natural number, are rounded: they never pass
another double, as `Double.Rounds` says.  A mantissa with its two residual bits represents a number;
shifting it halves the number, and rounding it gives the nearest integer.
-/

namespace GeneticProgramming

open Float.Model Float.Model.UnpackedFloat

namespace Unpacked

/-! ## Extended mantissas -/

/-- The number between a mantissa and its successor that the residual bits tell of. -/
def Represents (em : ExtendedMantissa) (x : ℚ) : Prop :=
  match em.roundBit, em.stickyBit with
  | false, false => x = em.mantissa
  | false, true => em.mantissa < x ∧ x < em.mantissa + 1 / 2
  | true, false => x = em.mantissa + 1 / 2
  | true, true => em.mantissa + 1 / 2 < x ∧ x < em.mantissa + 1

namespace Represents

variable {em : ExtendedMantissa} {x : ℚ}

theorem bounds (h : Represents em x) : (em.mantissa : ℚ) ≤ x ∧ x < em.mantissa + 1 := by
  obtain ⟨m, round, sticky⟩ := em
  cases round <;> cases sticky <;> simp only [Represents] at h <;> constructor <;> linarith

/-- Rounding gives the nearest integer. -/
theorem nearest (h : Represents em x) : |(em.roundedMantissa : ℚ) - x| ≤ 1 / 2 := by
  obtain ⟨m, round, sticky⟩ := em
  rw [abs_le]
  cases round <;> cases sticky <;>
    simp only [Represents, ExtendedMantissa.roundedMantissa, ExtendedMantissa.accuracy,
      Accuracy.roundToNearestEven] at h ⊢
  · constructor <;> linarith
  · constructor <;> linarith
  · have hparity : ((m % 2 : Nat) : ℚ) ≤ 1 := by exact_mod_cast Nat.le_of_lt_succ (Nat.mod_lt m two_pos)
    have hnonneg : (0 : ℚ) ≤ (m % 2 : Nat) := Nat.cast_nonneg _
    rw [Nat.cast_add]
    constructor <;> linarith
  · rw [Nat.cast_succ]
    constructor <;> linarith

theorem one_bne_zero : ((1 : Nat) != 0) = true := rfl

theorem shiftRightOne (h : Represents em x) : Represents em.shiftRightOne (x / 2) := by
  obtain ⟨m, round, sticky⟩ := em
  have hsplit : (m : ℚ) = 2 * (m / 2 : Nat) + (m % 2 : Nat) := by
    exact_mod_cast (Nat.div_add_mod m 2).symm
  rcases Nat.mod_two_eq_zero_or_one m with hm | hm <;> rw [hm] at hsplit <;>
    cases round <;> cases sticky <;>
    simp only [Represents, ExtendedMantissa.shiftRightOne, hm, bne_self_eq_false, Bool.or_self,
      one_bne_zero] at h ⊢ <;>
    push_cast at hsplit
  all_goals first | linarith | (constructor <;> linarith)

theorem shiftRight (h : Represents em x) (k : Nat) : Represents (em >>> k) (x / 2 ^ k) := by
  induction k with
  | zero => simpa [HShiftRight.hShiftRight, Nat.repeat] using h
  | succ k ih =>
    rw [pow_succ, ← div_div]
    exact ih.shiftRightOne

theorem exact (m : Nat) : Represents (.ofMantissaAndAccuracy m .exact) m := by
  simp only [Represents, ExtendedMantissa.ofMantissaAndAccuracy]

/-- A quotient with a remainder tells of the exact quotient. -/
theorem fraction (a : Nat) {b : Nat} (hb : 0 < b) :
    Represents (.ofMantissaAndAccuracy (a / b) (accuracyOfFraction (a % b) b)) (a / b : ℚ) := by
  have hpos : (0 : ℚ) < b := Nat.cast_pos.2 hb
  have hlt := Nat.mod_lt a hb
  have hsplit : (a : ℚ) = b * (a / b : Nat) + (a % b : Nat) := by
    exact_mod_cast (Nat.div_add_mod a b).symm
  generalize a % b = r at hlt hsplit ⊢
  generalize a / b = q at hsplit ⊢
  have hquotient : (a / b : ℚ) = q + r / b := by
    rw [hsplit]
    field_simp
  have hfraction : (r / b : ℚ) < 1 := (div_lt_one hpos).2 (Nat.cast_lt.2 hlt)
  rw [hquotient]
  unfold accuracyOfFraction
  split
  · next hzero =>
    simp only [Represents, ExtendedMantissa.ofMantissaAndAccuracy, hzero, Nat.cast_zero, zero_div,
      add_zero]
  · next hne =>
    have hr : (0 : ℚ) < r / b := div_pos (Nat.cast_pos.2 (Nat.pos_of_ne_zero hne)) hpos
    have hhalf : (r / b : ℚ) < 1 / 2 ↔ 2 * r < b := by
      rw [div_lt_div_iff₀ hpos two_pos, one_mul, mul_comm]
      exact_mod_cast Iff.rfl
    have hhalf' : (1 / 2 : ℚ) < r / b ↔ b < 2 * r := by
      rw [div_lt_div_iff₀ two_pos hpos, one_mul, mul_comm]
      exact_mod_cast Iff.rfl
    cases hcompare : compare (2 * r) b with
    | lt =>
      have := hhalf.2 (Nat.compare_eq_lt.1 hcompare)
      simp only [Represents, ExtendedMantissa.ofMantissaAndAccuracy]
      constructor <;> linarith
    | eq =>
      have heq := Nat.compare_eq_eq.1 hcompare
      have := mt hhalf.1 (by omega)
      have := mt hhalf'.1 (by omega)
      simp only [Represents, ExtendedMantissa.ofMantissaAndAccuracy]
      linarith
    | gt =>
      have := hhalf'.2 (Nat.compare_eq_gt.1 hcompare)
      simp only [Represents, ExtendedMantissa.ofMantissaAndAccuracy]
      constructor <;> linarith

end Represents

/-! ## Packing -/

/-- The sign bit, as a part of a word. -/
def signBits : Sign → Nat
  | .negative => 2 ^ 63
  | .positive => 0

/-- A magnitude, or that of an infinity if it is too great. -/
def capped (n : Nat) : Nat := min n Layout.double.infinity

theorem toNat_packComponents (s : Sign) (e : BitVec 11) (m : BitVec 52) :
    (packComponents .binary64 s e m).toNat = signBits s + e.toNat * 2 ^ 52 + m.toNat := by
  unfold packComponents
  have hm := m.isLt
  have he := e.isLt
  rw [BitVec.toNat_append, BitVec.toNat_append, ← Nat.shiftLeft_add_eq_or_of_lt he,
    ← Nat.shiftLeft_add_eq_or_of_lt hm, Nat.shiftLeft_eq, Nat.shiftLeft_eq]
  cases s
  · change (1 * 2 ^ 11 + e.toNat) * 2 ^ 52 + m.toNat = 2 ^ 63 + _ + _
    omega
  · change (0 * 2 ^ 11 + e.toNat) * 2 ^ 52 + m.toNat = 0 + _ + _
    omega

/-- A finite number with few enough digits, all of them unless it is at the least scale, has the
word of its magnitude, or of an infinity if that is too great. -/
theorem toNat_pack_finite (s : Sign) {m : Nat} {e : Int} (hm : 0 < m) (hlt : m < 2 ^ 53)
    (he : -1074 ≤ e) (hdigits : 2 ^ 52 ≤ m ∨ e = -1074) :
    (UnpackedFloat.pack .binary64 (.finite s m e hm)).toNat =
      signBits s + capped ((e + 1074).toNat * 2 ^ 52 + m) := by
  obtain ⟨k, rfl⟩ : ∃ k : Nat, e = k - 1074 := ⟨(e + 1074).toNat, by omega⟩
  have hk : ((k : Int) - 1074 + 1074).toNat = k := by omega
  have hbiased : ((k : Int) - 1074 + (1023 : Nat) + (52 : Nat)).toNat = k + 1 := by omega
  have hpack : UnpackedFloat.pack .binary64 (.finite s m (k - 1074) hm) =
      if 2 ^ 11 ≤ k + 1 + 1 then packedInfinity .binary64 s
      else if m.log2 + 1 = 53 then
        packComponents .binary64 s (BitVec.ofNat 11 (k + 1)) (BitVec.ofNat 52 m)
      else packComponents .binary64 s 0#11 (BitVec.ofNat 52 m) := by
    rw [← hbiased]
    rfl
  have hinfinity : Layout.double.infinity = 2047 * 2 ^ 52 := rfl
  rw [hk, capped, hinfinity, hpack]
  split
  · next hlarge =>
    have hones : (-1#11).toNat = 2047 := by decide
    have hempty : (0 : BitVec 52).toNat = 0 := rfl
    rw [packedInfinity, toNat_packComponents, hones, hempty]
    omega
  · next hsmall =>
    split
    · next hlog =>
      have hfull : 2 ^ 52 ≤ m := by
        have := Nat.log2_self_le (Nat.ne_of_gt hm)
        rwa [show m.log2 = 52 by omega] at this
      rw [toNat_packComponents, BitVec.toNat_ofNat, BitVec.toNat_ofNat]
      omega
    · next hlog =>
      have hfew : m < 2 ^ 52 := by
        have hlog53 := (Nat.log2_lt (Nat.ne_of_gt hm)).2 hlt
        exact (Nat.log2_lt (Nat.ne_of_gt hm)).1 (by omega)
      rw [toNat_packComponents, BitVec.toNat_zero, BitVec.toNat_ofNat]
      omega

theorem toNat_pack_zero (s : Sign) :
    (UnpackedFloat.pack .binary64 (.zero s)).toNat = signBits s := by
  rw [UnpackedFloat.pack, packedZero, toNat_packComponents]
  rfl

/-- A number with the digits that a word holds of it, at its magnitude. -/
inductive Canonical (n : Nat) (s : Sign) : UnpackedFloat → Prop where
  | zero : n = 0 → Canonical n s (.zero s)
  | finite {m k : Nat} {e : Int} (hm : 0 < m) : e = k - 1074 → n = k * 2 ^ 52 + m → m < 2 ^ 53 →
    (2 ^ 52 ≤ m ∨ k = 0) → Canonical n s (.finite s m e hm)

theorem Canonical.toNat_pack {n : Nat} {s : Sign} {f : UnpackedFloat} (h : Canonical n s f) :
    (UnpackedFloat.pack .binary64 f).toNat = signBits s + capped n := by
  cases h with
  | zero hn =>
    subst hn
    exact toNat_pack_zero s
  | @finite m k e hm he hn hlt hdigits =>
    have hk : (e + 1074).toNat = k := by omega
    rw [toNat_pack_finite s hm hlt (by omega) (by omega), hk, hn]

theorem canonical_unpack {b : BitVec 64} (h : b.toNat % 2 ^ 63 < 2047 * 2 ^ 52) :
    Canonical (b.toNat % 2 ^ 63) (if b.toNat / 2 ^ 63 = 0 then .positive else .negative)
      (UnpackedFloat.unpack .binary64 b) := by
  have hsign : Sign.ofBitVec (@unpackSign .binary64 b) =
      if b.toNat / 2 ^ 63 = 0 then .positive else .negative := by
    simp only [Sign.ofBitVec, ← BitVec.toNat_inj, toNat_unpackSign]
    rfl
  have hfinite : (@unpackExponent .binary64 b) ≠ -1#_ := by
    rw [ne_eq, ← BitVec.toNat_inj, toNat_unpackExponent]
    change ¬ _ = 2047
    omega
  unfold UnpackedFloat.unpack
  rw [← hsign]
  simp only [if_neg hfinite]
  have hexponent := toNat_unpackExponent b
  have hmantissa := toNat_unpackMantissa b
  split
  · next hzero =>
    rw [hzero] at hexponent
    change 0 = _ at hexponent
    split
    · next hnone =>
      rw [hnone] at hmantissa
      change 0 = _ at hmantissa
      exact .zero (by omega)
    · next hsome =>
      refine .finite _ (k := 0) ?_ ?_ ?_ (.inr rfl)
      · rw [hzero]
        rfl
      · omega
      · omega
  · next hnormal =>
    rw [← BitVec.toNat_inj, hexponent] at hnormal
    change ¬ _ = 0 at hnormal
    refine .finite _ (k := b.toNat / 2 ^ 52 % 2 ^ 11 - 1) ?_ ?_ ?_ (.inl ?_)
    · rw [hexponent]
      change _ - ((1023 : Nat) + (52 : Nat) : Int) = _
      omega
    · rw [toNat_append_one]
      omega
    · rw [toNat_append_one]
      omega
    · rw [toNat_append_one]
      omega

/-! ## Rounding -/

theorem target_eq (m : Nat) (e : Int) :
    Format.binary64.targetExponent (totalExponent m e) = max (m.log2 + e - 52) (-1074) := by
  change max ((m.log2 : Int) + 1 + e - (53 : Nat)) (3 - 2 ^ 10 - (53 : Nat)) = _
  omega

/-- A mantissa that was rounded, with a carry perhaps, is packed as it is. -/
theorem toNat_pack_carry (s : Sign) {m : Nat} {e : Int} (hle : m ≤ 2 ^ 53) (he : -1074 ≤ e)
    (hdigits : 2 ^ 52 ≤ m ∨ e = -1074) :
    (UnpackedFloat.pack .binary64
      (let (em, e) := shiftToTargetExponent .binary64 m e .exact
      if h : em.mantissa = 0 then .zero s
      else .finite s em.mantissa e (Nat.pos_of_ne_zero h))).toNat =
      signBits s + capped ((e + 1074).toNat * 2 ^ 52 + m) := by
  unfold shiftToTargetExponent shiftToExponent
  rw [target_eq]
  dsimp only
  rcases Nat.lt_or_eq_of_le hle with hlt | rfl
  · have hshift : (max ((m.log2 : Int) + e - 52) (-1074) - e).toNat = 0 := by
      have hlog : m.log2 < 53 := by
        rcases Nat.eq_zero_or_pos m with rfl | hm
        · decide
        · exact (Nat.log2_lt (Nat.ne_of_gt hm)).2 hlt
      omega
    rw [hshift]
    rcases Nat.eq_zero_or_pos m with rfl | hm
    · obtain rfl := hdigits.resolve_left (by decide)
      exact toNat_pack_zero s
    · have hne : (ExtendedMantissa.ofMantissaAndAccuracy m .exact >>> 0).mantissa ≠ 0 :=
        Nat.ne_of_gt hm
      rw [dif_neg hne, ← toNat_pack_finite s hm hlt he hdigits]
      rw [Int.natCast_zero]
      simp only [Int.add_zero]
      rfl
  · have htop : (2 ^ 53 : Nat).log2 = 53 := Nat.log2_two_pow
    have hshift : (max (((2 ^ 53 : Nat).log2 : Int) + e - 52) (-1074) - e).toNat = 1 := by omega
    have hmantissa : (ExtendedMantissa.ofMantissaAndAccuracy (2 ^ 53) .exact >>> 1).mantissa =
        2 ^ 52 := rfl
    have hcarry : ∀ {m' : Nat} {e' : Int} (hm' : 0 < m'), m' = 2 ^ 52 → e' = e + 1 →
        (UnpackedFloat.pack .binary64 (.finite s m' e' hm')).toNat =
          signBits s + capped ((e + 1074).toNat * 2 ^ 52 + 2 ^ 53) := by
      rintro _ _ hm' rfl rfl
      have hcode : (e + 1 + 1074).toNat * 2 ^ 52 + 2 ^ 52 =
          (e + 1074).toNat * 2 ^ 52 + 2 ^ 53 := by omega
      rw [toNat_pack_finite s hm' (by decide) (by omega) (.inl (Nat.le_refl _)), hcode]
    rw [hshift, dif_neg (Nat.ne_of_gt (by rw [hmantissa]; decide))]
    exact hcarry _ hmantissa rfl

/-- The first shift leaves no digit too many, and all digits unless it ends at the least scale. -/
theorem digits_of_shift {m d k : Nat} {e : Int}
    (hd : max ((m.log2 : Int) + e - 52) (-1074) = e + d) (hk : e + d = (k : Int) - 1074) :
    m / 2 ^ d < 2 ^ 53 ∧ (2 ^ 52 ≤ m / 2 ^ d ∨ k = 0) := by
  constructor
  · rw [Nat.div_lt_iff_lt_mul (Nat.two_pow_pos d), ← Nat.pow_add]
    exact Nat.lt_log2_self.trans_le (Nat.pow_le_pow_right two_pos (by omega))
  · rcases Nat.eq_zero_or_pos k with hzero | hpos
    · exact .inr hzero
    · left
      have hlog : m.log2 = 52 + d := by omega
      have hne : m ≠ 0 := by
        rintro rfl
        rw [Nat.log2_zero] at hlog
        omega
      rw [Nat.le_div_iff_mul_le (Nat.two_pow_pos d), ← Nat.pow_add, ← hlog]
      exact Nat.log2_self_le hne

/-- A mantissa with enough digits, or a scale that is small enough, is rounded to a magnitude. -/
theorem toNat_pack_round (s : Sign) {m : Nat} {e : Int} {a : Accuracy} {x : ℚ}
    (hx : Represents (.ofMantissaAndAccuracy m a) x) (hroom : e ≤ -1074 ∨ 52 ≤ m.log2) :
    ∃ n, Layout.double.Rounds (x * 2 ^ (e + 1074)) n ∧
      (UnpackedFloat.pack .binary64 (roundWithAccuracy .binary64 s m e a)).toNat =
        signBits s + capped n := by
  obtain ⟨d, hd⟩ : ∃ d : Nat, max ((m.log2 : Int) + e - 52) (-1074) = e + d :=
    ⟨(max ((m.log2 : Int) + e - 52) (-1074) - e).toNat, by omega⟩
  obtain ⟨k, hk⟩ : ∃ k : Nat, e + d = (k : Int) - 1074 := ⟨(e + d + 1074).toNat, by omega⟩
  have hshifted := hx.shiftRight d
  have hmantissa : (ExtendedMantissa.ofMantissaAndAccuracy m a >>> d).mantissa = m / 2 ^ d := by
    rw [mantissa_shiftRight]
    rcases a with _ | (_ | _ | _) <;> rfl
  obtain ⟨hfew, hfull⟩ := digits_of_shift hd hk
  rw [← hmantissa] at hfew hfull
  generalize hfirst : ExtendedMantissa.ofMantissaAndAccuracy m a >>> d = em at *
  obtain ⟨hleast, hmost⟩ := roundedMantissa_bounds em
  refine ⟨k * 2 ^ 52 + em.roundedMantissa, ?_, ?_⟩
  · have hscale : x * 2 ^ (e + 1074) = x / 2 ^ d * 2 ^ k := by
      have hexponent : e + 1074 = (k : Int) - d := by omega
      rw [hexponent, zpow_sub₀ two_ne_zero, zpow_natCast, zpow_natCast]
      ring
    rw [hscale]
    refine Layout.rounds_code hshifted.nearest ?_ ?_
    · change em.roundedMantissa ≤ 2 * 2 ^ 52
      omega
    · refine hfull.imp_left fun h => ?_
      have hle : ((2 ^ 52 : Nat) : ℚ) ≤ em.mantissa := Nat.cast_le.2 h
      exact hle.trans hshifted.bounds.1
  · have hexponent : (k : Int) - 1074 + 1074 = k := by omega
    have hcarry := toNat_pack_carry s (m := em.roundedMantissa) (e := k - 1074) (by omega) (by omega)
      (by omega)
    rw [hexponent, Int.toNat_natCast] at hcarry
    rw [← hcarry]
    have hshift : shiftToTargetExponent .binary64 m e a = (em, (k : Int) - 1074) := by
      unfold shiftToTargetExponent shiftToExponent
      rw [target_eq, hd, ← hk, ← hfirst]
      simp only [add_sub_cancel_left, Int.toNat_natCast]
    unfold roundWithAccuracy
    rw [hshift]

/-- A mantissa that is shifted until it has all digits, or the scale is small enough, is rounded to a
magnitude. -/
theorem toNat_pack_roundBoth (s : Sign) {m : Nat} (hm : 0 < m) (e : Int) :
    ∃ n, Layout.double.Rounds (m * 2 ^ (e + 1074)) n ∧
      (UnpackedFloat.pack .binary64 (UnpackedFloat.round .binary64 s m e)).toNat =
        signBits s + capped n := by
  obtain ⟨d, hd⟩ : ∃ d, (e - max ((m.log2 : Int) + e - 52) (-1074)).toNat = d := ⟨_, rfl⟩
  have hround : UnpackedFloat.round .binary64 s m e =
      roundWithAccuracy .binary64 s (m <<< d) (e - d) .exact := by
    unfold UnpackedFloat.round decreaseExponent
    simp only [target_eq, hd]
  have hroom : e - d ≤ -1074 ∨ 52 ≤ (m <<< d).log2 := by
    rw [log2_shiftLeft hm]
    omega
  have hvalue : (m : ℚ) * 2 ^ (e + 1074) = (m <<< d : Nat) * 2 ^ (e - d + 1074) := by
    have hexponent : e + 1074 = (d : Int) + (e - d + 1074) := by omega
    rw [Nat.shiftLeft_eq, hexponent, zpow_add₀ two_ne_zero, zpow_natCast]
    push_cast
    ring
  rw [hround, hvalue]
  exact toNat_pack_round s (Represents.exact _) hroom

/-- A dividend is shifted so far that the quotient has all digits, unless its scale is small enough
without them. -/
theorem exists_divCore {m m' : Nat} (hm : 0 < m) (hm' : 0 < m') (e e' : Int) :
    ∃ (d : Nat) (t : Int), divCore .binary64 m e m' e' =
        (m <<< d / m', t, accuracyOfFraction (m <<< d % m') m') ∧
      e = d + t + e' ∧ (t ≤ -1074 ∨ 52 ≤ (m <<< d / m').log2) := by
  obtain ⟨t, ht⟩ : ∃ t : Int, t = min (e - e') (Format.binary64.targetExponent
    (totalExponent m e - totalExponent m' e')) := ⟨_, rfl⟩
  obtain ⟨d, hd⟩ : ∃ d : Nat, e - e' - t = d := ⟨(e - e' - t).toNat, by omega⟩
  have htarget : t ≤ max ((m.log2 : Int) - m'.log2 + e - e' - 53) (-1074) := by
    rw [ht]
    refine (min_le_right _ _).trans (le_of_eq ?_)
    unfold totalExponent
    change max (_ - ((53 : Nat) : Int)) (3 - 2 ^ 10 - (53 : Nat)) = _
    omega
  refine ⟨d, t, ?_, by omega, ?_⟩
  · unfold divCore
    dsimp only
    rw [← ht, hd, Int.toNat_natCast]
  · by_cases hsmall : t ≤ -1074
    · exact .inl hsmall
    · right
      have hlarge : 2 ^ 52 ≤ m <<< d / m' := by
        rw [Nat.le_div_iff_mul_le hm', Nat.shiftLeft_eq]
        calc 2 ^ 52 * m' ≤ 2 ^ 52 * 2 ^ (m'.log2 + 1) :=
              Nat.mul_le_mul_left _ Nat.lt_log2_self.le
          _ = 2 ^ (52 + (m'.log2 + 1)) := (Nat.pow_add 2 52 _).symm
          _ ≤ 2 ^ (m.log2 + d) := Nat.pow_le_pow_right two_pos (by omega)
          _ = 2 ^ m.log2 * 2 ^ d := Nat.pow_add 2 _ _
          _ ≤ m * 2 ^ d := Nat.mul_le_mul_right _ (Nat.log2_self_le (Nat.ne_of_gt hm))
      exact (Nat.le_log2 (by omega)).2 hlarge

end Unpacked

namespace Double

open Unpacked

variable {x y : Double}

def sign (x : Double) : Sign := if x.isNegative then .negative else .positive

theorem canonical_unpacked (h : x.isFinite = true) :
    Canonical (Layout.double.magnitude x.bits.toNat) x.sign x.unpacked := by
  rw [isFinite_eq, Layout.isFinite, decide_eq_true_iff] at h
  have hcanonical := canonical_unpack (b := x.bits.toBitVec) h
  have hsign : x.sign = if x.bits.toNat / 2 ^ 63 = 0 then .positive else .negative := by
    unfold sign
    rw [isNegative_eq, Layout.isNegative]
    change (if decide (2 ^ 63 ≤ x.bits.toNat) then _ else _) = _
    split <;> split <;> first | rfl | (simp only [decide_eq_true_eq] at *; omega)
  rw [hsign]
  exact hcanonical

/-- A finite double is unpacked as its word says. -/
theorem unpack_toFloat (h : x.isFinite = true) : x.toFloat.toModel.unpack = x.unpacked := by
  have hpack := (canonical_unpacked h).toNat_pack
  rw [isFinite_eq, Layout.isFinite, decide_eq_true_iff] at h
  rw [capped, Nat.min_eq_left h.le] at hpack
  have hword : UnpackedFloat.pack .binary64 x.unpacked = x.bits.toBitVec := by
    have hbits := x.bits.toNat_lt
    refine BitVec.eq_of_toNat_eq (hpack.trans ?_)
    change signBits x.sign + x.bits.toNat % 2 ^ 63 = x.bits.toNat
    unfold sign
    rw [isNegative_eq, Layout.isNegative]
    change signBits (if decide (2 ^ 63 ≤ x.bits.toNat) then _ else _) + _ = _
    split
    · next hneg =>
      rw [decide_eq_true_eq] at hneg
      change 2 ^ 63 + _ = _
      omega
    · next hpos =>
      rw [decide_eq_true_eq] at hpos
      change 0 + _ = _
      omega
  change UnpackedFloat.unpack .binary64 (UnpackedFloat.pack .binary64 x.unpacked) = _
  rw [hword]
  rfl

/-- The factor that a sign stands for. -/
def factor : Sign → ℚ
  | .negative => -1
  | .positive => 1

theorem value_eq_factor (x : Double) :
    x.value = factor x.sign * (x.units * Layout.double.least) := by
  unfold sign
  cases h : x.isNegative with
  | false => rw [value_of_nonneg h, if_neg Bool.false_ne_true, factor, one_mul]
  | true => rw [value_of_negative h, if_pos rfl, factor, neg_one_mul]

theorem toInt_position_eq (x : Double) :
    x.position.toInt = x.sign.apply (Layout.double.magnitude x.bits.toNat) := by
  rw [toInt_position, Layout.position, ← isNegative_eq, sign]
  cases x.isNegative <;> rfl

/-- Signed numbers are in order as their signed counts are, if the numbers are in order as their
counts are. -/
theorem apply_le_apply {a b : ℚ} {m n : Nat} (ha : 0 ≤ a) (hb : 0 ≤ b) (hle : a ≤ b → m ≤ n)
    (hge : b ≤ a → n ≤ m) (hzero : a ≤ 0 → b ≤ 0 → m = 0 ∧ n = 0) {s t : Sign}
    (h : factor s * a ≤ factor t * b) : s.apply m ≤ t.apply n := by
  cases s <;> cases t <;>
    simp only [factor, one_mul, neg_one_mul, neg_le_neg_iff, Sign.apply] at h ⊢
  · exact Int.ofNat_le.2 (hge h)
  · omega
  · -- numbers on different sides of zero are only in this order if both are zero
    obtain ⟨rfl, rfl⟩ := hzero (by linarith) (by linarith)
    omega
  · exact Int.ofNat_le.2 (hle h)

/-- A double at the magnitude that a number is rounded to is its rounding. -/
theorem rounds_of_magnitude {n : Nat} {r : ℚ} (hr : 0 ≤ r) (h : Layout.double.Rounds r n)
    (hx : Layout.double.magnitude x.bits.toNat = capped n) :
    x.Rounds (factor x.sign * (r * Layout.double.least)) := by
  have hpos := Layout.double.least_pos
  have hnumber : x.isNaN = false := by
    rw [isNaN_eq, Layout.isNaN, hx, decide_eq_false_iff_not]
    exact Nat.not_lt.2 (Nat.min_le_right _ _)
  have hother : ∀ y : Double, y.isNaN = false →
      Layout.double.magnitude y.bits.toNat ≤ Layout.double.infinity := by
    intro y hy
    rw [isNaN_eq, Layout.isNaN, decide_eq_false_iff_not] at hy
    exact Nat.le_of_not_lt hy
  have hbelow : ∀ m, r * Layout.double.least ≤ Layout.double.units m * Layout.double.least →
      capped n ≤ m := by
    intro m hle
    exact (Nat.min_le_left _ _).trans (h.le_of_le m (le_of_mul_le_mul_right hle hpos))
  have habove : ∀ m ≤ Layout.double.infinity,
      Layout.double.units m * Layout.double.least ≤ r * Layout.double.least → m ≤ capped n := by
    intro m hm hle
    exact Nat.le_min.2 ⟨h.ge_of_ge m (le_of_mul_le_mul_right hle hpos), hm⟩
  have hzero : ∀ m, r * Layout.double.least ≤ 0 →
      Layout.double.units m * Layout.double.least ≤ 0 → capped n = 0 ∧ m = 0 := by
    intro m hr' hm
    have hzero : ((Layout.double.units 0 : Nat) : ℚ) * Layout.double.least = 0 := zero_mul _
    rw [← hzero] at hr' hm
    exact ⟨Nat.le_zero.1 (hbelow 0 hr'), Nat.le_zero.1 (Int.ofNat_le.1 ((mono_value m 0).2 hm))⟩
  have hnonneg := mul_nonneg hr hpos.le
  have hunits : ∀ m, (0 : ℚ) ≤ Layout.double.units m * Layout.double.least :=
    fun m => mul_nonneg (Nat.cast_nonneg _) hpos.le
  refine ⟨hnumber, ?_, ?_⟩
  · intro y hy hle
    rw [le_iff hnumber hy, Int64.le_iff_toInt_le, toInt_position_eq, toInt_position_eq, hx]
    rw [value_eq_factor] at hle
    exact apply_le_apply hnonneg (hunits _) (hbelow _) (habove _ (hother y hy)) (hzero _) hle
  · intro y hy hge
    rw [le_iff hy hnumber, Int64.le_iff_toInt_le, toInt_position_eq, toInt_position_eq, hx]
    rw [value_eq_factor] at hge
    exact apply_le_apply (hunits _) hnonneg (habove _ (hother y hy)) (hbelow _)
      (fun hm hr' => (hzero _ hr' hm).symm) hge

/-- What is packed at the magnitude that a number is rounded to is its rounding. -/
theorem rounds_pack {f : UnpackedFloat} {s : Sign} {n : Nat} {r : ℚ} (hr : 0 ≤ r)
    (h : Layout.double.Rounds r n)
    (hpack : (UnpackedFloat.pack .binary64 f).toNat = signBits s + capped n) :
    (ofFloat (.ofModel (Float.Model.pack f))).Rounds (factor s * (r * Layout.double.least)) := by
  generalize hx : ofFloat (.ofModel (Float.Model.pack f)) = x
  have hbits : x.bits.toNat = signBits s + capped n := hx ▸ hpack
  have hcapped : capped n ≤ 2047 * 2 ^ 52 := Nat.min_le_right _ _
  have hmagnitude : Layout.double.magnitude x.bits.toNat = capped n := by
    rw [hbits]
    change (signBits s + _) % 2 ^ 63 = _
    cases s <;> simp only [signBits] <;> omega
  have hsign : x.sign = s := by
    have hnegative : x.isNegative = decide (2 ^ 63 ≤ signBits s + capped n) := by
      rw [isNegative_eq, hbits]
      rfl
    rw [sign, hnegative]
    cases s
    · exact if_pos (decide_eq_true (Nat.le_add_right _ _))
    · refine if_neg (Bool.not_eq_true _ ▸ decide_eq_false ?_)
      rw [signBits]
      omega
  exact hsign ▸ rounds_of_magnitude hr h hmagnitude

/-! ## Products and quotients -/

/-- The mantissa and the scale of a finite double tell its value. -/
theorem value_eq_of_finite (h : x.isFinite = true) {s : Sign} {m : Nat} {e : Int} {hm : 0 < m}
    (hx : x.unpacked = .finite s m e hm) :
    s = x.sign ∧ x.units * Layout.double.least = m * 2 ^ e ∧ -1074 ≤ e ∧
      (2 ^ 52 ≤ m ∨ e = -1074) := by
  have hcanonical := canonical_unpacked h
  rw [hx] at hcanonical
  cases hcanonical with
  | @finite _ k _ _ he hn hlt hdigits =>
    refine ⟨rfl, ?_, by omega, by omega⟩
    have hunits : x.units = m * 2 ^ k := by
      rw [units, hn]
      exact Layout.units_code (l := .double) (show m ≤ 2 * 2 ^ 52 by omega) hdigits
    have hleast : Layout.double.least = 2 ^ (-1074 : ℤ) := rfl
    rw [hunits, hleast, he, sub_eq_add_neg, zpow_add₀ two_ne_zero, zpow_natCast, Nat.cast_mul,
      Nat.cast_pow, Nat.cast_ofNat, mul_assoc]

theorem value_eq_zero (h : x.isFinite = true) {s : Sign} (hx : x.unpacked = .zero s) :
    s = x.sign ∧ x.value = 0 := by
  have hcanonical := canonical_unpacked h
  rw [hx] at hcanonical
  cases hcanonical with
  | zero hn =>
    refine ⟨rfl, ?_⟩
    rw [value_eq_factor, units, hn]
    change _ * (((0 : Nat) : ℚ) * _) = 0
    rw [Nat.cast_zero, zero_mul, mul_zero]

theorem rounds_zero : Layout.double.Rounds 0 0 := by
  refine ⟨fun n _ => Nat.zero_le n, fun n hn => ?_⟩
  have hle : Layout.double.units n ≤ Layout.double.units 0 := by exact_mod_cast hn
  exact Layout.double.units_strictMono.le_iff_le.1 hle

theorem factor_mul (s s' : Sign) : factor (s * s') = factor s * factor s' := by
  cases s <;> cases s'
  · show (1 : ℚ) = -1 * -1
    norm_num
  · show (-1 : ℚ) = -1 * 1
    norm_num
  · show (-1 : ℚ) = 1 * -1
    norm_num
  · show (1 : ℚ) = 1 * 1
    norm_num

theorem factor_div (s s' : Sign) : factor (s / s') = factor s / factor s' := by
  cases s <;> cases s'
  · show (1 : ℚ) = -1 / -1
    norm_num
  · show (-1 : ℚ) = -1 / 1
    norm_num
  · show (-1 : ℚ) = 1 / -1
    norm_num
  · show (1 : ℚ) = 1 / 1
    norm_num

theorem scale_mul_least (e : Int) : (2 : ℚ) ^ (e + 1074) * Layout.double.least = 2 ^ e := by
  have hleast : Layout.double.least = 2 ^ (-1074 : ℤ) := rfl
  rw [hleast, ← zpow_add₀ two_ne_zero, add_neg_cancel_right]

/-- What an operation makes of a result; none on numbers is a NaN by its sign. -/
def packed (f : UnpackedFloat) : Double :=
  let r := ofFloat (.ofModel (Float.Model.pack f))
  if r.isNaN then ⟨0xFFF8000000000000⟩ else r

theorem rounds_packed {f : UnpackedFloat} {s : Sign} {n : Nat} {r : ℚ} (hr : 0 ≤ r)
    (h : Layout.double.Rounds r n)
    (hpack : (UnpackedFloat.pack .binary64 f).toNat = signBits s + capped n) :
    (packed f).Rounds (factor s * (r * Layout.double.least)) := by
  have hrounds := rounds_pack hr h hpack
  have heq : packed f = if (ofFloat (.ofModel (Float.Model.pack f))).isNaN then
      ⟨0xFFF8000000000000⟩ else ofFloat (.ofModel (Float.Model.pack f)) := rfl
  rw [heq, hrounds.isNaN]
  exact hrounds

theorem rounds_packed_zero (s : Sign) : (packed (.zero s)).Rounds 0 := by
  have h := rounds_packed le_rfl rounds_zero (toNat_pack_zero s)
  rwa [zero_mul, mul_zero] at h

/-- A signed mantissa is rounded. -/
theorem rounds_normalize (m e : Int) (s : Sign) :
    (packed (UnpackedFloat.normalize .binary64 m e s)).Rounds (m * 2 ^ e) := by
  unfold UnpackedFloat.normalize
  rcases lt_trichotomy m 0 with hm | rfl | hm
  · rw [Int.compare_eq_lt.2 hm]
    obtain ⟨n, hn, hpack⟩ := toNat_pack_roundBoth .negative (m := (-m).toNat) (by omega) e
    have h := rounds_packed (by positivity) hn hpack
    have habs : (((-m).toNat : Nat) : ℚ) = -m := by
      exact_mod_cast Int.toNat_of_nonneg (by omega : 0 ≤ -m)
    rw [mul_assoc, scale_mul_least, habs, factor, neg_one_mul, neg_mul, neg_neg] at h
    exact h
  · rw [Int.cast_zero, zero_mul]
    exact rounds_packed_zero s
  · rw [Int.compare_eq_gt.2 hm]
    obtain ⟨n, hn, hpack⟩ := toNat_pack_roundBoth .positive (m := m.toNat) (by omega) e
    have h := rounds_packed (by positivity) hn hpack
    have habs : ((m.toNat : Nat) : ℚ) = m := by exact_mod_cast Int.toNat_of_nonneg hm.le
    rw [mul_assoc, scale_mul_least, habs, factor, one_mul] at h
    exact h

section Operations

variable (hx : x.isFinite = true) (hy : y.isFinite = true)
include hx hy

theorem mul_eq_packed : x * y = packed (UnpackedFloat.mul .binary64 x.unpacked y.unpacked) := by
  have heq : x * y = if x.isNaN then x.quiet else if y.isNaN then y.quiet else
      packed (UnpackedFloat.mul .binary64 x.toFloat.toModel.unpack y.toFloat.toModel.unpack) := rfl
  rw [heq, unpack_toFloat hx, unpack_toFloat hy, isNaN_of_isFinite hx, isNaN_of_isFinite hy]
  rfl

theorem div_eq_packed : x / y = packed (UnpackedFloat.div .binary64 x.unpacked y.unpacked) := by
  have heq : x / y = if x.isNaN then x.quiet else if y.isNaN then y.quiet else
      packed (UnpackedFloat.div .binary64 x.toFloat.toModel.unpack y.toFloat.toModel.unpack) := rfl
  rw [heq, unpack_toFloat hx, unpack_toFloat hy, isNaN_of_isFinite hx, isNaN_of_isFinite hy]
  rfl

omit hy in
/-- A finite double is unpacked as a zero or as a finite number. -/
theorem unpacked_cases : (∃ s, x.unpacked = .zero s ∧ x.value = 0) ∨
    ∃ m e, ∃ hm : 0 < m, x.unpacked = .finite x.sign m e hm ∧
      x.value = factor x.sign * (m * 2 ^ e) ∧ -1074 ≤ e ∧ (2 ^ 52 ≤ m ∨ e = -1074) := by
  have hcanonical := canonical_unpacked hx
  cases hf : x.unpacked with
  | notANumber => exact absurd hf ((isNaN_eq_false_iff x).1 (isNaN_of_isFinite hx))
  | infinity s => exact absurd (hf ▸ hcanonical) nofun
  | zero s => exact .inl ⟨s, rfl, (value_eq_zero hx hf).2⟩
  | finite s m e hm =>
    obtain ⟨rfl, hvalue, he, hdigits⟩ := value_eq_of_finite hx hf
    exact .inr ⟨m, e, hm, rfl, by rw [value_eq_factor, hvalue], he, hdigits⟩

omit hx in
theorem add_eq_packed (hx : x.isFinite = true) :
    x + y = packed (UnpackedFloat.add .binary64 x.unpacked y.unpacked) := by
  have heq : x + y = if x.isNaN then x.quiet else if y.isNaN then y.quiet else
      packed (UnpackedFloat.add .binary64 x.toFloat.toModel.unpack y.toFloat.toModel.unpack) := rfl
  rw [heq, unpack_toFloat hx, unpack_toFloat hy, isNaN_of_isFinite hx, isNaN_of_isFinite hy]
  rfl

omit hy in
/-- A double is rounded to itself. -/
theorem rounds_self : (packed x.unpacked).Rounds x.value := by
  have hn := Nat.cast_nonneg (α := ℚ) x.units
  have hself : Layout.double.Rounds x.units (Layout.double.magnitude x.bits.toNat) := by
    constructor
    · intro n hle
      exact Layout.double.units_strictMono.le_iff_le.1 (Nat.cast_le.1 hle)
    · intro n hge
      exact Layout.double.units_strictMono.le_iff_le.1 (Nat.cast_le.1 hge)
  rw [value_eq_factor]
  exact rounds_packed hn hself (canonical_unpacked hx).toNat_pack

omit hx hy in
/-- A signed mantissa at a lesser scale has more digits. -/
theorem apply_shift (s : Sign) (m : Nat) {e t : Int} (h : t ≤ e) :
    (s.apply (m <<< (e - t).toNat : Nat) : ℚ) * 2 ^ t = factor s * (m * 2 ^ e) := by
  obtain ⟨d, rfl⟩ : ∃ d : Nat, e = t + d := ⟨(e - t).toNat, by omega⟩
  have hsign : ∀ n : Nat, (s.apply n : ℚ) = factor s * n := by
    intro n
    cases s
    · rw [Sign.apply, factor, neg_one_mul, Int.cast_neg, Int.cast_natCast]
    · rw [Sign.apply, factor, one_mul, Int.cast_natCast]
  rw [hsign, add_sub_cancel_left, Int.toNat_natCast, Nat.shiftLeft_eq, zpow_add₀ two_ne_zero,
    zpow_natCast]
  push_cast
  ring

/-- The sum of two finite doubles is rounded. -/
theorem rounds_add : (x + y).Rounds (x.value + y.value) := by
  rw [add_eq_packed hy hx]
  rcases unpacked_cases hx with ⟨s, hf, hvalue⟩ | ⟨m, e, hm, hf, hvalue, he, hdigits⟩
  · rw [hvalue, zero_add, hf]
    rcases unpacked_cases hy with ⟨s', hg, hvalue'⟩ | ⟨m', e', hm', hg, hvalue', he', hdigits'⟩
    · rw [hg, hvalue']
      unfold UnpackedFloat.add
      dsimp only
      split <;> exact rounds_packed_zero _
    · have hself := rounds_self hy
      rw [hg] at hself ⊢
      exact hself
  · rcases unpacked_cases hy with ⟨s', hg, hvalue'⟩ | ⟨m', e', hm', hg, hvalue', he', hdigits'⟩
    · have hself := rounds_self hx
      rw [hvalue', add_zero, hg]
      rw [hf] at hself ⊢
      exact hself
    · have hsum : UnpackedFloat.add .binary64 (.finite x.sign m e hm) (.finite y.sign m' e' hm') =
          UnpackedFloat.normalize .binary64
            (x.sign.apply (m <<< (e - (e ⊓ e')).toNat : Nat) +
              y.sign.apply (m' <<< (e' - (e ⊓ e')).toNat : Nat)) (e ⊓ e') .positive := rfl
      rw [hf, hg, hvalue, hvalue', hsum, ← apply_shift x.sign m (min_le_left e e'),
        ← apply_shift y.sign m' (min_le_right e e'), ← add_mul, ← Int.cast_add]
      exact rounds_normalize _ _ _

/-- The product of two finite doubles is rounded. -/
theorem rounds_mul : (x * y).Rounds (x.value * y.value) := by
  rw [mul_eq_packed hx hy]
  rcases unpacked_cases hx with ⟨s, hf, hvalue⟩ | ⟨m, e, hm, hf, hvalue, he, hdigits⟩ <;>
    rcases unpacked_cases hy with ⟨s', hg, hvalue'⟩ | ⟨m', e', hm', hg, hvalue', he', hdigits'⟩ <;>
    rw [hf, hg, hvalue, hvalue']
  · rw [zero_mul]
    exact rounds_packed_zero _
  · rw [zero_mul]
    exact rounds_packed_zero _
  · rw [mul_zero]
    exact rounds_packed_zero _
  · have hroom : e + e' ≤ -1074 ∨ 52 ≤ (m * m').log2 := by
      by_cases hsmall : e + e' ≤ -1074
      · exact .inl hsmall
      · right
        rw [Nat.le_log2 (Nat.ne_of_gt (Nat.mul_pos hm hm'))]
        rcases hdigits with hfull | rfl
        · exact hfull.trans (Nat.le_mul_of_pos_right m hm')
        · have hfull := hdigits'.resolve_right (by omega)
          exact hfull.trans (Nat.le_mul_of_pos_left m' hm)
    obtain ⟨n, hn, hpack⟩ := toNat_pack_round (x.sign * y.sign) (Represents.exact (m * m')) hroom
    have h := rounds_packed (by positivity) hn hpack
    rw [mul_assoc, scale_mul_least, factor_mul, Nat.cast_mul, zpow_add₀ two_ne_zero] at h
    have hproduct : factor x.sign * (m * 2 ^ e) * (factor y.sign * (m' * 2 ^ e')) =
        factor x.sign * factor y.sign * (m * m' * (2 ^ e * 2 ^ e')) := by ring
    rw [hproduct]
    exact h

/-- The quotient of two finite doubles is rounded, unless the divisor is zero. -/
theorem rounds_div (hne : y.value ≠ 0) : (x / y).Rounds (x.value / y.value) := by
  rw [div_eq_packed hx hy]
  rcases unpacked_cases hy with ⟨s', hg, hvalue'⟩ | ⟨m', e', hm', hg, hvalue', he', hdigits'⟩
  · exact absurd hvalue' hne
  rcases unpacked_cases hx with ⟨s, hf, hvalue⟩ | ⟨m, e, hm, hf, hvalue, he, hdigits⟩
  · rw [hf, hg, hvalue, zero_div]
    exact rounds_packed_zero _
  · rw [hf, hg, hvalue, hvalue']
    obtain ⟨d, t, hcore, hexponent, hroom⟩ := exists_divCore hm hm' e e'
    obtain ⟨n, hn, hpack⟩ :=
      toNat_pack_round (x.sign / y.sign) (Represents.fraction (m <<< d) hm') hroom
    have h := rounds_packed (by positivity) hn hpack
    have hdivision : UnpackedFloat.div .binary64 (.finite x.sign m e hm) (.finite y.sign m' e' hm') =
        roundWithAccuracy .binary64 (x.sign / y.sign) (m <<< d / m') t
          (accuracyOfFraction (m <<< d % m') m') := by
      unfold UnpackedFloat.div
      dsimp only
      rw [hcore]
    have hquotient : factor x.sign * (m * 2 ^ e) / (factor y.sign * (m' * 2 ^ e')) =
        factor x.sign / factor y.sign * ((m <<< d : Nat) / m' * 2 ^ t) := by
      rw [Nat.shiftLeft_eq, hexponent, zpow_add₀ two_ne_zero, zpow_add₀ two_ne_zero, zpow_natCast]
      push_cast
      field_simp
    rw [mul_assoc, scale_mul_least, factor_div, ← hdivision, ← hquotient] at h
    exact h

end Operations

/-! ## Natural numbers -/

theorem log2_shift {n : Nat} (hn : 0 < n) : 52 ≤ (n <<< (52 - n.log2)).log2 := by
  rw [log2_shiftLeft hn]
  omega

/-- A natural number of few enough digits has the magnitude of a double. -/
theorem exists_units_eq {n : Nat} (hn : 0 < n) (hle : n ≤ 2 ^ 53) :
    ∃ c < Layout.double.infinity, (Layout.double.units c : ℚ) * Layout.double.least = n := by
  obtain ⟨d, hd⟩ : ∃ d, 52 - n.log2 = d := ⟨_, rfl⟩
  have hlow := Nat.log2_self_le (Nat.ne_of_gt hn)
  have hleast : 2 ^ 52 ≤ n * 2 ^ d := by
    calc 2 ^ 52 ≤ 2 ^ (n.log2 + d) := Nat.pow_le_pow_right two_pos (by omega)
      _ = 2 ^ n.log2 * 2 ^ d := Nat.pow_add 2 _ _
      _ ≤ n * 2 ^ d := Nat.mul_le_mul_right _ hlow
  have hmost : n * 2 ^ d ≤ 2 * 2 ^ 52 := by
    by_cases hshort : n.log2 ≤ 52
    · calc n * 2 ^ d ≤ 2 ^ (n.log2 + 1) * 2 ^ d := Nat.mul_le_mul_right _ Nat.lt_log2_self.le
        _ = 2 ^ (n.log2 + 1 + d) := (Nat.pow_add 2 _ _).symm
        _ = 2 * 2 ^ 52 := by rw [show n.log2 + 1 + d = 53 by omega]
    · rw [show d = 0 by omega, Nat.pow_zero, Nat.mul_one]
      omega
  obtain ⟨k, hk⟩ : ∃ k, d + k = 1074 := ⟨1074 - d, by omega⟩
  refine ⟨k * 2 ^ 52 + n * 2 ^ d, ?_, ?_⟩
  · have hinfinity : Layout.double.infinity = 2047 * 2 ^ 52 := rfl
    rw [hinfinity]
    generalize n * 2 ^ d = m at hmost ⊢
    omega
  · have hunits : Layout.double.units (k * 2 ^ 52 + n * 2 ^ d) = n * 2 ^ d * 2 ^ k :=
      Layout.units_code (l := .double) hmost (.inl hleast)
    have hbase : Layout.double.least = 2 ^ (-1074 : ℤ) := rfl
    have hone : (2 : ℚ) ^ (d : ℤ) * 2 ^ (k : ℤ) * 2 ^ (-1074 : ℤ) = 1 := by
      rw [← zpow_add₀ two_ne_zero, ← zpow_add₀ two_ne_zero, show (d : ℤ) + k + -1074 = 0 by omega,
        zpow_zero]
    rw [zpow_natCast, zpow_natCast] at hone
    rw [hunits, hbase, Nat.cast_mul, Nat.cast_mul, Nat.cast_pow, Nat.cast_pow, Nat.cast_ofNat,
      mul_assoc (n : ℚ), mul_assoc (n : ℚ), hone, mul_one]

theorem packed_eq {f : UnpackedFloat} (h : (packed f).isNaN = false) :
    packed f = ofFloat (.ofModel (Float.Model.pack f)) := by
  unfold packed at h ⊢
  dsimp only at h ⊢
  split at h
  · contradiction
  · next hnumber => rw [if_neg hnumber]

theorem value_one : one.value = 1 := by
  show 1 * (((2 ^ 52 : Nat) : ℚ) * 2 ^ (-52 : ℤ)) = 1
  norm_num

theorem value_of_bits {c : Nat} (hx : x.bits.toNat = c) (hc : c < Layout.double.infinity) :
    x.isFinite = true ∧ x.value = Layout.double.units c * Layout.double.least := by
  have hword : Layout.double.magnitude c = c := Nat.mod_eq_of_lt (hc.trans (by decide))
  have hpositive : x.isNegative = false := by
    rw [isNegative_eq, hx, Layout.isNegative, decide_eq_false_iff_not]
    exact Nat.not_le.2 (hc.trans (by decide))
  constructor
  · rw [isFinite_eq, hx, Layout.isFinite, hword]
    exact decide_eq_true hc
  · rw [value_of_nonneg hpositive, units, hx, hword]

/-- A natural number of few enough digits is turned into a double as it is. -/
theorem value_pack_natural {n : Nat} (hn : 0 < n) (hshort : n < 2 ^ 53)
    (hx : x = ofFloat (.ofModel (Float.Model.pack (UnpackedFloat.ofNat .binary64 n)))) :
    x.isFinite = true ∧ x.value = n := by
  obtain ⟨c, hfinite, hc⟩ := exists_units_eq hn hshort.le
  obtain ⟨k, hk, hpack⟩ := toNat_pack_round .positive (Represents.exact (n <<< (52 - n.log2)))
    (e := n.log2 - 52) (.inr (log2_shift hn))
  rw [← ofNat_eq_round hn hshort] at hpack
  have hsame : k = c := by
    refine hk.eq_of_units_eq (mul_right_cancel₀ (ne_of_gt Layout.double.least_pos) ?_)
    have hlog : n.log2 < 53 := (Nat.log2_lt (Nat.ne_of_gt hn)).2 hshort
    have hexponent : (n.log2 : ℤ) - 52 = -((52 - n.log2 : Nat) : ℤ) := by omega
    rw [mul_assoc, scale_mul_least, hc, Nat.shiftLeft_eq, hexponent, zpow_neg, zpow_natCast,
      Nat.cast_mul, Nat.cast_pow, Nat.cast_ofNat, mul_inv_cancel_right₀ (by positivity)]
  have hbits : x.bits.toNat = c := by
    rw [hx, ← hsame]
    refine hpack.trans ?_
    rw [capped, Nat.min_eq_left (hsame ▸ hfinite.le)]
    exact Nat.zero_add k
  obtain ⟨hx, hvalue⟩ := value_of_bits hbits hfinite
  exact ⟨hx, hvalue.trans hc⟩

theorem value_zero : zero.value = 0 := by
  obtain ⟨-, hvalue⟩ := value_of_bits (x := zero) (c := 0) rfl (by decide)
  exact hvalue.trans (zero_mul _)

theorem value_negZero : negZero.value = 0 := by
  rw [value_of_negative (by decide), neg_eq_zero]
  exact zero_mul _

/-- So is a word of few enough digits. -/
theorem value_toFloat {w : UInt64} (h : w.toNat < 2 ^ 53) :
    (ofFloat w.toFloat).isFinite = true ∧ (ofFloat w.toFloat).value = w.toNat := by
  have heq : w.toFloat = .ofModel (Float.Model.pack (UnpackedFloat.ofNat .binary64 w.toNat)) := rfl
  rw [heq]
  rcases Nat.eq_zero_or_pos w.toNat with hzero | hpos
  · rw [hzero]
    exact ⟨by decide, value_zero.trans Nat.cast_zero.symm⟩
  · exact value_pack_natural hpos h rfl

/-- A natural number is rounded to a double. -/
theorem rounds_ofNat (n : Nat) : (ofNat n).Rounds n := by
  rcases Nat.eq_zero_or_pos n with rfl | hn
  · have hzero : ofNat 0 = packed (.zero .positive) := by decide
    rw [hzero]
    exact rounds_packed_zero .positive
  have heq : ofNat n = ofFloat (Float.ofScientific n false 0) := rfl
  rw [heq]
  unfold Float.ofScientific
  split
  · next hshort =>
    -- the number itself is a double, and is multiplied by one
    have hword : n.toUInt64.toNat = n := UInt64.toNat_ofNat_of_lt' (hshort.1.trans (by decide))
    obtain ⟨hfinite, hvalue⟩ := value_toFloat (w := n.toUInt64) (by omega)
    have hone : one.isFinite = true := by decide
    have hrounds := rounds_mul hfinite hone
    rw [mul_eq_packed hfinite hone] at hrounds
    rw [packed_eq hrounds.isNaN, hvalue, hword, value_one, mul_one] at hrounds
    exact hrounds
  · next hlong =>
    have hfull : 52 ≤ (n <<< 53 * 1).log2 := by
      rw [Nat.mul_one, log2_shiftLeft hn]
      omega
    obtain ⟨k, hk, hpack⟩ := toNat_pack_round .positive (Represents.exact (n <<< 53 * 1))
      (e := -53) (.inr hfull)
    rw [← ofScientific_eq_round hn] at hpack
    have h := rounds_pack (mul_nonneg (Nat.cast_nonneg _) (zpow_nonneg two_pos.le _)) hk hpack
    have hvalue : factor .positive * (((n <<< 53 * 1 : Nat) : ℚ) * 2 ^ (-53 + 1074 : ℤ) *
        Layout.double.least) = n := by
      have hexponent : (-53 : ℤ) = -((53 : Nat) : ℤ) := rfl
      rw [mul_assoc, scale_mul_least, factor, one_mul, Nat.mul_one, Nat.shiftLeft_eq, hexponent,
        zpow_neg, zpow_natCast, Nat.cast_mul, Nat.cast_pow, Nat.cast_ofNat,
        mul_inv_cancel_right₀ (by positivity)]
    rw [hvalue] at h
    exact h

/-- There is a double for each natural number of few enough digits. -/
theorem exists_value_eq {n : Nat} (h : n ≤ 2 ^ 53) :
    ∃ y : Double, y.isFinite = true ∧ y.value = n := by
  rcases Nat.eq_zero_or_pos n with rfl | hn
  · exact ⟨zero, by decide, value_zero.trans Nat.cast_zero.symm⟩
  · obtain ⟨c, hc, hvalue⟩ := exists_units_eq hn h
    have hword : (⟨UInt64.ofNat c⟩ : Double).bits.toNat = c :=
      UInt64.toNat_ofNat_of_lt' (hc.trans (by decide))
    obtain ⟨hfinite, hvalue'⟩ := value_of_bits hword hc
    exact ⟨_, hfinite, hvalue'.trans hvalue⟩

/-- Natural numbers of few enough digits are not rounded. -/
theorem value_ofNat {n : Nat} (h : n ≤ 2 ^ 53) : (ofNat n).value = n := by
  obtain ⟨y, hy, hvalue⟩ := exists_value_eq h
  exact (rounds_ofNat n).value_eq (isNaN_of_isFinite hy) hvalue

theorem isFinite_ofNat {n : Nat} (h : n ≤ 2 ^ 53) : (ofNat n).isFinite = true := by
  obtain ⟨y, hy, hvalue⟩ := exists_value_eq h
  have hrounds := rounds_ofNat n
  have hnumber := isNaN_of_isFinite hy
  exact isFinite_of_le hy hy (hrounds.ge_of_ge y hnumber hvalue.le)
    (hrounds.le_of_le y hnumber hvalue.ge)

end Double

end GeneticProgramming
