import Mathlib
import GeneticProgramming.Proofs.Number.Order

/-!
# Doubles that stay numbers

A number other than a NaN may be divided by a natural number, or multiplied by one, and never
becomes a NaN: `Double.isNaN_div` and `Double.isNaN_mul`.  The natural number has to be a machine
word and not zero, so that it rounds to a finite double with all digits of a mantissa.  A chance
that is computed so, and kept between zero and one, is a chance: `Double.clampUnit_cases`.
-/

namespace GeneticProgramming

open Float.Model Float.Model.UnpackedFloat

namespace Unpacked

/-- A finite number with all digits of its mantissa, and an exponent between two bounds. -/
def Within (low high : Int) (f : UnpackedFloat) : Prop :=
  ∃ s m e, ∃ h : 0 < m, f = .finite s m e h ∧ m.log2 = 52 ∧ low ≤ e ∧ e ≤ high

theorem mantissa_shiftRight (em : ExtendedMantissa) (k : Nat) :
    (em >>> k).mantissa = em.mantissa / 2 ^ k := by
  induction k generalizing em with
  | zero => simp [HShiftRight.hShiftRight, Nat.repeat]
  | succ k ih =>
    change (em >>> k).mantissa / 2 = _
    rw [ih, Nat.div_div_eq_div_mul, Nat.pow_succ]

theorem roundedMantissa_bounds (em : ExtendedMantissa) :
    em.mantissa ≤ em.roundedMantissa ∧ em.roundedMantissa ≤ em.mantissa + 1 := by
  unfold ExtendedMantissa.roundedMantissa
  cases em.accuracy with
  | exact => exact ⟨Nat.le_refl _, Nat.le_succ _⟩
  | inexact o =>
    cases o <;> simp only [Accuracy.roundToNearestEven] <;> omega

theorem log2_div {m k : Nat} (hm : m.log2 = 52 + k) : (m / 2 ^ k).log2 = 52 := by
  have hne : m ≠ 0 := by
    rintro rfl
    rw [Nat.log2_zero] at hm
    omega
  obtain ⟨hlow, hhigh⟩ := (Nat.log2_eq_iff hne).1 hm
  have hpos : 2 ^ 52 ≤ m / 2 ^ k :=
    (Nat.le_div_iff_mul_le (Nat.two_pow_pos k)).2 (by rwa [← Nat.pow_add])
  refine (Nat.log2_eq_iff (by omega)).2 ⟨hpos, ?_⟩
  refine (Nat.div_lt_iff_lt_mul (Nat.two_pow_pos k)).2 ?_
  rwa [← Nat.pow_add, Nat.add_right_comm]

theorem log2_shiftLeft {m : Nat} (hm : 0 < m) (k : Nat) : (m <<< k).log2 = m.log2 + k := by
  obtain ⟨hlow, hhigh⟩ := (Nat.log2_eq_iff (k := m.log2) (Nat.ne_of_gt hm)).1 rfl
  have hpos := Nat.two_pow_pos k
  rw [Nat.shiftLeft_eq]
  refine (Nat.log2_eq_iff (Nat.ne_of_gt (Nat.mul_pos hm hpos))).2 ⟨?_, ?_⟩
  · rw [Nat.pow_add]
    exact Nat.mul_le_mul_right _ hlow
  · rw [Nat.add_right_comm, Nat.pow_add]
    exact Nat.mul_lt_mul_of_pos_right hhigh hpos

theorem targetExponent_eq {m : Nat} {e : Int} (he : -1074 ≤ e + m.log2 - 52) :
    Format.binary64.targetExponent (totalExponent m e) = e + m.log2 - 52 := by
  change max ((m.log2 : Int) + 1 + e - (53 : Nat)) (3 - 2 ^ 10 - (53 : Nat)) = _
  omega

/-- What is wide enough is cut to all digits of a mantissa. -/
theorem shiftToTargetExponent_eq {m : Nat} {e : Int} {k : Nat} (a : Accuracy) (hm : m.log2 = 52 + k)
    (he : -1074 ≤ e + k) :
    (shiftToTargetExponent .binary64 m e a).1.mantissa = m / 2 ^ k ∧
      (shiftToTargetExponent .binary64 m e a).2 = e + k := by
  have htarget : Format.binary64.targetExponent (totalExponent m e) = e + k := by
    rw [targetExponent_eq] <;> omega
  have hshift : (e + k - e).toNat = k := by omega
  have hmantissa : (ExtendedMantissa.ofMantissaAndAccuracy m a).mantissa = m := by
    rcases a with _ | (_ | _ | _) <;> rfl
  unfold shiftToTargetExponent shiftToExponent
  simp only [htarget, hshift, mantissa_shiftRight, hmantissa, and_self]

/-- Rounding leaves all digits of a mantissa, and may carry once. -/
theorem roundWithAccuracy_within (s : Sign) {m : Nat} {e : Int} {k : Nat} (a : Accuracy)
    (hm : m.log2 = 52 + k) (he : -1074 ≤ e + k) :
    Within (e + k) (e + k + 1) (roundWithAccuracy .binary64 s m e a) := by
  obtain ⟨hfirst, hexponent⟩ := shiftToTargetExponent_eq a hm he
  have hlog := log2_div hm
  have hne : m / 2 ^ k ≠ 0 := by
    intro hzero
    rw [hzero, Nat.log2_zero] at hlog
    contradiction
  obtain ⟨hlow, hhigh⟩ := (Nat.log2_eq_iff hne).1 hlog
  unfold roundWithAccuracy
  generalize shiftToTargetExponent .binary64 m e a = first at hfirst hexponent ⊢
  obtain ⟨em, e₁⟩ := first
  dsimp only at hfirst hexponent ⊢
  subst hexponent
  obtain ⟨hleast, hmost⟩ := roundedMantissa_bounds em
  rw [hfirst] at hleast hmost
  -- a carry leaves one digit too many
  obtain ⟨c, hc, hlog⟩ : ∃ c ≤ 1, em.roundedMantissa.log2 = 52 + c := by
    by_cases hcarry : em.roundedMantissa < 2 ^ 53
    · exact ⟨0, Nat.zero_le 1, (Nat.log2_eq_iff (by omega)).2 ⟨by omega, hcarry⟩⟩
    · exact ⟨1, Nat.le_refl 1, (Nat.log2_eq_iff (by omega)).2 ⟨by omega, by omega⟩⟩
  obtain ⟨hlast, hexponent⟩ := shiftToTargetExponent_eq (e := e + k) .exact hlog (by omega)
  have hlog := log2_div hlog
  rw [← hlast] at hlog
  generalize shiftToTargetExponent .binary64 em.roundedMantissa (e + k) .exact = last
    at hlog hexponent ⊢
  obtain ⟨em', e'⟩ := last
  dsimp only at hlog hexponent ⊢
  have hne : em'.mantissa ≠ 0 := by
    intro hzero
    rw [hzero, Nat.log2_zero] at hlog
    contradiction
  rw [dif_neg hne]
  exact ⟨s, _, e', _, rfl, hlog, by omega, by omega⟩

/-! ## Packing -/

theorem toNat_unpackExponent (b : BitVec 64) :
    (@unpackExponent .binary64 b).toNat = b.toNat / 2 ^ 52 % 2 ^ 11 := by
  change (BitVec.extractLsb 62 52 b).toNat = _
  rw [BitVec.extractLsb_toNat, Nat.shiftRight_eq_div_pow]

theorem toNat_unpackMantissa (b : BitVec 64) :
    (@unpackMantissa .binary64 b).toNat = b.toNat % 2 ^ 52 := by
  change (BitVec.extractLsb 51 0 b).toNat = _
  rw [BitVec.extractLsb_toNat, Nat.shiftRight_zero]

theorem toNat_unpackSign (b : BitVec 64) :
    (@unpackSign .binary64 b).toNat = b.toNat / 2 ^ 63 := by
  have hb := b.isLt
  change (BitVec.extractLsb 63 63 b).toNat = _
  rw [BitVec.extractLsb_toNat, Nat.shiftRight_eq_div_pow]
  omega

theorem unpack_eq_notANumber_iff {b : BitVec 64} :
    UnpackedFloat.unpack .binary64 b = .notANumber ↔
      @unpackExponent .binary64 b = -1#_ ∧ @unpackMantissa .binary64 b ≠ 0#_ := by
  unfold UnpackedFloat.unpack
  dsimp only
  split
  · next hexponent =>
    split
    · next hmantissa => exact iff_of_false nofun fun h => h.2 hmantissa
    · next hmantissa => exact iff_of_true rfl ⟨hexponent, hmantissa⟩
  · next hexponent =>
    split
    · split <;> exact iff_of_false nofun fun h => hexponent h.1
    · exact iff_of_false nofun fun h => hexponent h.1

/-- The bits of a finite number are those of an infinity, if it is too great, or have an exponent
that no infinity and no NaN has. -/
theorem pack_finite (s : Sign) (m : Nat) (e : Int) (hm : 0 < m) :
    UnpackedFloat.pack .binary64 (.finite s m e hm) = packedInfinity .binary64 s ∨
      ∃ x f, UnpackedFloat.pack .binary64 (.finite s m e hm) = packComponents .binary64 s x f ∧
        x ≠ -1#_ := by
  unfold UnpackedFloat.pack
  dsimp only
  split
  · exact .inl rfl
  · next hbound =>
    refine .inr ?_
    split
    · refine ⟨_, _, rfl, fun h => hbound ?_⟩
      have hexponent := congrArg BitVec.toNat h
      rw [BitVec.toNat_ofNat] at hexponent
      change _ = 2047 at hexponent
      omega
    · exact ⟨_, _, rfl, by decide⟩

/-- Packing makes no NaN. -/
theorem eq_notANumber_of_pack {f : UnpackedFloat}
    (h : UnpackedFloat.unpack .binary64 (UnpackedFloat.pack .binary64 f) = .notANumber) :
    f = .notANumber := by
  obtain ⟨hexponent, hmantissa⟩ := unpack_eq_notANumber_iff.1 h
  cases f with
  | notANumber => rfl
  | infinity s => simp [UnpackedFloat.pack, packedInfinity] at hmantissa
  | zero s => simp [UnpackedFloat.pack, packedZero] at hmantissa
  | finite s m e hm =>
    rcases pack_finite s m e hm with hpack | ⟨x, g, hpack, hx⟩
    · rw [hpack, packedInfinity, unpackMantissa_packComponents] at hmantissa
      exact absurd rfl hmantissa
    · rw [hpack, unpackExponent_packComponents] at hexponent
      exact absurd hexponent hx

theorem toNat_append_one (v : BitVec 52) : (1#1 ++ v).toNat = 2 ^ 52 + v.toNat := by
  rw [BitVec.toNat_append, ← Nat.shiftLeft_add_eq_or_of_lt v.isLt]
  rfl

/-- Numbers with all digits of a mantissa survive packing, if their exponents have room. -/
theorem unpack_pack_within {low high : Int} {f : UnpackedFloat} (h : Within low high f)
    (hlow : -1074 ≤ low) (hhigh : high ≤ 971) :
    Within low high (UnpackedFloat.unpack .binary64 (UnpackedFloat.pack .binary64 f)) := by
  obtain ⟨s, m, e, hm, rfl, hlog, hle, hge⟩ := h
  have hbiased : (e + (1023 : Nat) + (52 : Nat)).toNat = e + 1075 := by omega
  have hpack : UnpackedFloat.pack .binary64 (.finite s m e hm) =
      packComponents .binary64 s (BitVec.ofNat 11 (e + (1023 : Nat) + (52 : Nat)).toNat)
        (BitVec.ofNat 52 m) := by
    unfold UnpackedFloat.pack
    change (if 2 ^ 11 ≤ (e + (1023 : Nat) + (52 : Nat)).toNat + 1 then _
      else if m.log2 + 1 = 53 then _ else _) = _
    rw [if_neg (by omega), if_pos (by omega)]
    rfl
  have hexponent : (BitVec.ofNat 11 (e + (1023 : Nat) + (52 : Nat)).toNat).toNat =
      (e + (1023 : Nat) + (52 : Nat)).toNat := by
    rw [BitVec.toNat_ofNat, Nat.mod_eq_of_lt (by omega)]
  generalize BitVec.ofNat 11 (e + (1023 : Nat) + (52 : Nat)).toNat = x at hpack hexponent
  have hfinite : x ≠ -1#11 := by
    rintro rfl
    change 2047 = _ at hexponent
    omega
  have hnormal : x ≠ 0#11 := by
    rintro rfl
    change 0 = _ at hexponent
    omega
  rw [hpack]
  unfold UnpackedFloat.unpack
  simp only [unpackExponent_packComponents, unpackMantissa_packComponents]
  rw [if_neg hfinite, if_neg hnormal]
  refine ⟨_, _, _, _, rfl, ?_, ?_, ?_⟩
  · rw [toNat_append_one]
    have hbound := (BitVec.ofNat 52 m).isLt
    exact (Nat.log2_eq_iff (by omega)).2 ⟨by omega, by omega⟩
  · change low ≤ (x.toNat : Int) - ((1023 : Nat) + (52 : Nat))
    omega
  · change (x.toNat : Int) - ((1023 : Nat) + (52 : Nat)) ≤ high
    omega

/-! ## Products and natural numbers -/

theorem Within.mono {low high low' high' : Int} {f : UnpackedFloat} (h : Within low high f)
    (hlow : low' ≤ low) (hhigh : high ≤ high') : Within low' high' f := by
  obtain ⟨s, m, e, hm, hf, hlog, hle, hge⟩ := h
  exact ⟨s, m, e, hm, hf, hlog, by omega, by omega⟩

theorem mul_within {low high low' high' : Int} {f g : UnpackedFloat} (hf : Within low high f)
    (hg : Within low' high' g) (hroom : -1126 ≤ low + low') :
    Within (low + low' + 52) (high + high' + 54) (UnpackedFloat.mul .binary64 f g) := by
  obtain ⟨s, m, e, hm, rfl, hlog, hle, hge⟩ := hf
  obtain ⟨s', m', e', hm', rfl, hlog', hle', hge'⟩ := hg
  obtain ⟨hlow, hhigh⟩ := (Nat.log2_eq_iff (Nat.ne_of_gt hm)).1 hlog
  obtain ⟨hlow', hhigh'⟩ := (Nat.log2_eq_iff (Nat.ne_of_gt hm')).1 hlog'
  have hleast : 2 ^ 52 * 2 ^ 52 ≤ m * m' := Nat.mul_le_mul hlow hlow'
  have hmost : m * m' < 2 ^ 53 * 2 ^ 53 := Nat.mul_lt_mul'' hhigh hhigh'
  obtain ⟨k, hk, hk', hlog⟩ : ∃ k, 52 ≤ k ∧ k ≤ 53 ∧ (m * m').log2 = 52 + k := by
    by_cases hshort : m * m' < 2 ^ 105
    · exact ⟨52, by omega, by omega, (Nat.log2_eq_iff (by omega)).2 ⟨by omega, by omega⟩⟩
    · exact ⟨53, by omega, by omega, (Nat.log2_eq_iff (by omega)).2 ⟨by omega, by omega⟩⟩
  exact (roundWithAccuracy_within (s * s') .exact hlog (by omega)).mono (by omega) (by omega)

/-- A natural number of few enough digits is shifted until it has all digits of a mantissa. -/
theorem ofNat_eq_round {n : Nat} (hn : 0 < n) (hshort : n < 2 ^ 53) :
    UnpackedFloat.ofNat .binary64 n =
      roundWithAccuracy .binary64 .positive (n <<< (52 - n.log2)) (n.log2 - 52) .exact := by
  have hlog : n.log2 < 53 := (Nat.log2_lt (Nat.ne_of_gt hn)).2 hshort
  have hround : UnpackedFloat.ofNat .binary64 n = UnpackedFloat.round .binary64 .positive n 0 := by
    unfold UnpackedFloat.ofNat UnpackedFloat.ofInt UnpackedFloat.normalize
    have hcompare : compare (n : Int) 0 = .gt := Int.compare_eq_gt.2 (by omega)
    rw [hcompare]
    rfl
  have htarget : Format.binary64.targetExponent (totalExponent n 0) = (n.log2 : Int) - 52 := by
    rw [targetExponent_eq] <;> omega
  have hshift : (0 - ((n.log2 : Int) - 52)).toNat = 52 - n.log2 := by omega
  have hexponent : (0 : Int) - (52 - n.log2 : Nat) = (n.log2 : Int) - 52 := by omega
  rw [hround]
  unfold UnpackedFloat.round decreaseExponent
  simp only [htarget, hshift, hexponent]

/-- A natural number has all digits of a mantissa after rounding. -/
theorem ofNat_within {n : Nat} (hn : 0 < n) (hshort : n < 2 ^ 53) :
    Within (-52) 1 (UnpackedFloat.ofNat .binary64 n) := by
  have hlog : n.log2 < 53 := (Nat.log2_lt (Nat.ne_of_gt hn)).2 hshort
  have hwide : (n <<< (52 - n.log2)).log2 = 52 + 0 := by
    rw [log2_shiftLeft hn]
    omega
  rw [ofNat_eq_round hn hshort]
  exact (roundWithAccuracy_within .positive .exact hwide (by omega)).mono (by omega) (by omega)

/-- A longer natural number is shifted by all digits of a mantissa. -/
theorem ofScientific_eq_round {n : Nat} (hn : 0 < n) : UnpackedFloat.ofScientific .binary64 n 0 =
    roundWithAccuracy .binary64 .positive ((n <<< 53) * 1) (-53) .exact := by
  have hsmall : ¬ (0 : Int) < -((2 ^ 11 : Int) + n.log2) := by omega
  unfold UnpackedFloat.ofScientific
  rw [dif_neg (Nat.ne_of_gt hn), if_neg (by decide), if_neg hsmall, if_pos (by decide)]
  rfl

theorem float_ofNat_within {n : Nat} (hn : 0 < n) (hword : n < 2 ^ 64) :
    Within (-52) 13 (Float.ofNat n).toModel.unpack := by
  unfold Float.ofNat
  change Within (-52) 13 (Float.ofScientific n false 0).toModel.unpack
  unfold Float.ofScientific
  split
  · next hshort =>
    have hone : Within (-52) (-52) (Float.ofBits 0x3FF0000000000000).toModel.unpack := by
      exact ⟨.positive, 2 ^ 52, -52, by decide, by rfl, by decide, by decide, by decide⟩
    have hvalue : n.toUInt64.toNat = n := UInt64.toNat_ofNat_of_lt' hword
    have hn' : Within (-52) 1 n.toUInt64.toFloat.toModel.unpack := by
      have h := ofNat_within hn hshort.1
      rw [← hvalue] at h
      exact unpack_pack_within h (by decide) (by decide)
    have hproduct := mul_within hn' hone (by decide)
    exact (unpack_pack_within hproduct (by decide) (by decide)).mono (by decide) (by decide)
  · next hlong =>
    have hlog : n.log2 < 64 := (Nat.log2_lt (Nat.ne_of_gt hn)).2 hword
    have hwide : (n <<< 53 * 1).log2 = 52 + (n.log2 + 1) := by
      rw [Nat.mul_one, log2_shiftLeft hn]
      omega
    have hround := roundWithAccuracy_within (e := -53) .positive .exact hwide (by omega)
    rw [← ofScientific_eq_round hn] at hround
    have hrange : Within (-52) 13 (UnpackedFloat.ofScientific .binary64 n 0) :=
      hround.mono (by omega) (by omega)
    exact unpack_pack_within hrange (by decide) (by decide)

/-! ## Results that are no NaN -/

theorem roundWithAccuracy_ne_notANumber (s : Sign) (m : Nat) (e : Int) (a : Accuracy) :
    roundWithAccuracy .binary64 s m e a ≠ .notANumber := by
  unfold roundWithAccuracy
  dsimp only
  split <;> nofun

section

variable {low high : Int} {f g : UnpackedFloat} (hf : f ≠ .notANumber) (hg : Within low high g)
include hf hg

theorem div_ne_notANumber : UnpackedFloat.div .binary64 f g ≠ .notANumber := by
  obtain ⟨s, m, e, hm, rfl, -⟩ := hg
  cases f with
  | notANumber => exact absurd rfl hf
  | infinity s' => nofun
  | zero s' => nofun
  | finite s' m' e' hm' => exact roundWithAccuracy_ne_notANumber _ _ _ _

theorem mul_ne_notANumber : UnpackedFloat.mul .binary64 g f ≠ .notANumber := by
  obtain ⟨s, m, e, hm, rfl, -⟩ := hg
  cases f with
  | notANumber => exact absurd rfl hf
  | infinity s' => nofun
  | zero s' => nofun
  | finite s' m' e' hm' => exact roundWithAccuracy_ne_notANumber _ _ _ _

end

end Unpacked

namespace Double

open Unpacked

/-- The number that the fields of a word describe. -/
def unpacked (x : Double) : UnpackedFloat := UnpackedFloat.unpack .binary64 x.bits.toBitVec

theorem isNaN_eq_true_iff (x : Double) : x.isNaN = true ↔ x.unpacked = .notANumber := by
  rw [unpacked, unpack_eq_notANumber_iff, isNaN_eq, ne_eq, ← BitVec.toNat_inj, ← BitVec.toNat_inj,
    toNat_unpackExponent, toNat_unpackMantissa, Layout.isNaN, decide_eq_true_iff]
  change (2 ^ 11 - 1) * 2 ^ 52 < x.bits.toNat % 2 ^ (52 + 11) ↔
    x.bits.toNat / 2 ^ 52 % 2 ^ 11 = 2047 ∧ ¬ x.bits.toNat % 2 ^ 52 = 0
  omega

theorem isNaN_eq_false_iff (x : Double) : x.isNaN = false ↔ x.unpacked ≠ .notANumber := by
  rw [← Bool.not_eq_true, isNaN_eq_true_iff]

/-- A finite number that is not zero and has room for its digits. -/
def IsNormal (x : Double) : Prop := Within (-1074) 971 x.unpacked

theorem IsNormal.isNaN {x : Double} (h : x.IsNormal) : x.isNaN = false := by
  obtain ⟨s, m, e, hm, hx, -⟩ := h
  rw [isNaN_eq_false_iff, hx]
  nofun

theorem isNormal_ofNat {n : Nat} (hn : 0 < n) (hword : n < 2 ^ 64) : (ofNat n).IsNormal :=
  (float_ofNat_within hn hword).mono (by decide) (by decide)

theorem IsNormal.toFloat {x : Double} (h : x.IsNormal) :
    Within (-1074) 971 x.toFloat.toModel.unpack :=
  unpack_pack_within h (Int.le_refl _) (Int.le_refl _)

theorem toFloat_ne_notANumber {x : Double} (h : x.isNaN = false) :
    x.toFloat.toModel.unpack ≠ .notANumber :=
  fun hnan => (isNaN_eq_false_iff x).1 h (eq_notANumber_of_pack hnan)

theorem isNaN_pack {f : UnpackedFloat} (h : f ≠ .notANumber) :
    (ofFloat (.ofModel (Float.Model.pack f))).isNaN = false :=
  (isNaN_eq_false_iff _).2 fun hnan => h (eq_notANumber_of_pack hnan)

section Arithmetic

variable {x y : Double} (hx : x.isNaN = false) (hy : y.IsNormal)
include hx hy

theorem isNaN_div : (x / y).isNaN = false := by
  have hresult : (ofFloat (x.toFloat / y.toFloat)).isNaN = false :=
    isNaN_pack (div_ne_notANumber (toFloat_ne_notANumber hx) hy.toFloat)
  change (if x.isNaN then x.quiet else if y.isNaN then y.quiet else
    if (ofFloat (x.toFloat / y.toFloat)).isNaN then ⟨0xFFF8000000000000⟩
    else ofFloat (x.toFloat / y.toFloat)).isNaN = false
  rw [hx, hy.isNaN, hresult]
  exact hresult

theorem isNaN_mul : (y * x).isNaN = false := by
  have hresult : (ofFloat (y.toFloat * x.toFloat)).isNaN = false :=
    isNaN_pack (mul_ne_notANumber (toFloat_ne_notANumber hx) hy.toFloat)
  change (if y.isNaN then y.quiet else if x.isNaN then x.quiet else
    if (ofFloat (y.toFloat * x.toFloat)).isNaN then ⟨0xFFF8000000000000⟩
    else ofFloat (y.toFloat * x.toFloat)).isNaN = false
  rw [hx, hy.isNaN, hresult]
  exact hresult

end Arithmetic

/-! ## Chances -/

/-- A clamped number is one, or lies between zero and one. -/
theorem clampUnit_cases {x : Double} (h : x.isNaN = false) :
    x.clampUnit.eq .one = true ∨
      (Double.le .zero x.clampUnit && x.clampUnit.lt .one) = true := by
  unfold clampUnit
  split
  · exact .inr (by decide)
  · next hlow =>
    split
    · exact .inl (by decide)
    · next hhigh =>
      have hzero : zero.isNaN = false := by decide
      have hone : one.isNaN = false := by decide
      rw [lt_iff h hzero, Int64.not_lt] at hlow
      rw [lt_iff hone h, Int64.not_lt] at hhigh
      rcases Int64.le_iff_lt_or_eq.1 hhigh with hlt | heq
      · right
        rw [Bool.and_eq_true, le_iff hzero h, lt_iff h hone]
        exact ⟨hlow, hlt⟩
      · left
        rw [eq, h, hone]
        exact decide_eq_true heq

end Double

end GeneticProgramming
