import GeneticProgramming.Run.Basic
import Mathlib.Logic.Function.Basic

/-!
# Seeds of streams

`Random.scramble` is put together from additions, multiplications by odd numbers and folds, in which
the upper bits of a word are added to the lower ones.  To fold twice is to fold once by twice as
many places, and a fold by the width of a word does nothing, so each step can be undone and no word
is the image of two.  The main statement, `Run.streamSeed_injective`, says what this means for the
streams of a run: a seed tells the slot if the generation is known, and the generation if the slot
is.
-/

namespace GeneticProgramming

namespace Random

open Function

/-! ## Folds -/

/-- Adds each bit of a word, without a carry, to the one so many places below. -/
def fold (k : Nat) (x : UInt64) : UInt64 := ⟨x.toBitVec ^^^ x.toBitVec >>> k⟩

theorem fold_of_le {k : Nat} (hk : 64 ≤ k) : fold k = id := by
  funext x
  rw [fold, BitVec.ushiftRight_eq_zero hk, BitVec.xor_zero]
  rfl

theorem fold_comp_fold (k : Nat) : fold k ∘ fold k = fold (k + k) := by
  funext x
  -- the words that are shifted once cancel each other
  simp only [comp_apply, fold, BitVec.ushiftRight_xor_distrib, ← BitVec.shiftRight_add]
  rw [BitVec.xor_assoc, ← BitVec.xor_assoc (x.toBitVec >>> k), BitVec.xor_self, BitVec.zero_xor]

/-- A fold can be undone, since it can be gone on with until nothing is folded any more. -/
theorem bijective_fold {k : Nat} (hk : 0 < k) : Bijective (fold k) := by
  by_cases hwide : 64 ≤ k
  · rw [fold_of_le hwide]
    exact bijective_id
  · -- by induction on the places that are missing to the width
    have htwice : Bijective (fold (k + k)) := bijective_fold (by omega)
    rw [← fold_comp_fold] at htwice
    exact ⟨htwice.injective.of_comp, htwice.surjective.of_comp⟩
termination_by 64 - k

/-! ## Arithmetic of words -/

theorem bijective_add (c : UInt64) : Bijective (· + c) := by
  refine ⟨fun x y h => ?_, fun y => ⟨y - c, UInt64.sub_add_cancel y c⟩⟩
  exact (UInt64.add_left_inj c).1 h

/-- To multiply by a number is undone by its inverse. -/
theorem bijective_mul {c d : UInt64} (h : c * d = 1) : Bijective (· * c) := by
  have hcancel : ∀ {a b : UInt64}, a * b = 1 → LeftInverse (· * b) (· * a) := by
    intro a b hab x
    change x * a * b = x
    rw [UInt64.mul_assoc, hab, UInt64.mul_one]
  have hback : LeftInverse (· * c) (· * d) := hcancel (UInt64.mul_comm c d ▸ h)
  exact ⟨(hcancel h).injective, hback.surjective⟩

theorem injective_xor (c : UInt64) : Injective (c ^^^ ·) :=
  fun _ _ h => (UInt64.xor_right_inj c).1 h

/-- A number that fits a word is told by the word. -/
theorem injective_ofNat : Injective fun n : Fin (2 ^ 64) => UInt64.ofNat n := by
  intro m n h
  have htoNat := congrArg UInt64.toNat h
  simp only [UInt64.toNat_ofNat'] at htoNat
  rw [Nat.mod_eq_of_lt m.isLt, Nat.mod_eq_of_lt n.isLt] at htoNat
  exact Fin.ext htoNat

/-! ## Scrambling -/

theorem scramble_eq : scramble = fold 31 ∘ (· * 0x94D049BB133111EB) ∘ fold 27 ∘
    (· * 0xBF58476D1CE4E5B9) ∘ fold 30 ∘ (· + 0x9E3779B97F4A7C15) := rfl

theorem bijective_scramble : Bijective scramble := by
  have hfirst : Bijective (· * (0xBF58476D1CE4E5B9 : UInt64)) :=
    bijective_mul (d := 0x96DE1B173F119089) rfl
  have hsecond : Bijective (· * (0x94D049BB133111EB : UInt64)) :=
    bijective_mul (d := 0x319642B2D24D8EC3) rfl
  rw [scramble_eq]
  refine (bijective_fold (by decide)).comp (hsecond.comp ?_)
  refine (bijective_fold (by decide)).comp (hfirst.comp ?_)
  exact (bijective_fold (by decide)).comp (bijective_add _)

theorem injective_scramble_xor (c : UInt64) : Injective fun z => scramble (z ^^^ c) :=
  bijective_scramble.injective.comp fun _ _ h => (UInt64.xor_left_inj c).1 h

variable (seed generation slot : UInt64)

theorem injective_taskSeed_seed : Injective (taskSeed · generation slot) :=
  (injective_scramble_xor slot).comp
    ((injective_scramble_xor generation).comp bijective_scramble.injective)

theorem injective_taskSeed_generation : Injective (taskSeed seed · slot) :=
  (injective_scramble_xor slot).comp (bijective_scramble.injective.comp (injective_xor _))

theorem injective_taskSeed_slot : Injective (taskSeed seed generation) :=
  bijective_scramble.injective.comp (injective_xor _)

end Random

namespace Run

open Function

variable {C : Type}

/-- The seed of the stream of a slot of a generation. -/
def streamSeed (r : Run C) (generation slot : Nat) : UInt64 :=
  Random.taskSeed r.configuration.seed (UInt64.ofNat generation) (UInt64.ofNat slot)

/-- Words are scrambled without loss, so the seed of a stream tells each of the three words that it
is made of if the other two are known; and a run seeds the streams of no two slots of a generation
alike, nor those of two generations of a slot. -/
theorem streamSeed_injective (r : Run C) :
    Bijective Random.scramble ∧
    (∀ generation slot, Injective fun seed => Random.taskSeed seed generation slot) ∧
    (∀ seed slot, Injective fun generation => Random.taskSeed seed generation slot) ∧
    (∀ seed generation, Injective fun slot => Random.taskSeed seed generation slot) ∧
    (∀ generation slot, r.stream generation slot = .ofSeed (r.streamSeed generation slot)) ∧
    (∀ generation, Injective fun slot : Fin (2 ^ 64) => r.streamSeed generation slot) ∧
    ∀ slot, Injective fun generation : Fin (2 ^ 64) => r.streamSeed generation slot := by
  refine ⟨Random.bijective_scramble, Random.injective_taskSeed_seed,
    Random.injective_taskSeed_generation, Random.injective_taskSeed_slot, fun _ _ => rfl,
    fun generation => ?_, fun slot => ?_⟩
  · exact (Random.injective_taskSeed_slot _ _).comp Random.injective_ofNat
  · exact (Random.injective_taskSeed_generation _ _).comp Random.injective_ofNat

end Run

end GeneticProgramming
