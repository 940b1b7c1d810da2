import GeneticProgramming.Proofs.Run.Totality
import Mathlib.Data.Int.CardIntervalMod

/-!
# Ramped populations

A ramped population runs through the depths of its window, one slot each, and plants all trees of a
round in one shape and those of the next one in the other.  The last round may break off anywhere,
and so may a pair of rounds; still no depth is behind another one by more than one tree, and at each
depth there are as many grown trees as full ones, or one more: `Initializer.ramped_balanced`.
-/

namespace GeneticProgramming

variable {C : Type}

namespace Initializer

variable {kind : Initializer} {w : DepthWindow} {slot depth : Nat} {grown : Bool}

/-! ## Shapes -/

/-- The slots below a number whose trees have one of some shapes. -/
def slotsIn (kind : Initializer) (w : DepthWindow) (size : Nat) (wanted : Nat → Bool → Bool) : Nat :=
  Nat.count (fun slot => (kind.shape w slot).toOption.any fun (depth, grown) => wanted depth grown)
    size

/-- The trees of a depth in a population of this size. -/
def treesAt (kind : Initializer) (w : DepthWindow) (size depth : Nat) : Nat :=
  kind.slotsIn w size fun d _ => d = depth

/-- The trees of a depth that are grown, or those that are not. -/
def treesOf (kind : Initializer) (w : DepthWindow) (size depth : Nat) (grown : Bool) : Nat :=
  kind.slotsIn w size fun d g => d = depth && g = grown

theorem shape_ramped (hspan : w.span < 2 ^ 64) (slot : Nat) : rampedHalfHalf.shape w slot =
    .ok (w.least + slot % w.span, slot / w.span % 2 = 0) := by
  unfold shape
  rw [DepthWindow.span] at hspan
  rw [demandWord_of_lt hspan]
  rfl

/-- Slots whose trees have the wanted shapes just when they stand at one place of their round: there is
one in each full round, and one more if the last round came past the place. -/
theorem slotsIn_of_modEq {wanted : Nat → Bool → Bool} {place round : Nat} (hplace : place < round)
    (h : ∀ slot, (kind.shape w slot).toOption.any (fun (d, g) => wanted d g) = true ↔
      slot ≡ place [MOD round]) (size : Nat) :
    kind.slotsIn w size wanted = size / round + if place < size % round then 1 else 0 := by
  unfold slotsIn
  simp only [h]
  rw [Nat.count_modEq_card _ (Nat.zero_lt_of_lt hplace), Nat.mod_eq_of_lt hplace]

/-- The slots of one depth come round with the window. -/
theorem treesAt_ramped (hspan : w.span < 2 ^ 64) (size : Nat) {offset : Nat}
    (hoffset : offset < w.span) : rampedHalfHalf.treesAt w size (w.least + offset) =
      size / w.span + if offset < size % w.span then 1 else 0 := by
  refine slotsIn_of_modEq hoffset (fun slot => ?_) size
  rw [shape_ramped hspan, Nat.ModEq, Nat.mod_eq_of_lt hoffset]
  simp [Except.toOption]

/-- The slots of one depth and one shape come round with a pair of rounds, which begins with the
grown trees. -/
theorem treesOf_ramped (hspan : w.span < 2 ^ 64) (size : Nat) {offset : Nat}
    (hoffset : offset < w.span) (grown : Bool) :
    rampedHalfHalf.treesOf w size (w.least + offset) grown = size / (w.span * 2) +
      if offset + (if grown then 0 else w.span) < size % (w.span * 2) then 1 else 0 := by
  have hplace : offset + (if grown then 0 else w.span) < w.span * 2 := by
    split <;> omega
  refine slotsIn_of_modEq hplace (fun slot => ?_) size
  have hround := Nat.mod_lt slot (Nat.zero_lt_of_lt hoffset)
  rw [shape_ramped hspan, Nat.ModEq, Nat.mod_eq_of_lt hplace, Nat.mod_mul]
  simp only [Except.toOption, Option.any_some, Bool.and_eq_true, decide_eq_true_eq,
    Nat.add_left_cancel_iff]
  -- the parity of the round decides whether its slots lie in the first half of the pair
  rcases Nat.mod_two_eq_zero_or_one (slot / w.span) with heven | hodd
  · rw [heven, Nat.mul_zero, Nat.add_zero]
    cases grown with
    | true => simp
    | false =>
      have hfull : slot % w.span ≠ offset + w.span := by omega
      simpa using hfull
  · rw [hodd, Nat.mul_one]
    cases grown with
    | true =>
      have hgrown : slot % w.span + w.span ≠ offset := by omega
      simpa using hgrown
    | false => simp

/-! ## Balance -/

/-- A depth of a window lies some way above the least one. -/
theorem exists_offset (hleast : w.least ≤ depth) (hmost : depth ≤ w.most) :
    ∃ offset < w.span, depth = w.least + offset := by
  refine ⟨depth - w.least, ?_, (Nat.add_sub_cancel' hleast).symm⟩
  exact Nat.lt_succ_of_le (Nat.sub_le_sub_right hmost w.least)

/-- A tree is made in the shape that its slot is given. -/
theorem plant_of_shape {p : Palette C} {type : TypeId} {chance : Double}
    (h : kind.shape w slot = .ok (depth, grown)) : kind.plant p slot type w chance =
      (if grown then Generator.grow chance else .full).extend p ⟨min w.least depth, depth⟩ type
        .empty := by
  unfold plant
  rw [h]
  rfl

/-- No slot is given a depth outside the window, and its tree is made in the shape that the slot is
given.  Any two depths of the window have as many trees, but for one; and at each depth as many trees
are grown as are full, or one more. -/
theorem ramped_balanced (p : Palette C) (type : TypeId) (chance : Double)
    (hw : w.least ≤ w.most) (hspan : w.span < 2 ^ 64) (size : Nat) :
    (∀ slot < size, ∃ depth grown, rampedHalfHalf.shape w slot = .ok (depth, grown) ∧
      (w.least ≤ depth ∧ depth ≤ w.most) ∧ rampedHalfHalf.plant p slot type w chance =
        (if grown then Generator.grow chance else .full).extend p ⟨w.least, depth⟩ type .empty) ∧
    (∀ depth depth', w.least ≤ depth → depth ≤ w.most → w.least ≤ depth' → depth' ≤ w.most →
      rampedHalfHalf.treesAt w size depth ≤ rampedHalfHalf.treesAt w size depth' + 1) ∧
    ∀ depth, w.least ≤ depth → depth ≤ w.most →
      rampedHalfHalf.treesOf w size depth true = rampedHalfHalf.treesOf w size depth false ∨
      rampedHalfHalf.treesOf w size depth true = rampedHalfHalf.treesOf w size depth false + 1 := by
  refine ⟨fun slot _ => ?_, ?_, ?_⟩
  · have hshape := shape_ramped hspan slot
    have hround : slot % w.span < w.most - w.least + 1 := Nat.mod_lt slot (Nat.succ_pos _)
    refine ⟨_, _, hshape, ⟨Nat.le_add_right _ _, by omega⟩, ?_⟩
    rw [plant_of_shape hshape, Nat.min_eq_left (Nat.le_add_right _ _)]
  · intro depth depth' hleast hmost hleast' hmost'
    obtain ⟨offset, hoffset, rfl⟩ := exists_offset hleast hmost
    obtain ⟨offset', hoffset', rfl⟩ := exists_offset hleast' hmost'
    rw [treesAt_ramped hspan size hoffset, treesAt_ramped hspan size hoffset']
    split <;> omega
  · intro depth hleast hmost
    obtain ⟨offset, hoffset, rfl⟩ := exists_offset hleast hmost
    rw [treesOf_ramped hspan size hoffset, treesOf_ramped hspan size hoffset]
    -- whoever reaches the full trees of a depth has passed its grown ones
    rw [if_pos rfl, if_neg Bool.false_ne_true, Nat.add_zero]
    by_cases hfull : offset + w.span < size % (w.span * 2)
    · rw [if_pos hfull, if_pos (Nat.lt_of_le_of_lt (Nat.le_add_right _ _) hfull)]
      exact .inl rfl
    · rw [if_neg hfull]
      split
      · exact .inr rfl
      · exact .inl rfl

/-- Thirteen slots run through the five depths of a window twice and break off a third round. -/
theorem ramped_balanced_thirteen : (2 ≤ 6 ∧ (⟨2, 6⟩ : DepthWindow).span < 2 ^ 64) ∧
    (∀ slot < 13, ∃ depth grown, rampedHalfHalf.shape ⟨2, 6⟩ slot = .ok (depth, grown) ∧
      (2 ≤ depth ∧ depth ≤ 6) ∧ rampedHalfHalf.plant Run.coins slot 0 ⟨2, 6⟩ .one =
        (if grown then Generator.grow .one else .full).extend Run.coins ⟨2, depth⟩ 0 .empty) ∧
    (∀ depth depth', 2 ≤ depth → depth ≤ 6 → 2 ≤ depth' → depth' ≤ 6 →
      rampedHalfHalf.treesAt ⟨2, 6⟩ 13 depth ≤ rampedHalfHalf.treesAt ⟨2, 6⟩ 13 depth' + 1) ∧
    (∀ depth, 2 ≤ depth → depth ≤ 6 →
      rampedHalfHalf.treesOf ⟨2, 6⟩ 13 depth true = rampedHalfHalf.treesOf ⟨2, 6⟩ 13 depth false ∨
      rampedHalfHalf.treesOf ⟨2, 6⟩ 13 depth true =
        rampedHalfHalf.treesOf ⟨2, 6⟩ 13 depth false + 1) ∧
    (rampedHalfHalf.treesOf ⟨2, 6⟩ 13 4 true, rampedHalfHalf.treesOf ⟨2, 6⟩ 13 4 false) = (2, 1) ∧
      (rampedHalfHalf.treesOf ⟨2, 6⟩ 13 5 true, rampedHalfHalf.treesOf ⟨2, 6⟩ 13 5 false) =
        (1, 1) := by
  have hw : 2 ≤ 6 := by decide
  have hspan : (⟨2, 6⟩ : DepthWindow).span < 2 ^ 64 := by decide
  obtain ⟨hslots, hdepths, hshapes⟩ := ramped_balanced Run.coins 0 .one hw hspan 13
  exact ⟨⟨hw, hspan⟩, hslots, hdepths, hshapes, by decide, by decide⟩

end Initializer

end GeneticProgramming
