import GeneticProgramming.Population.Selection
import GeneticProgramming.Proofs.Population.Average

/-!
# The roulette wheel

Shares, their running sums and the slot that a draw falls into are made of few operations on
numbers.  `Arithmetic` has these operations: with those on doubles the wheel is what statistics and
selectors make, as `Wheel.Spins` says, and with those on rational numbers it is the wheel without
rounding.  There the shares add up to one, and a draw selects the one individual whose part of the
wheel it falls into; `Wheel.Fair` says so, and `Wheel.exact_wheel` proves it.
-/

namespace GeneticProgramming

/-- The operations that a wheel is made with. -/
structure Arithmetic (α : Type) where
  zero : α
  /-- The sum of nothing. -/
  empty : α
  one : α
  add : α → α → α
  mul : α → α → α
  div : α → α → α
  ofNat : Nat → α
  lt : α → α → Bool
  le : α → α → Bool

namespace Arithmetic

def double : Arithmetic Double where
  zero := .zero
  empty := .negZero
  one := .one
  add := .add
  mul := .mul
  div := .div
  ofNat := .ofNat
  lt := Double.lt
  le := Double.le

/-- Operations without rounding. -/
def exact : Arithmetic ℚ where
  zero := 0
  empty := 0
  one := 1
  add := (· + ·)
  mul := (· * ·)
  div := (· / ·)
  ofNat n := n
  lt x y := x < y
  le x y := x ≤ y

/-- Operations on doubles that round the exact ones, and compare doubles as their values. -/
structure Rounded (A : Arithmetic Double) : Prop where
  zero_eq : A.zero.value = exact.zero
  empty_eq : A.empty.value = exact.empty
  one_eq : A.one.value = exact.one
  add : ∀ x y : Double, x.isFinite = true → y.isFinite = true →
    (A.add x y).Rounds (exact.add x.value y.value)
  mul : ∀ x y : Double, x.isFinite = true → y.isFinite = true →
    (A.mul x y).Rounds (exact.mul x.value y.value)
  div : ∀ x y : Double, x.isFinite = true → y.isFinite = true → y.value ≠ exact.zero →
    (A.div x y).Rounds (exact.div x.value y.value)
  ofNat : ∀ n, (A.ofNat n).Rounds (exact.ofNat n)
  lt : ∀ x y : Double, x.isNaN = false → y.isNaN = false → A.lt x y = exact.lt x.value y.value
  le : ∀ x y : Double, x.isNaN = false → y.isNaN = false → A.le x y = exact.le x.value y.value

theorem rounded_double : Rounded double where
  zero_eq := Double.value_zero
  empty_eq := Double.value_negZero
  one_eq := Double.value_one
  add _ _ hx hy := Double.rounds_add hx hy
  mul _ _ hx hy := Double.rounds_mul hx hy
  div _ _ hx hy hne := Double.rounds_div hx hy hne
  ofNat := Double.rounds_ofNat
  lt _ _ hx hy := Bool.eq_iff_iff.2 ((Double.lt_iff_value_lt hx hy).trans decide_eq_true_iff.symm)
  le _ _ hx hy := Bool.eq_iff_iff.2 ((Double.le_iff_value_le hx hy).trans decide_eq_true_iff.symm)

end Arithmetic

namespace Wheel

section Definitions

variable {α : Type} (A : Arithmetic α)

/-- Shares of the sum of some weights, or equal shares if there is nothing positive to share. -/
def shares (weights : List α) : List α :=
  let total := weights.foldl A.add A.empty
  if A.lt A.zero total then weights.map fun w => A.div w total
  else List.replicate weights.length (A.div A.one (A.ofNat weights.length))

/-- Running sums, the first one included. -/
def sums (shares : List α) : List α := (shares.scanl A.add A.zero).tail

/-- Whether a draw reaches a running sum. -/
def reached (sums : List α) (draw : α) (i : Nat) : Bool := sums[i]?.any fun c => A.le c draw

/-- The number of running sums that a draw reaches, found by bisection. -/
def slot (sums : List α) (draw : α) : Nat :=
  let last := Selector.bisect (reached A sums draw) 0 sums.length
  if reached A sums draw last then last + 1 else last

/-- Whom a part of the wheel selects, among so many. -/
def select (sums : List α) (part : α) (length : Nat) : Nat :=
  let total := (sums.getLast?).getD A.zero
  min (slot A sums (A.mul part total)) (length - 1)

end Definitions

end Wheel

/-- What the individuals weigh: a score that is not finite weighs nothing. -/
def Population.weights (pop : Population) : List Double := pop.keys.map Statistics.share

/-! ## The wheel of the program -/

section Program

variable {pop : Population}

theorem Statistics.normalized_eq (hne : pop ≠ []) :
    (ofPopulation pop).normalized = Wheel.shares .double pop.weights := by
  have hmap : pop.keys.map (fun x => share x / sum (pop.keys.map share)) =
      pop.weights.map fun w => w / sum pop.weights := by
    rw [Population.weights, List.map_map]
    rfl
  have hlength : pop.weights.length = pop.keys.length := List.length_map _
  rw [ofPopulation_eq hne]
  unfold Wheel.shares
  rw [hlength]
  change (if Double.lt .zero (sum (pop.keys.map share)) then
    pop.keys.map (fun x => share x / sum (pop.keys.map share)) else _) = _
  rw [hmap]
  rfl

/-- A wheel is prepared with the running sums of the shares. -/
theorem Selector.prepare_roulette (hne : pop ≠ []) (before : List Double) :
    (roulette before).prepare pop (.ofPopulation pop) =
      .ok (.roulette (Wheel.sums .double (Wheel.shares .double pop.weights))) := by
  rw [← Statistics.normalized_eq hne]
  unfold prepare
  rw [if_neg fun h => hne (List.isEmpty_iff.1 h)]
  exact if_pos (Statistics.length_normalized_ofPopulation pop)

/-- A wheel picks what a part of it selects that is drawn from the stream. -/
theorem Selector.pick_roulette (sums : List Double) (pop : Population) :
    (roulette sums).pick pop = do
      return (Wheel.select .double sums (← Draw.unit) pop.length, roulette sums) := rfl

/-- What is drawn lies between zero and one, and is not one. -/
theorem Draw.unit_value (g : Random) :
    ∃ u g', unit g = .ok (u, g') ∧ u.isNaN = false ∧ 0 ≤ u.value ∧ u.value < 1 := by
  have hscale : (⟨0x3CA0000000000000⟩ : Double).value = 1 / 2 ^ 53 := by
    show 1 * (((2 ^ 52 : Nat) : ℚ) * 2 ^ (-105 : ℤ)) = _
    norm_num
  have hgreatest : (⟨0x3FEFFFFFFFFFFFFF⟩ : Double).value = (2 ^ 53 - 1) / 2 ^ 53 := by
    show 1 * (((2 ^ 53 - 1 : Nat) : ℚ) * 2 ^ (-53 : ℤ)) = _
    norm_num
  refine ⟨Double.mul (.ofFloat (g.next.1 >>> 11).toFloat) ⟨0x3CA0000000000000⟩, g.next.2, rfl, ?_⟩
  have hshort : (g.next.1 >>> 11).toNat < 2 ^ 53 := by
    rw [UInt64.toNat_shiftRight, Nat.shiftRight_eq_div_pow]
    exact Nat.div_lt_of_lt_mul g.next.1.toNat_lt
  generalize g.next.1 >>> 11 = w at hshort ⊢
  obtain ⟨hfinite, hvalue⟩ := Double.value_toFloat hshort
  have hrounds := Double.rounds_mul (y := ⟨0x3CA0000000000000⟩) hfinite (by decide)
  rw [hvalue, hscale] at hrounds
  have hmost : (w.toNat : ℚ) ≤ 2 ^ 53 - 1 := by
    have hlt : (w.toNat : ℚ) + 1 ≤ 2 ^ 53 := by exact_mod_cast Nat.succ_le_of_lt hshort
    linarith
  have hbelow := hrounds.ge_of_ge .zero (by decide) (by rw [Double.value_zero]; positivity)
  have habove := hrounds.le_of_le ⟨0x3FEFFFFFFFFFFFFF⟩ (by decide) (by
    rw [hgreatest, mul_one_div]
    gcongr)
  rw [Double.le_iff_value_le (by decide) hrounds.isNaN, Double.value_zero] at hbelow
  rw [Double.le_iff_value_le hrounds.isNaN (by decide), hgreatest] at habove
  exact ⟨hrounds.isNaN, hbelow, habove.trans_lt (by norm_num)⟩

end Program

/-! ## Bisection -/

/-- Bisection finds the last place that the test holds at, if it holds at the places up to some one;
if it holds nowhere, the first place. -/
theorem Selector.bisect_spec {below : Nat → Bool} (hbelow : ∀ i j, i ≤ j → below j → below i)
    (first : Nat) {size : Nat} (hsize : 0 < size) :
    first ≤ bisect below first size ∧ bisect below first size < first + size ∧
      (bisect below first size = first ∨ below (bisect below first size) = true) ∧
        ∀ j, bisect below first size < j → j < first + size → below j = false := by
  induction first, size using bisect.induct below with
  | case1 first size hle =>
    rw [bisect, if_pos hle]
    exact ⟨Nat.le_refl _, by omega, .inl rfl, fun j hj hlt => by omega⟩
  | case2 first size hgt half ih =>
    obtain ⟨hleast, hmost, hlast, hrest⟩ := ih (by omega)
    have hstep : bisect below first size =
        bisect below (if below (first + half) then first + half else first) (size - half) := by
      rw [bisect, if_neg hgt]
    have hhalf : half ≤ size - half ∧ half < size := by omega
    rw [hstep]
    cases hmiddle : below (first + half) with
    | true =>
      simp only [hmiddle, if_true, dite_true] at hleast hmost hlast hrest ⊢
      refine ⟨by omega, by omega, .inr ?_, fun j hj hlt => hrest j hj (by omega)⟩
      rcases hlast with heq | htrue
      · rw [heq, hmiddle]
      · exact htrue
    | false =>
      simp only [hmiddle, Bool.false_eq_true, if_false, dite_false] at hleast hmost hlast hrest ⊢
      refine ⟨hleast, by omega, hlast, fun j hj hlt => ?_⟩
      rcases Nat.lt_or_ge j (first + half) with hbefore | hafter
      · exact hrest j hj (by omega)
      · exact Bool.eq_false_iff.2 fun htrue =>
          absurd (hbelow _ _ hafter htrue) (Bool.eq_false_iff.1 hmiddle)

namespace Wheel

/-- The slot is the number of running sums that are reached, if the sums before one that is reached
are reached too. -/
theorem slot_spec {α : Type} {A : Arithmetic α} {sums : List α} {draw : α}
    (hreached : ∀ i j, i ≤ j → reached A sums draw j → reached A sums draw i) :
    (∀ i < slot A sums draw, reached A sums draw i = true) ∧
      ∀ i, slot A sums draw ≤ i → reached A sums draw i = false := by
  have hnone : ∀ i, sums.length ≤ i → reached A sums draw i = false := by
    intro i hi
    rw [reached, List.getElem?_eq_none hi]
    rfl
  rcases Nat.eq_zero_or_pos sums.length with hempty | hpos
  · have hzero : slot A sums draw = 0 := by
      unfold slot
      rw [hempty, Selector.bisect, if_pos (Nat.zero_le 1)]
      exact if_neg (Bool.eq_false_iff.1 (hnone 0 hempty.le))
    rw [hzero]
    exact ⟨fun i hi => absurd hi (Nat.not_lt_zero i), fun i _ => hnone i (by omega)⟩
  · obtain ⟨-, hmost, hlast, hrest⟩ := Selector.bisect_spec hreached 0 hpos
    unfold slot
    generalize Selector.bisect (reached A sums draw) 0 sums.length = last at hmost hlast hrest ⊢
    have hafter : ∀ i, last < i → reached A sums draw i = false := by
      intro i hi
      rcases Nat.lt_or_ge i sums.length with hlt | hge
      · exact hrest i hi (by omega)
      · exact hnone i hge
    dsimp only
    split
    · next htrue => exact ⟨fun i hi => hreached i last (by omega) htrue, fun i hi => hafter i hi⟩
    · next hfalse =>
      obtain rfl := hlast.resolve_right hfalse
      refine ⟨fun i hi => absurd hi (Nat.not_lt_zero i), fun i hi => ?_⟩
      rcases Nat.eq_zero_or_pos i with rfl | hlt
      · exact Bool.eq_false_iff.2 hfalse
      · exact hafter i hlt

/-! ## The wheel without rounding -/

variable {S : List ℚ} {d : ℚ} {i : Nat}

theorem getElem?_sums (S : List ℚ) (i : Nat) :
    (sums .exact S)[i]? = if i < S.length then some (S.take (i + 1)).sum else none := by
  unfold sums
  rw [List.getElem?_tail, List.getElem?_scanl, List.sum_eq_foldl]
  rfl

theorem length_sums (S : List ℚ) : (sums .exact S).length = S.length := by
  rw [sums, List.length_tail, List.length_scanl, Nat.add_sub_cancel]

/-- The last running sum is the sum. -/
theorem getLast_sums (hne : S ≠ []) : ((sums .exact S).getLast?).getD 0 = S.sum := by
  have hpos := List.length_pos_iff.2 hne
  rw [List.getLast?_eq_getElem?, length_sums, getElem?_sums, if_pos (by omega),
    Nat.sub_add_cancel hpos, List.take_length, Option.getD_some]

/-- Sums of first parts grow with the part. -/
theorem take_sum_mono (hnonneg : ∀ s ∈ S, 0 ≤ s) {i j : Nat} (h : i ≤ j) :
    (S.take i).sum ≤ (S.take j).sum := by
  obtain ⟨k, rfl⟩ := Nat.exists_eq_add_of_le h
  rw [List.take_add, List.sum_append, le_add_iff_nonneg_right]
  refine List.sum_nonneg fun s hs => hnonneg s ?_
  exact List.mem_of_mem_drop (List.mem_of_mem_take hs)

/-- A draw falls into the part of the wheel that belongs to an index. -/
structure Lands (S : List ℚ) (d : ℚ) (i : Nat) : Prop where
  lt_length : i < S.length
  le : (S.take i).sum ≤ d
  lt : d < (S.take (i + 1)).sum

namespace Lands

/-- Parts of the wheel do not overlap. -/
theorem unique (hnonneg : ∀ s ∈ S, 0 ≤ s) {j : Nat} (hi : Lands S d i) (hj : Lands S d j) :
    j = i := by
  have hle : ∀ {i j : Nat}, Lands S d i → Lands S d j → j ≤ i := by
    intro i j hi hj
    by_contra hlt
    have hmono := take_sum_mono hnonneg (i := i + 1) (j := j) (by omega)
    linarith [hi.lt, hj.le]
  exact Nat.le_antisymm (hle hi hj) (hle hj hi)

/-- No draw falls into an empty part. -/
theorem ne_zero (h : Lands S d i) : S[i]? ≠ some 0 := by
  intro hzero
  have hlt := h.lt
  rw [List.take_add_one, hzero, Option.toList_some, List.sum_append, List.sum_singleton,
    add_zero] at hlt
  exact absurd h.le (not_le.2 hlt)

end Lands

theorem reached_iff : reached .exact (sums .exact S) d i = true ↔
    i < S.length ∧ (S.take (i + 1)).sum ≤ d := by
  rw [reached, getElem?_sums]
  split
  · next hlt =>
    rw [Option.any_some]
    exact decide_eq_true_iff.trans (and_iff_right hlt).symm
  · next hge =>
    rw [Option.any_none]
    exact iff_of_false Bool.false_ne_true fun h => hge h.1

/-- Part of the wheel selects the index whose share it falls into. -/
theorem select_lands (hnonneg : ∀ s ∈ S, 0 ≤ s) (hsum : 0 < S.sum) {part : ℚ} (hpart : 0 ≤ part)
    (hlt : part < 1) :
    Lands S (part * S.sum) (select .exact (sums .exact S) part S.length) := by
  have hne : S ≠ [] := by
    rintro rfl
    exact absurd hsum (lt_irrefl _)
  have hdraw : part * S.sum < S.sum := mul_lt_of_lt_one_left hsum hlt
  have hdraw' : 0 ≤ part * S.sum := mul_nonneg hpart hsum.le
  have hselect : select .exact (sums .exact S) part S.length =
      min (slot .exact (sums .exact S) (part * S.sum)) (S.length - 1) := by
    rw [← getLast_sums hne]
    rfl
  rw [hselect]
  generalize part * S.sum = d at hdraw hdraw' ⊢
  have hreached : ∀ i j, i ≤ j → reached .exact (sums .exact S) d j →
      reached .exact (sums .exact S) d i := by
    intro i j hij hj
    rw [reached_iff] at hj ⊢
    exact ⟨by omega, (take_sum_mono hnonneg (by omega)).trans hj.2⟩
  obtain ⟨hbefore, hafter⟩ := slot_spec hreached
  generalize slot .exact (sums .exact S) d = k at hbefore hafter ⊢
  -- the last sum is the sum, which the draw does not reach
  have hpos := List.length_pos_iff.2 hne
  have hk : k < S.length := by
    by_contra hge
    have hlast := (reached_iff.1 (hbefore (S.length - 1) (by omega))).2
    rw [Nat.sub_add_cancel hpos, List.take_length] at hlast
    exact absurd hlast (not_le.2 hdraw)
  rw [Nat.min_eq_left (by omega)]
  refine ⟨hk, ?_, ?_⟩
  · rcases Nat.eq_zero_or_pos k with rfl | hpos
    · exact hdraw'
    · have hreached := (reached_iff.1 (hbefore (k - 1) (by omega))).2
      rwa [Nat.sub_add_cancel hpos] at hreached
  · have hnot := mt reached_iff.2 (Bool.eq_false_iff.1 (hafter k (Nat.le_refl k)))
    exact not_le.1 fun hle => hnot ⟨hk, hle⟩

/-- Weights without rounding, shared out. -/
theorem shares_exact (weights : List ℚ) : shares .exact weights =
    if 0 < weights.sum then weights.map fun w => w / weights.sum
    else List.replicate weights.length (1 / weights.length) := by
  have hsum : weights.foldl Arithmetic.exact.add Arithmetic.exact.empty = weights.sum :=
    List.sum_eq_foldl.symm
  unfold shares
  rw [hsum]
  change (if decide (0 < weights.sum) = true then _ else _) = _
  simp only [decide_eq_true_eq]
  rfl

section Shares

variable {weights : List ℚ} (hnonneg : ∀ w ∈ weights, 0 ≤ w)

theorem length_shares (weights : List ℚ) : (shares .exact weights).length = weights.length := by
  rw [shares_exact]
  split
  · exact List.length_map _
  · exact List.length_replicate

theorem sum_shares (hne : weights ≠ []) : (shares .exact weights).sum = 1 := by
  have hlength : (weights.length : ℚ) ≠ 0 :=
    Nat.cast_ne_zero.2 (Nat.ne_of_gt (List.length_pos_iff.2 hne))
  rw [shares_exact]
  split
  · next hpos =>
    simp only [div_eq_mul_inv]
    rw [List.sum_map_mul_right, List.map_id', mul_inv_cancel₀ hpos.ne']
  · rw [List.sum_replicate, nsmul_eq_mul, mul_one_div_cancel hlength]

include hnonneg

theorem shares_nonneg : ∀ s ∈ shares .exact weights, 0 ≤ s := by
  rw [shares_exact]
  split
  · next hpos =>
    exact List.forall_mem_map.2 fun w hw => div_nonneg (hnonneg w hw) hpos.le
  · intro s hs
    rw [List.eq_of_mem_replicate hs]
    positivity

theorem shares_le_one (hne : weights ≠ []) : ∀ s ∈ shares .exact weights, s ≤ 1 := by
  intro s hs
  rw [← sum_shares hne]
  exact List.single_le_sum (shares_nonneg hnonneg) s hs

/-- Who weighs nothing has no share, if someone weighs something. -/
theorem share_eq_zero {w : ℚ} (hw : w ∈ weights) (hpos : 0 < w) {i : Nat}
    (hi : weights[i]? = some 0) : (shares .exact weights)[i]? = some 0 := by
  have hsum : 0 < weights.sum := hpos.trans_le (List.single_le_sum hnonneg w hw)
  rw [shares_exact, if_pos hsum, List.getElem?_map, hi, Option.map_some, zero_div]

end Shares

end Wheel

/-! ## Populations that can be weighed -/

namespace Individual

variable {x : Individual}

/-- The score of the individual is no number that could be shared out. -/
def Unscorable (x : Individual) : Prop := x.fitness.adjusted.isFinite = false

/-- The score is finite and not negative. -/
def Weighable (x : Individual) : Prop :=
  x.fitness.adjusted.isFinite = true ∧ Double.le .zero x.fitness.adjusted = true

instance : Decidable x.Unscorable := inferInstanceAs (Decidable (_ = _))

instance : Decidable x.Weighable := inferInstanceAs (Decidable (_ ∧ _))

/-- The value that the individual has on the wheel. -/
def weight (x : Individual) : ℚ :=
  (Statistics.share (Fitness.rankKey x.fitness.adjusted)).value

theorem weight_of_unscorable (h : x.Unscorable) : x.weight = 0 := by
  have hkey : (Fitness.rankKey x.fitness.adjusted).isFinite = false := by
    cases hnan : x.fitness.adjusted.isNaN with
    | true =>
      rw [Fitness.rankKey, hnan, if_pos rfl]
      decide
    | false => rwa [Fitness.rankKey_eq hnan]
  rw [weight, Statistics.share, hkey, if_neg Bool.false_ne_true, Double.value_zero]

theorem weight_of_weighable (h : x.Weighable) : x.weight = x.fitness.adjusted.value := by
  rw [weight, Fitness.rankKey_eq (Double.isNaN_of_isFinite h.1), Statistics.share, if_pos h.1]

theorem weight_nonneg (h : x.Weighable ∨ x.Unscorable) : 0 ≤ x.weight := by
  rcases h with h | h
  · rw [weight_of_weighable h, ← Double.value_zero]
    exact (Double.le_iff_value_le (by decide) (Double.isNaN_of_isFinite h.1)).1 h.2
  · exact (weight_of_unscorable h).ge

/-- Who has a positive score weighs something. -/
theorem weight_pos (h : x.Weighable) (hpos : Double.lt .zero x.fitness.adjusted = true) :
    0 < x.weight := by
  rw [weight_of_weighable h, ← Double.value_zero]
  exact (Double.lt_iff_value_lt (by decide) (Double.isNaN_of_isFinite h.1)).1 hpos

end Individual

namespace Wheel

/-- What a wheel of exact shares guarantees. -/
structure Fair (pop : Population) (S : List ℚ) : Prop where
  length_eq : S.length = pop.length
  bounds : ∀ s ∈ S, 0 ≤ s ∧ s ≤ 1
  sum_eq : S.sum = 1
  unscorable : (∃ x ∈ pop, x.Weighable ∧ Double.lt .zero x.fitness.adjusted = true) →
    ∀ (i : Nat) (x : Individual), pop[i]? = some x → x.Unscorable → S[i]? = some 0
  /-- A part of the wheel selects the one index whose share it falls into. -/
  selects : ∀ part, 0 ≤ part → part < 1 → ∃ i < pop.length,
    select .exact (sums .exact S) part pop.length = i ∧ Lands S (part * S.sum) i ∧
      (∀ j, Lands S (part * S.sum) j → j = i) ∧ S[i]? ≠ some 0

theorem weights_value (pop : Population) :
    pop.weights.map Double.value = pop.map Individual.weight := by
  rw [Population.weights, Population.keys, List.map_map, List.map_map]
  rfl

theorem fair_shares {pop : Population} (hne : pop ≠ [])
    (hscores : ∀ x ∈ pop, x.Weighable ∨ x.Unscorable) :
    Fair pop (shares .exact (pop.weights.map Double.value)) := by
  rw [weights_value]
  have hweights : pop.map Individual.weight ≠ [] := mt List.map_eq_nil_iff.1 hne
  have hnonneg : ∀ w ∈ pop.map Individual.weight, 0 ≤ w :=
    List.forall_mem_map.2 fun x hx => Individual.weight_nonneg (hscores x hx)
  have hlength : (shares .exact (pop.map Individual.weight)).length = pop.length := by
    rw [length_shares, List.length_map]
  have hsum := sum_shares hweights
  have hshares := shares_nonneg hnonneg
  refine ⟨hlength, ?_, hsum, ?_, ?_⟩
  · exact fun s hs => ⟨hshares s hs, shares_le_one hnonneg hweights s hs⟩
  · rintro ⟨y, hy, hscore, hpos⟩ i x hx hun
    refine share_eq_zero hnonneg (List.mem_map_of_mem hy) ?_ ?_
    · exact Individual.weight_pos hscore hpos
    · rw [List.getElem?_map, hx, Option.map_some, Individual.weight_of_unscorable hun]
  · intro part hpart hlt
    have hlands := select_lands hshares (hsum ▸ one_pos) hpart hlt
    rw [hlength] at hlands
    exact ⟨_, hlength ▸ hlands.lt_length, rfl, hlands, fun j hj => hlands.unique hshares hj,
      hlands.ne_zero⟩

/-- Statistics and selectors make the wheel with some operations, which round the exact ones, and
spin it with draws between zero and one. -/
structure Spins (pop : Population) (A : Arithmetic Double) : Prop where
  rounded : A.Rounded
  normalized_eq : (Statistics.ofPopulation pop).normalized = shares A pop.weights
  prepare_eq : ∀ before, (Selector.roulette before).prepare pop (.ofPopulation pop) =
    .ok (.roulette (sums A (shares A pop.weights)))
  pick_eq : ∀ sums, (Selector.roulette sums).pick pop = do
    return (select A sums (← Draw.unit) pop.length, .roulette sums)
  draws : ∀ g, ∃ u g', Draw.unit g = .ok (u, g') ∧ u.isNaN = false ∧ 0 ≤ u.value ∧ u.value < 1

/-- The program spins a wheel that is fair if nothing is rounded. -/
theorem exact_wheel {pop : Population} (hne : pop ≠ [])
    (hscores : ∀ x ∈ pop, x.Weighable ∨ x.Unscorable) :
    Spins pop .double ∧ Fair pop (shares .exact (pop.weights.map Double.value)) := by
  constructor
  · exact ⟨Arithmetic.rounded_double, Statistics.normalized_eq hne, Selector.prepare_roulette hne,
      fun sums => Selector.pick_roulette sums pop, Draw.unit_value⟩
  · exact fair_shares hne hscores

/-- Nothing scores the first one, the second one has nothing, and the others have one and three. -/
def mixedScores : Population := Statistics.scored [.nan, .zero, .one, ⟨0x4008000000000000⟩]

theorem exact_wheel_mixed : mixedScores ≠ [] ∧ (∀ x ∈ mixedScores, x.Weighable ∨ x.Unscorable) ∧
    Spins mixedScores .double ∧ Fair mixedScores [0, 0, 1 / 4, 3 / 4] := by
  have hne : mixedScores ≠ [] := List.cons_ne_nil _ _
  have hscores : ∀ x ∈ mixedScores, x.Weighable ∨ x.Unscorable := by decide +kernel
  have hweights : mixedScores.weights = [.zero, .zero, .one, ⟨0x4008000000000000⟩] := by
    decide +kernel
  have hshares : shares .exact (mixedScores.weights.map Double.value) = [0, 0, 1 / 4, 3 / 4] := by
    rw [hweights, shares_exact]
    simp only [List.map_cons, List.map_nil, Double.value_zero, Double.value_one,
      Statistics.value_three]
    norm_num
  obtain ⟨hspins, hfair⟩ := exact_wheel hne hscores
  exact ⟨hne, hscores, hspins, hshares ▸ hfair⟩

end Wheel

end GeneticProgramming
