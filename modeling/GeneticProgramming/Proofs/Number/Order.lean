import GeneticProgramming.Number.Double

/-!
# The order of doubles

Doubles that are no NaN stand on a line, both zeros in one place, and negative infinity stands below
all of them.  The total order, which ranks go by, refines the line, and the greatest of many numbers
is their least bound on it.
-/

namespace GeneticProgramming

/-! ## Positions and ranks -/

namespace Layout

variable {l : Layout} {a b : Nat}

theorem position_le_of_rank_le (h : l.rank a ≤ l.rank b) : l.position a ≤ l.position b := by
  unfold rank at h
  unfold position
  cases ha : l.isNegative a <;> cases hb : l.isNegative b
  all_goals
    simp only [ha, hb, if_true, Bool.false_eq_true, if_false] at h ⊢
    omega

/-- The total order breaks ties on the number line by sign. -/
theorem rank_lt_iff : l.rank a < l.rank b ↔ l.position a < l.position b ∨
    l.position a = l.position b ∧ l.isNegative a = true ∧ l.isNegative b = false := by
  unfold rank position
  cases ha : l.isNegative a <;> cases hb : l.isNegative b
  all_goals
    simp only [if_true, if_false, Bool.false_eq_true, reduceCtorEq, and_true, and_false, or_false]
  all_goals omega

/-- The total order tells all words apart. -/
theorem eq_of_rank_eq (ha : a < 2 * l.signBit) (hb : b < 2 * l.signBit)
    (h : l.rank a = l.rank b) : a = b := by
  have hmagnitude : ∀ {n}, n < 2 * l.signBit →
      n = l.magnitude n + if l.isNegative n then l.signBit else 0 := by
    intro n hn
    unfold magnitude isNegative
    simp only [decide_eq_true_eq]
    split
    · next hle => rw [Nat.mod_eq_sub_mod hle, Nat.mod_eq_of_lt (by omega)]; omega
    · next hlt => rw [Nat.mod_eq_of_lt (by omega), Nat.add_zero]
  rw [hmagnitude ha, hmagnitude hb]
  unfold rank at h
  cases ha : l.isNegative a <;> cases hb : l.isNegative b
  all_goals
    simp only [ha, hb, if_true, Bool.false_eq_true, if_false] at h ⊢
    omega

theorem isFinite_of_position (h : double.position a = double.position 0) :
    double.isFinite a = true := by
  have hmagnitude : double.magnitude a = 0 := by
    have hzero : double.position 0 = 0 := rfl
    rw [hzero] at h
    unfold position at h
    split at h <;> omega
  rw [isFinite, hmagnitude]
  rfl

theorem neg_infinity_le_position (h : l.isNaN a = false) : -(l.infinity : Int) ≤ l.position a := by
  rw [isNaN, decide_eq_false_iff_not] at h
  unfold position
  split <;> omega

end Layout

namespace Double

variable {x y z : Double}

theorem le_iff (hx : x.isNaN = false) (hy : y.isNaN = false) :
    x.le y = true ↔ x.position ≤ y.position := by
  rw [le, hx, hy]
  exact decide_eq_true_iff

theorem lt_iff (hx : x.isNaN = false) (hy : y.isNaN = false) :
    x.lt y = true ↔ x.position < y.position := by
  rw [lt, hx, hy]
  exact decide_eq_true_iff

/-- No NaN is compared. -/
theorem isNaN_of_le (h : x.le y = true) : x.isNaN = false ∧ y.isNaN = false := by
  rw [le, Bool.and_eq_true, Bool.and_eq_true, Bool.not_eq_true', Bool.not_eq_true'] at h
  exact h.1

theorem le_refl (hx : x.isNaN = false) : x.le x = true := (le_iff hx hx).2 (Int64.le_refl _)

theorem le_trans (h : x.le y = true) (h' : y.le z = true) : x.le z = true := by
  obtain ⟨hx, hy⟩ := isNaN_of_le h
  obtain ⟨-, hz⟩ := isNaN_of_le h'
  rw [le_iff hx hy] at h
  rw [le_iff hy hz] at h'
  exact (le_iff hx hz).2 (Int64.le_trans h h')

theorem le_of_rank_le (hx : x.isNaN = false) (hy : y.isNaN = false) (h : x.rank ≤ y.rank) :
    x.le y = true := by
  rw [le_iff hx hy, Int64.le_iff_toInt_le, toInt_position, toInt_position]
  exact Layout.position_le_of_rank_le h

theorem isNaN_of_isFinite (h : x.isFinite = true) : x.isNaN = false := by
  rw [isFinite, decide_eq_true_eq] at h
  rw [isNaN, decide_eq_false_iff_not]
  exact UInt64.lt_asymm h

theorem le_of_not_lt (hx : x.isNaN = false) (hy : y.isNaN = false) (h : x.lt y = false) :
    y.le x = true := by
  rw [le_iff hy hx, ← Int64.not_lt, ← lt_iff hx hy, h]
  exact Bool.false_ne_true

theorem zero_le_of_not_lt (h : x.isFinite = true) (hlt : x.lt zero = false) :
    zero.le x = true :=
  le_of_not_lt (isNaN_of_isFinite h) (by decide) hlt

theorem isFinite_of_eq_zero (h : x.eq zero = true) : x.isFinite = true := by
  rw [eq, Bool.and_eq_true, decide_eq_true_eq] at h
  have hposition := congrArg Int64.toInt h.2
  rw [toInt_position, toInt_position] at hposition
  rw [isFinite_eq]
  exact Layout.isFinite_of_position hposition

theorem negInfinity_le (hx : x.isNaN = false) : negInfinity.le x = true := by
  rw [le_iff (by decide) hx, Int64.le_iff_toInt_le, toInt_position x]
  rw [isNaN_eq] at hx
  exact Layout.neg_infinity_le_position hx

/-! ## The total order -/

/-- Strictly below in the total order of IEEE 754: less, or negative zero beside zero. -/
def Below (x y : Double) : Prop :=
  x.lt y = true ∨ x.eq y = true ∧ x.isNegative = true ∧ y.isNegative = false

theorem rank_lt_iff_below (hx : x.isNaN = false) (hy : y.isNaN = false) :
    x.rank < y.rank ↔ x.Below y := by
  have heq : x.eq y = true ↔ x.position = y.position := by
    rw [eq, hx, hy]
    exact decide_eq_true_iff
  rw [Below, lt_iff hx hy, heq, Int64.lt_iff_toInt_lt, ← Int64.toInt_inj, toInt_position,
    toInt_position, isNegative_eq, isNegative_eq]
  exact Layout.rank_lt_iff

theorem rank_inj : x.rank = y.rank ↔ x = y := by
  constructor
  · intro h
    have hbits := Layout.eq_of_rank_eq x.bits.toNat_lt y.bits.toNat_lt h
    cases x
    cases y
    exact congrArg Double.mk (UInt64.toNat_inj.1 hbits)
  · exact fun h => congrArg rank h

/-- Only the zeros are told apart by their signs. -/
theorem Below.eq_zeros (h : x.Below y) (hle : y.le x = true) : x = negZero ∧ y = zero := by
  obtain ⟨hy, hx⟩ := isNaN_of_le hle
  rw [le_iff hy hx] at hle
  rcases h with hlt | ⟨heq, hneg, hpos⟩
  · rw [lt_iff hx hy] at hlt
    exact absurd hle (Int64.not_le.2 hlt)
  · rw [eq, Bool.and_eq_true, decide_eq_true_eq] at heq
    have hposition := congrArg Int64.toInt heq.2
    rw [toInt_position, toInt_position] at hposition
    rw [isNegative_eq] at hneg hpos
    rw [← rank_inj, ← rank_inj, rank, rank, rank, rank]
    unfold Layout.position at hposition
    unfold Layout.rank
    rw [if_pos hneg] at hposition ⊢
    rw [if_neg (Bool.eq_false_iff.1 hpos)] at hposition ⊢
    change -_ - 1 = (-1 : Int) ∧ _ = (0 : Int)
    omega

theorem eq_negInfinity_of_le (h : x.le negInfinity = true) : x = negInfinity := by
  obtain ⟨hx, hinf⟩ := isNaN_of_le h
  rw [le_iff hx hinf, Int64.le_iff_toInt_le, toInt_position, toInt_position] at h
  rw [isNaN_eq, Layout.isNaN, decide_eq_false_iff_not] at hx
  rw [← rank_inj, rank, rank]
  change Layout.double.position _ ≤ -(Layout.double.infinity : Int) at h
  change _ = -(Layout.double.infinity : Int) - 1
  have hpos : 0 < Layout.double.infinity := by decide
  unfold Layout.position at h
  unfold Layout.rank
  split at h
  · next hneg =>
    rw [if_pos hneg]
    omega
  · omega

/-- A number that is not finite is an infinity. -/
theorem eq_infinity (hx : x.isNaN = false) (hfinite : x.isFinite = false) :
    x = infinity ∨ x = negInfinity := by
  rw [isNaN_eq, Layout.isNaN, decide_eq_false_iff_not] at hx
  rw [isFinite_eq, Layout.isFinite, decide_eq_false_iff_not] at hfinite
  have hmagnitude : Layout.double.magnitude x.bits.toNat = Layout.double.infinity := by omega
  rw [← rank_inj, ← rank_inj, rank, Layout.rank, hmagnitude]
  split
  · exact .inr rfl
  · exact .inl rfl

theorem eq_infinity_of_le (h : infinity.le x = true) : x = infinity := by
  obtain ⟨-, hx⟩ := isNaN_of_le h
  cases hfinite : x.isFinite with
  | false =>
    refine (eq_infinity hx hfinite).resolve_right ?_
    rintro rfl
    exact absurd h (by decide)
  | true =>
    rw [le_iff (by decide) hx, Int64.le_iff_toInt_le, toInt_position x] at h
    rw [isFinite_eq, Layout.isFinite, decide_eq_true_iff] at hfinite
    change (Layout.double.infinity : Int) ≤ _ at h
    unfold Layout.position at h
    split at h <;> omega

/-- What lies between finite numbers is finite. -/
theorem isFinite_of_le (hx : x.isFinite = true) (hz : z.isFinite = true) (h : x.le y = true)
    (h' : y.le z = true) : y.isFinite = true := by
  obtain ⟨hxn, hyn⟩ := isNaN_of_le h
  obtain ⟨-, hzn⟩ := isNaN_of_le h'
  rw [le_iff hxn hyn, Int64.le_iff_toInt_le, toInt_position, toInt_position] at h
  rw [le_iff hyn hzn, Int64.le_iff_toInt_le, toInt_position, toInt_position] at h'
  rw [isFinite_eq, Layout.isFinite, decide_eq_true_iff] at hx hz ⊢
  unfold Layout.position at h h'
  cases hsx : Layout.double.isNegative x.bits.toNat <;>
    cases hsy : Layout.double.isNegative y.bits.toNat <;>
    cases hsz : Layout.double.isNegative z.bits.toNat
  all_goals
    simp only [hsx, hsy, hsz, if_true, Bool.false_eq_true, if_false] at h h'
    omega

/-! ## The greatest and the least of many -/

theorem isNaN_max (hx : x.isNaN = false) (hy : y.isNaN = false) : (max x y).isNaN = false := by
  unfold max
  split
  · exact hx
  · exact hy

theorem max_le_iff (hx : x.isNaN = false) (hy : y.isNaN = false) :
    (max x y).le z = true ↔ x.le z = true ∧ y.le z = true := by
  unfold max
  split
  · next hlt =>
    rw [lt_iff hy hx] at hlt
    exact ⟨fun h => ⟨h, le_trans ((le_iff hy hx).2 (Int64.le_of_lt hlt)) h⟩, fun h => h.1⟩
  · next hnot =>
    rw [lt_iff hy hx, Int64.not_lt] at hnot
    exact ⟨fun h => ⟨le_trans ((le_iff hx hy).2 hnot) h, h⟩, fun h => h.2⟩

theorem isNaN_foldl_max {xs : List Double} (hx : x.isNaN = false)
    (hxs : ∀ y ∈ xs, y.isNaN = false) : (xs.foldl max x).isNaN = false := by
  induction xs generalizing x with
  | nil => exact hx
  | cons y ys ih =>
    obtain ⟨hy, hys⟩ := List.forall_mem_cons.1 hxs
    exact ih (isNaN_max hx hy) hys

/-- The greatest of some numbers is their least bound. -/
theorem foldl_max_le_iff {xs : List Double} (hx : x.isNaN = false)
    (hxs : ∀ y ∈ xs, y.isNaN = false) :
    (xs.foldl max x).le z = true ↔ x.le z = true ∧ ∀ y ∈ xs, y.le z = true := by
  induction xs generalizing x with
  | nil => simp
  | cons y ys ih =>
    obtain ⟨hy, hys⟩ := List.forall_mem_cons.1 hxs
    rw [List.foldl_cons, ih (isNaN_max hx hy) hys, max_le_iff hx hy, and_assoc,
      List.forall_mem_cons]

/-- What is chosen from some numbers, two at a time, is one of them. -/
theorem foldl_mem {op : Double → Double → Double} (hop : ∀ x y, op x y = x ∨ op x y = y)
    (xs : List Double) (x : Double) : xs.foldl op x ∈ x :: xs := by
  induction xs generalizing x with
  | nil => exact List.mem_singleton_self x
  | cons y ys ih =>
    rcases List.mem_cons.1 (ih (op x y)) with heq | hmem
    · rw [List.foldl_cons, heq]
      rcases hop x y with hx | hy
      · rw [hx]
        exact List.mem_cons_self
      · rw [hy]
        exact List.mem_cons_of_mem x List.mem_cons_self
    · exact List.mem_cons_of_mem x (List.mem_cons_of_mem y hmem)

theorem max_choice (x y : Double) : max x y = x ∨ max x y = y := by
  unfold max
  split
  · exact .inl rfl
  · exact .inr rfl

theorem min_choice (x y : Double) : min x y = x ∨ min x y = y := by
  unfold min
  split
  · exact .inl rfl
  · exact .inr rfl

theorem isNaN_min (hx : x.isNaN = false) (hy : y.isNaN = false) : (min x y).isNaN = false := by
  unfold min
  split
  · exact hx
  · exact hy

theorem le_min_iff (hx : x.isNaN = false) (hy : y.isNaN = false) :
    z.le (min x y) = true ↔ z.le x = true ∧ z.le y = true := by
  unfold min
  split
  · next hlt =>
    rw [lt_iff hx hy] at hlt
    exact ⟨fun h => ⟨h, le_trans h ((le_iff hx hy).2 (Int64.le_of_lt hlt))⟩, fun h => h.1⟩
  · next hnot =>
    rw [lt_iff hx hy, Int64.not_lt] at hnot
    exact ⟨fun h => ⟨le_trans h ((le_iff hy hx).2 hnot), h⟩, fun h => h.2⟩

theorem isNaN_foldl_min {xs : List Double} (hx : x.isNaN = false)
    (hxs : ∀ y ∈ xs, y.isNaN = false) : (xs.foldl min x).isNaN = false := by
  induction xs generalizing x with
  | nil => exact hx
  | cons y ys ih =>
    obtain ⟨hy, hys⟩ := List.forall_mem_cons.1 hxs
    exact ih (isNaN_min hx hy) hys

/-- The least of some numbers is their greatest bound. -/
theorem le_foldl_min_iff {xs : List Double} (hx : x.isNaN = false)
    (hxs : ∀ y ∈ xs, y.isNaN = false) :
    z.le (xs.foldl min x) = true ↔ z.le x = true ∧ ∀ y ∈ xs, z.le y = true := by
  induction xs generalizing x with
  | nil => simp
  | cons y ys ih =>
    obtain ⟨hy, hys⟩ := List.forall_mem_cons.1 hxs
    rw [List.foldl_cons, ih (isNaN_min hx hy) hys, le_min_iff hx hy, and_assoc,
      List.forall_mem_cons]

end Double

end GeneticProgramming
