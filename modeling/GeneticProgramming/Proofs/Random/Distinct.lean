import Mathlib
import GeneticProgramming.Proofs.Faults

/-!
# Distinct numbers

A subset is drawn as a list of distinct numbers, as many as were asked for, whichever way it is
drawn: `Draw.subset_distinct`.  A shuffle only moves numbers about.  Where numbers are drawn one
after another, the numbers so far are distinct and below a bound, and each round adds another one.
-/

namespace GeneticProgramming

/-- A fold over consecutive numbers, each step of which takes what holds at its number to what holds
at the next. -/
theorem Yields.foldlM_range' {σ ε α : Type} {step : α → Nat → StateT σ (Except ε) α}
    {P : Nat → α → Prop} {first amount : Nat} {a : α} (h : P first a)
    (hstep : ∀ i, i < first + amount → ∀ b, P i b → Yields (step b i) (P (i + 1))) :
    Yields ((List.range' first amount).foldlM step a) (P (first + amount)) := by
  induction amount generalizing first a with
  | zero => exact Yields.pure h
  | succ amount ih =>
    have hnext : first + (amount + 1) = first + 1 + amount := by omega
    rw [List.range'_succ, List.foldlM_cons, hnext]
    refine Yields.bind (hstep first (by omega) a h) fun b hb => ?_
    exact ih hb fun i hi => hstep i (by omega)

namespace Draw

/-- So many distinct numbers below a bound. -/
structure Distinct (bound amount : Nat) (xs : List Nat) : Prop where
  length : xs.length = amount
  nodup : xs.Nodup
  lt : ∀ x ∈ xs, x < bound

variable {bound amount length : Nat} {xs ys : List Nat}

namespace Distinct

theorem nil (bound : Nat) : Distinct bound 0 [] :=
  ⟨rfl, List.nodup_nil, fun _ hx => absurd hx List.not_mem_nil⟩

theorem of_perm (h : Distinct bound amount xs) (hperm : ys.Perm xs) : Distinct bound amount ys :=
  ⟨hperm.length_eq.trans h.length, hperm.nodup_iff.2 h.nodup,
    fun y hy => h.lt y (hperm.mem_iff.1 hy)⟩

theorem cons {x : Nat} (h : Distinct bound amount xs) (hnew : x ∉ xs) (hx : x < bound) :
    Distinct bound (amount + 1) (x :: xs) :=
  ⟨congrArg (· + 1) h.length, List.nodup_cons.2 ⟨hnew, h.nodup⟩,
    List.forall_mem_cons.2 ⟨hx, h.lt⟩⟩

theorem mono {bound' : Nat} (h : Distinct bound amount xs) (hle : bound ≤ bound') :
    Distinct bound' amount xs :=
  ⟨h.length, h.nodup, fun x hx => Nat.lt_of_lt_of_le (h.lt x hx) hle⟩

/-- The bound itself is another number, below the next bound. -/
theorem cons_bound (h : Distinct bound amount xs) :
    Distinct (bound + 1) (amount + 1) (bound :: xs) :=
  (h.mono (Nat.le_succ bound)).cons (fun hmem => Nat.lt_irrefl _ (h.lt bound hmem))
    (Nat.lt_succ_self bound)

/-- As many distinct numbers as there are are all of them. -/
theorem perm_range (h : Distinct bound bound xs) : xs.Perm (List.range bound) := by
  have hsub : xs.Subperm (List.range bound) :=
    List.subperm_of_subset h.nodup fun x hx => List.mem_range.2 (h.lt x hx)
  exact hsub.perm_of_length_le (by rw [h.length, List.length_range])

/-- Fewer numbers than there are leave one out. -/
theorem exists_not_mem (h : Distinct bound amount xs) (hlt : amount < bound) :
    ∃ x < bound, x ∉ xs := by
  by_contra hall
  push Not at hall
  have hsub : (List.range bound).Subperm xs :=
    List.subperm_of_subset List.nodup_range fun x hx => hall x (List.mem_range.1 hx)
  have hle := hsub.length_le
  rw [List.length_range, h.length] at hle
  omega

end Distinct

/-! ## Shuffles -/

theorem exchange_perm (xs : Array Nat) (i j : Nat) :
    (exchange xs i j).toList.Perm xs.toList := by
  unfold exchange
  split
  · next a b ha hb =>
    rw [← Array.getElem?_toList] at ha hb
    obtain ⟨hi, rfl⟩ := List.getElem?_eq_some_iff.1 ha
    obtain ⟨hj, rfl⟩ := List.getElem?_eq_some_iff.1 hb
    rw [Array.toList_setIfInBounds, Array.toList_setIfInBounds]
    exact List.set_set_perm hi hj
  · exact List.Perm.refl _

theorem shuffled_distinct (h : amount ≤ length) :
    Yields (shuffled length amount) (Distinct length amount) := by
  refine Yields.bind (P := fun xs => xs.toList.Perm (List.range length)) ?_ fun xs hxs => ?_
  · refine Yields.foldlM _ (List.Perm.refl _) fun i _ xs hxs => ?_
    exact Yields.bind (Yields.trivial _) fun j _ => Yields.pure ((exchange_perm xs _ _).trans hxs)
  · refine Yields.pure ⟨?_, ?_, fun x hx => ?_⟩
    · rw [List.length_take, hxs.length_eq, List.length_range, Nat.min_eq_left h]
    · exact (hxs.nodup_iff.2 List.nodup_range).sublist (List.take_sublist _ _)
    · exact List.mem_range.1 (hxs.mem_iff.1 (List.mem_of_mem_take hx))

theorem shuffleBack_perm (xs : List Nat) : Yields (shuffleBack xs) fun ys => ys.Perm xs := by
  refine Yields.bind (P := fun ys => ys.toList.Perm xs) ?_ fun ys hys => Yields.pure hys
  refine Yields.foldlM _ (List.Perm.refl _) fun i _ ys hys => ?_
  exact Yields.bind (Yields.trivial _) fun j _ => Yields.pure ((exchange_perm ys _ _).trans hys)

/-! ## One number after another -/

/-- Rounds that each add one number, and let the bound grow by one, add as many as there are. -/
theorem rounds_distinct {step : List Nat → Nat → Draw (List Nat)} (rest amount : Nat)
    (hstep : ∀ j n xs, Distinct j n xs → Yields (step xs j) (Distinct (j + 1) (n + 1))) :
    Yields ((List.range' rest amount).foldlM step []) (Distinct (rest + amount) amount) := by
  have hall : Yields ((List.range' rest amount).foldlM step [])
      fun xs => ∃ n, rest + amount = rest + n ∧ Distinct (rest + amount) n xs := by
    refine Yields.foldlM_range' (P := fun j xs => ∃ n, j = rest + n ∧ Distinct j n xs)
      ⟨0, rfl, .nil rest⟩ ?_
    rintro j - xs ⟨n, hj, hxs⟩
    exact (hstep j n xs hxs).mono fun ys hys => ⟨n + 1, by omega, hys⟩
  refine hall.mono fun xs ⟨n, hn, hxs⟩ => ?_
  rw [Nat.add_left_cancel hn]
  exact hn ▸ hxs

theorem floyd_distinct (h : amount ≤ length) :
    Yields (floyd length amount) (Distinct length amount) := by
  obtain ⟨rest, rfl⟩ := Nat.exists_eq_add_of_le' h
  have hjs : (List.range (rest + amount)).drop (rest + amount - amount) =
      List.range' rest amount := by
    rw [Nat.add_sub_cancel, List.range_eq_range', List.drop_range']
    congr 1 <;> omega
  unfold floyd
  dsimp only
  rw [hjs]
  refine Yields.ite (fun _ => ?_) fun _ => ?_
  · refine rounds_distinct rest amount fun j n xs hxs => ?_
    refine Yields.bind (belowHalf_yields (j + 1)) fun t ht => Yields.pure ?_
    split
    · next place hplace =>
      obtain ⟨hlt, -⟩ := List.idxOf?_eq_some_iff.1 hplace
      exact hxs.cons_bound.of_perm (List.perm_insertIdx j xs (Nat.le_of_lt hlt))
    · next hplace =>
      have hnew := List.idxOf?_eq_none_iff.1 hplace
      exact ((hxs.mono (Nat.le_succ j)).cons hnew ht).of_perm (List.perm_append_singleton t xs)
  · refine Yields.bind (rounds_distinct rest amount fun j n xs hxs => ?_) fun drawn hdrawn => ?_
    · refine Yields.bind (belowHalf_yields (j + 1)) fun t ht => Yields.pure ?_
      split
      · exact hxs.cons_bound
      · next hnew =>
        exact (hxs.mono (Nat.le_succ j)).cons (fun hmem => hnew (List.contains_iff_mem.2 hmem)) ht
    · exact (shuffleBack_perm _).mono fun ys hys =>
        hdrawn.of_perm (hys.trans (List.reverse_perm drawn))

theorem untaken_distinct (h : Distinct length amount xs) (hlt : amount < length) (tries : Nat) :
    Yields (untaken length xs tries) fun n => n < length ∧ n ∉ xs := by
  induction tries with
  | zero =>
    obtain ⟨x, hx, hnew⟩ := h.exists_not_mem hlt
    refine Yields.pure ?_
    cases hfind : (List.range length).find? fun n => !xs.contains n with
    | none =>
      have hall := List.find?_eq_none.1 hfind x (List.mem_range.2 hx)
      simp [hnew] at hall
    | some n =>
      have hn := List.find?_some hfind
      refine ⟨List.mem_range.1 (List.mem_of_find?_eq_some hfind), ?_⟩
      simpa using hn
  | succ tries ih =>
    refine Yields.bind (belowHalfEagerly_yields length) fun n hn => ?_
    refine Yields.ite (fun _ => ih) fun hnew => Yields.pure ⟨hn, fun hmem => ?_⟩
    exact hnew (List.contains_iff_mem.2 hmem)

theorem rejecting_distinct (h : amount ≤ length) :
    Yields (rejecting length amount) (Distinct length amount) := by
  refine Yields.bind (P := Distinct length amount) ?_ fun drawn hdrawn =>
    Yields.pure (hdrawn.of_perm (List.reverse_perm drawn))
  have hall : Yields ((List.range' 0 amount).foldlM
      (fun taken _ => return (← untaken length taken attempts) :: taken) [])
      (Distinct length (0 + amount)) := by
    refine Yields.foldlM_range' (P := Distinct length) (.nil length) ?_
    intro i hi taken htaken
    refine Yields.bind (untaken_distinct htaken (by omega) attempts) ?_
    rintro n ⟨hlt, hnew⟩
    exact Yields.pure (htaken.cons hnew hlt)
  rw [List.range_eq_range']
  rwa [Nat.zero_add] at hall

theorem subset_distinct (length amount : Nat) :
    Yields (subset length amount) (Distinct length amount) := by
  refine Yields.ite (fun _ => Yields.throw _) fun h => ?_
  have hle := Nat.le_of_not_lt h
  cases subsetRule length amount with
  | shuffle => exact shuffled_distinct hle
  | floyd => exact floyd_distinct hle
  | rejection => exact rejecting_distinct hle

end Draw

end GeneticProgramming
