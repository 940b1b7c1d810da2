import GeneticProgramming.Proofs.Run.Interleaving
import Mathlib.Algebra.Order.Floor.Div
import Mathlib.Data.Int.CardIntervalMod

/-!
# Sharing a walk

Callers that run beside each other share one walk along the ranking.  Whoever calls takes the next
number off a counter, which is a machine word, and then looks up whom the number stands for; between
the two, others may call and be answered.  Numbers are handed out once each, so all that the order of
the turns decides is who is given whom: `SharedWalk.shares_out`.
-/

namespace GeneticProgramming

/-! ## Turns -/

/-- A walk along a ranking, as callers share it. -/
structure SharedWalk where
  reversed : Bool
  order : List Nat
  /-- The number that is handed out next. -/
  counter : UInt64
  /-- The callers that have taken a number and were not answered yet. -/
  held : List (Nat × UInt64)
  /-- Whom the callers were given, the last one first. -/
  given : List (Nat × Nat)
deriving DecidableEq, Repr

/-- A walk that callers start to share. -/
def Selector.shared? : Selector → Option SharedWalk
  | walk reversed order taken => some ⟨reversed, order, UInt64.ofNat taken, [], []⟩
  | _ => none

namespace SharedWalk

/-- Whom a number stands for. -/
def standsFor (order : List Nat) (number : UInt64) : Nat :=
  (order[number.toNat % order.length]?).getD 0

variable (w : SharedWalk)

/-- A turn of a caller.  To take a number and to count on is one action, which no other turn comes
between.  On a walk that was not prepared, all are given the first individual, and nothing is
counted. -/
def turn (caller : Nat) : SharedWalk :=
  match w.held.lookup caller with
  | some number => { w with
      held := w.held.erase (caller, number)
      given := (caller, standsFor w.order number) :: w.given }
  | none =>
    if w.order.isEmpty then { w with given := (caller, 0) :: w.given }
    else { w with counter := w.counter + 1, held := (caller, w.counter) :: w.held }

/-- The turns of callers, one after another. -/
def play (schedule : List Nat) : SharedWalk := schedule.foldl turn w

/-- Nobody waits for an answer. -/
def IsQuiet : Prop := w.held = []

/-- All that were given, the last one first. -/
def picks : List Nat := w.given.map Prod.snd

/-- The selector that a walk is left as. -/
def selector : Selector := .walk w.reversed w.order w.counter.toNat

/-- The number of picks that were begun. -/
def begun : Nat := w.given.length + w.held.length

variable {w} {caller : Nat} {number : UInt64}

theorem turn_of_held (h : w.held.lookup caller = some number) : w.turn caller = { w with
    held := w.held.erase (caller, number)
    given := (caller, standsFor w.order number) :: w.given } := by
  rw [turn, h]

theorem turn_of_idle (horder : w.order ≠ []) (h : w.held.lookup caller = none) :
    w.turn caller = { w with
      counter := w.counter + 1
      held := (caller, w.counter) :: w.held } := by
  rw [turn, h]
  exact if_neg (mt List.isEmpty_iff.1 horder)

/-- A walk goes on in its direction. -/
theorem reversed_play (w : SharedWalk) (schedule : List Nat) :
    (w.play schedule).reversed = w.reversed := by
  induction schedule generalizing w with
  | nil => rfl
  | cons caller schedule ih =>
    refine (ih (w.turn caller)).trans ?_
    unfold turn
    split
    · rfl
    · split <;> rfl

theorem mem_of_lookup {held : List (Nat × UInt64)} (h : held.lookup caller = some number) :
    (caller, number) ∈ held := by
  induction held with
  | nil => contradiction
  | cons x held ih =>
    obtain ⟨other, n⟩ := x
    rw [List.lookup_cons] at h
    split at h
    · next hsame =>
      injection h with h
      rw [← h, eq_of_beq hsame]
      exact List.mem_cons_self
    · exact List.mem_cons_of_mem _ (ih h)

/-! ## Numbers -/

/-- The numbers from zero on have been handed out, one for each pick that was begun, and no answer
was given or is awaited but for them. -/
structure Counts (order : List Nat) (w : SharedWalk) : Prop where
  order_eq : w.order = order
  counter_eq : w.counter = UInt64.ofNat w.begun
  perm : (w.picks ++ w.held.map fun x => standsFor order x.2).Perm
    ((List.range w.begun).map fun j => standsFor order (UInt64.ofNat j))

namespace Counts

variable {order schedule : List Nat}

/-- A turn hands out the next number, or answers for one that was handed out. -/
theorem turn (horder : order ≠ []) (h : Counts order w) (caller : Nat) :
    Counts order (w.turn caller) := by
  obtain ⟨rfl, hcounter, hperm⟩ := h
  cases hlookup : w.held.lookup caller with
  | none =>
    rw [turn_of_idle horder hlookup]
    refine ⟨rfl, ?_, ?_⟩
    · change w.counter + 1 = UInt64.ofNat (w.begun + 1)
      rw [hcounter, UInt64.ofNat_add]
      rfl
    · change (w.picks ++ standsFor w.order w.counter :: _).Perm
        ((List.range (w.begun + 1)).map _)
      rw [List.range_succ, List.map_append, List.map_singleton, hcounter]
      refine List.perm_middle.trans ((hperm.cons _).trans ?_)
      exact (List.perm_append_singleton _ _).symm
  | some number =>
    have hmem := mem_of_lookup hlookup
    rw [turn_of_held hlookup]
    have hbegun : w.given.length + 1 + (w.held.erase (caller, number)).length = w.begun := by
      have hpos := List.length_pos_of_mem hmem
      rw [List.length_erase_of_mem hmem, begun]
      omega
    refine ⟨rfl, ?_, ?_⟩
    · rw [begun, List.length_cons, hbegun]
      exact hcounter
    · rw [begun, List.length_cons, hbegun]
      refine List.Perm.trans ?_ hperm
      have hheld := (List.perm_cons_erase hmem).map fun x => standsFor w.order x.2
      exact List.perm_middle.symm.trans (hheld.symm.append_left w.picks)

theorem play (horder : order ≠ []) (h : Counts order w) (schedule : List Nat) :
    Counts order (w.play schedule) := by
  induction schedule generalizing w with
  | nil => exact h
  | cons caller schedule ih => exact ih (h.turn horder caller)

theorem counter_toNat (h : Counts order w) (hquiet : w.IsQuiet)
    (hm : w.given.length < 2 ^ 64) : w.counter.toNat = w.given.length := by
  rw [h.counter_eq, begun, hquiet]
  exact UInt64.toNat_ofNat_of_lt' hm

/-- When all have been answered, as many individuals were given as numbers were handed out. -/
theorem picks_perm (h : Counts order w) (hquiet : w.IsQuiet) :
    w.picks.Perm ((List.range w.given.length).map fun j => standsFor order (UInt64.ofNat j)) := by
  have hperm := h.perm
  rwa [begun, hquiet, List.map_nil, List.append_nil] at hperm

end Counts

/-! ## Rounds -/

theorem count_map_range {α : Type} [DecidableEq α] (f : Nat → α) (a : α) (m : Nat) :
    ((List.range m).map f).count a = Nat.count (fun j => f j = a) m := by
  induction m with
  | zero => rfl
  | succ m ih =>
    rw [List.range_succ, List.map_append, List.map_singleton, List.count_append, ih,
      List.count_singleton, Nat.count_succ]
    simp only [beq_iff_eq]

/-- Of the numbers below a machine word, so many stand for the individual at a place of the order:
one in each full round, and one more if the last round came past the place. -/
theorem count_standsFor {order : List Nat} (hnodup : order.Nodup) {m place : Nat}
    (hm : m ≤ 2 ^ 64) (hplace : place < order.length) :
    ((List.range m).map fun j => standsFor order (UInt64.ofNat j)).count order[place] =
      m / order.length + if place < m % order.length then 1 else 0 := by
  have hpos : 0 < order.length := Nat.zero_lt_of_lt hplace
  have hplaces : ∀ j < m, standsFor order (UInt64.ofNat j) = order[place] ↔
      j ≡ place [MOD order.length] := by
    intro j hj
    have hlt : j % order.length < order.length := Nat.mod_lt j hpos
    rw [standsFor, UInt64.toNat_ofNat_of_lt' (Nat.lt_of_lt_of_le hj hm),
      List.getElem?_eq_getElem hlt, Option.getD_some, hnodup.getElem_inj_iff, Nat.ModEq,
      Nat.mod_eq_of_lt hplace]
  rw [count_map_range]
  calc Nat.count (fun j => standsFor order (UInt64.ofNat j) = order[place]) m
      = Nat.count (· ≡ place [MOD order.length]) m := by
        rw [Nat.count_eq_card_filter_range, Nat.count_eq_card_filter_range]
        refine congrArg Finset.card (Finset.filter_congr fun j hj => ?_)
        exact hplaces j (Finset.mem_range.1 hj)
    _ = _ := by rw [Nat.count_modEq_card _ hpos, Nat.mod_eq_of_lt hplace]

theorem ceilDiv_of_mod_pos {m n : Nat} (hn : 0 < n) (h : 0 < m % n) : m ⌈/⌉ n = m / n + 1 := by
  have hdivide := Nat.div_add_mod m n
  have hlt := Nat.mod_lt m hn
  rw [Nat.ceilDiv_eq_add_pred_div]
  refine Nat.div_eq_of_lt_le ?_ ?_
  · rw [Nat.succ_mul, Nat.mul_comm]
    omega
  · rw [Nat.succ_mul, Nat.succ_mul, Nat.mul_comm]
    omega

/-- Picks share out an order: those that the last round came past have been given once more than the
others, and nobody else was given. -/
structure SharesOut (order picks : List Nat) : Prop where
  known : ∀ i ∈ picks, i ∈ order
  first : ∀ i ∈ order.take (picks.length % order.length),
    picks.count i = picks.length ⌈/⌉ order.length
  others : ∀ i ∈ order.drop (picks.length % order.length),
    picks.count i = picks.length / order.length

theorem Counts.sharesOut {order : List Nat} (h : Counts order w) (horder : order ≠ [])
    (hnodup : order.Nodup) (hquiet : w.IsQuiet) (hm : w.given.length ≤ 2 ^ 64) :
    SharesOut order w.picks := by
  have hpos : 0 < order.length := List.length_pos_iff.2 horder
  have hperm := h.picks_perm hquiet
  have hlength : w.given.length = w.picks.length := (List.length_map _).symm
  rw [hlength] at hperm hm
  have hcount : ∀ (place : Nat) (hplace : place < order.length), w.picks.count order[place] =
      w.picks.length / order.length + if place < w.picks.length % order.length then 1 else 0 :=
    fun place hplace => (hperm.count_eq _).trans (count_standsFor hnodup hm hplace)
  refine ⟨fun i hi => ?_, fun i hi => ?_, fun i hi => ?_⟩
  · obtain ⟨j, -, rfl⟩ := List.mem_map.1 (hperm.mem_iff.1 hi)
    rw [standsFor, List.getElem?_eq_getElem (Nat.mod_lt _ hpos)]
    exact List.getElem_mem _
  · obtain ⟨place, hplace, rfl⟩ := List.mem_take_iff_getElem.1 hi
    have hround := (lt_min_iff.1 hplace).1
    rw [hcount place _, if_pos hround, ceilDiv_of_mod_pos hpos (Nat.zero_lt_of_lt hround)]
  · obtain ⟨n, hn, rfl⟩ := List.mem_drop_iff_getElem.1 hi
    rw [hcount _ _, if_neg (Nat.not_lt.2 (Nat.le_add_right _ n)), Nat.add_zero]

/-! ## Sharing -/

/-- A caller that nobody comes between picks as if it had the walk to itself. -/
theorem pick_selector (pop : Population) (g : Random) (horder : w.order ≠ []) (hquiet : w.IsQuiet)
    (hroom : w.counter.toNat + 1 < 2 ^ 64) (caller : Nat) :
    ∃ i w', w.play [caller, caller] = w' ∧ w'.IsQuiet ∧ w'.given = (caller, i) :: w.given ∧
      w.selector.pick pop g = .ok ((i, w'.selector), g) := by
  have hidle : w.held.lookup caller = none := by
    rw [hquiet]
    rfl
  have hlt := Nat.mod_lt w.counter.toNat (List.length_pos_iff.2 horder)
  have hget := List.getElem?_eq_getElem hlt
  refine ⟨standsFor w.order w.counter, _, rfl, ?_⟩
  rw [play, List.foldl_cons, List.foldl_cons, List.foldl_nil, turn_of_idle horder hidle,
    turn_of_held List.lookup_cons_self]
  refine ⟨?_, rfl, ?_⟩
  · exact (List.erase_cons_head _ _).trans hquiet
  · have hcounter : (w.counter + 1).toNat = w.counter.toNat + 1 := by
      rw [UInt64.toNat_add]
      exact Nat.mod_eq_of_lt hroom
    rw [selector, Selector.pick]
    dsimp only
    rw [hget, standsFor, hget, selector, hcounter]
    rfl

/-- Callers share out a ranking, the fittest first or the least fit.  A preparation starts over from
the first one, wherever the walk had come to before.  Then the turns of any callers may come in any
order: when all have been answered, everybody was given as often as all others, but for those that
the last round came past, who were given once more.  A caller that nobody comes between picks as if
it had the walk to itself. -/
theorem shares_out {s s' : Selector} {pop : Population} {stats : Statistics} {order : List Nat}
    (horder : s.kind.order pop = some order) (hprepare : s.prepare pop stats = .ok s') :
    order.Perm (List.range pop.length) ∧ ∃ w, s'.shared? = some w ∧ w.order = order ∧
      w.counter = 0 ∧ w.IsQuiet ∧ w.given = [] ∧
      ∀ schedule, (w.play schedule).IsQuiet → (w.play schedule).given.length < 2 ^ 64 →
        SharesOut order (w.play schedule).picks ∧
        (∀ pop' stats', (w.play schedule).selector.prepare pop' stats' = s.prepare pop' stats') ∧
        ∀ caller g, (w.play schedule).given.length + 1 < 2 ^ 64 → ∃ i w',
          w.play (schedule ++ [caller, caller]) = w' ∧ w'.IsQuiet ∧
            w'.given = (caller, i) :: (w.play schedule).given ∧
            (w.play schedule).selector.pick pop g = .ok ((i, w'.selector), g) := by
  obtain ⟨hne, reversed, rfl⟩ := Selector.prepare_walk hprepare horder
  have hperm : order.Perm (List.range pop.length) := by
    unfold SelectionKind.order at horder
    split at horder
    · injection horder with horder
      exact horder ▸ pop.rankedIndexes_perm
    · injection horder with horder
      exact horder ▸ (List.reverse_perm _).trans pop.rankedIndexes_perm
    · contradiction
  have hstart : Counts order ⟨reversed, order, UInt64.ofNat 0, [], []⟩ :=
    ⟨rfl, rfl, List.Perm.refl _⟩
  refine ⟨hperm, _, rfl, rfl, rfl, rfl, rfl, fun schedule hquiet hm => ⟨?shares, ?again, ?alone⟩⟩
  all_goals have hcounts := hstart.play hne schedule
  case shares =>
    exact hcounts.sharesOut hne (hperm.nodup_iff.2 List.nodup_range) hquiet (Nat.le_of_lt hm)
  case again =>
    intro pop' stats'
    refine Selector.prepare_eq_of_kind ?_ pop' stats'
    rw [← Selector.kind_of_prepare hprepare, selector, reversed_play]
    cases reversed <;> rfl
  case alone =>
    intro caller g hroom
    obtain ⟨i, w', hplay, hquiet', hgiven, hpick⟩ := pick_selector pop g
      (by rwa [hcounts.order_eq]) hquiet (by rwa [hcounts.counter_toNat hquiet hm]) caller
    exact ⟨i, w', by rw [play, List.foldl_append]; exact hplay, hquiet', hgiven, hpick⟩

/-- Three individuals, each less fit than the one before. -/
def podium : Population := [⟨.empty, { Fitness.zero with adjusted := ⟨0x4008000000000000⟩ }⟩,
  ⟨.empty, { Fitness.zero with adjusted := .one }⟩, ⟨.empty, .zero⟩]

/-- Two callers overlap, and one of them calls twice more. -/
def overlapping : List Nat := [0, 1, 1, 0, 1, 1, 0, 0]

theorem shares_out_podium : ∃ w : SharedWalk, w.order = [2, 1, 0] ∧
    (Selector.ofKind .worst).kind.order podium = some w.order ∧
    (Selector.ofKind .worst).prepare podium .zero = .ok (.walk true w.order 0) ∧
    (w.play overlapping).IsQuiet ∧ (w.play overlapping).given.length < 2 ^ 64 ∧
    (w.play overlapping).given = [(0, 2), (1, 0), (0, 2), (1, 1)] ∧
    SharesOut w.order (w.play overlapping).picks := by
  have hranked : podium.rankedIndexes = [0, 1, 2] :=
    Population.rankedIndexes_of_pairwise (by decide)
  have horder : (Selector.ofKind .worst).kind.order podium = some [2, 1, 0] := by
    change some podium.rankedIndexes.reverse = _
    rw [hranked]
    rfl
  have hprepare : (Selector.ofKind .worst).prepare podium .zero =
      .ok (.walk true [2, 1, 0] 0) := by
    change Except.ok (Selector.walk true podium.rankedIndexes.reverse 0) = _
    rw [hranked]
    rfl
  obtain ⟨-, w, hshared, -, -, -, -, hall⟩ := shares_out horder hprepare
  injection hshared with hshared
  subst hshared
  have hquiet : SharedWalk.IsQuiet (SharedWalk.play ⟨true, [2, 1, 0], 0, [], []⟩ overlapping) := rfl
  exact ⟨_, rfl, horder, hprepare, hquiet, by decide, by decide,
    (hall overlapping hquiet (by decide)).1⟩

end SharedWalk

end GeneticProgramming
