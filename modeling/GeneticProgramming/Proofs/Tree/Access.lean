import GeneticProgramming.Proofs.Tree.Genuine
import GeneticProgramming.Proofs.Tree.Shape

/-!
# Requests that trees serve

A well-typed tree has a subtree and all arguments at each of its indices, and its subtrees can be
copied, taken out and replaced.
-/

namespace GeneticProgramming

variable {C : Type} {p : Palette C}

/-- Where one of two results that agree is a value, so is the other. -/
theorem Agree.exists_ok {ε α β : Type} {R : α → β → Prop} {x : Except ε α} {y : Except ε β} {b : β}
    (h : Agree R x y) (hy : y = .ok b) : ∃ a, x = .ok a ∧ R a b := by
  rcases h with ⟨a, b', hx, hy', hab⟩ | ⟨e, -, hy'⟩
  · rw [hy] at hy'
    injection hy' with hy'
    exact ⟨a, hx, hy' ▸ hab⟩
  · rw [hy] at hy'
    contradiction

namespace Tree

variable {t other : Tree} {ts : List TypeId} {ns ms : List Node} {s : Subtree} {i : Nat}

theorem exists_subtree (h : Spells p ts t.records) (hi : i < t.size) :
    ∃ s, t.subtree p i = .ok s := by
  obtain ⟨us, hus, -⟩ := h.drop (Nat.le_of_lt hi)
  cases us with
  | nil =>
    rw [List.drop_eq_getElem_cons hi] at hus
    contradiction
  | cons type us =>
    obtain ⟨s, hs, -⟩ := exists_first hus
    exact ⟨s, by rw [subtree, hs, demand_some]⟩

/-- The arguments of a node of a well-typed tree return the types that its operator takes. -/
theorem map_returns_eq (h : Spells p ts t.records) {r : Record} (hr : t.records[i]? = some r) :
    (t.arguments p i).map Subtree.returns = p.argumentTypes r.operator := by
  obtain ⟨hi, hget⟩ := List.getElem?_eq_some_iff.1 hr
  obtain ⟨us, hus, -⟩ := h.drop (Nat.le_of_lt hi)
  rw [List.drop_eq_getElem_cons hi, hget] at hus
  cases hus with
  | cons he hrest => rw [map_returns_arguments hr he hrest rfl, Palette.argumentTypes_eq he]

/-- A node of a well-typed tree has as many arguments as its operator takes. -/
theorem length_arguments (h : Spells p ts t.records) (hi : i < t.size) :
    (t.arguments p i).length = t.arityAt p i := by
  have hr : t.records[i]? = some t.records[i] := List.getElem?_eq_getElem hi
  have hmap := congrArg List.length (map_returns_eq h hr)
  rw [List.length_map, Palette.length_argumentTypes] at hmap
  rw [hmap, arityAt, hr]
  rfl

theorem children_eq (h : Spells p ts t.records) (hi : i < t.size) :
    t.children p i = .ok (t.arguments p i) := by
  have hr : t.records[i]? = some t.records[i] := List.getElem?_eq_getElem hi
  have hall : ¬ (t.arguments p i).length < t.arityAt p i := by
    rw [length_arguments h hi]
    exact Nat.lt_irrefl _
  simp only [children, hr, demand_some, bind, Except.bind, hall, if_false, pure, Except.pure]

theorem range_eq {start stop : Nat} (hle : start ≤ stop) (hstop : stop ≤ ns.length) :
    range ns start stop = .ok (slice ns start stop) := if_pos ⟨hle, hstop⟩

theorem replaceRange_eq {start stop : Nat} (hle : start ≤ stop) (hstop : stop ≤ ns.length) :
    replaceRange ns start stop ms = .ok (ns.take start ++ ms ++ ns.drop stop) :=
  if_pos ⟨hle, hstop⟩

theorem exchangeRanges_eq {a b : Subtree} (ha : a.start ≤ a.stop) (hastop : a.stop ≤ ns.length)
    (hb : b.start ≤ b.stop) (hbstop : b.stop ≤ ms.length) : exchangeRanges ns ms a b =
      .ok (ns.take a.start ++ slice ms b.start b.stop ++ ns.drop a.stop,
        ms.take b.start ++ slice ns a.start a.stop ++ ms.drop b.stop) := by
  rw [exchangeRanges, range_eq ha hastop, range_eq hb hbstop]
  simp only [bind, Except.bind, replaceRange_eq ha hastop, replaceRange_eq hb hbstop]
  rfl

theorem eq_of_replaceRange {out : List Node} {start stop : Nat}
    (h : replaceRange ns start stop ms = .ok out) :
    out = ns.take start ++ ms ++ ns.drop stop := by
  unfold replaceRange at h
  split at h
  · injection h with h
    exact h.symm
  · contradiction

namespace Lists

variable (h : t.Lists ns) (ho : other.Lists ms) (hle : s.start ≤ s.stop) (hstop : s.stop ≤ t.size)
include h ho hle hstop

/-- A copy of a subtree goes on another tree. -/
theorem exists_copySubtree : ∃ u, t.copySubtree s other = .ok u ∧
    ListsAfter other u (ms ++ slice ns s.start s.stop) := by
  rw [h.size_eq] at hstop
  refine (h.copySubtree_agree ho s).exists_ok ?_
  rw [range_eq hle hstop]
  rfl

/-- Another tree goes in the place of a subtree. -/
theorem exists_replaceSubtree : ∃ u, t.replaceSubtree s other = .ok u ∧
    ListsAfter t u (ns.take s.start ++ ms ++ ns.drop s.stop) := by
  rw [h.size_eq] at hstop
  exact (h.replaceSubtree_agree ho s).exists_ok (replaceRange_eq hle hstop)

end Lists

end Tree

end GeneticProgramming
