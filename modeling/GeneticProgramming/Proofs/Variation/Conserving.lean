import GeneticProgramming.Proofs.Tree.Swapping
import GeneticProgramming.Proofs.Variation.Offspring

/-!
# Crossover conserves nodes

A crossover that swaps subtrees makes no node and loses none.  Each child has the nodes of its
parent, but for one subtree, which has given way to a subtree of the other parent of the same type
(`Tree.Takes`); so the two children have together what the parents have.  The main statement is
`Crossover.apply_conserves`.
-/

namespace GeneticProgramming

variable {C : Type} {p : Palette C}

namespace Tree

variable {t u v : Tree} {s s' : Subtree} {front inner inner' back : List Node}

namespace Around

theorem duplicate (h : t.Around p s front inner back) :
    t.duplicate.Around p s front inner back :=
  ⟨h.lists.duplicate, h.spells, h.start, h.stop⟩

theorem start_le_stop (h : t.Around p s front inner back) : s.start ≤ s.stop := by
  rw [h.start, h.stop]
  exact Nat.le_add_right _ _

/-- Another term of the same type between the same nodes passes the check. -/
theorem check (h : t.Around p s front inner back) (ht : t.check p = .ok ())
    (h' : u.Around p s' front inner' back) (hreturns : s'.returns = s.returns) :
    u.check p = .ok () := by
  refine check_eq_ok_iff.2 ⟨h'.lists.literalWords_eq, .inr ?_⟩
  obtain ⟨-, hempty | ⟨type, hspells⟩⟩ := check_eq_ok_iff.1 ht
  · have hnone := h.lists.records.symm.trans hempty
    have hinner : inner = [] := by
      rw [List.map_eq_nil_iff, List.append_eq_nil_iff, List.append_eq_nil_iff] at hnone
      exact hnone.1.2
    exact absurd (by rw [hinner, List.map_nil]) h.spells.ne_nil
  · have hput := (spells_of_subtree? hspells (eq_of_demand h.subtree_eq)).2.2.2
    refine ⟨type, ?_⟩
    have hrecords := hput (inner'.map Node.record) (hreturns ▸ h'.spells)
    rw [h.lists.records, h.start, h.stop, ← List.map_take, ← List.map_drop, ← List.length_append,
      List.drop_left, List.append_assoc front, List.take_left, ← List.map_append,
      ← List.map_append] at hrecords
    rwa [h'.lists.records]

end Around

/-- A tree has the nodes of `t`, but for a subtree `a` of `t`, in whose place those of a subtree `b`
of `u` are a subtree. -/
structure Takes (p : Palette C) (t : Tree) (a : Subtree) (u : Tree) (b : Subtree) (v : Tree) :
    Prop where
  lists : v.Lists (t.nodes.take a.start ++ slice u.nodes b.start b.stop ++ t.nodes.drop a.stop)
  check : v.check p = .ok ()
  subtree : v.subtree p a.start = .ok ⟨a.start, a.start + b.length, a.returns⟩

/-- What a swap puts between the nodes of a tree is taken from the other tree. -/
theorem Around.takes {a b : Subtree} (ht : t.check p = .ok ())
    (ha : t.Around p a (t.nodes.take a.start) inner (t.nodes.drop a.stop))
    (hb : u.Around p b front (slice u.nodes b.start b.stop) back) (hreturns : a.returns = b.returns)
    (hv : v.Around p ⟨(t.nodes.take a.start).length,
      (t.nodes.take a.start).length + (slice u.nodes b.start b.stop).length, b.returns⟩
      (t.nodes.take a.start) (slice u.nodes b.start b.stop) (t.nodes.drop a.stop)) :
    t.Takes p a u b v := by
  refine ⟨hv.lists, ha.check ht hv hreturns.symm, ?_⟩
  have hsubtree := hv.subtree_eq
  rwa [← ha.start, ← hb.length_eq, ← hreturns] at hsubtree

theorem around_of_contains (ht : t.check p = .ok ()) (hs : t.Contains p s) :
    t.Around p s (t.nodes.take s.start) (slice t.nodes s.start s.stop) (t.nodes.drop s.stop) := by
  obtain ⟨i, hi⟩ := hs
  exact around_of_subtree (i := i) ht (by rw [subtree, hi, demand_some])

/-- Swapping subtrees exchanges their nodes. -/
theorem swapSubtrees_takes {a b : Subtree} {out : Tree × Tree} (ht : t.check p = .ok ())
    (hu : u.check p = .ok ()) (ha : t.Contains p a) (hb : u.Contains p b)
    (hreturns : a.returns = b.returns)
    (hout : t.duplicate.swapSubtrees a u.duplicate b = .ok out) :
    t.Takes p a u b out.1 ∧ u.Takes p b t a out.2 := by
  have haround := around_of_contains ht ha
  have haround' := around_of_contains hu hb
  obtain ⟨v, w, hswap, hv, hw⟩ := haround.duplicate.swapSubtrees haround'.duplicate
  rw [hout] at hswap
  injection hswap with hswap
  subst hswap
  exact ⟨haround.takes ht haround' hreturns hv, haround'.takes hu haround hreturns.symm hw⟩

/-- Trees that take a subtree from each other have together the nodes that they had. -/
theorem Takes.perm {a b : Subtree} {w : Tree} (hv : t.Takes p a u b v) (hw : u.Takes p b t a w)
    (ha : a.start ≤ a.stop) (hb : b.start ≤ b.stop) :
    (v.nodes ++ w.nodes).Perm (t.nodes ++ u.nodes) := by
  rw [hv.lists.nodes_eq, hw.lists.nodes_eq]
  conv_rhs =>
    rw [← take_append_slice_append_drop t.nodes ha, ← take_append_slice_append_drop u.nodes hb]
  rw [List.perm_iff_count]
  intro n
  simp only [List.count_append]
  omega

end Tree

namespace Crossover

open GeneticProgramming.Tree

variable {c : Crossover} {t u : Tree} {a b : Subtree}

/-! ## Points -/

theorem findPartner_compatible (c : Crossover) (t : Tree) (a : Subtree) (u : Tree) (tries : Nat) :
    Attempt.Yields (c.findPartner p t a u tries) fun b =>
      u.Contains p b ∧ c.compatible p t a u b = true := by
  induction tries with
  | zero => exact Attempt.Yields.throw trivial
  | succ tries ih =>
    refine Attempt.Yields.bind (Attempt.Yields.draw (Yields.trivial _)) fun i _ => ?_
    refine Attempt.Yields.bind (Attempt.Yields.lift fun b hb => contains_of_subtree hb)
      fun b hb => ?_
    exact Attempt.Yields.ite (fun hcompatible => Attempt.Yields.pure ⟨hb, hcompatible⟩) fun _ => ih

theorem findPoints_compatible (c : Crossover) (t u : Tree) :
    Attempt.Yields (c.findPoints p t u) fun ab =>
      t.Contains p ab.1 ∧ u.Contains p ab.2 ∧ c.compatible p t ab.1 u ab.2 = true := by
  refine Attempt.Yields.bind (Attempt.Yields.draw (Yields.trivial _)) fun i _ => ?_
  refine Attempt.Yields.bind (Attempt.Yields.lift fun a ha => contains_of_subtree ha) fun a ha => ?_
  refine Attempt.Yields.bind (findPartner_compatible c t a u _) fun b hb => ?_
  exact Attempt.Yields.pure ⟨ha, hb.1, hb.2⟩

/-- The nodes at two points take the same argument types, in whatever order. -/
def SameArguments (p : Palette C) (t : Tree) (a : Subtree) (u : Tree) (b : Subtree) : Prop :=
  ∃ q r, t.records[a.start]? = some q ∧ u.records[b.start]? = some r ∧
    (p.argumentTypes q.operator).Perm (p.argumentTypes r.operator)

theorem SameArguments.symm (h : SameArguments p t a u b) : SameArguments p u b t a := by
  obtain ⟨q, r, hq, hr, hperm⟩ := h
  exact ⟨r, q, hr, hq, hperm.symm⟩

theorem sameArguments_of_compatible (hkind : c.kind = .onePoint) (ha : t.Contains p a)
    (hb : u.Contains p b) (h : c.compatible p t a u b = true) : SameArguments p t a u b := by
  obtain ⟨i, hi⟩ := ha
  obtain ⟨j, hj⟩ := hb
  obtain ⟨q, d, hq, hd, rfl⟩ := subtree?_eq_some hi
  obtain ⟨r, e, hr, he, rfl⟩ := subtree?_eq_some hj
  rw [compatible, hkind, Bool.and_eq_true, decide_eq_true_eq] at h
  have hmultiset := of_decide_eq_true h.2
  simp only [hq, hr, Option.bind_some, hd, he, Option.map_some, Option.some.injEq] at hmultiset
  refine ⟨q, r, hq, hr, ?_⟩
  rw [Palette.argumentTypes_eq hd, Palette.argumentTypes_eq he]
  have hleft : d.argumentMultiset.Perm d.arguments := List.mergeSort_perm _ _
  have hright : e.argumentMultiset.Perm e.arguments := List.mergeSort_perm _ _
  exact hleft.symm.trans (hmultiset ▸ hright)

/-! ## Children -/

/-- From any two trees that pass the check, a crossover of subtrees or at one point makes children
that have together the nodes of their parents, each with its literal: each child takes a subtree
from the other parent in the place of one of the same type, and at one point the nodes on top of the
two take the same argument types. -/
theorem apply_conserves (hkind : c.kind ≠ .advanced) (ht : t.check p = .ok ())
    (hu : u.check p = .ok ()) : Attempt.Yields (c.apply p t u) fun out =>
      (out.1.nodes ++ out.2.nodes).Perm (t.nodes ++ u.nodes) ∧
      ∃ a b, t.Contains p a ∧ u.Contains p b ∧ a.returns = b.returns ∧
        t.Takes p a u b out.1 ∧ u.Takes p b t a out.2 ∧
        (c.kind = .onePoint → SameArguments p t a u b) := by
  rw [apply_eq]
  refine Attempt.Yields.bind (Attempt.Yields.trivial _) fun _ _ => ?_
  refine Attempt.Yields.bind (Attempt.Yields.trivial _) fun _ _ => ?_
  refine Attempt.Yields.bind (findPoints_compatible c t u) fun ab hab => ?_
  obtain ⟨a, b⟩ := ab
  obtain ⟨ha, hb, hcompatible⟩ := hab
  have hswap : c.exchange p t u a b = liftM (t.duplicate.swapSubtrees a u.duplicate b) := by
    unfold exchange
    split
    · contradiction
    · rfl
  have hreturns := returns_eq_of_compatible hcompatible
  change Attempt.Yields (c.exchange p t u a b) _
  rw [hswap]
  refine Attempt.Yields.lift fun out hout => ?_
  obtain ⟨hv, hw⟩ := swapSubtrees_takes ht hu ha hb hreturns hout
  have hperm := hv.perm hw (around_of_contains ht ha).start_le_stop
    (around_of_contains hu hb).start_le_stop
  exact ⟨hperm, a, b, ha, hb, hreturns, hv, hw,
    fun hpoint => sameArguments_of_compatible hpoint ha hb hcompatible⟩

/-! ### A byte that is swapped -/

open Mutation (choices chosen)

/-- Terminals are swapped. -/
def swapping : Crossover where
  kind := .onePoint
  tries := 3
  minTreeSize := 0
  points := ⟨.one, false, .one⟩
  replacement := ⟨0, 2⟩
  generator := .full

theorem apply_conserves_seven : swapping.kind ≠ .advanced ∧ chosen.check choices = .ok () ∧
    seven.check choices = .ok () ∧ ∃ out g,
      (swapping.apply choices chosen seven).run (.ofSeed 0) = .ok (.ok out, g) ∧
      (out.1.nodes ++ out.2.nodes).Perm (chosen.nodes ++ seven.nodes) ∧
      ∃ a b, chosen.Contains choices a ∧ seven.Contains choices b ∧ a.returns = b.returns ∧
        chosen.Takes choices a seven b out.1 ∧ seven.Takes choices b chosen a out.2 ∧
        SameArguments choices chosen a seven b := by
  have hkind : swapping.kind ≠ .advanced := by decide
  have hchosen : chosen.check choices = .ok () := rfl
  have hseven : seven.check choices = .ok () := rfl
  obtain ⟨out, g, hrun⟩ := Attempt.exists_of_succeeds
    (x := swapping.apply choices chosen seven) (g := .ofSeed 0) (by decide +kernel)
  obtain ⟨hperm, a, b, ha, hb, hreturns, hv, hw, hpoint⟩ :=
    apply_conserves hkind hchosen hseven (.ofSeed 0) (.ok out) g hrun
  exact ⟨hkind, hchosen, hseven, out, g, hrun, hperm, a, b, ha, hb, hreturns, hv, hw, hpoint rfl⟩

end Crossover

end GeneticProgramming
