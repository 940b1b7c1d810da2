import GeneticProgramming.Proofs.Variation.Total

/-!
# What generators append

The nodes that a tree has stay as they are when a generator goes on behind them: `Tree.Extends`.
What it appends is one complete tree, which can be taken out and passes its check: `Tree.Gains`.
The main statement, `Generator.generate_total`, says that a generator ends so from any stream, and
that it refuses a type of no operator before it appends anything, with the tree as it was.
-/

namespace GeneticProgramming

variable {C : Type} {p : Palette C}

namespace Tree

variable {t u v : Tree} {type : TypeId}

/-! ## Trees that go on from others -/

/-- A sound tree that has the nodes of another one, and maybe more behind them. -/
structure Extends (p : Palette C) (t u : Tree) : Prop where
  sound : u.Sound p
  nodes : t.nodes <+: u.nodes

namespace Extends

theorem trans (h : t.Extends p u) (h' : u.Extends p v) : t.Extends p v :=
  ⟨h'.sound, h.nodes.trans h'.nodes⟩

theorem records (h : t.Extends p u) (ht : t.Sound p) : t.records <+: u.records := by
  rw [ht.1.lists.records, h.sound.1.lists.records]
  exact h.nodes.map Node.record

theorem contents (h : t.Extends p u) (ht : t.Sound p) : t.values.contents <+: u.values.contents := by
  obtain ⟨ns, hns⟩ := h.nodes
  rw [ht.1.lists.contents, h.sound.1.lists.contents, ← hns, Node.literals_append,
    List.flatten_append]
  exact List.prefix_append _ _

end Extends

theorem push_extends (h : t.Sound p) (id : OperatorId) : Yields (t.push p id) (t.Extends p) := by
  refine (Yields.and (h.push id) ?_).mono fun u hu => ⟨hu.1, hu.2⟩
  rw [push_eq]
  refine Yields.bind (Yields.lift fun e he => eq_of_demand he) fun e he => ?_
  refine Yields.bind (Palette.produce_yields he) fun v hv => Yields.pure ?_
  obtain ⟨n, -, hafter⟩ := h.1.lists.grown hv id
  rw [hafter.1.nodes_eq]
  exact List.prefix_append _ _

/-- A tree with one complete tree of a type behind its nodes. -/
structure Gains (p : Palette C) (type : TypeId) (t u : Tree) : Prop where
  sound : u.Sound p
  records : t.records <+: u.records
  contents : t.values.contents <+: u.values.contents
  whole : ∃ s v, u.subtree? p t.size = some s ∧ s.stop = u.size ∧ s.returns = type ∧
    u.extractSubtree s = .ok v ∧ v.nodes = u.nodes.drop t.size ∧ v.check p = .ok () ∧
    v.rootType? p = some type

theorem Extends.gains (h : t.Extends p u) (ht : t.Sound p) (htypes : t.AppendsTypes p [type] u) :
    t.Gains p type u := by
  refine ⟨h.sound, h.records ht, h.contents ht, ?_⟩
  obtain ⟨-, rs, hrs, hspells⟩ := htypes
  have hdrop : u.records.drop t.size = rs := by rw [hrs, Tree.size, List.drop_left]
  obtain ⟨s, hs, hstart, hreturns, hlt, hstop, hslice, hbehind⟩ :=
    exists_first (p := p) (t := u) (by rwa [hdrop])
  have hend : s.stop = u.size := Nat.le_antisymm hstop (List.drop_eq_nil_iff.1 hbehind.eq_nil)
  obtain ⟨v, hv, hafter⟩ :=
    h.sound.1.lists.exists_copySubtree lists_empty (Nat.le_of_lt hlt) hstop
  -- the subtree is all that is spelled out behind the old nodes, so taken out it is a tree
  have hproper : v.Proper p type := by
    refine ⟨h.sound.copySubtree .empty hv, ?_⟩
    rw [hafter.1.records, List.nil_append, List.map_drop, List.map_take,
      ← h.sound.1.lists.records]
    exact hslice
  refine ⟨s, v, hs, hend, hreturns, hv, ?_, hproper.check, rootType?_eq hproper.spells⟩
  rw [hafter.1.nodes_eq, List.nil_append, slice, hstart, hend, ← u.length_nodes, List.take_length]

/-- A subtree is copied behind a tree as one complete tree. -/
theorem Proper.exists_gains {s : Subtree} {other : TypeId} (h : t.Proper p other)
    (hs : t.Contains p s) (hu : u.Sound p) : ∃ v, t.copySubtree s u = .ok v ∧
      u.Gains p s.returns v ∧ v.nodes = u.nodes ++ slice t.nodes s.start s.stop := by
  obtain ⟨hlt, hstop⟩ := h.bounds hs
  obtain ⟨v, hv, hafter⟩ :=
    h.sound.1.lists.exists_copySubtree hu.1.lists (Nat.le_of_lt hlt) hstop
  have htypes := copySubtree_appends h hs hu hv
  have hnodes := hafter.1.nodes_eq
  have hextends : u.Extends p v := ⟨htypes.1, hnodes ▸ List.prefix_append _ _⟩
  exact ⟨v, hv, hextends.gains hu htypes, hnodes⟩

end Tree

namespace Generator

open GeneticProgramming.Tree

variable {g : Generator} {w : DepthWindow} {type : TypeId} {t : Tree}

/-! ## Known types -/

theorem appendTree_extends (g : Generator) (w : DepthWindow) (levels : Nat) (type : TypeId)
    (depth : Nat) (ht : t.Sound p) :
    Attempt.Yields ((g.appendTree p w levels type depth).kept t) (t.Extends p) := by
  induction levels generalizing type depth t with
  | zero => exact Attempt.Yields.throw trivial
  | succ levels ih =>
    rw [kept_appendTree]
    refine Attempt.Yields.bind (Attempt.Yields.trivial _) fun id _ => ?_
    refine Attempt.Yields.bind (Attempt.Yields.draw (push_extends ht id)) fun u hu => ?_
    refine Attempt.Yields.foldlM (I := fun _ v => t.Extends p v) (p.argumentTypes id) hu
      fun a rest v hv => ?_
    exact (ih a (depth + 1) hv.sound).mono (fun _ h => hv.trans h) fun _ h => h

theorem extend_gains (hp : p.IsBuilt) (g : Generator) (w : DepthWindow)
    (htype : type < p.types.count) (ht : t.Sound p) :
    Attempt.Yields (g.extend p w type t) (t.Gains p type) fun _ => False :=
  ((extend_appends hp g w htype ht).and (appendTree_extends g w _ type 0 ht)).mono
    (fun _ hu => hu.2.gains ht hu.1) fun _ h => h

/-! ## Other types -/

section

variable (hp : p.IsBuilt) (htype : p.types.count ≤ type)
include hp htype

theorem terminals_eq_nil : p.terminals type = [] := by
  refine List.eq_nil_iff_forall_not_mem.2 fun id hid => ?_
  obtain ⟨e, he, rfl, -⟩ := Palette.mem_terminals.1 hid
  exact Nat.not_lt.2 htype (hp.returns_lt he)

theorem nonTerminals_eq_nil : p.nonTerminals type = [] := by
  refine List.eq_nil_iff_forall_not_mem.2 fun id hid => ?_
  obtain ⟨e, he, rfl, -⟩ := Palette.mem_nonTerminals.1 hid
  exact Nat.not_lt.2 htype (hp.returns_lt he)

theorem terminal_eq_throw : terminal p type = throw (.noValidType (some type)) := by
  rw [terminal, terminals_eq_nil hp htype, closing, nonTerminals_eq_nil hp htype]
  rfl

theorem nonTerminal_eq_throw (depth : Nat) :
    nonTerminal p w type depth = throw (.noValidType (some type)) := by
  rw [nonTerminal, nonTerminals_eq_nil hp htype, terminal_eq_throw hp htype]
  rfl

theorem operator_eq_throw (g : Generator) (w : DepthWindow) :
    g.operator p w type 0 = (do
      let _ ← g.wantsTerminal w 0
      throw (.noValidType (some type))) := by
  rw [operator]
  simp only [terminal_eq_throw hp htype, nonTerminal_eq_throw hp htype, ite_self]

/-- No node is pushed for a type of no operator. -/
theorem generate_eq_refusal (g : Generator) (w : DepthWindow) (t : Tree) :
    g.generate p w type t = (do
      let _ ← g.wantsTerminal w 0
      return (.error (.noValidType (some type)), t)) := by
  rw [generate, growth, appendTree, Growth.run_choose, operator_eq_throw hp htype,
    ExceptT.run_bind, bind_assoc]
  change (ExceptT.lift (g.wantsTerminal w 0)).run >>= _ = _
  rw [ExceptT.run_lift, bind_map_left]
  exact bind_congr fun wanted => rfl

/-- Whatever is drawn, the tree stays as it is. -/
theorem exists_refusal (hg : g.Sane) (w : DepthWindow) (t : Tree) (r : Random) :
    ∃ r', (g.generate p w type t).run r =
      .ok ((.error (.noValidType (some type)), t), r') := by
  rw [generate_eq_refusal hp htype]
  obtain ⟨wanted, r', hwanted, -⟩ :=
    (wantsTerminal_faults hg w 0 fun _ => False).exists_eq_ok (Yields.trivial _) r
  exact ⟨r', bind_apply_of_ok hwanted⟩

end

/-! ## Generators -/

theorem extend_eq_ok_iff {u : Tree} {r r' : Random} :
    (g.extend p w type t).run r = .ok (.ok u, r') ↔
      (g.generate p w type t).run r = .ok ((.ok (), u), r') := Growth.run_kept_eq_ok_iff

theorem extend_eq_fault_iff {f : Fault} {r : Random} : (g.extend p w type t).run r = .error f ↔
    (g.generate p w type t).run r = .error f := Growth.run_kept_eq_fault_iff

/-- A generator that is never refused extends the tree in place. -/
theorem generate_of_extend {P : Tree → Prop} {F : Fault → Prop}
    (hyields : Attempt.Yields (g.extend p w type t) P fun _ => False)
    (hfaults : Attempt.FaultsOnly (g.extend p w type t) F) (r : Random) :
    (∃ u r', (g.generate p w type t).run r = .ok ((.ok (), u), r') ∧ P u) ∨
      ∃ f, (g.generate p w type t).run r = .error f ∧ F f := by
  rcases hyields.cases hfaults r with ⟨u, r', hrun, hu⟩ | ⟨f, hrun, hf⟩
  · exact .inl ⟨u, r', extend_eq_ok_iff.1 hrun, hu⟩
  · exact .inr ⟨f, extend_eq_fault_iff.1 hrun, hf⟩

/-- From any stream a generator appends a tree of a type, or refuses a type of no operator, or ends
in a fault. -/
theorem extend_cases (hp : p.IsBuilt) (g : Generator) (w : DepthWindow) (type : TypeId)
    (ht : t.Sound p) (r : Random) :
    (∃ u r', (g.extend p w type t).run r = .ok (.ok u, r') ∧ t.Gains p type u) ∨
      (∃ r', (g.extend p w type t).run r = .ok (.error (.noValidType (some type)), r') ∧
        p.types.count ≤ type) ∨
      ∃ f, (g.extend p w type t).run r = .error f ∧ (g.Sane → p.LiteralFault f) := by
  rcases Nat.lt_or_ge type p.types.count with htype | htype
  · have hfaults (r : Random) (f : Fault) (hrun : (g.extend p w type t).run r = .error f)
        (hg : g.Sane) : p.LiteralFault f := extend_faults hp hg w htype t r f hrun
    exact ((extend_gains hp g w htype ht).cases hfaults r).imp_right .inr
  · refine .inr ?_
    have hrefusal := generate_eq_refusal hp htype g w t
    cases hwanted : g.wantsTerminal w 0 r with
    | error f =>
      refine .inr ⟨f, extend_eq_fault_iff.2 ?_, fun hg => ?_⟩
      · rw [hrefusal]
        exact bind_apply_of_error hwanted
      · exact (wantsTerminal_faults hg w 0 (fun _ => False) r f hwanted).elim
    | ok out =>
      refine .inl ⟨out.2, ?_, htype⟩
      have hrun : (g.generate p w type t).run r =
          .ok ((.error (.noValidType (some type)), t), out.2) := by
        rw [hrefusal]
        exact bind_apply_of_ok hwanted
      exact Growth.run_kept.trans (by rw [← generate, hrun])

/-- From any stream a generator appends one tree of a type of the palette, unless the draw of a
literal ends in a fault.  It refuses any other type and leaves the tree as it is, having drawn at
most whether its root would be a terminal.  A stream is read up to `Draw.attempts`. -/
theorem generate_total (hp : p.IsBuilt) (hg : g.Sane) (w : DepthWindow) (ht : t.Made p)
    (type : TypeId) :
    (type < p.types.count → ∀ r,
      (∃ u r', (g.generate p w type t).run r = .ok ((.ok (), u), r') ∧ t.Gains p type u) ∨
        ∃ f, (g.generate p w type t).run r = .error f ∧ p.LiteralFault f) ∧
    (p.types.count ≤ type →
      g.generate p w type t = (do
        let _ ← g.wantsTerminal w 0
        return (.error (.noValidType (some type)), t)) ∧
      ∀ r, ∃ r', (g.generate p w type t).run r =
        .ok ((.error (.noValidType (some type)), t), r')) := by
  refine ⟨fun htype r => ?_, fun htype => ⟨?_, ?_⟩⟩
  · exact generate_of_extend (extend_gains hp g w htype ht.sound) (extend_faults hp hg w htype t) r
  · exact generate_eq_refusal hp htype g w t
  · exact exists_refusal hp htype hg w t

/-! ### Even chances -/

open Mutation (choices chosen isBuilt_choices made_chosen)

/-- A terminal is as likely as not. -/
def even : Generator := .grow ⟨0x3FE0000000000000⟩

theorem sane_even : even.Sane := rfl

/-- The least depth that is asked for lies beyond the greatest one. -/
def crossed : DepthWindow := ⟨3, 1⟩

theorem generate_total_even : choices.IsBuilt ∧ even.Sane ∧ chosen.Made choices ∧
    (1 < choices.types.count ∧ ∀ r,
      (∃ u r', (even.generate choices crossed 1 chosen).run r = .ok ((.ok (), u), r') ∧
          chosen.Gains choices 1 u) ∨
        ∃ f, (even.generate choices crossed 1 chosen).run r = .error f ∧ choices.LiteralFault f) ∧
    choices.types.count ≤ 2 ∧ ∀ r, ∃ r', (even.generate choices crossed 2 chosen).run r =
      .ok ((.error (.noValidType (some 2)), chosen), r') :=
  ⟨isBuilt_choices, sane_even, made_chosen,
    ⟨by decide, (generate_total isBuilt_choices sane_even crossed made_chosen 1).1 (by decide)⟩,
    by decide,
    ((generate_total isBuilt_choices sane_even crossed made_chosen 2).2 (by decide)).2⟩

end Generator

end GeneticProgramming
