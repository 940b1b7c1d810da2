import GeneticProgramming.Proofs.Variation.Appending

/-!
# Depth windows

A generator asks for non-terminals above its window, for terminals below it, and takes what comes
next where a type has no operator of the wanted kind that fits.  So a node tells why it is there:
below the window a non-terminal stands only where its type has no terminal, and where non-terminals
are asked for a terminal stands only where none of them fits.  `Generator.generate_window` says so of
each node that a generator appends, and bounds the depth of them all.
-/

namespace GeneticProgramming

open GeneticProgramming.Tree

variable {C : Type} {p : Palette C}

namespace Generator

variable {g : Generator} {w : DepthWindow} {type : TypeId} {depth : Nat} {t : Tree}

/-- Whether a non-terminal is asked for at a depth in any case. -/
def Insists (w : DepthWindow) (depth : Nat) : Generator → Prop
  | .grow _ => depth < min w.least w.most
  | .full => depth < w.most

theorem Insists.lt_most (h : g.Insists w depth) : depth < w.most := by
  cases g with
  | grow chance => exact Nat.lt_of_lt_of_le h (Nat.min_le_right _ _)
  | full => exact h

theorem wantsTerminal_tells (g : Generator) (w : DepthWindow) (depth : Nat) :
    Yields (g.wantsTerminal w depth) fun wanted =>
      (w.most ≤ depth → wanted = true) ∧ (g.Insists w depth → wanted = false) := by
  unfold wantsTerminal
  refine Yields.ite (fun hbelow => ?_) fun habove => Yields.ite (fun _ => ?_) fun hleast => ?_
  · exact Yields.pure ⟨fun _ => rfl, fun h => absurd h.lt_most (Nat.not_lt.2 hbelow)⟩
  · exact Yields.pure ⟨fun h => absurd h habove, fun _ => rfl⟩
  · cases g with
    | grow chance =>
      refine (Yields.trivial _).mono fun wanted _ => ⟨fun h => absurd h habove, fun h => ?_⟩
      exact absurd (Nat.lt_of_lt_of_le h (Nat.min_le_left _ _)) hleast
    | full => exact Yields.pure ⟨fun h => absurd h habove, fun _ => rfl⟩

/-! ## Choosing operators -/

/-- What an operator at a depth tells of the others that return its type. -/
structure Places (p : Palette C) (g : Generator) (w : DepthWindow) (depth : Nat) (e : Entry C) :
    Prop where
  nonTerminal : e.arguments ≠ [] → w.most ≤ depth → p.terminals e.returns = []
  terminal : e.arguments = [] → g.Insists w depth →
    ∀ id ∈ p.nonTerminals e.returns, w.most < depth + p.operatorGround id

/-- An operator may stand at a depth. -/
abbrev Allows (p : Palette C) (g : Generator) (w : DepthWindow) (depth : Nat) (id : OperatorId) :
    Prop :=
  ∃ e, p.entry? id = some e ∧ g.Places p w depth e

theorem allows_terminal {id : OperatorId} (h : id ∈ p.terminals type)
    (hnone : g.Insists w depth →
      ∀ other ∈ p.nonTerminals type, w.most < depth + p.operatorGround other) :
    g.Allows p w depth id := by
  obtain ⟨e, he, rfl, hnil⟩ := Palette.mem_terminals.1 h
  exact ⟨e, he, fun hsome => absurd hnil hsome, fun _ => hnone⟩

theorem allows_nonTerminal {id : OperatorId} (h : id ∈ p.nonTerminals type)
    (hnone : w.most ≤ depth → p.terminals type = []) : g.Allows p w depth id := by
  obtain ⟨e, he, rfl, hsome⟩ := Palette.mem_nonTerminals.1 h
  exact ⟨e, he, fun _ => hnone, fun hnil => absurd hnil hsome⟩

/-- Where a terminal is taken, a non-terminal comes in its place if there is none. -/
theorem terminal_allows (hnone : g.Insists w depth →
    ∀ other ∈ p.nonTerminals type, w.most < depth + p.operatorGround other) :
    Attempt.Yields (terminal p type) (g.Allows p w depth) := by
  unfold terminal
  refine Attempt.Yields.bind (Attempt.Yields.draw (Draw.element_yields _)) fun found hfound => ?_
  cases found with
  | some id => exact Attempt.Yields.pure (allows_terminal hfound hnone)
  | none =>
    unfold closing
    refine Attempt.Yields.bind (Attempt.Yields.draw (Draw.element_yields _)) fun other hother => ?_
    cases other with
    | some id =>
      exact Attempt.Yields.pure (allows_nonTerminal (List.mem_filter.1 hother).1 fun _ => hfound)
    | none => exact Attempt.Yields.throw trivial

/-- A terminal comes in the place of a non-terminal if none fits. -/
theorem nonTerminal_allows (habove : depth < w.most) :
    Attempt.Yields (nonTerminal p w type depth) (g.Allows p w depth) := by
  unfold nonTerminal
  refine Attempt.Yields.bind (Attempt.Yields.draw (Draw.element_yields _)) fun found hfound => ?_
  cases found with
  | some id =>
    refine Attempt.Yields.pure (allows_nonTerminal (List.mem_filter.1 hfound).1 fun hbelow => ?_)
    exact absurd habove (Nat.not_lt.2 hbelow)
  | none =>
    refine terminal_allows fun _ other hother => ?_
    have hno := List.filter_eq_nil_iff.1 hfound other hother
    rw [decide_eq_true_eq] at hno
    exact Nat.lt_of_not_le hno

theorem operator_allows (g : Generator) (w : DepthWindow) (type : TypeId) (depth : Nat) :
    Attempt.Yields (g.operator p w type depth) (g.Allows p w depth) := by
  unfold operator
  refine Attempt.Yields.bind (Attempt.Yields.draw (g.wantsTerminal_tells w depth))
    fun wanted hwanted => ?_
  obtain ⟨hbelow, habove⟩ := hwanted
  refine Attempt.Yields.ite (fun htrue => terminal_allows fun hinsists => ?_) fun hfalse => ?_
  · rw [habove hinsists] at htrue
    contradiction
  · exact nonTerminal_allows (Nat.lt_of_not_le fun h => hfalse (hbelow h))

/-! ## Generated trees -/

/-- A tree that is no deeper than a window and its type allow, and each of whose nodes the generator
may put at its depth. -/
structure Keeps (p : Palette C) (g : Generator) (w : DepthWindow) (type : TypeId) (t : Tree) :
    Prop where
  depth : t.depth p ≤ max w.most (p.ground type)
  nodes : List.Forall₂ (fun d r => g.Allows p w d r.operator) (t.depths p) t.records

theorem keeps_of_follows
    (h : Follows p (max w.most (p.ground type)) (g.Allows p w) 0 [type] t.records) :
    g.Keeps p w type t := by
  constructor
  · exact depth_le_iff.2 fun d hd => (SpellsAt.rule h d hd).elim fun _ hrule => hrule.1
  · rw [depths_eq]
    exact (SpellsAt.forall₂_depthsFrom h).imp fun _ _ hrule => hrule.2

/-- The records of the subtree that was appended are those behind the old ones. -/
theorem keeps_of_appends {u v : Tree} {s : Subtree} (hgains : t.Gains p type u)
    (h : t.Appends p (Follows p (max w.most (p.ground type)) (g.Allows p w) 0 [type]) u)
    (hs : u.subtree? p t.size = some s) (hv : u.extractSubtree s = .ok v) : g.Keeps p w type v := by
  obtain ⟨s', v', hs', -, -, hv', hnodes, -⟩ := hgains.whole
  obtain rfl := Option.some.inj (hs.symm.trans hs')
  rw [hv] at hv'
  injection hv' with hv'
  subst hv'
  obtain ⟨hu, rs, hrs, hfollows⟩ := h
  have hsound : v.Sound p := hu.copySubtree .empty hv
  refine keeps_of_follows ?_
  rw [hsound.1.lists.records, hnodes, List.map_drop, ← hu.1.lists.records, hrs, Tree.size,
    List.drop_left]
  exact hfollows

/-- From any stream, a generator appends one whole tree of a type of the palette, whose depth is at
most that of the window or that of the ground of its type, and each node of which it may put at its
depth; or a draw ends in a fault, which only that of a literal does if the chance of the generator is
a number.  A stream is read up to `Draw.attempts`. -/
theorem generate_window (hp : p.IsBuilt) (g : Generator) (w : DepthWindow)
    (htype : type < p.types.count) (ht : t.Sound p) (r : Random) :
    (∃ u r', (g.generate p w type t).run r = .ok ((.ok (), u), r') ∧ t.Gains p type u ∧
      ∀ s v, u.subtree? p t.size = some s → u.extractSubtree s = .ok v → g.Keeps p w type v) ∨
    ∃ f, (g.generate p w type t).run r = .error f ∧ (g.Sane → p.LiteralFault f) := by
  have hfaults : Attempt.FaultsOnly (g.extend p w type t) fun f => g.Sane → p.LiteralFault f :=
    fun r f hf hg => extend_faults hp hg w htype t r f hf
  have hyields := (extend_gains hp g w htype ht).and
    ((extend_follows hp g w (g.operator_allows w) htype ht).mono (fun _ h => h) fun _ _ => trivial)
  rcases generate_of_extend hyields hfaults r with ⟨u, r', hrun, hgains, happends⟩ | hfault
  · exact .inl ⟨u, r', hrun, hgains, fun s v => keeps_of_appends hgains happends⟩
  · exact .inr hfault

/-! ### Even chances -/

open Mutation (choices chosen isBuilt_choices made_chosen)

/-- Whether something is appended from a stream. -/
def appends (r : Random) : Bool :=
  match (even.generate choices crossed 1 chosen).run r with
  | .ok ((.ok _, _), _) => true
  | _ => false

theorem exists_of_appends {r : Random} (h : appends r = true) :
    ∃ u r', (even.generate choices crossed 1 chosen).run r = .ok ((.ok (), u), r') := by
  unfold appends at h
  split at h
  · next u r' hrun => exact ⟨u, r', hrun⟩
  · contradiction

theorem generate_window_even : choices.IsBuilt ∧ 1 < choices.types.count ∧ chosen.Sound choices ∧
    even.Sane ∧ ∃ u r',
      (even.generate choices crossed 1 chosen).run (.ofSeed 0) = .ok ((.ok (), u), r') ∧
      chosen.Gains choices 1 u ∧ ∃ s v, u.subtree? choices chosen.size = some s ∧
        u.extractSubtree s = .ok v ∧ even.Keeps choices crossed 1 v := by
  obtain ⟨_, _, happends⟩ := exists_of_appends (r := .ofSeed 0) (by decide +kernel)
  rcases generate_window isBuilt_choices even crossed (by decide : 1 < choices.types.count)
    made_chosen.sound (.ofSeed 0) with ⟨u, r', hrun, hgains, hkeeps⟩ | ⟨f, hrun, -⟩
  · obtain ⟨s, v, hs, -, -, hv, -⟩ := hgains.whole
    exact ⟨isBuilt_choices, by decide, made_chosen.sound, sane_even, u, r', hrun, hgains, s, v, hs, hv,
      hkeeps s v hs hv⟩
  · exact nomatch happends.symm.trans hrun

end Generator

end GeneticProgramming
