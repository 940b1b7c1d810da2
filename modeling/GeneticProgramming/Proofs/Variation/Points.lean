import GeneticProgramming.Proofs.Tree.Ancestry
import GeneticProgramming.Proofs.Variation.Total

/-!
# Points on the tree

A selector that walks goes from a node to one of its children until it ends:
`PointSelector.Descends` is a walk of any number of rounds, with the nodes that it comes by.  Each
of them lies one level below the one before it, so a walk has no more rounds than the tree has
levels, and the rounds that are set aside for it never run out.  A selector that chooses evenly
finds nodes of the kind that it draws wherever there are two nodes: the root has arguments, and
where a listing ends there are none.  The main statement is `PointSelector.select_stays`.
-/

namespace GeneticProgramming

variable {C : Type} {p : Palette C}

/-! ## Nodes of both kinds -/

namespace Spells

variable {ts : List TypeId} {rs : List Record} {r : Record} {type : TypeId}

/-- A listing ends with a terminal. -/
theorem exists_terminal (h : Spells p ts rs) (hsome : rs ≠ []) :
    ∃ r ∈ rs, p.arity r.operator = 0 := by
  induction h with
  | nil => exact absurd rfl hsome
  | @cons e r ts rs he hrest ih =>
    cases rs with
    | nil =>
      -- nothing is left to spell, neither arguments nor what follows them
      cases hdue : e.arguments with
      | nil => exact ⟨r, List.mem_cons_self, by rw [Palette.arity_eq he, hdue, List.length_nil]⟩
      | cons a as =>
        rw [hdue] at hrest
        contradiction
    | cons r' rs =>
      obtain ⟨r'', hmem, harity⟩ := ih (List.cons_ne_nil _ _)
      exact ⟨r'', List.mem_cons_of_mem r hmem, harity⟩

/-- A root that is not alone has arguments. -/
theorem arity_root_ne_zero (h : Spells p [type] (r :: rs)) (hsome : rs ≠ []) :
    p.arity r.operator ≠ 0 := by
  cases h with
  | @cons e _ _ _ he hrest =>
    intro hzero
    rw [Palette.arity_eq he, List.length_eq_zero_iff] at hzero
    rw [hzero] at hrest
    exact hsome hrest.eq_nil

end Spells

namespace Term

/-- Each level takes a node. -/
theorem depthAll_le (ts : List Term) : depthAll ts ≤ (recordsAll ts).length := by
  induction ts using forest_induction with
  | nil => exact Nat.le_refl 0
  | cons n us ts ihus ihts =>
    rw [depthAll, depth, recordsAll_cons, List.length_cons, List.length_append]
    omega

end Term

namespace Tree

variable {t : Tree} {u : Term} {type : TypeId} {a c i depth : Nat} {trail : List Nat}

theorem depth_lt_size (h : t.IsListing p u) : t.depth p < t.size := by
  rw [depth_of_isListing h, ← t.length_nodes, ← h.nodes]
  obtain ⟨n, us⟩ := u
  rw [Term.depth, Term.length_nodes_node]
  exact Nat.lt_succ_of_le (Term.depthAll_le us)

/-- The terminals of a tree, or its other nodes. -/
def ofKind (p : Palette C) (t : Tree) (terminal : Bool) : List Nat :=
  (List.range t.size).filter fun i => (t.arityAt p i = 0) = terminal

theorem mem_ofKind {terminal : Bool} :
    i ∈ t.ofKind p terminal ↔ i < t.size ∧ (t.arityAt p i = 0 ↔ terminal = true) := by
  rw [ofKind, List.mem_filter, List.mem_range, decide_eq_true_iff, eq_iff_iff]

theorem arityAt_eq {r : Record} (hr : t.records[i]? = some r) :
    t.arityAt p i = p.arity r.operator := by
  rw [arityAt, hr]
  rfl

/-- Of two or more nodes some are terminals and some are not. -/
theorem ofKind_ne_nil (h : Spells p [type] t.records) (hsize : 2 ≤ t.size) (terminal : Bool) :
    t.ofKind p terminal ≠ [] := by
  suffices hmem : ∃ i, i ∈ t.ofKind p terminal from List.ne_nil_of_mem hmem.choose_spec
  obtain ⟨r, rs, hrecords⟩ := List.exists_cons_of_ne_nil h.ne_nil
  have hrest : rs ≠ [] := by
    rintro rfl
    rw [size, hrecords] at hsize
    exact absurd hsize (Nat.not_succ_le_self 1)
  cases terminal with
  | false =>
    have hroot := arityAt_eq (p := p) (t := t) (i := 0) (by rw [hrecords]; rfl)
    rw [hrecords] at h
    refine ⟨0, mem_ofKind.2 ⟨by omega, ?_⟩⟩
    rw [hroot]
    exact iff_of_false (h.arity_root_ne_zero hrest) Bool.false_ne_true
  | true =>
    obtain ⟨last, hlast, harity⟩ := h.exists_terminal h.ne_nil
    obtain ⟨i, hi⟩ := List.mem_iff_getElem?.1 hlast
    refine ⟨i, mem_ofKind.2 ⟨(List.getElem?_eq_some_iff.1 hi).1, ?_⟩⟩
    rw [arityAt_eq hi]
    exact iff_of_true harity rfl

/-- The three leaves of a tree, and the two nodes above them. -/
example : nested.ofKind conditional true = [1, 3, 4] ∧ nested.ofKind conditional false = [0, 2] :=
  ⟨rfl, rfl⟩

/-! ## Trails -/

/-- Nodes from the root on, each of them a child of the one before it. -/
structure IsTrail (p : Palette C) (t : Tree) (trail : List Nat) : Prop where
  root : trail.head? = some 0
  chain : trail.IsChain fun a c => t.IsChild p c a

theorem le_depth (h : (t.depths p)[i]? = some depth) : depth ≤ t.depth p :=
  (foldl_max_le_iff.1 (Nat.le_refl (t.depth p))).2 depth (List.mem_of_getElem? h)

theorem lt_size_of_depths (h : (t.depths p)[i]? = some depth) : i < t.size := by
  obtain ⟨hlt, -⟩ := List.getElem?_eq_some_iff.1 h
  rwa [depths, List.length_map, length_frames] at hlt

section Listing

variable (h : t.IsListing p u)
include h

theorem depth_root : (t.depths p)[0]? = some 0 := depth_of_lies h .root

variable (hknown : ∀ r ∈ t.records, (p.entry? r.operator).isSome)
include hknown

/-- A child lies one level below its parent. -/
theorem depth_of_isChild (hc : t.IsChild p c a) (ha : (t.depths p)[a]? = some depth) :
    (t.depths p)[c]? = some (depth + 1) := by
  have hlt := lt_size_of_depths ha
  obtain ⟨s, hs, rfl⟩ := (parent_eq_some_iff h hknown hlt).1 hc
  obtain ⟨level, hlevel, hbelow⟩ := depth_of_mem_arguments h hlt
  rw [ha] at hlevel
  injection hlevel with hlevel
  exact hlevel ▸ hbelow s hs

theorem depth_add_length_le {rest : List Nat}
    (hchain : (a :: rest).IsChain fun a c => t.IsChild p c a)
    (ha : (t.depths p)[a]? = some depth) : depth + rest.length ≤ t.depth p := by
  induction rest generalizing a depth with
  | nil => exact le_depth ha
  | cons c rest ih =>
    rw [List.isChain_cons_cons] at hchain
    have hrest := ih hchain.2 (depth_of_isChild h hknown hchain.1 ha)
    rw [List.length_cons]
    omega

/-- However its nodes were chosen, a trail comes by each level once at most. -/
theorem IsTrail.length_le (htrail : t.IsTrail p trail) : trail.length ≤ t.depth p + 1 := by
  obtain ⟨hroot, hchain⟩ := htrail
  cases trail with
  | nil => contradiction
  | cons a rest =>
    injection hroot with hroot
    subst hroot
    have hle := depth_add_length_le h hknown hchain (depth_root h)
    rw [List.length_cons]
    omega

end Listing

end Tree

/-! ## Walks -/

namespace PointSelector

open GeneticProgramming.Tree

variable {s : PointSelector} {t : Tree} {u : Term} {type : TypeId} {node depth rounds i : Nat}
  {trail : List Nat} {cs : List Subtree} {g g' : Random}

/-- A walk from a node at a depth, with as many rounds as it comes by nodes.  It ends at a terminal,
or where it is drawn that it ends. -/
inductive Descends (p : Palette C) (s : PointSelector) (t : Tree) :
    Nat → Nat → Random → List Nat → Random → Prop where
  | terminal {node depth : Nat} {g : Random} :
      t.children p node = .ok [] → Descends p s t node depth g [node] g
  | exit {node depth : Nat} {cs : List Subtree} {g g' : Random} :
      t.children p node = .ok cs → cs ≠ [] →
        Draw.chance (s.exitChance depth) g = .ok (true, g') → Descends p s t node depth g [node] g'
  | down {node depth place : Nat} {cs : List Subtree} {child : Subtree} {trail : List Nat}
      {g g₁ g₂ g' : Random} :
      t.children p node = .ok cs → Draw.chance (s.exitChance depth) g = .ok (false, g₁) →
        Draw.below cs.length g₁ = .ok (place, g₂) → cs[place]? = some child →
          Descends p s t child.start (depth + 1) g₂ trail g' →
            Descends p s t node depth g (node :: trail) g'

/-- One round of a walk, once the children are known. -/
theorem walk_succ (h : t.children p node = .ok cs) :
    s.walk p t (rounds + 1) node depth = (do
      if cs.isEmpty then return node
      if ← Draw.chance (s.exitChance depth) then return node
      let child ← demand cs[← Draw.below cs.length]?
      s.walk p t rounds child.start (depth + 1)) := by
  rw [walk, h]
  rfl

/-- With as many rounds as it comes by nodes, or more, a walk is run to its end. -/
theorem Descends.exists_last (h : Descends p s t node depth g trail g') :
    ∃ i, trail.getLast? = some i ∧
      ∀ rounds, trail.length ≤ rounds → s.walk p t rounds node depth g = .ok (i, g') := by
  induction h with
  | @terminal node depth g hcs =>
    refine ⟨node, rfl, fun rounds hrounds => ?_⟩
    obtain ⟨rounds, rfl⟩ := Nat.exists_eq_add_of_le' hrounds
    rw [List.length_singleton, walk_succ hcs]
    rfl
  | @exit node depth cs g g' hcs hsome hstops =>
    refine ⟨node, rfl, fun rounds hrounds => ?_⟩
    obtain ⟨rounds, rfl⟩ := Nat.exists_eq_add_of_le' hrounds
    rw [List.length_singleton, walk_succ hcs, if_neg (mt List.isEmpty_iff.1 hsome),
      bind_apply_of_ok hstops]
    rfl
  | @down node depth place cs child trail g g₁ g₂ g' hcs hstops hplace hchild _ ih =>
    have hsome : cs ≠ [] := List.ne_nil_of_mem (List.mem_of_getElem? hchild)
    obtain ⟨i, hlast, hwalk⟩ := ih
    refine ⟨i, by rw [List.getLast?_cons, hlast, Option.getD_some], fun rounds hrounds => ?_⟩
    obtain ⟨rounds, rfl⟩ := Nat.exists_eq_add_of_le' hrounds
    rw [List.length_cons, ← Nat.add_assoc, walk_succ hcs, if_neg (mt List.isEmpty_iff.1 hsome),
      bind_apply_of_ok hstops, if_neg Bool.false_ne_true, bind_apply_of_ok hplace, hchild]
    exact hwalk _ (Nat.le_add_left trail.length rounds)

section Listing

variable (hspells : Spells p [type] t.records) (hlisting : t.IsListing p u)
include hspells hlisting

/-- A walk goes from parents to children. -/
theorem Descends.isChain (h : Descends p s t node depth g trail g') (hnode : node < t.size) :
    trail.head? = some node ∧ (trail.IsChain fun a c => t.IsChild p c a) ∧
      ∀ i ∈ trail, i < t.size := by
  induction h with
  | terminal => exact ⟨rfl, .singleton _, List.forall_mem_singleton.2 hnode⟩
  | exit => exact ⟨rfl, .singleton _, List.forall_mem_singleton.2 hnode⟩
  | @down node depth place cs child trail g g₁ g₂ g' hcs _ _ hchild _ ih =>
    rw [children_eq hspells hnode] at hcs
    injection hcs with hcs
    subst hcs
    have hmem := List.mem_of_getElem? hchild
    obtain ⟨hhead, hchain, hrest⟩ := ih (mem_arguments hmem)
    have hparent : t.IsChild p child.start node :=
      (parent_eq_some_iff hlisting hspells.known hnode).2 ⟨child, hmem, rfl⟩
    refine ⟨rfl, List.isChain_cons.2 ⟨fun c hc => ?_, hchain⟩,
      List.forall_mem_cons.2 ⟨hnode, hrest⟩⟩
    rw [hhead] at hc
    exact Option.mem_some_iff.1 hc ▸ hparent

/-- From a node whose depth is known a walk comes to an end, by induction on the levels below it. -/
theorem exists_descends (hs : s.depthMultiplier.isNaN = false) (hsize : t.size < 2 ^ 64)
    {levels : Nat} (hdepth : (t.depths p)[node]? = some depth)
    (hlevels : t.depth p < depth + levels) (g : Random) :
    ∃ trail g', Descends p s t node depth g trail g' := by
  induction levels generalizing node depth g with
  | zero => exact absurd (le_depth hdepth) (Nat.not_le_of_lt hlevels)
  | succ levels ih =>
    have hnode := lt_size_of_depths hdepth
    have hchildren := children_eq hspells hnode
    have hlevel : depth + 1 < 2 ^ 64 := by
      have hle := le_depth hdepth
      have hlt := depth_lt_size hlisting
      omega
    by_cases hsome : t.arguments p node = []
    · rw [hsome] at hchildren
      exact ⟨[node], g, .terminal hchildren⟩
    · obtain ⟨stops, g₁, hstops, -⟩ :=
        (exitChance_faults hs hlevel fun _ => False).exists_eq_ok (Yields.trivial _) g
      cases stops with
      | true => exact ⟨[node], g₁, .exit hchildren hsome hstops⟩
      | false =>
        obtain ⟨place, g₂, hplace, hlt⟩ := (Draw.below_faults
          (List.length_pos_iff.2 hsome)).exists_eq_ok (Draw.below_yields _) g₁
        have hchild : t.IsChild p (t.arguments p node)[place].start node :=
          (parent_eq_some_iff hlisting hspells.known hnode).2 ⟨_, List.getElem_mem hlt, rfl⟩
        obtain ⟨trail, g', htrail⟩ :=
          ih (depth_of_isChild hlisting hspells.known hchild hdepth) (by omega) g₂
        exact ⟨node :: trail, g', .down hchildren hstops hplace
          (List.getElem?_eq_getElem hlt) htrail⟩

/-- From the root a walk goes down a trail, and has come to its end after as many rounds as the tree
has levels. -/
theorem exists_walk (hs : s.depthMultiplier.isNaN = false) (hsize : t.size < 2 ^ 64) (g : Random) :
    ∃ trail i g', Descends p s t 0 0 g trail g' ∧ t.IsTrail p trail ∧ trail.getLast? = some i ∧
      i < t.size ∧ trail.length ≤ t.depth p + 1 ∧
      ∀ rounds, t.depth p + 1 ≤ rounds → s.walk p t rounds 0 0 g = .ok (i, g') := by
  have hdepth := depth_lt_size hlisting
  have hpos : 0 < t.size := Nat.zero_lt_of_lt hdepth
  have hlevels : t.depth p < 0 + t.size := by rwa [Nat.zero_add]
  obtain ⟨trail, g', hdescends⟩ :=
    exists_descends hspells hlisting hs hsize (depth_root hlisting) hlevels g
  obtain ⟨hroot, hchain, hnodes⟩ := hdescends.isChain hspells hlisting hpos
  have htrail : t.IsTrail p trail := ⟨hroot, hchain⟩
  have hlength := htrail.length_le hlisting hspells.known
  obtain ⟨i, hlast, hwalk⟩ := hdescends.exists_last
  exact ⟨trail, i, g', hdescends, htrail, hlast, hnodes i (List.mem_of_getLast? hlast), hlength,
    fun rounds hrounds => hwalk rounds (hlength.trans hrounds)⟩

end Listing

/-! ## Selections -/

/-- From an even choice a node of the kind that is drawn comes out. -/
theorem exists_even (hs : s.terminalChance.isNaN = false)
    (hkinds : ∀ terminal, t.ofKind p terminal ≠ []) (g : Random) :
    ∃ wanted i g₁ g', Draw.chance s.terminalChance.clampUnit g = .ok (wanted, g₁) ∧
      Draw.element (t.ofKind p wanted) g₁ = .ok (some i, g') ∧ i ∈ t.ofKind p wanted ∧
      s.even p t g = .ok (i, g') := by
  obtain ⟨wanted, g₁, hwanted, -⟩ :=
    (Draw.chance_faults hs).exists_eq_ok (Yields.trivial _) g
  obtain ⟨found, g', hfound, hmem⟩ :=
    (Draw.element_faults _).exists_eq_ok (Draw.element_yields (t.ofKind p wanted)) g₁
  cases found with
  | none => exact absurd hmem (hkinds wanted)
  | some i =>
    refine ⟨wanted, i, g₁, g', hwanted, hfound, hmem, ?_⟩
    rw [even, bind_apply_of_ok hwanted]
    exact bind_apply_of_ok hfound

/-- From any stream a node is selected, if the tree passes the check, has a node and is of a size
that a machine can hold.  Of two or more nodes an even choice finds one of the kind that is drawn,
whichever it is, so it never falls back on all nodes.  A walk goes down from the root, from child to
child, by no more nodes than the tree has levels, and further rounds would make no difference.  A
stream is read up to `Draw.attempts`. -/
theorem select_stays (hs : s.Sane) (hsome : t.isEmpty = false) (hcheck : t.check p = .ok ())
    (hsize : t.size < 2 ^ 64) (g : Random) :
    ∃ i g', s.select p t g = .ok (i, g') ∧ i < t.size ∧
      (2 ≤ t.size → s.traverse = false →
        (∀ terminal, t.ofKind p terminal ≠ []) ∧
        ∃ wanted g₁, Draw.chance s.terminalChance.clampUnit g = .ok (wanted, g₁) ∧
          Draw.element (t.ofKind p wanted) g₁ = .ok (some i, g') ∧
          (t.arityAt p i = 0 ↔ wanted = true)) ∧
      (2 ≤ t.size → s.traverse = true →
        ∃ trail, Descends p s t 0 0 g trail g' ∧ t.IsTrail p trail ∧ trail.getLast? = some i ∧
          trail.length ≤ t.depth p + 1 ∧
          ∀ rounds, t.depth p + 1 ≤ rounds → s.walk p t rounds 0 0 g = .ok (i, g')) := by
  have hrecords : t.records ≠ [] := mt List.isEmpty_iff.2 (Bool.eq_false_iff.1 hsome)
  obtain ⟨⟨type, hspells⟩, u, hlisting⟩ := lists_term_of_check hcheck hrecords
  by_cases hone : t.size ≤ 1
  · have hfew : ¬ 2 ≤ t.size := Nat.not_le_of_lt (Nat.lt_succ_of_le hone)
    refine ⟨0, g, ?_, List.length_pos_iff.2 hrecords, fun h => absurd h hfew,
      fun h => absurd h hfew⟩
    rw [select, if_pos hone]
    rfl
  · cases htraverse : s.traverse with
    | false =>
      have hkinds := ofKind_ne_nil hspells (Nat.lt_of_not_le hone)
      obtain ⟨wanted, i, g₁, g', hwanted, hfound, hmem, heven⟩ :=
        exists_even hs.terminalChance hkinds g
      obtain ⟨hi, hkind⟩ := mem_ofKind.1 hmem
      refine ⟨i, g', ?_, hi, fun _ _ => ⟨hkinds, wanted, g₁, hwanted, hfound, hkind⟩,
        fun _ => nofun⟩
      rw [select, if_neg hone, htraverse]
      exact heven
    | true =>
      obtain ⟨trail, i, g', hdescends, htrail, hlast, hi, hlength, hwalk⟩ :=
        exists_walk hspells hlisting hs.depthMultiplier hsize g
      refine ⟨i, g', ?_, hi, fun _ => nofun,
        fun _ _ => ⟨trail, hdescends, htrail, hlast, hlength, hwalk⟩⟩
      rw [select, if_neg hone, htraverse]
      exact hwalk t.size (depth_lt_size hlisting)

/-- Walks down to a terminal. -/
def leafward : PointSelector := ⟨.zero, true, .zero⟩

/-- Chooses a terminal as often as another node. -/
def impartial : PointSelector := ⟨⟨0x3FE0000000000000⟩, false, .zero⟩

theorem select_stays_nested : leafward.Sane ∧ impartial.Sane ∧ nested.isEmpty = false ∧
    nested.check conditional = .ok () ∧ nested.size < 2 ^ 64 ∧
    (∃ i g' trail, leafward.select conditional nested (.ofSeed 1) = .ok (i, g') ∧ i < 5 ∧
      Descends conditional leafward nested 0 0 (.ofSeed 1) trail g' ∧
      nested.IsTrail conditional trail ∧ trail.getLast? = some i ∧ trail.length ≤ 3) ∧
    ∃ i g' wanted g₁, impartial.select conditional nested (.ofSeed 1) = .ok (i, g') ∧ i < 5 ∧
      Draw.chance impartial.terminalChance.clampUnit (.ofSeed 1) = .ok (wanted, g₁) ∧
      (nested.arityAt conditional i = 0 ↔ wanted = true) := by
  have hleafward : leafward.Sane := ⟨rfl, rfl⟩
  have himpartial : impartial.Sane := ⟨rfl, rfl⟩
  have hcheck : nested.check conditional = .ok () := rfl
  have hsize : nested.size < 2 ^ 64 := by decide
  obtain ⟨i, g', hselect, hi, -, hwalk⟩ :=
    select_stays hleafward rfl hcheck hsize (.ofSeed 1)
  obtain ⟨trail, hdescends, htrail, hlast, hlength, -⟩ := hwalk (by decide) rfl
  obtain ⟨j, h', hchoose, hj, heven, -⟩ := select_stays himpartial rfl hcheck hsize (.ofSeed 1)
  obtain ⟨-, wanted, g₁, hwanted, -, hkind⟩ := heven (by decide) rfl
  exact ⟨hleafward, himpartial, rfl, hcheck, hsize,
    ⟨i, g', trail, hselect, hi, hdescends, htrail, hlast, hlength⟩,
    j, h', wanted, g₁, hchoose, hj, hwanted, hkind⟩

end PointSelector

end GeneticProgramming
