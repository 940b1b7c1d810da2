import GeneticProgramming.Proofs.Tree.Shape
import GeneticProgramming.Tree.Term

/-!
# Listings of terms

A term is full if each of its nodes has as many arguments as its operator takes, of whatever types.
Full terms are found again in their listings: a walk that counts the terms that are owed ends behind
as many terms, and the arguments of a node are the extents of those of its term.  So a walk pays its
debt at the very end of a listing exactly if full terms are listed.
-/

namespace GeneticProgramming

variable {C : Type} {p : Palette C}

namespace Term

/-- What holds of no terms, and of some terms if it holds of the arguments of the first one and of
the others, holds of all. -/
@[elab_as_elim]
theorem forest_induction {P : List Term → Prop} (nil : P [])
    (cons : ∀ n us ts, P us → P ts → P (.node n us :: ts)) : ∀ ts, P ts
  | [] => nil
  | .node n us :: ts => cons n us ts (forest_induction nil cons us) (forest_induction nil cons ts)

theorem nodesAll_append (ts us : List Term) : nodesAll (ts ++ us) = nodesAll ts ++ nodesAll us := by
  induction ts with
  | nil => rw [List.nil_append, nodesAll]; rfl
  | cons t ts ih => rw [List.cons_append, nodesAll, nodesAll, ih, List.append_assoc]

/-- The terms that are read from a listing list its nodes. -/
theorem nodesAll_assemble {ns : List Node} {ts : List Term} (h : assemble p ns = some ts) :
    nodesAll ts = ns := by
  induction ns generalizing ts with
  | nil =>
    rw [assemble] at h
    injection h with h
    rw [← h, nodesAll]
  | cons n ns ih =>
    rw [assemble] at h
    obtain ⟨terms, hterms, h⟩ := Option.bind_eq_some_iff.1 h
    dsimp only at h
    split at h
    · contradiction
    · injection h with h
      rw [← h, nodesAll, nodes, List.cons_append, ← nodesAll_append, List.take_append_drop,
        ih hterms]

/-! ## Records -/

/-- The records of some terms, in the order of their listing. -/
def recordsAll (ts : List Term) : List Record := (nodesAll ts).map Node.record

@[simp] theorem recordsAll_nil : recordsAll [] = [] := rfl

@[simp] theorem recordsAll_cons (n : Node) (us ts : List Term) :
    recordsAll (.node n us :: ts) = n.record :: (recordsAll us ++ recordsAll ts) := by
  simp [recordsAll, nodesAll, nodes]

@[simp] theorem recordsAll_append (ts us : List Term) :
    recordsAll (ts ++ us) = recordsAll ts ++ recordsAll us := by
  simp [recordsAll, nodesAll_append]

theorem mem_recordsAll_of_mem {t : Term} {ts : List Term} (h : t ∈ ts) :
    t.head.record ∈ recordsAll ts := by
  obtain ⟨before, after, rfl⟩ := List.append_of_mem h
  obtain ⟨n, us⟩ := t
  simp [head]

theorem length_nodesAll (ts : List Term) : (nodesAll ts).length = (recordsAll ts).length := by
  simp [recordsAll]

theorem length_nodes_node (n : Node) (us : List Term) :
    (Term.node n us).nodes.length = (recordsAll us).length + 1 := by
  rw [nodes, List.length_cons, length_nodesAll]

theorem length_nodes_pos (t : Term) : 0 < t.nodes.length := by
  obtain ⟨n, us⟩ := t
  rw [length_nodes_node]
  exact Nat.succ_pos _

theorem length_recordsAll_cons (t : Term) (ts : List Term) :
    (recordsAll (t :: ts)).length = t.nodes.length + (recordsAll ts).length := by
  rw [← length_nodesAll, nodesAll, List.length_append, length_nodesAll]

theorem nodesAll_singleton (t : Term) : nodesAll [t] = t.nodes := by
  rw [nodesAll, nodesAll, List.append_nil]

/-! ## Full terms -/

variable (p)

mutual

/-- Each node has as many arguments as its operator takes. -/
def IsFull : Term → Prop
  | .node n ts => ts.length = p.arity n.record.operator ∧ AreFull ts

def AreFull : List Term → Prop
  | [] => True
  | t :: ts => IsFull t ∧ AreFull ts

end

/-- The type that the node on top returns. -/
def returns? (t : Term) : Option TypeId := p.returns? t.head.record.operator

/-- The ranges of terms that are listed one after another from an index on, as far as their types
are known. -/
def extents : Nat → List Term → List Subtree
  | _, [] => []
  | i, t :: ts =>
    match t.returns? p with
    | some type => ⟨i, i + t.nodes.length, type⟩ :: extents (i + t.nodes.length) ts
    | none => []

variable {p} {ts us : List Term} {rest : List Record}

theorem areFull_singleton {t : Term} : AreFull p [t] ↔ t.IsFull p := by
  simp [AreFull]

theorem areFull_append : AreFull p (ts ++ us) ↔ AreFull p ts ∧ AreFull p us := by
  induction ts with
  | nil => simp [AreFull]
  | cons t ts ih => simp [AreFull, ih, and_assoc]

/-- A walk that owes some full terms, and more, passes them first. -/
theorem span_recordsAll (h : AreFull p ts) (debt : Nat) (rest : List Record) :
    Tree.span p (ts.length + debt) (recordsAll ts ++ rest) =
      (recordsAll ts).length + Tree.span p debt rest := by
  induction ts using forest_induction generalizing debt rest with
  | nil => simp
  | cons n us ts ihus ihts =>
    obtain ⟨⟨harity, hus⟩, hts⟩ := h
    have hfirst := ihus hus (ts.length + debt) (recordsAll ts ++ rest)
    rw [harity, Nat.add_comm, ihts hts debt rest] at hfirst
    rw [recordsAll_cons, List.length_cons, Nat.add_right_comm, List.cons_append, List.append_assoc,
      Tree.span, hfirst, List.length_cons, List.length_append]
    omega

theorem walkEnd_recordsAll (h : AreFull p ts) (i debt : Nat) (rest : List Record) :
    Tree.walkEnd p i (ts.length + debt) (recordsAll ts ++ rest) =
      Tree.walkEnd p (i + (recordsAll ts).length) debt rest := by
  induction ts using forest_induction generalizing i debt rest with
  | nil => simp
  | cons n us ts ihus ihts =>
    obtain ⟨⟨harity, hus⟩, hts⟩ := h
    have hfirst := ihus hus (i + 1) (ts.length + debt) (recordsAll ts ++ rest)
    rw [harity, Nat.add_comm _ (ts.length + debt), ihts hts] at hfirst
    rw [recordsAll_cons, List.length_cons, Nat.add_right_comm, List.cons_append, List.append_assoc,
      Tree.walkEnd, hfirst, List.length_cons, List.length_append]
    congr 1
    omega

/-- A walk that pays its debt at the end has passed so many full terms. -/
theorem exists_listed {ns : List Node} {i debt : Nat}
    (h : (Tree.walkEnd p i debt (ns.map Node.record)).2 = 0) :
    ∃ ts, ts.length = debt ∧ AreFull p ts ∧ nodesAll ts = ns := by
  induction ns generalizing i debt with
  | nil =>
    cases debt with
    | zero => exact ⟨[], rfl, trivial, rfl⟩
    | succ debt => simp [Tree.walkEnd] at h
  | cons n ns ih =>
    cases debt with
    | zero => simp [Tree.walkEnd] at h
    | succ debt =>
      obtain ⟨us, hlen, hfull, rfl⟩ := ih h
      -- the arguments of the node come first
      have harity : p.arity n.record.operator ≤ us.length := by omega
      rw [← List.take_append_drop (p.arity n.record.operator) us, areFull_append] at hfull
      refine ⟨.node n (us.take (p.arity n.record.operator)) ::
        us.drop (p.arity n.record.operator), ?_, ⟨⟨?_, hfull.1⟩, hfull.2⟩, ?_⟩
      · rw [List.length_cons, List.length_drop]; omega
      · exact List.length_take_of_le harity
      · rw [nodesAll, nodes, List.cons_append, ← nodesAll_append, List.take_append_drop]

theorem walkEnd_fst (rs : List Record) (i debt : Nat) :
    (Tree.walkEnd p i debt rs).1 = i + Tree.span p debt rs := by
  induction rs generalizing i debt with
  | nil => cases debt <;> rfl
  | cons r rs ih =>
    cases debt with
    | zero => rfl
    | succ debt => rw [Tree.walkEnd, Tree.span, ih, Nat.add_assoc]

end Term

namespace Tree

open Term

variable {t : Tree} {i : Nat} {u : Term} {ts : List Term} {rest : List Record}

/-- A tree lists a full term. -/
structure IsListing (p : Palette C) (t : Tree) (u : Term) : Prop where
  full : u.IsFull p
  nodes : u.nodes = t.nodes

theorem records_eq_map_nodes (t : Tree) : t.records = t.nodes.map Node.record :=
  (map_record_share _ _).symm

theorem IsListing.records_eq (h : t.IsListing p u) : t.records = recordsAll [u] := by
  rw [t.records_eq_map_nodes, ← h.nodes, recordsAll, nodesAll_singleton]

/-- A listing is that of one full term exactly if the walk pays its debt at the end. -/
theorem exists_isListing_iff : (∃ u, t.IsListing p u) ↔ (walkEnd p 0 1 t.records).2 = 0 := by
  constructor
  · rintro ⟨u, hu⟩
    have hwalk := walkEnd_recordsAll (areFull_singleton.2 hu.full) 0 0 []
    rw [List.append_nil, ← hu.records_eq] at hwalk
    exact congrArg Prod.snd hwalk
  · intro h
    rw [records_eq_map_nodes] at h
    obtain ⟨us, hlen, hfull, hnodes⟩ := exists_listed h
    obtain ⟨u, rfl⟩ := List.length_eq_one_iff.1 hlen
    exact ⟨u, hfull.1, by rw [← hnodes, nodesAll_singleton]⟩

theorem exists_isListing {type : TypeId} (h : Spells p [type] t.records) : ∃ u, t.IsListing p u :=
  exists_isListing_iff.2 (walkEnd_eq h 0)

/-! ## Walks over listings -/

/-- The walk at the place of a full term ends behind it. -/
theorem endpoint_of_drop (h : u.IsFull p) (hdrop : t.records.drop i = recordsAll [u] ++ rest) :
    t.endpoint p i = i + u.nodes.length := by
  have hspan := span_recordsAll (areFull_singleton.2 h) 0 rest
  rw [span_zero, Nat.add_zero, Nat.add_zero, ← length_nodesAll, nodesAll_singleton] at hspan
  rw [endpoint, hdrop]
  exact congrArg (i + ·) hspan

theorem getElem?_of_drop (hdrop : t.records.drop i = recordsAll (u :: ts) ++ rest) :
    t.records[i]? = some u.head.record := by
  obtain ⟨n, us⟩ := u
  have hhead := congrArg List.head? hdrop
  rwa [List.head?_drop, recordsAll_cons] at hhead

theorem subtree?_of_drop (h : u.IsFull p) (hdrop : t.records.drop i = recordsAll [u] ++ rest) :
    t.subtree? p i = (u.returns? p).map fun type => ⟨i, i + u.nodes.length, type⟩ := by
  rw [subtree?, getElem?_of_drop hdrop, endpoint_of_drop h hdrop]
  cases hreturns : p.returns? u.head.record.operator <;> simp [returns?, hreturns]

/-- Full terms that are listed are siblings. -/
theorem siblings_of_drop (h : AreFull p ts) (hdrop : t.records.drop i = recordsAll ts ++ rest) :
    t.siblings p ts.length i = extents p i ts := by
  induction ts generalizing i with
  | nil => rfl
  | cons u ts ih =>
    obtain ⟨hu, hts⟩ := h
    have hsplit : t.records.drop i = recordsAll [u] ++ (recordsAll ts ++ rest) := by
      rw [hdrop, ← List.append_assoc, ← recordsAll_append]
      rfl
    have hnext : t.records.drop (i + u.nodes.length) = recordsAll ts ++ rest := by
      rw [← List.drop_drop, hsplit, ← nodesAll_singleton, length_nodesAll, List.drop_left' rfl]
    rw [List.length_cons, siblings, subtree?_of_drop hu hsplit, extents]
    cases u.returns? p with
    | none => rfl
    | some type => simp only [Option.map_some, ih hts hnext]

/-- The arguments of a node are the extents of those of its term. -/
theorem arguments_of_drop {n : Node} (h : (Term.node n ts).IsFull p)
    (hdrop : t.records.drop i = recordsAll [.node n ts] ++ rest) :
    t.arguments p i = extents p (i + 1) ts := by
  have harity : t.arityAt p i = ts.length := by
    rw [arityAt, getElem?_of_drop hdrop]
    exact h.1.symm
  rw [recordsAll_cons, recordsAll_nil, List.append_nil] at hdrop
  rw [arguments, harity, siblings_of_drop h.2 (drop_succ_of_drop hdrop)]

end Tree

end GeneticProgramming
