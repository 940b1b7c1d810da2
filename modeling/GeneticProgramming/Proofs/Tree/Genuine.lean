import GeneticProgramming.Proofs.Tree.Nodes
import GeneticProgramming.Proofs.Value.Storage
import GeneticProgramming.Stream.Tree

/-!
# Genuine nodes

A node is genuine if its record is the one that the palette gives its operator, and its cells are of
the kind that its type is stored in.  Trees are grown, edited and read so that all their nodes are
genuine and each literal is one run: this is `Tree.Made.paged`, about every tree that can be made.
-/

namespace GeneticProgramming

variable {C : Type} {p : Palette C}

/-! ## Fresh nodes -/

namespace Palette

/-- The value that a fresh node of an operator has: one of its type if it is a literal. -/
def Produces (e : Entry C) : Option Value → Prop
  | some v => e.operator.isLiteral = true ∧ v.type = e.operator.returns
  | none => e.operator.isLiteral = false

theorem produce_yields {id : OperatorId} {e : Entry C} (he : p.entry? id = some e) :
    Yields (p.produce id) (Produces e) := by
  unfold produce
  rw [he, Option.bind_some]
  cases hrule : e.operator.rule with
  | literal t draw =>
    have hproduce : e.operator.produce? = some (Value.mk t <$> draw) := by
      simp [Operator.produce?, hrule]
    rw [hproduce]
    refine Yields.map (P := fun v => Produces e (some v)) ?_ fun v hv => hv
    refine Yields.map (Yields.trivial draw) fun x _ => ?_
    simp [Produces, Operator.isLiteral, Operator.returns, hrule]
  | compute arguments returns run =>
    have hproduce : e.operator.produce? = none := by simp [Operator.produce?, hrule]
    rw [hproduce]
    exact Yields.pure (by simp [Produces, Operator.isLiteral, hrule])
  | consult arguments returns run =>
    have hproduce : e.operator.produce? = none := by simp [Operator.produce?, hrule]
    rw [hproduce]
    exact Yields.pure (by simp [Produces, Operator.isLiteral, hrule])

end Palette

namespace Tree

@[simp] theorem isLiteral_recordOf (e : Entry C) (id : OperatorId) :
    (recordOf e id).isLiteral = e.operator.isLiteral := rfl

theorem words_recordOf (e : Entry C) (id : OperatorId) :
    (recordOf e id).words = if e.operator.isLiteral then e.operator.returns.words else 0 := by
  simp [Record.words, recordOf, Record.isLiteral, Entry.flags, ValueType.size]

end Tree

namespace Node

/-- A node of an operator whose literal stores a value. -/
structure Fresh (e : Entry C) (id : OperatorId) (v : Option Value) (n : Node) : Prop where
  record : n.record = Tree.recordOf e id
  fits : n.Fits
  trimmed : ∀ w, v = some w → Cell.trim w.type.width n.literal = w.cells
  shared : ∀ c ∈ n.literal, c.isShared = e.operator.returns.isShared

/-- The node that an operator makes over some words. -/
def fresh (e : Entry C) (id : OperatorId) (before : List UInt64) (v : Option Value) : Node :=
  ⟨Tree.recordOf e id, (v.map fun w => w.type.storeOver w.content before).getD []⟩

theorem fresh_spec {e : Entry C} {v : Option Value} (h : Palette.Produces e v) (id : OperatorId)
    (before : List UInt64) : (fresh e id before v).Fresh e id v := by
  cases v with
  | none =>
    have hnone : e.operator.isLiteral = false := h
    exact ⟨rfl, by simp [fresh, Fits, Tree.words_recordOf, hnone], by simp, by simp [fresh]⟩
  | some w =>
    obtain ⟨hliteral, htype⟩ := h
    refine ⟨rfl, by simp [fresh, Fits, Tree.words_recordOf, hliteral, htype], ?_, ?_⟩
    · rintro _ ⟨⟩
      exact w.type.trim_storeOver w.content before
    · intro c hc
      rw [← htype]
      exact ValueType.isShared_of_mem_storeOver hc

/-- A node that stores its value with nothing behind it. -/
theorem fresh_cells {e : Entry C} {v : Option Value} (h : Palette.Produces e v) (id : OperatorId) :
    Fresh e id v ⟨Tree.recordOf e id, (v.map Value.cells).getD []⟩ := by
  cases v with
  | none =>
    have hnone : e.operator.isLiteral = false := h
    exact ⟨rfl, by simp [Fits, Tree.words_recordOf, hnone], by simp, by simp⟩
  | some w =>
    obtain ⟨hliteral, htype⟩ := h
    refine ⟨rfl, by simp [Fits, Tree.words_recordOf, hliteral, Value.cells, htype], ?_, ?_⟩
    · rintro _ ⟨⟩
      exact w.type.trim_store w.content
    · intro c hc
      rw [← htype]
      exact ValueType.isShared_of_mem_store hc

/-- A node of the palette. -/
structure Genuine (p : Palette C) (n : Node) : Prop where
  entry : ∃ e, p.entry? n.record.operator = some e ∧ n.record = Tree.recordOf e n.record.operator ∧
    ∀ c ∈ n.literal, c.isShared = e.operator.returns.isShared

theorem Fresh.genuine {e : Entry C} {id : OperatorId} {v : Option Value} {n : Node}
    (h : n.Fresh e id v) (he : p.entry? id = some e) : n.Genuine p := by
  have hid : n.record.operator = id := congrArg Record.operator h.record
  exact ⟨e, by rwa [hid], by rw [hid]; exact h.record, h.shared⟩

end Node

namespace Tree

/-! ## Growing -/

/-- A tree with another node, whose literal is pushed over what lay there. -/
def grown (t : Tree) (e : Entry C) (id : OperatorId) : Option Value → Tree
  | some v => ⟨t.records ++ [recordOf e id], t.values.push v.type v.content⟩
  | none => ⟨t.records ++ [recordOf e id], t.values⟩

theorem push_eq (p : Palette C) (t : Tree) (id : OperatorId) : t.push p id = (do
    let e ← demand (p.entry? id)
    return t.grown e id (← p.produce id)) := by
  unfold push
  congr 1
  funext e
  congr 1
  funext v
  cases v <;> rfl

/-- An operator that is no literal is pushed without a draw. -/
theorem push_eq_pure {id : OperatorId} {e : Entry C} (he : p.entry? id = some e)
    (hliteral : e.operator.isLiteral = false) (t : Tree) :
    t.push p id = pure (t.grown e id none) := by
  have hnone : e.operator.produce? = none := by
    cases hrule : e.operator.rule <;> simp_all [Operator.produce?, Operator.isLiteral]
  rw [push_eq, he, Palette.produce, he, Option.bind_some, hnone]
  rfl

/-- Pushing a value of an operator appends a fresh node. -/
theorem Lists.grown {t : Tree} {ns : List Node} (h : t.Lists ns) {e : Entry C} {v : Option Value}
    (hv : Palette.Produces e v) (id : OperatorId) :
    ∃ n, n.Fresh e id v ∧ ListsAfter t (t.grown e id v) (ns ++ [n]) := by
  refine ⟨_, Node.fresh_spec hv id (t.values.landing (v.elim 0 fun w => w.type.words)).stale, ?_⟩
  have hfresh := Node.fresh_spec hv id (t.values.landing (v.elim 0 fun w => w.type.words)).stale
  have hpush := h.pushRun (List.forall_mem_singleton.2 hfresh.fits)
  cases v with
  | none => simpa [Node.fresh, Tree.grown, Stack.pushRun] using hpush
  | some w => simpa [Node.fresh, Tree.grown, Stack.push] using hpush

theorem Lists.nodes_grown {t : Tree} {ns : List Node} (h : t.Lists ns) {e : Entry C}
    (hfixed : e.operator.isLiteral = false) (id : OperatorId) :
    (t.grown e id none).nodes = ns ++ [⟨recordOf e id, []⟩] := by
  obtain ⟨n, hfresh, hafter⟩ := h.grown (v := none) hfixed id
  have hwords : n.record.words = 0 := by
    rw [hfresh.record, words_recordOf, hfixed]
    rfl
  rw [hafter.1.nodes_eq, hfresh.fits.eq_bare hwords, hfresh.record]

theorem pushLiteral_eq (p : Palette C) (t : Tree) (id : OperatorId) (v : Value) :
    t.pushLiteral p id v = (do
      let e ← demand (p.entry? id)
      if e.operator.isLiteral && e.operator.returns = v.type then
        return .ok (t.grown e id (some v))
      else return .error (.literalMismatch t.size e.operator.returns.label)) := rfl

theorem Lists.modify_agree {t : Tree} {ns : List Node} (h : t.Lists ns) {e : Entry C}
    {v : Option Value} (hv : Palette.Produces e v) (id : OperatorId) (i : Nat) :
    Agree (ListsAfter t) (t.splice i (i + 1) [recordOf e id] ((v.map Value.cells).getD []))
      (replaceRange ns i (i + 1) [⟨recordOf e id, (v.map Value.cells).getD []⟩]) := by
  have hfits := List.forall_mem_singleton.2 (Node.fresh_cells hv id).fits
  simpa using h.splice_agree hfits

/-! ## Trees over a palette -/

/-- A tree of genuine nodes. -/
structure Over (p : Palette C) (t : Tree) : Prop where
  lists : t.Lists t.nodes
  genuine : ∀ n ∈ t.nodes, n.Genuine p

/-- The records are those that the palette gives its operators. -/
theorem Over.entry {t : Tree} (h : t.Over p) {r : Record} (hr : r ∈ t.records) :
    ∃ e, p.entry? r.operator = some e ∧ r = recordOf e r.operator := by
  rw [h.lists.records] at hr
  obtain ⟨n, hn, rfl⟩ := List.mem_map.1 hr
  obtain ⟨e, he, hrecord, -⟩ := (h.genuine n hn).entry
  exact ⟨e, he, hrecord⟩

theorem Lists.over {t : Tree} {ns : List Node} (h : t.Lists ns) (hns : ∀ n ∈ ns, n.Genuine p) :
    t.Over p := by
  rw [← h.nodes_eq] at hns h
  exact ⟨h, hns⟩

theorem mem_of_range {ns ms : List Node} {start stop : Nat} (h : range ns start stop = .ok ms)
    {n : Node} (hn : n ∈ ms) : n ∈ ns := by
  unfold range at h
  split at h
  · injection h with h
    exact mem_of_mem_slice (h ▸ hn)
  · contradiction

theorem mem_of_replaceRange {ns ms out : List Node} {start stop : Nat}
    (h : replaceRange ns start stop ms = .ok out) {n : Node} (hn : n ∈ out) : n ∈ ns ∨ n ∈ ms := by
  unfold replaceRange at h
  split at h
  · injection h with h
    subst h
    simp only [List.mem_append] at hn
    rcases hn with (hn | hn) | hn
    · exact .inl (List.mem_of_mem_take hn)
    · exact .inr hn
    · exact .inl (List.mem_of_mem_drop hn)
  · contradiction

theorem mem_of_exchangeRanges {ns ms : List Node} {a b : Subtree} {out : List Node × List Node}
    (h : exchangeRanges ns ms a b = .ok out) :
    (∀ n ∈ out.1, n ∈ ns ∨ n ∈ ms) ∧ ∀ n ∈ out.2, n ∈ ms ∨ n ∈ ns := by
  unfold exchangeRanges at h
  obtain ⟨here, hhere, h⟩ := exists_of_bind_eq_ok h
  obtain ⟨there, hthere, h⟩ := exists_of_bind_eq_ok h
  obtain ⟨left, hleft, h⟩ := exists_of_bind_eq_ok h
  obtain ⟨right, hright, h⟩ := exists_of_bind_eq_ok h
  injection h with h
  subst h
  exact ⟨fun n hn => (mem_of_replaceRange hleft hn).imp_right (mem_of_range hthere),
    fun n hn => (mem_of_replaceRange hright hn).imp_right (mem_of_range hhere)⟩

/-- A tree over a palette with one run for each literal. -/
def Sound (p : Palette C) (t : Tree) : Prop := t.Over p ∧ t.Paged

namespace Sound

variable {t other u : Tree}

theorem of_listsAfter {ns : List Node} (h : t.Sound p) (hu : ListsAfter t u ns)
    (hns : ∀ n ∈ ns, n.Genuine p) : u.Sound p :=
  ⟨hu.1.over hns, hu.2 h.2⟩

theorem empty : Tree.empty.Sound p := by
  refine ⟨lists_empty.over (fun n hn => absurd hn List.not_mem_nil), ?_⟩
  rw [lists_empty.paged_iff]
  exact Stack.Holds.empty

theorem duplicate (h : t.Sound p) : t.duplicate.Sound p :=
  ⟨h.1.lists.duplicate.over h.1.genuine, (h.1.lists.duplicate.paged_iff).2 h.2.duplicate⟩

theorem clear (t : Tree) : t.clear.Sound p := by
  have hlists : t.clear.Lists [] := ⟨rfl, rfl, fun n hn => absurd hn List.not_mem_nil⟩
  refine ⟨hlists.over (fun n hn => absurd hn List.not_mem_nil), ?_⟩
  rw [hlists.paged_iff]
  exact Stack.Holds.reset _

theorem grown (h : t.Sound p) {e : Entry C} {id : OperatorId} (he : p.entry? id = some e)
    {v : Option Value} (hv : Palette.Produces e v) : (t.grown e id v).Sound p := by
  obtain ⟨n, hfresh, hafter⟩ := h.1.lists.grown hv id
  refine h.of_listsAfter hafter fun m hm => ?_
  rcases List.mem_append.1 hm with hm | hm
  · exact h.1.genuine m hm
  · rw [List.mem_singleton.1 hm]
    exact hfresh.genuine he

theorem push (h : t.Sound p) (id : OperatorId) : Yields (t.push p id) (Sound p) := by
  rw [push_eq]
  refine Yields.bind (Yields.lift fun e he => he) fun e he => ?_
  have hentry := eq_of_demand he
  refine Yields.bind (Palette.produce_yields hentry) fun v hv => ?_
  exact Yields.pure (h.grown hentry hv)

theorem pushLiteral (h : t.Sound p) {id : OperatorId} {v : Value}
    (hu : t.pushLiteral p id v = .ok (.ok u)) : u.Sound p := by
  rw [pushLiteral_eq] at hu
  cases hentry : p.entry? id with
  | none => rw [hentry] at hu; contradiction
  | some e =>
    simp only [hentry, demand_some, bind, Except.bind] at hu
    split at hu
    · next hliteral =>
      simp only [Bool.and_eq_true, decide_eq_true_eq] at hliteral
      injection hu with hu
      injection hu with hu
      exact hu ▸ h.grown hentry ⟨hliteral.1, hliteral.2.symm⟩
    · injection hu with hu
      contradiction

theorem modify (h : t.Sound p) (i : Nat) (id : OperatorId) :
    Yields (t.modify p i id) (Sound p) := by
  unfold Tree.modify
  refine Yields.bind (Yields.lift fun e he => he) fun e he => ?_
  have hentry := eq_of_demand he
  refine Yields.bind (Palette.produce_yields hentry) fun v hv => Yields.lift fun u hu => ?_
  obtain ⟨out, hout, hafter⟩ := (h.1.lists.modify_agree hv id i).of_ok hu
  refine h.of_listsAfter hafter fun n hn => ?_
  rcases mem_of_replaceRange hout hn with hn | hn
  · exact h.1.genuine n hn
  · rw [List.mem_singleton.1 hn]
    exact (Node.fresh_cells hv id).genuine hentry

theorem copySubtree (h : t.Sound p) (ho : other.Sound p) {s : Subtree}
    (hu : t.copySubtree s other = .ok u) : u.Sound p := by
  obtain ⟨out, hout, hafter⟩ := (h.1.lists.copySubtree_agree ho.1.lists s).of_ok hu
  cases hrange : range t.nodes s.start s.stop with
  | error e => rw [hrange] at hout; contradiction
  | ok xs =>
    rw [hrange] at hout
    injection hout with hout
    refine ho.of_listsAfter hafter fun n hn => ?_
    rcases List.mem_append.1 (hout ▸ hn) with hn | hn
    · exact ho.1.genuine n hn
    · exact h.1.genuine n (mem_of_range hrange hn)

/-- A range gives way to genuine nodes. -/
theorem of_replaceRange (h : t.Sound p) {ms out : List Node} {start stop : Nat}
    (hout : replaceRange t.nodes start stop ms = .ok out) (hafter : ListsAfter t u out)
    (hms : ∀ n ∈ ms, n.Genuine p) : u.Sound p := by
  refine h.of_listsAfter hafter fun n hn => ?_
  rcases mem_of_replaceRange hout hn with hn | hn
  · exact h.1.genuine n hn
  · exact hms n hn

theorem deleteSubtree (h : t.Sound p) {s : Subtree} (hu : t.deleteSubtree s = .ok u) :
    u.Sound p := by
  obtain ⟨out, hout, hafter⟩ := (h.1.lists.deleteSubtree_agree s).of_ok hu
  exact h.of_replaceRange hout hafter fun n hn => absurd hn List.not_mem_nil

theorem insertTree (h : t.Sound p) (ho : other.Sound p) {i : Nat}
    (hu : t.insertTree i other = .ok u) : u.Sound p := by
  obtain ⟨out, hout, hafter⟩ := (h.1.lists.insertTree_agree ho.1.lists i).of_ok hu
  exact h.of_replaceRange hout hafter ho.1.genuine

theorem replaceByRange (h : t.Sound p) (ho : other.Sound p) {s : Subtree} {first last : Nat}
    (hu : t.replaceByRange s other first last = .ok u) : u.Sound p := by
  obtain ⟨out, hout, hafter⟩ := (h.1.lists.replaceByRange_agree ho.1.lists s first last).of_ok hu
  cases hrange : range other.nodes first last with
  | error e => rw [hrange] at hout; contradiction
  | ok xs =>
    rw [hrange] at hout
    exact h.of_replaceRange hout hafter fun n hn => ho.1.genuine n (mem_of_range hrange hn)

theorem swapSubtrees (h : t.Sound p) (ho : other.Sound p) {a b : Subtree} {uv : Tree × Tree}
    (hu : t.swapSubtrees a other b = .ok uv) : uv.1.Sound p ∧ uv.2.Sound p := by
  obtain ⟨out, hout, hleft, hright⟩ := (h.1.lists.swapSubtrees_agree ho.1.lists a b).of_ok hu
  obtain ⟨hl, hr⟩ := mem_of_exchangeRanges hout
  exact ⟨h.of_listsAfter hleft fun n hn => (hl n hn).elim (h.1.genuine n) (ho.1.genuine n),
    ho.of_listsAfter hright fun n hn => (hr n hn).elim (ho.1.genuine n) (h.1.genuine n)⟩

end Sound

end Tree

end GeneticProgramming
