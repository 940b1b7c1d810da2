import GeneticProgramming.Proofs.Tree.Genuine

/-!
# Edits act on lists of nodes

A tree shows a list of nodes: each record with the bytes of its own literal, the bytes behind the
value blanked out.  A sequence of edits of any trees, which may take from one another, does to the
trees what the same edits of plain lists do to what the trees show, and afterwards the sizes that
the records describe still add up to the bytes on the stacks.  The main statement is
`Tree.runEdits_shown`.
-/

namespace GeneticProgramming

variable {C : Type} {p : Palette C}

/-- A literal's size is a number of whole words. -/
def Record.Whole (r : Record) : Prop := r.isLiteral = true → 8 ∣ r.size

namespace Node

/-- A node with zeros behind the value of its literal. -/
def plain (p : Palette C) (n : Node) : Node :=
  match p.entry? n.record.operator with
  | some e => { n with literal := Cell.trim e.operator.returns.width n.literal }
  | none => n

/-- The node of an operator with the value of its literal. -/
def ofValue (e : Entry C) (id : OperatorId) (v : Option Value) : Node :=
  ⟨Tree.recordOf e id, (v.map Value.cells).getD []⟩

theorem plain_of_fresh {id : OperatorId} {e : Entry C} {v : Option Value} {n : Node}
    (he : p.entry? id = some e) (hv : Palette.Produces e v) (h : n.Fresh e id v) :
    n.plain p = ofValue e id v := by
  obtain ⟨record, literal⟩ := n
  obtain rfl : record = Tree.recordOf e id := h.record
  have hentry : p.entry? (Tree.recordOf e id).operator = some e := he
  simp only [plain, hentry, ofValue]
  congr 1
  cases v with
  | some w => rw [← hv.2]; exact h.trimmed w rfl
  | none =>
    have hnone : e.operator.isLiteral = false := hv
    have hlen : literal.length = 0 := by
      have hfits : literal.length = (Tree.recordOf e id).words := h.fits
      rw [hfits, Tree.words_recordOf, hnone]
      rfl
    rw [List.length_eq_zero_iff.1 hlen]
    rfl

end Node

namespace Tree

theorem whole_recordOf (e : Entry C) (id : OperatorId) : (recordOf e id).Whole :=
  fun _ => ⟨e.operator.returns.words, rfl⟩

/-! ## What trees show -/

/-- The bytes that the records of literals describe. -/
def literalSize (t : Tree) : Nat := ((t.records.filter Record.isLiteral).map Record.size).sum

/-- A tree whose literals take the bytes that its records describe. -/
structure Agrees (t : Tree) : Prop where
  whole : ∀ r ∈ t.records, r.Whole
  size : t.literalSize = t.values.size

theorem literalSize_eq {rs : List Record} (h : ∀ r ∈ rs, r.Whole) :
    ((rs.filter Record.isLiteral).map Record.size).sum = 8 * literalWords rs := by
  induction rs with
  | nil => rfl
  | cons r rs ih =>
    obtain ⟨hr, hrs⟩ := List.forall_mem_cons.1 h
    rw [List.filter_cons, literalWords_cons, Record.words]
    cases hliteral : r.isLiteral with
    | true =>
      obtain ⟨k, hk⟩ := hr hliteral
      simp only [if_true, List.map_cons, List.sum_cons, ih hrs, hk]
      omega
    | false =>
      simp only [Bool.false_eq_true, if_false, ih hrs]
      omega

theorem Agrees.literalWords_eq {t : Tree} (h : t.Agrees) :
    literalWords t.records = t.values.words := by
  have hsize := h.size
  rw [literalSize, literalSize_eq h.whole, Stack.size] at hsize
  omega

/-- The nodes of a tree, each with the bytes of its own literal. -/
def shown (p : Palette C) (t : Tree) : List Node := t.nodes.map (Node.plain p)

/-- A tree of which the records and literals agree, and what it shows. -/
def Shows (p : Palette C) (t : Tree) (xs : List Node) : Prop :=
  ∃ ns, t.Lists ns ∧ (∀ n ∈ ns, n.record.Whole) ∧ xs = ns.map (Node.plain p)

theorem Agrees.shows {t : Tree} (h : t.Agrees) : t.Shows p (t.shown p) := by
  have hlists := lists_nodes h.literalWords_eq
  refine ⟨t.nodes, hlists, fun n hn => h.whole _ ?_, rfl⟩
  rw [hlists.records]
  exact List.mem_map_of_mem hn

theorem Shows.agrees {t : Tree} {xs : List Node} (h : t.Shows p xs) :
    t.Agrees ∧ t.shown p = xs := by
  obtain ⟨ns, hlists, hwhole, rfl⟩ := h
  have hrecords : ∀ r ∈ t.records, r.Whole := by
    rw [hlists.records]
    intro r hr
    obtain ⟨n, hn, rfl⟩ := List.mem_map.1 hr
    exact hwhole n hn
  refine ⟨⟨hrecords, ?_⟩, by rw [shown, hlists.nodes_eq]⟩
  rw [literalSize, literalSize_eq hrecords, hlists.literalWords_eq, Stack.size]

/-! ## One edit -/

/-- Looking an operator up draws nothing. -/
theorem entry_alike (id : OperatorId) :
    Draw.Alike (fun e d => e = d ∧ p.entry? id = some e) (liftM (demand (p.entry? id)))
      (liftM (demand (p.entry? id))) :=
  Draw.Alike.refl_of_yields (Yields.lift fun _ => eq_of_demand)

theorem range_map (f : Node → Node) (ns : List Node) (start stop : Nat) :
    range (ns.map f) start stop = (range ns start stop).map (List.map f) := by
  unfold range
  rw [List.length_map]
  split
  · rw [slice, ← List.map_take, ← List.map_drop]
    rfl
  · rfl

theorem replaceRange_map (f : Node → Node) (ns ms : List Node) (start stop : Nat) :
    replaceRange (ns.map f) start stop (ms.map f) =
      (replaceRange ns start stop ms).map (List.map f) := by
  unfold replaceRange
  rw [List.length_map]
  split
  · rw [← List.map_take, ← List.map_drop, ← List.map_append, ← List.map_append]
    rfl
  · rfl

theorem exchangeRanges_map (f : Node → Node) (ns ms : List Node) (a b : Subtree) :
    exchangeRanges (ns.map f) (ms.map f) a b =
      (exchangeRanges ns ms a b).map (Prod.map (List.map f) (List.map f)) := by
  simp only [exchangeRanges, range_map]
  cases range ns a.start a.stop with
  | error e => rfl
  | ok here =>
    cases range ms b.start b.stop with
    | error e => rfl
    | ok there =>
      simp only [Except.map, bind, Except.bind, replaceRange_map]
      cases replaceRange ns a.start a.stop there with
      | error e => rfl
      | ok left => cases replaceRange ms b.start b.stop here <;> rfl

/-- An edit that agrees with one of lists agrees with it on what is shown. -/
theorem shows_of_agree {t : Tree} {x : Except Fault Tree} {y : Except Fault (List Node)}
    (h : Agree (ListsAfter t) x y) (hwhole : ∀ ns, y = .ok ns → ∀ n ∈ ns, n.record.Whole) :
    Agree (Shows p) x (y.map (List.map (Node.plain p))) := by
  rcases h with ⟨u, ns, rfl, rfl, hu⟩ | ⟨e, rfl, rfl⟩
  · exact .ok ⟨ns, hu.1, hwhole ns rfl, rfl⟩
  · exact .error e

theorem whole_of_replaceRange {ns ms out : List Node} {start stop : Nat}
    (hout : replaceRange ns start stop ms = .ok out) (hns : ∀ n ∈ ns, n.record.Whole)
    (hms : ∀ n ∈ ms, n.record.Whole) : ∀ n ∈ out, n.record.Whole := by
  intro n hn
  rcases mem_of_replaceRange hout hn with hn | hn
  · exact hns n hn
  · exact hms n hn

namespace Shows

variable {t other : Tree} {xs ys : List Node}

theorem empty : Tree.empty.Shows p [] :=
  ⟨[], lists_empty, fun _ hn => absurd hn List.not_mem_nil, rfl⟩

theorem duplicate (h : t.Shows p xs) : t.duplicate.Shows p xs := by
  obtain ⟨ns, hns, hwhole, rfl⟩ := h
  exact ⟨ns, hns.duplicate, hwhole, rfl⟩

theorem copySubtree (h : t.Shows p xs) (ho : other.Shows p ys) (s : Subtree) :
    Agree (Shows p) (t.copySubtree s other) (do return ys ++ (← range xs s.start s.stop)) := by
  obtain ⟨ns, hns, hwhole, rfl⟩ := h
  obtain ⟨ms, hms, hmwhole, rfl⟩ := ho
  have hagree := hns.copySubtree_agree hms s
  rw [range_map]
  cases hrange : range ns s.start s.stop with
  | error e =>
    rw [hrange] at hagree
    exact shows_of_agree hagree fun _ hout => nomatch hout
  | ok zs =>
    rw [hrange] at hagree
    have hshown := shows_of_agree (p := p) hagree fun _ hout n hn => by
      injection hout with hout
      rcases List.mem_append.1 (hout ▸ hn) with hn | hn
      · exact hmwhole n hn
      · exact hwhole n (mem_of_range hrange hn)
    simpa [bind, Except.bind, pure, Except.pure, Except.map] using hshown

theorem replaceRange {x : Except Fault Tree} {zs : List Node} {start stop : Nat}
    (h : t.Shows p xs) (hzs : ∀ n ∈ zs, n.record.Whole)
    (hx : ∀ ns, t.Lists ns → Agree (ListsAfter t) x (Tree.replaceRange ns start stop zs)) :
    Agree (Shows p) x (Tree.replaceRange xs start stop (zs.map (Node.plain p))) := by
  obtain ⟨ns, hns, hwhole, rfl⟩ := h
  rw [replaceRange_map]
  exact shows_of_agree (hx ns hns) fun out hout => whole_of_replaceRange hout hwhole hzs

theorem deleteSubtree (h : t.Shows p xs) (s : Subtree) :
    Agree (Shows p) (t.deleteSubtree s) (Tree.replaceRange xs s.start s.stop []) := by
  have hnone : ∀ n ∈ ([] : List Node), n.record.Whole := fun n hn => absurd hn List.not_mem_nil
  exact h.replaceRange hnone fun ns hns => hns.deleteSubtree_agree s

theorem insertTree (h : t.Shows p xs) (ho : other.Shows p ys) (i : Nat) :
    Agree (Shows p) (t.insertTree i other) (Tree.replaceRange xs i i ys) := by
  obtain ⟨ms, hms, hmwhole, rfl⟩ := ho
  exact h.replaceRange hmwhole fun ns hns => hns.insertTree_agree hms i

theorem replaceSubtree (h : t.Shows p xs) (ho : other.Shows p ys) (s : Subtree) :
    Agree (Shows p) (t.replaceSubtree s other) (Tree.replaceRange xs s.start s.stop ys) := by
  obtain ⟨ms, hms, hmwhole, rfl⟩ := ho
  exact h.replaceRange hmwhole fun ns hns => hns.replaceSubtree_agree hms s

theorem replaceByRange (h : t.Shows p xs) (ho : other.Shows p ys) (s : Subtree)
    (first last : Nat) : Agree (Shows p) (t.replaceByRange s other first last)
      (do Tree.replaceRange xs s.start s.stop (← range ys first last)) := by
  obtain ⟨ms, hms, hmwhole, rfl⟩ := ho
  rw [range_map]
  cases hrange : range ms first last with
  | error e =>
    obtain ⟨ns, hns, -, rfl⟩ := h
    have hagree := hns.replaceByRange_agree hms s first last
    rw [hrange] at hagree
    exact shows_of_agree hagree fun _ hout => nomatch hout
  | ok zs =>
    refine h.replaceRange (fun n hn => hmwhole n (mem_of_range hrange hn)) fun ns hns => ?_
    have hagree := hns.replaceByRange_agree hms s first last
    rwa [hrange] at hagree

theorem swapSubtrees (h : t.Shows p xs) (ho : other.Shows p ys) (a b : Subtree) :
    Agree (fun u zs => u.1.Shows p zs.1 ∧ u.2.Shows p zs.2) (t.swapSubtrees a other b)
      (exchangeRanges xs ys a b) := by
  obtain ⟨ns, hns, hwhole, rfl⟩ := h
  obtain ⟨ms, hms, hmwhole, rfl⟩ := ho
  rw [exchangeRanges_map]
  have hagree := hns.swapSubtrees_agree hms a b
  generalize t.swapSubtrees a other b = x at hagree
  rcases hagree with ⟨u, out, rfl, hout, hleft, hright⟩ | ⟨e, rfl, hout⟩
  · obtain ⟨hl, hr⟩ := mem_of_exchangeRanges hout
    rw [hout]
    exact .ok ⟨⟨out.1, hleft.1, fun n hn => (hl n hn).elim (hwhole n) (hmwhole n), rfl⟩,
      ⟨out.2, hright.1, fun n hn => (hr n hn).elim (hmwhole n) (hwhole n), rfl⟩⟩
  · rw [hout]
    exact .error e

theorem grown (h : t.Shows p xs) {id : OperatorId} {e : Entry C} (he : p.entry? id = some e)
    {v : Option Value} (hv : Palette.Produces e v) :
    (t.grown e id v).Shows p (xs ++ [Node.ofValue e id v]) := by
  obtain ⟨ns, hns, hwhole, rfl⟩ := h
  obtain ⟨n, hfresh, hafter⟩ := hns.grown hv id
  refine ⟨ns ++ [n], hafter.1, fun m hm => ?_, ?_⟩
  · rcases List.mem_append.1 hm with hm | hm
    · exact hwhole m hm
    · rw [List.mem_singleton.1 hm, hfresh.record]
      exact whole_recordOf e id
  · rw [List.map_append, List.map_singleton, Node.plain_of_fresh he hv hfresh]

theorem push (h : t.Shows p xs) (id : OperatorId) :
    Draw.Alike (Shows p) (t.push p id) (do
      let e ← demand (p.entry? id)
      return xs ++ [Node.ofValue e id (← p.produce id)]) := by
  rw [push_eq]
  refine (entry_alike id).bind fun e _ h' => ?_
  obtain ⟨rfl, he⟩ := h'
  refine (Draw.Alike.refl_of_yields (Palette.produce_yields he)).bind fun v _ h' => ?_
  obtain ⟨rfl, hv⟩ := h'
  exact Draw.Alike.pure (h.grown he hv)

theorem modify (h : t.Shows p xs) (i : Nat) (id : OperatorId) :
    Draw.Alike (Shows p) (t.modify p i id) (do
      let e ← demand (p.entry? id)
      Tree.replaceRange xs i (i + 1) [Node.ofValue e id (← p.produce id)]) := by
  unfold Tree.modify
  refine (entry_alike id).bind fun e _ h' => ?_
  obtain ⟨rfl, he⟩ := h'
  refine (Draw.Alike.refl_of_yields (Palette.produce_yields he)).bind fun v _ h' => ?_
  obtain ⟨rfl, hv⟩ := h'
  refine Draw.Alike.lift ?_
  have hplain := Node.plain_of_fresh he hv (Node.fresh_cells hv id)
  have hone : Agree (Shows p) _ (Tree.replaceRange xs i (i + 1)
      ([⟨recordOf e id, (v.map Value.cells).getD []⟩].map (Node.plain p))) :=
    h.replaceRange (List.forall_mem_singleton.2 (whole_recordOf e id))
      fun ns hns => hns.modify_agree hv id i
  rwa [List.map_singleton, hplain] at hone

/-- A literal of the wrong type, or under an operator that has none, changes nothing. -/
theorem pushLiteral (h : t.Shows p xs) (id : OperatorId) (v : Value) :
    Agree (Shows p) (do return (← t.pushLiteral p id v).toOption.getD t) (do
      let e ← demand (p.entry? id)
      return if e.operator.isLiteral && e.operator.returns = v.type then
        xs ++ [Node.ofValue e id (some v)] else xs) := by
  rw [pushLiteral_eq]
  cases he : p.entry? id with
  | none => exact .error _
  | some e =>
    change Agree (Shows p) (Except.bind (if _ then _ else _) _) (.ok _)
    by_cases hv : (e.operator.isLiteral && e.operator.returns = v.type) = true
    · rw [if_pos hv, if_pos hv]
      simp only [Bool.and_eq_true, decide_eq_true_eq] at hv
      have hproduces : Palette.Produces e (some v) := ⟨hv.1, hv.2.symm⟩
      exact Agree.ok (h.grown he hproduces)
    · rw [if_neg hv, if_neg hv]
      exact Agree.ok h

end Shows

/-! ## Sequences of edits -/

/-- Edits of trees that are numbered. -/
inductive Edit where
  /-- Appends a subtree of one tree to another. -/
  | copy (source : Nat) (s : Subtree) (target : Nat)
  /-- Makes a subtree a tree of its own. -/
  | extract (source : Nat) (s : Subtree) (target : Nat)
  | delete (tree : Nat) (s : Subtree)
  | insert (tree i donor : Nat)
  | replace (tree : Nat) (s : Subtree) (donor : Nat)
  | replaceWith (tree : Nat) (s : Subtree) (donor start stop : Nat)
  | swap (tree : Nat) (a : Subtree) (other : Nat) (b : Subtree)
  | modify (tree i : Nat) (id : OperatorId)
  | push (tree : Nat) (id : OperatorId)
  | pushLiteral (tree : Nat) (id : OperatorId) (v : Value)
  | duplicate (source target : Nat)

/-- A change of one of many numbered things. -/
def put {α : Type} (pool : Nat → α) (i : Nat) (a : α) : Nat → α :=
  fun j => if j = i then a else pool j

/-- An edit of trees; a literal that is refused leaves them as they are. -/
def Edit.apply (p : Palette C) (pool : Nat → Tree) : Edit → Draw (Nat → Tree)
  | copy source s target => do
    return put pool target (← (pool source).copySubtree s (pool target))
  | extract source s target => do return put pool target (← (pool source).extractSubtree s)
  | delete tree s => do return put pool tree (← (pool tree).deleteSubtree s)
  | insert tree i donor => do return put pool tree (← (pool tree).insertTree i (pool donor))
  | replace tree s donor => do return put pool tree (← (pool tree).replaceSubtree s (pool donor))
  | replaceWith tree s donor start stop => do
    return put pool tree (← (pool tree).replaceByRange s (pool donor) start stop)
  | swap tree a other b => do
    let (left, right) ← (pool tree).swapSubtrees a (pool other) b
    return put (put pool tree left) other right
  | modify tree i id => do return put pool tree (← (pool tree).modify p i id)
  | push tree id => do return put pool tree (← (pool tree).push p id)
  | pushLiteral tree id v => do
    return put pool tree ((← (pool tree).pushLiteral p id v).toOption.getD (pool tree))
  | duplicate source target => return put pool target (pool source).duplicate

/-- The same edit of lists of nodes. -/
def Edit.applyNodes (p : Palette C) (pool : Nat → List Node) : Edit → Draw (Nat → List Node)
  | copy source s target => do
    return put pool target (pool target ++ (← range (pool source) s.start s.stop))
  | extract source s target => do return put pool target (← range (pool source) s.start s.stop)
  | delete tree s => do return put pool tree (← replaceRange (pool tree) s.start s.stop [])
  | insert tree i donor => do return put pool tree (← replaceRange (pool tree) i i (pool donor))
  | replace tree s donor => do
    return put pool tree (← replaceRange (pool tree) s.start s.stop (pool donor))
  | replaceWith tree s donor start stop => do
    let taken ← range (pool donor) start stop
    return put pool tree (← replaceRange (pool tree) s.start s.stop taken)
  | swap tree a other b => do
    let (left, right) ← exchangeRanges (pool tree) (pool other) a b
    return put (put pool tree left) other right
  | modify tree i id => do
    let e ← demand (p.entry? id)
    let n := Node.ofValue e id (← p.produce id)
    return put pool tree (← replaceRange (pool tree) i (i + 1) [n])
  | push tree id => do
    let e ← demand (p.entry? id)
    return put pool tree (pool tree ++ [Node.ofValue e id (← p.produce id)])
  | pushLiteral tree id v => do
    let e ← demand (p.entry? id)
    return put pool tree (if e.operator.isLiteral && e.operator.returns = v.type then
      pool tree ++ [Node.ofValue e id (some v)] else pool tree)
  | duplicate source target => return put pool target (pool source)

/-- Edits of trees, one after another. -/
def runEdits (p : Palette C) (pool : Nat → Tree) (edits : List Edit) : Draw (Nat → Tree) :=
  edits.foldlM (Edit.apply p) pool

/-- The same edits of lists of nodes. -/
def runNodeEdits (p : Palette C) (pool : Nat → List Node) (edits : List Edit) :
    Draw (Nat → List Node) :=
  edits.foldlM (Edit.applyNodes p) pool

/-- Numbered trees, and what each of them shows. -/
def ShowAll (p : Palette C) (pool : Nat → Tree) (lists : Nat → List Node) : Prop :=
  ∀ i, (pool i).Shows p (lists i)

namespace ShowAll

variable {pool : Nat → Tree} {lists : Nat → List Node}

theorem put (h : ShowAll p pool lists) (i : Nat) {t : Tree} {xs : List Node} (ht : t.Shows p xs) :
    ShowAll p (Tree.put pool i t) (Tree.put lists i xs) := by
  intro j
  unfold Tree.put
  split
  · exact ht
  · exact h j

/-- An edit with one result. -/
theorem put_draw (h : ShowAll p pool lists) (i : Nat) {x : Draw Tree} {y : Draw (List Node)}
    (hxy : Draw.Alike (Shows p) x y) :
    Draw.Alike (ShowAll p) (do return Tree.put pool i (← x)) (do return Tree.put lists i (← y)) :=
  hxy.bind fun _ _ ht => Draw.Alike.pure (h.put i ht)

theorem put_lift (h : ShowAll p pool lists) (i : Nat) {x : Except Fault Tree}
    {y : Except Fault (List Node)} (hxy : Agree (Shows p) x y) :
    Draw.Alike (ShowAll p) (do return Tree.put pool i (← x)) (do return Tree.put lists i (← y)) :=
  h.put_draw i (Draw.Alike.lift hxy)

theorem apply (h : ShowAll p pool lists) (e : Edit) :
    Draw.Alike (ShowAll p) (e.apply p pool) (e.applyNodes p lists) := by
  cases e with
  | copy source s target =>
    have hcopy := h.put_lift target ((h source).copySubtree (h target) s)
    simpa only [Edit.apply, Edit.applyNodes, liftM_bind, liftM_pure, bind_assoc, pure_bind]
      using hcopy
  | extract source s target =>
    have hextract := (h source).copySubtree .empty s
    simp only [List.nil_append, bind_pure] at hextract
    exact h.put_lift target hextract
  | delete tree s => exact h.put_lift tree ((h tree).deleteSubtree s)
  | insert tree i donor => exact h.put_lift tree ((h tree).insertTree (h donor) i)
  | replace tree s donor => exact h.put_lift tree ((h tree).replaceSubtree (h donor) s)
  | replaceWith tree s donor start stop =>
    have hreplace := h.put_lift tree ((h tree).replaceByRange (h donor) s start stop)
    simpa only [Edit.apply, Edit.applyNodes, liftM_bind, bind_assoc] using hreplace
  | swap tree a other b =>
    refine (Draw.Alike.lift ((h tree).swapSubtrees (h other) a b)).bind fun u zs hu => ?_
    exact Draw.Alike.pure ((h.put tree hu.1).put other hu.2)
  | modify tree i id =>
    have hmodify := h.put_draw tree ((h tree).modify i id)
    simpa only [Edit.apply, Edit.applyNodes, bind_assoc] using hmodify
  | push tree id =>
    have hpush := h.put_draw tree ((h tree).push id)
    simpa only [Edit.apply, Edit.applyNodes, bind_assoc, pure_bind] using hpush
  | pushLiteral tree id v =>
    have hpush := h.put_lift tree ((h tree).pushLiteral id v)
    simpa only [Edit.apply, Edit.applyNodes, liftM_bind, liftM_pure, bind_assoc, pure_bind]
      using hpush
  | duplicate source target => exact Draw.Alike.pure (h.put target (h source).duplicate)

theorem runEdits (h : ShowAll p pool lists) (edits : List Edit) :
    Draw.Alike (ShowAll p) (Tree.runEdits p pool edits) (runNodeEdits p lists edits) := by
  induction edits generalizing pool lists with
  | nil => exact Draw.Alike.pure h
  | cons e edits ih =>
    unfold Tree.runEdits runNodeEdits
    rw [List.foldlM_cons, List.foldlM_cons]
    exact (h.apply e).bind fun _ _ hafter => ih hafter

end ShowAll

/-- Edits of trees whose literals agree with their records, seen from what the trees show, are edits
of lists of nodes: they draw the same, fail at the same edit, and leave trees that show the same
nodes and whose literals still agree. -/
theorem runEdits_shown (pool : Nat → Tree) (h : ∀ i, (pool i).Agrees) (edits : List Edit) :
    (fun after i => (after i).shown p) <$> runEdits p pool edits =
        runNodeEdits p (fun i => (pool i).shown p) edits ∧
      Yields (runEdits p pool edits) fun after => ∀ i, (after i).Agrees := by
  have hshows : ShowAll p pool fun i => (pool i).shown p := fun i => (h i).shows
  have hrun := hshows.runEdits edits
  exact ⟨hrun.map_eq fun after lists hafter => funext fun i => (hafter i).agrees.2,
    hrun.yields fun after lists hafter i => (hafter i).agrees.1⟩

/-! ### Bytes that change places -/

def byte : Operator Unit := ⟨none, .literal .uint8 (pure 7)⟩

def bytePalette : Palette Unit := ⟨⟨[.uint8]⟩, [⟨byte, 0, []⟩], [0], none⟩

/-- Two trees of one byte each; another byte was left behind the second one. -/
def bytePool : Nat → Tree
  | 0 => ⟨[⟨0, 8, ⟨true, false⟩⟩], ⟨[⟨[.word 3], [], 511⟩], none⟩⟩
  | 1 => ⟨[⟨0, 8, ⟨true, false⟩⟩], ⟨[⟨[.word 0x904], [], 511⟩], none⟩⟩
  | _ => .empty

/-- Exchanges the trees, inserts the second before the first and draws one more. -/
def byteEdits : List Edit := [.swap 0 ⟨0, 1, 0⟩ 1 ⟨0, 1, 0⟩, .insert 0 0 1, .push 0 0]

theorem agrees_bytePool (i : Nat) : (bytePool i).Agrees := by
  match i with
  | 0 => exact ⟨List.forall_mem_singleton.2 fun _ => ⟨1, rfl⟩, rfl⟩
  | 1 => exact ⟨List.forall_mem_singleton.2 fun _ => ⟨1, rfl⟩, rfl⟩
  | i + 2 => exact ⟨fun r hr => absurd hr List.not_mem_nil, rfl⟩

theorem runEdits_shown_bytePool : (∀ i, (bytePool i).Agrees) ∧
    (fun after i => (after i).shown bytePalette) <$> runEdits bytePalette bytePool byteEdits =
        runNodeEdits bytePalette (fun i => (bytePool i).shown bytePalette) byteEdits ∧
      Yields (runEdits bytePalette bytePool byteEdits) fun after => ∀ i, (after i).Agrees :=
  ⟨agrees_bytePool, runEdits_shown bytePool agrees_bytePool byteEdits⟩

example : ((runEdits bytePalette bytePool byteEdits default).toOption.map fun after =>
    ((after.1 0).shown bytePalette).map Node.literal) =
      some [[.word 3], [.word 4], [.word 7]] := rfl

end Tree

end GeneticProgramming
