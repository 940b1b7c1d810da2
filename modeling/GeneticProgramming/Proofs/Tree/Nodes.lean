import GeneticProgramming.Proofs.Outcome
import GeneticProgramming.Proofs.Stack.Runs
import GeneticProgramming.Tree.Edit

/-!
# The nodes of a tree

A tree keeps records and literals apart.  `Tree.Lists` says which nodes the two make up together,
and each edit of a tree is the edit of the same name on that list: records are taken, removed and
put in with exactly their own cells.  If each literal was one run on the stack, it still is after
the edit.
-/

namespace GeneticProgramming

namespace Node

/-- A literal takes the words that its record says. -/
def Fits (n : Node) : Prop := n.literal.length = n.record.words

/-- A node that owns no words is just its record. -/
theorem Fits.eq_bare {n : Node} (h : n.Fits) (hwords : n.record.words = 0) :
    n = ⟨n.record, []⟩ := by
  have hnone : n.literal = [] := List.length_eq_zero_iff.1 (h.trans hwords)
  rw [← hnone]

/-- The literals of some nodes; those that own none have an empty one. -/
abbrev literals (ns : List Node) : List (List Cell) := ns.map Node.literal

theorem literals_append (ns ms : List Node) : literals (ns ++ ms) = literals ns ++ literals ms :=
  List.map_append

theorem length_flatten_literals {ns : List Node} (h : ∀ n ∈ ns, n.Fits) :
    (literals ns).flatten.length = Tree.literalWords (ns.map Node.record) := by
  induction ns with
  | nil => rfl
  | cons n ns ih =>
    obtain ⟨hn, hns⟩ := List.forall_mem_cons.1 h
    have hlen : n.literal.length = n.record.words := hn
    simp [← ih hns, hlen]

end Node

namespace Tree

/-! ## Sharing out cells -/

theorem flatten_literals_share (rs : List Record) (cells : List Cell) :
    (Node.literals (share rs cells)).flatten = cells.take (literalWords rs) := by
  induction rs generalizing cells with
  | nil => simp [share]
  | cons r rs ih =>
    simp only [share, List.map_cons, List.flatten_cons, literalWords_cons, List.take_add]
    exact congrArg _ (ih _)

/-- Nodes are found again in their own cells. -/
theorem share_literals {ns : List Node} (h : ∀ n ∈ ns, n.Fits) (rest : List Cell) :
    share (ns.map Node.record) ((Node.literals ns).flatten ++ rest) = ns := by
  induction ns with
  | nil => rfl
  | cons n ns ih =>
    obtain ⟨hn, hns⟩ := List.forall_mem_cons.1 h
    have hlen : n.literal.length = n.record.words := hn
    simp only [List.map_cons, List.flatten_cons, share, List.append_assoc]
    rw [List.take_left' hlen, List.drop_left' hlen, ih hns]

theorem fits_of_mem_share {rs : List Record} {cells : List Cell}
    (h : literalWords rs ≤ cells.length) : ∀ n ∈ share rs cells, n.Fits := by
  induction rs generalizing cells with
  | nil => simp [share]
  | cons r rs ih =>
    rw [literalWords_cons] at h
    refine List.forall_mem_cons.2 ⟨?_, ih (by rw [List.length_drop]; omega)⟩
    exact List.length_take_of_le (by omega)

/-! ## The list of nodes -/

/-- A tree whose records and literals are those of some nodes. -/
structure Lists (t : Tree) (ns : List Node) : Prop where
  records : t.records = ns.map Node.record
  contents : t.values.contents = (Node.literals ns).flatten
  fits : ∀ n ∈ ns, n.Fits

/-- The stack of a tree has one run for each literal. -/
def Paged (t : Tree) : Prop := t.values.Holds (Node.literals t.nodes)

theorem lists_nodes {t : Tree} (h : literalWords t.records = t.values.words) : t.Lists t.nodes := by
  have hlen : literalWords t.records = t.values.contents.length := by
    rw [h, Stack.length_contents]
  refine ⟨(map_record_share _ _).symm, ?_, fits_of_mem_share (Nat.le_of_eq hlen)⟩
  rw [nodes, flatten_literals_share, hlen, List.take_length]

theorem length_nodes (t : Tree) : t.nodes.length = t.size := by
  rw [Tree.size, ← map_record_share t.records t.values.contents, List.length_map]
  rfl

theorem lists_empty : empty.Lists [] := ⟨rfl, rfl, by simp⟩

theorem drop_succ_of_drop {α : Type} {xs ys : List α} {x : α} {i : Nat}
    (h : xs.drop i = x :: ys) : xs.drop (i + 1) = ys := by
  rw [← List.tail_drop, h, List.tail_cons]

/-- A range of a list. -/
abbrev slice {α : Type} (xs : List α) (start stop : Nat) : List α := (xs.take stop).drop start

theorem take_append_slice {α : Type} (xs : List α) {start stop : Nat} (h : start ≤ stop) :
    xs.take start ++ slice xs start stop = xs.take stop := by
  have hsplit := List.take_append_drop start (xs.take stop)
  rwa [List.take_take, Nat.min_eq_left h] at hsplit

theorem take_append_slice_append_drop {α : Type} (xs : List α) {start stop : Nat}
    (h : start ≤ stop) : xs.take start ++ slice xs start stop ++ xs.drop stop = xs := by
  rw [take_append_slice xs h, List.take_append_drop]

theorem slice_succ {α : Type} {xs : List α} {i : Nat} {x : α} (h : xs[i]? = some x) :
    slice xs i (i + 1) = [x] := by
  obtain ⟨hi, hget⟩ := List.getElem?_eq_some_iff.1 h
  rw [slice, List.take_succ_eq_append_getElem hi, hget,
    List.drop_left' (List.length_take_of_le (Nat.le_of_lt hi))]

theorem mem_of_mem_slice {α : Type} {xs : List α} {start stop : Nat} {x : α}
    (h : x ∈ slice xs start stop) : x ∈ xs :=
  List.mem_of_mem_take (List.mem_of_mem_drop h)

/-! ## Edits of lists -/

/-- The nodes of a range, which has to lie within the list. -/
def range (ns : List Node) (start stop : Nat) : Except Fault (List Node) :=
  if start ≤ stop ∧ stop ≤ ns.length then .ok (slice ns start stop) else .error .missingIndex

/-- Puts nodes in the place of a range. -/
def replaceRange (ns : List Node) (start stop : Nat) (ms : List Node) : Except Fault (List Node) :=
  if start ≤ stop ∧ stop ≤ ns.length then .ok (ns.take start ++ ms ++ ns.drop stop)
  else .error .missingIndex

/-- Exchanges a range of one list with a range of another. -/
def exchangeRanges (ns ms : List Node) (a b : Subtree) : Except Fault (List Node × List Node) := do
  let here ← range ns a.start a.stop
  let there ← range ms b.start b.stop
  return (← replaceRange ns a.start a.stop there, ← replaceRange ms b.start b.stop here)

/-- A tree that lists given nodes; if an earlier one was paged, it is. -/
def ListsAfter (t u : Tree) (ns : List Node) : Prop := u.Lists ns ∧ (t.Paged → u.Paged)

namespace Lists

variable {t other : Tree} {ns ms : List Node} {start stop : Nat}

theorem nodes_eq (h : t.Lists ns) : t.nodes = ns := by
  have hshare := share_literals h.fits []
  rwa [List.append_nil, ← h.contents, ← h.records] at hshare

theorem size_eq (h : t.Lists ns) : t.size = ns.length := by
  rw [size, h.records, List.length_map]

theorem literalWords_eq (h : t.Lists ns) : literalWords t.records = t.values.words := by
  rw [← Stack.length_contents, h.contents, Node.length_flatten_literals h.fits, h.records]

theorem paged_iff (h : t.Lists ns) : t.Paged ↔ t.values.Holds (Node.literals ns) := by
  rw [Paged, h.nodes_eq]

theorem duplicate (h : t.Lists ns) : t.duplicate.Lists ns := ⟨h.records, h.contents, h.fits⟩

theorem recordsIn_eq (h : t.Lists ns) :
    t.recordsIn start stop = (slice ns start stop).map Node.record := by
  rw [recordsIn, h.records, List.map_drop, List.map_take]

theorem wordsBefore_eq (h : t.Lists ns) (i : Nat) :
    t.wordsBefore i = (Node.literals (ns.take i)).flatten.length := by
  rw [wordsBefore, h.records, ← List.map_take,
    Node.length_flatten_literals fun n hn => h.fits n (List.mem_of_mem_take hn)]

theorem literalWords_recordsIn (h : t.Lists ns) :
    literalWords (t.recordsIn start stop) =
      (Node.literals (slice ns start stop)).flatten.length := by
  rw [h.recordsIn_eq, Node.length_flatten_literals fun n hn => h.fits n (mem_of_mem_slice hn)]

theorem contents_split (h : t.Lists ns) (hle : start ≤ stop) :
    t.values.contents = (Node.literals (ns.take start)).flatten ++
      (Node.literals (slice ns start stop)).flatten ++ (Node.literals (ns.drop stop)).flatten := by
  rw [h.contents, ← List.flatten_append, ← List.flatten_append, ← Node.literals_append,
    ← Node.literals_append, take_append_slice_append_drop ns hle]

theorem checkRange_eq (h : t.Lists ns) :
    t.checkRange start stop =
      if start ≤ stop ∧ stop ≤ ns.length then .ok () else .error .missingIndex := by
  rw [checkRange, h.size_eq]
  simp only [Bool.and_eq_true, decide_eq_true_eq]

/-- The cells of a range are the literals of its nodes. -/
theorem cellsIn_agree (h : t.Lists ns) :
    Agree (fun cells ms => cells = (Node.literals ms).flatten ∧ (∀ n ∈ ms, n.Fits) ∧
        t.recordsIn start stop = ms.map Node.record)
      (t.cellsIn start stop) (range ns start stop) := by
  rw [cellsIn, h.checkRange_eq, range]
  by_cases hr : start ≤ stop ∧ stop ≤ ns.length
  · rw [if_pos hr, if_pos hr, h.wordsBefore_eq, h.literalWords_recordsIn]
    change Agree _ (trust _) _
    rw [Stack.copyRun_eq (h.contents_split hr.1)]
    exact Agree.ok ⟨rfl, fun n hn => h.fits n (mem_of_mem_slice hn), h.recordsIn_eq⟩
  · rw [if_neg hr, if_neg hr]
    exact Agree.error _

/-- A range of nodes gives way to others. -/
theorem splice_agree (h : t.Lists ns) (hms : ∀ n ∈ ms, n.Fits) :
    Agree (ListsAfter t) (t.splice start stop (ms.map Node.record) (Node.literals ms).flatten)
      (replaceRange ns start stop ms) := by
  rw [Tree.splice, h.checkRange_eq, replaceRange]
  by_cases hr : start ≤ stop ∧ stop ≤ ns.length
  case neg =>
    rw [if_neg hr, if_neg hr]
    exact Agree.error _
  obtain ⟨rest, -, hrest, hsplice⟩ :=
    Stack.splice_eq (h.contents_split hr.1) (Node.literals ms).flatten
  rw [if_pos hr, if_pos hr, h.wordsBefore_eq, h.literalWords_recordsIn, hsplice]
  have hfits : ∀ n ∈ ns.take start ++ ms ++ ns.drop stop, n.Fits := by
    intro n hn
    simp only [List.mem_append] at hn
    rcases hn with (hn | hn) | hn
    · exact h.fits n (List.mem_of_mem_take hn)
    · exact hms n hn
    · exact h.fits n (List.mem_of_mem_drop hn)
  have hu : Lists ⟨t.records.take start ++ ms.map Node.record ++ t.records.drop stop,
      (rest.pushRun (Node.literals ms).flatten).pushRun (Node.literals (ns.drop stop)).flatten⟩
      (ns.take start ++ ms ++ ns.drop stop) :=
    ⟨by simp [h.records], by simp [Stack.contents_pushRun, hrest], hfits⟩
  refine Agree.ok ⟨hu, fun hpaged => ?_⟩
  -- the same splice, seen from the runs
  have hruns : t.values.Holds (Node.literals (ns.take start) ++
      Node.literals (slice ns start stop) ++ Node.literals (ns.drop stop)) := by
    rw [← Node.literals_append, ← Node.literals_append, take_append_slice_append_drop ns hr.1]
    exact h.paged_iff.1 hpaged
  obtain ⟨values, hvalues, hholds⟩ := hruns.splice (Node.literals ms)
  rw [hsplice] at hvalues
  injection hvalues with _ hvalues
  rw [hu.paged_iff, Node.literals_append, Node.literals_append]
  rwa [← hvalues] at hholds

/-! ## Edits of trees -/

/-- Appending cells as one run keeps the runs apart that they are made of. -/
theorem pushRun (h : t.Lists ns) (hms : ∀ n ∈ ms, n.Fits) :
    ListsAfter t ⟨t.records ++ ms.map Node.record, t.values.pushRun (Node.literals ms).flatten⟩
      (ns ++ ms) := by
  have hu : Lists ⟨t.records ++ ms.map Node.record,
      t.values.pushRun (Node.literals ms).flatten⟩ (ns ++ ms) := by
    refine ⟨by simp [h.records], by simp [Stack.contents_pushRun, h.contents], fun n hn => ?_⟩
    rcases List.mem_append.1 hn with hn | hn
    · exact h.fits n hn
    · exact hms n hn
  refine ⟨hu, fun hpaged => ?_⟩
  have hholds := (h.paged_iff.1 hpaged).pushRun (Node.literals ms).flatten
  have hpieces := Stack.Holds.refine (b := []) (by simpa using hholds)
  rw [hu.paged_iff, Node.literals_append]
  simpa using hpieces

theorem copySubtree_agree (h : t.Lists ns) (ho : other.Lists ms) (s : Subtree) :
    Agree (ListsAfter other) (t.copySubtree s other)
      (do return ms ++ (← range ns s.start s.stop)) := by
  refine h.cellsIn_agree.bind fun cells xs hxs => ?_
  obtain ⟨rfl, hfits, hrecords⟩ := hxs
  rw [hrecords]
  exact Agree.ok (ho.pushRun hfits)

theorem deleteSubtree_agree (h : t.Lists ns) (s : Subtree) :
    Agree (ListsAfter t) (t.deleteSubtree s) (replaceRange ns s.start s.stop []) := by
  have hnone : ∀ n ∈ ([] : List Node), n.Fits := fun n hn => absurd hn List.not_mem_nil
  have hsplice : Agree (ListsAfter t) (t.splice s.start s.stop (([] : List Node).map Node.record)
      (Node.literals []).flatten) (replaceRange ns s.start s.stop []) := h.splice_agree hnone
  rw [Tree.deleteSubtree]
  simpa only [List.map_nil, List.flatten_nil] using hsplice

theorem insertTree_agree (h : t.Lists ns) (ho : other.Lists ms) (i : Nat) :
    Agree (ListsAfter t) (t.insertTree i other) (replaceRange ns i i ms) := by
  rw [Tree.insertTree, ho.records, ho.contents]
  exact h.splice_agree ho.fits

theorem replaceByRange_agree (h : t.Lists ns) (ho : other.Lists ms) (s : Subtree)
    (first last : Nat) :
    Agree (ListsAfter t) (t.replaceByRange s other first last)
      (do replaceRange ns s.start s.stop (← range ms first last)) := by
  refine ho.cellsIn_agree.bind fun cells xs hxs => ?_
  obtain ⟨rfl, hfits, hrecords⟩ := hxs
  rw [hrecords]
  exact h.splice_agree hfits

theorem replaceSubtree_agree (h : t.Lists ns) (ho : other.Lists ms) (s : Subtree) :
    Agree (ListsAfter t) (t.replaceSubtree s other) (replaceRange ns s.start s.stop ms) := by
  have hwhole : range ms 0 ms.length = .ok ms := by
    rw [range, if_pos ⟨Nat.zero_le _, Nat.le_refl _⟩]
    simp [slice]
  have hagree := h.replaceByRange_agree ho s 0 ms.length
  rw [hwhole] at hagree
  rwa [Tree.replaceSubtree, ho.size_eq]

theorem swapSubtrees_agree (h : t.Lists ns) (ho : other.Lists ms) (a b : Subtree) :
    Agree (fun u xs => ListsAfter t u.1 xs.1 ∧ ListsAfter other u.2 xs.2)
      (t.swapSubtrees a other b) (exchangeRanges ns ms a b) := by
  unfold Tree.swapSubtrees exchangeRanges
  refine h.cellsIn_agree.bind fun here xs hxs => ?_
  refine ho.cellsIn_agree.bind fun there ys hys => ?_
  obtain ⟨rfl, hxfits, hxrecords⟩ := hxs
  obtain ⟨rfl, hyfits, hyrecords⟩ := hys
  rw [hxrecords, hyrecords]
  refine (h.splice_agree hyfits).bind fun u left hleft => ?_
  refine (ho.splice_agree hxfits).bind fun v right hright => ?_
  exact Agree.ok ⟨hleft, hright⟩

end Lists

end Tree

end GeneticProgramming
