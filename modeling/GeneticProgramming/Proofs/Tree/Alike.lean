import GeneticProgramming.Proofs.Outcome
import GeneticProgramming.Proofs.Stack.Runs
import GeneticProgramming.Tree.Edit

/-!
# Alike trees

Two trees are alike if they have the same records and the same cells, however the cells are spread
over pages.  Walks look at the records alone, what is copied from a tree is told by records and
cells, and an edit of alike trees leaves alike trees or fails in the same way.
-/

namespace GeneticProgramming

namespace Stack

variable {s s' : Stack}

theorem copyRun_congr (h : s.contents = s'.contents) (start words : Nat) :
    s.copyRun start words = s'.copyRun start words := by
  have hwords : s.words = s'.words := by rw [← length_contents, h, length_contents]
  simp only [copyRun, size, hwords, h]

theorem splice_congr (h : s.contents = s'.contents) (start removed : Nat) (run : List Cell) :
    (s.splice start removed run).1 = (s'.splice start removed run).1 ∧
      (s.splice start removed run).2.contents = (s'.splice start removed run).2.contents := by
  have hwords : s'.words = s.words := by rw [← length_contents, ← h, length_contents]
  by_cases hle : s.words < start + removed
  · unfold splice
    rw [if_pos hle, hwords, if_pos hle, size, size, hwords]
    exact ⟨rfl, h⟩
  · have hsplit : s.contents = s.contents.take start ++ (s.contents.drop start).take removed ++
        s.contents.drop (start + removed) := by
      rw [List.append_assoc, ← List.drop_drop, List.take_append_drop, List.take_append_drop]
    have hstart : (s.contents.take start).length = start := by
      rw [List.length_take, length_contents]
      omega
    have hremoved : ((s.contents.drop start).take removed).length = removed := by
      rw [List.length_take, List.length_drop, length_contents]
      omega
    obtain ⟨rest, -, hrest, hs⟩ := splice_eq hsplit run
    obtain ⟨rest', -, hrest', hs'⟩ := splice_eq (h.symm.trans hsplit) run
    rw [hstart, hremoved] at hs hs'
    rw [hs, hs']
    simp only [contents_pushRun, hrest, hrest', and_self]

end Stack

namespace Tree

variable {C : Type} {p : Palette C} {t u : Tree}

structure Alike (t u : Tree) : Prop where
  records : t.records = u.records
  contents : t.values.contents = u.values.contents

namespace Alike

theorem refl (t : Tree) : t.Alike t := ⟨rfl, rfl⟩

theorem symm (h : t.Alike u) : u.Alike t := ⟨h.records.symm, h.contents.symm⟩

theorem trans {v : Tree} (h : t.Alike u) (h' : u.Alike v) : t.Alike v :=
  ⟨h.records.trans h'.records, h.contents.trans h'.contents⟩

theorem duplicate (h : t.Alike u) : t.duplicate.Alike u.duplicate := ⟨h.records, h.contents⟩

/-! ## Walks -/

/-- What looks at the records alone sees no difference. -/
theorem told (h : t.Alike u) {α : Type} (look : Tree → α)
    (hlook : ∀ rs v w, look ⟨rs, v⟩ = look ⟨rs, w⟩) : look t = look u := by
  obtain ⟨rs, v⟩ := t
  obtain ⟨rs', w⟩ := u
  obtain rfl : rs = rs' := h.records
  exact hlook rs v w

theorem size (h : t.Alike u) : t.size = u.size := h.told (fun t => t.size) fun _ _ _ => rfl

theorem isEmpty (h : t.Alike u) : t.isEmpty = u.isEmpty :=
  h.told (fun t => t.isEmpty) fun _ _ _ => rfl

theorem depth (h : t.Alike u) : t.depth p = u.depth p :=
  h.told (fun t => t.depth p) fun _ _ _ => rfl

theorem parents (h : t.Alike u) : t.parents p = u.parents p :=
  h.told (fun t => t.parents p) fun _ _ _ => rfl

theorem endpoint (h : t.Alike u) (i : Nat) : t.endpoint p i = u.endpoint p i :=
  h.told (fun t => t.endpoint p i) fun _ _ _ => rfl

theorem arityAt (h : t.Alike u) (i : Nat) : t.arityAt p i = u.arityAt p i :=
  h.told (fun t => t.arityAt p i) fun _ _ _ => rfl

theorem subtree? (h : t.Alike u) (i : Nat) : t.subtree? p i = u.subtree? p i :=
  h.told (fun t => t.subtree? p i) fun _ _ _ => rfl

theorem subtree (h : t.Alike u) (i : Nat) : t.subtree p i = u.subtree p i :=
  congrArg demand (h.subtree? i)

theorem siblings (h : t.Alike u) (count i : Nat) : t.siblings p count i = u.siblings p count i := by
  induction count generalizing i with
  | zero => rfl
  | succ count ih => simp only [Tree.siblings, h.subtree? i, ih]

theorem children (h : t.Alike u) (i : Nat) : t.children p i = u.children p i := by
  have harguments : t.arguments p i = u.arguments p i := by
    rw [arguments, arguments, h.arityAt, h.siblings]
  unfold Tree.children
  rw [h.records, harguments, h.arityAt]

/-! ## Edits -/

theorem checkRange (h : t.Alike u) (start stop : Nat) :
    t.checkRange start stop = u.checkRange start stop :=
  h.told (fun t => t.checkRange start stop) fun _ _ _ => rfl

theorem cellsIn (h : t.Alike u) (start stop : Nat) :
    t.cellsIn start stop = u.cellsIn start stop := by
  simp only [Tree.cellsIn, h.checkRange, wordsBefore, recordsIn, h.records,
    Stack.copyRun_congr h.contents]

theorem copySubtree (h : t.Alike u) (s : Subtree) (out : Tree) :
    t.copySubtree s out = u.copySubtree s out := by
  simp only [Tree.copySubtree, Tree.recordsIn, h.cellsIn, h.records]

theorem splice (h : t.Alike u) (start stop : Nat) (records : List Record) (cells : List Cell) :
    Agree Alike (t.splice start stop records cells) (u.splice start stop records cells) := by
  simp only [Tree.splice, h.checkRange, wordsBefore, recordsIn, h.records]
  refine Agree.same fun _ => ?_
  obtain ⟨hresult, hcontents⟩ := Stack.splice_congr h.contents (literalWords (u.records.take start))
    (literalWords ((u.records.take stop).drop start)) cells
  rw [hresult]
  refine Agree.same fun _ => ?_
  exact Agree.ok ⟨rfl, hcontents⟩

theorem replaceSubtree (h : t.Alike u) (s : Subtree) (other : Tree) :
    Agree Alike (t.replaceSubtree s other) (u.replaceSubtree s other) := by
  refine Agree.same fun cells => ?_
  exact h.splice _ _ _ _

theorem swapSubtrees {t' u' : Tree} (h : t.Alike u) (h' : t'.Alike u') (a b : Subtree) :
    Agree (fun x y => x.1.Alike y.1 ∧ x.2.Alike y.2) (t.swapSubtrees a t' b)
      (u.swapSubtrees a u' b) := by
  simp only [Tree.swapSubtrees, h.cellsIn, h'.cellsIn]
  refine Agree.same fun here => ?_
  refine Agree.same fun there => ?_
  simp only [Tree.recordsIn, h.records, h'.records]
  refine Agree.bind (h.splice _ _ _ _) fun left left' hleft => ?_
  refine Agree.bind (h'.splice _ _ _ _) fun right right' hright => ?_
  exact Agree.ok ⟨hleft, hright⟩

theorem modify (h : t.Alike u) (i : Nat) (id : OperatorId) :
    Draw.Alike Alike (t.modify p i id) (u.modify p i id) := by
  refine Draw.Alike.same fun e => ?_
  refine Draw.Alike.same fun value => ?_
  exact Draw.Alike.lift (h.splice _ _ _ _)

end Alike

end Tree

end GeneticProgramming
