import GeneticProgramming.Evaluation
import GeneticProgramming.Proofs.Tree.Alike
import GeneticProgramming.Proofs.Tree.Genuine
import GeneticProgramming.Run.Cases

/-!
# Evaluation of alike trees

Each literal is one run, so an evaluation reads the same cells whatever pages they lie in: alike
trees evaluate to the same workspace, or to the same fault, and add up the same over cases.
-/

namespace GeneticProgramming

variable {C : Type} {p : Palette C} {t u : Tree}

namespace Tree.Alike

theorem nodes (h : t.Alike u) : t.nodes = u.nodes := by
  rw [Tree.nodes, Tree.nodes, h.records, h.contents]

theorem words (h : t.Alike u) : t.values.words = u.values.words := by
  rw [← Stack.length_contents, h.contents, Stack.length_contents]

theorem meaning (h : t.Alike u) : t.meaning? p = u.meaning? p := by
  rw [Tree.meaning?, Tree.meaning?, h.words, h.records, h.nodes]

end Tree.Alike

namespace Workspace

/-- Stacks that hold the same literals are walked alike, and the literals that were read are counted
by the records. -/
theorem walk_congr {literals literals' : Stack} {before : List (List Cell)} {ns : List Node}
    (hns : ∀ n ∈ ns, n.Fits) (h : literals.Holds (before ++ Node.literals ns))
    (h' : literals'.Holds (before ++ Node.literals ns)) (context : C) (s : Stack) :
    walk p literals context s (ns.map Node.record) =
        walk p literals' context s (ns.map Node.record) ∧
      ∀ s' cursor, walk p literals context s (ns.map Node.record) = .ok (s', cursor) →
        cursor = (Node.literals ns).flatten.length := by
  induction ns generalizing before with
  | nil =>
    refine ⟨rfl, fun s' cursor hwalk => ?_⟩
    injection hwalk with hwalk
    injection hwalk with _ hcursor
    exact hcursor.symm
  | cons n ns ih =>
    obtain ⟨hn, hns⟩ := List.forall_mem_cons.1 hns
    have hsplit :
        before ++ Node.literals (n :: ns) = before ++ [n.literal] ++ Node.literals ns := by
      rw [List.append_assoc]
      rfl
    rw [hsplit] at h h'
    obtain ⟨hwalk, hcursor⟩ := ih hns h h'
    have hn : n.literal.length = n.record.words := hn
    have hlen : (Node.literals (n :: ns)).flatten.length =
        n.record.words + (Node.literals ns).flatten.length := by
      rw [Node.literals, List.map_cons, List.flatten_cons, List.length_append, hn]
    rw [List.map_cons]
    unfold walk
    rw [← hwalk]
    cases hbelow : walk p literals context s (ns.map Node.record) with
    | error e => exact ⟨rfl, nofun⟩
    | ok below =>
      obtain ⟨s₁, cursor⟩ := below
      obtain rfl := hcursor s₁ cursor hbelow
      have hrun := h.runAt
      have hrun' := h'.runAt
      rw [hn] at hrun hrun'
      dsimp only [bind, Except.bind]
      split
      · rw [hrun, hrun']
        refine ⟨rfl, fun s' cursor' hwalk => ?_⟩
        injection hwalk with hwalk
        injection hwalk with _ hcount
        rw [hlen, ← hcount, Nat.add_comm]
      · next hliteral =>
        refine ⟨rfl, fun s' cursor' hwalk => ?_⟩
        obtain ⟨_, -, hwalk⟩ := exists_of_bind_eq_ok hwalk
        injection hwalk with hwalk
        injection hwalk with _ hcount
        rw [hlen, ← hcount, Record.words, if_neg hliteral, Nat.zero_add]

/-- Alike trees whose literals are one run each evaluate alike in any workspace. -/
theorem evaluate_congr (ht : t.Sound p) (hu : u.Sound p) (h : t.Alike u) (w : Workspace)
    (context : C) : w.evaluate p t context = w.evaluate p u context := by
  have hheld : t.values.Holds ([] ++ Node.literals t.nodes) := ht.2
  have hheld' : u.values.Holds ([] ++ Node.literals t.nodes) := h.nodes ▸ hu.2
  have hwalk : ∀ s, walk p t.values context s u.records = walk p u.values context s u.records := by
    intro s
    rw [← h.records, ht.1.lists.records]
    exact (walk_congr ht.1.lists.fits hheld hheld' context s).1
  have hsize : t.values.size = u.values.size := by
    rw [Stack.size, Stack.size, h.words]
  unfold evaluate
  simp only [hwalk, hsize, h.size, h.records]

end Workspace

namespace Palette

theorem evaluate_congr (ht : t.Sound p) (hu : u.Sound p) (h : t.Alike u) (type : ValueType)
    (context : C) : p.evaluate t type context = p.evaluate u type context := by
  unfold Palette.evaluate
  rw [Workspace.evaluate_congr ht hu h]

theorem foldEvaluations_congr {Case α : Type} (ht : t.Sound p) (hu : u.Sound p) (h : t.Alike u)
    (type : ValueType) (context : Case → C) (add : α → Case → type.Carrier → α) (sum : α)
    (cases : List Case) : p.foldEvaluations t type context add sum cases =
      p.foldEvaluations u type context add sum cases := by
  induction cases generalizing sum with
  | nil => rfl
  | cons c cs ih =>
    unfold foldEvaluations
    rw [evaluate_congr ht hu h]
    simp only [ih]

/-- Alike trees add up to the same over any cases. -/
theorem foldCases_congr {Case α : Type} (ht : t.Sound p) (hu : u.Sound p) (h : t.Alike u)
    (type : ValueType) (context : Case → C) (add : α → Case → type.Carrier → α) (sum : α)
    (cases : List Case) : p.foldCases t type context add sum cases =
      p.foldCases u type context add sum cases := by
  unfold foldCases
  rw [h.meaning, foldEvaluations_congr ht hu h]

end Palette

end GeneticProgramming
