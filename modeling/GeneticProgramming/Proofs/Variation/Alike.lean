import GeneticProgramming.Proofs.Tree.Alike
import GeneticProgramming.Variation.Crossover
import GeneticProgramming.Variation.Mutation

/-!
# Variation of alike trees

Points are chosen from records alone, and new material is built from copied records and cells, so
alike parents draw the same words, build the same material, and leave alike children.
-/

namespace GeneticProgramming

open GeneticProgramming.Tree

variable {C : Type} {p : Palette C} {t t' u u' : Tree}

/-! ## Points -/

namespace PointSelector

variable (s : PointSelector)

theorem walk_congr (h : t.Alike u) (rounds node depth : Nat) :
    s.walk p t rounds node depth = s.walk p u rounds node depth := by
  induction rounds generalizing node depth with
  | zero => rfl
  | succ rounds ih => simp only [walk, h.children, ih]

theorem select_congr (h : t.Alike u) : s.select p t = s.select p u := by
  have heven : s.even p t = s.even p u := h.told (fun t => s.even p t) fun _ _ _ => rfl
  unfold select
  rw [h.size, s.walk_congr h, heven]

end PointSelector

/-! ## Refilling arguments -/

namespace Refill

theorem arguments_congr (h : t.Alike u) (g : Generator) (w : DepthWindow) (types : List TypeId)
    (children : List Subtree) (out : Tree) :
    arguments p g w t types children out = arguments p g w u types children out := by
  induction types generalizing children out with
  | nil => rfl
  | cons type types ih =>
    unfold arguments
    cases takeFirst type children with
    | none => simp only [ih]
    | some found => simp only [h.copySubtree, ih]

theorem head_congr (h : t.Alike u) (i : Nat) (out : Tree) : head p t i out = head p u i out := by
  simp only [head, h.records, h.subtree, h.copySubtree]

end Refill

/-! ## Crossover -/

namespace Crossover

variable (c : Crossover)

theorem compatible_congr (h : t.Alike u) (h' : t'.Alike u') (a b : Subtree) :
    c.compatible p t a t' b = c.compatible p u a u' b := by
  simp only [compatible, h.records, h'.records]

theorem findPartner_congr (h : t.Alike u) (h' : t'.Alike u') (a : Subtree) (tries : Nat) :
    c.findPartner p t a t' tries = c.findPartner p u a u' tries := by
  induction tries with
  | zero => rfl
  | succ tries ih =>
    simp only [findPartner, c.points.select_congr h', h'.subtree, c.compatible_congr h h', ih]

theorem findPoints_congr (h : t.Alike u) (h' : t'.Alike u') :
    c.findPoints p t t' = c.findPoints p u u' := by
  simp only [findPoints, c.points.select_congr h, h.subtree, c.findPartner_congr h h']

theorem rebuild_congr (h : t.Alike u) (h' : t'.Alike u') (a b : Subtree) :
    c.rebuild p t a t' b = c.rebuild p u a u' b := by
  simp only [rebuild, Refill.head_congr h, h.records, h'.children, Refill.arguments_congr h']

theorem apply_alike (h : t.Alike u) (h' : t'.Alike u') :
    Attempt.Alike (fun x y => x.1.Alike y.1 ∧ x.2.Alike y.2) (c.apply p t t') (c.apply p u u') := by
  have hsize : c.checkSize t = c.checkSize u := by simp only [checkSize, h.size]
  have hsize' : c.checkSize t' = c.checkSize u' := by simp only [checkSize, h'.size]
  unfold apply
  rw [hsize, hsize', c.findPoints_congr h h']
  refine Attempt.Alike.same fun _ => ?_
  refine Attempt.Alike.same fun _ => ?_
  refine Attempt.Alike.same fun points => ?_
  obtain ⟨a, b⟩ := points
  dsimp only
  split
  · rw [c.rebuild_congr h' h, c.rebuild_congr h h']
    refine Attempt.Alike.same fun left => ?_
    refine Attempt.Alike.same fun right => ?_
    refine Attempt.Alike.bind (Attempt.Alike.lift (h.duplicate.replaceSubtree a left)) ?_
    intro x y hxy
    refine Attempt.Alike.bind (Attempt.Alike.lift (h'.duplicate.replaceSubtree b right)) ?_
    intro x' y' hxy'
    exact Attempt.Alike.pure ⟨hxy, hxy'⟩
  · exact Attempt.Alike.lift (h.duplicate.swapSubtrees h'.duplicate a b)

end Crossover

/-! ## Mutation -/

namespace Mutation

variable (m : Mutation) {s : Subtree}

theorem replaceSubtree_alike (h : t.Alike u) (s : Subtree) (other : Tree) :
    Attempt.Alike Tree.Alike (t.replaceSubtree s other) (u.replaceSubtree s other) :=
  Attempt.Alike.lift (h.replaceSubtree s other)

theorem applyPoint_alike (h : t.Alike u) :
    Attempt.Alike Tree.Alike (m.applyPoint p t) (m.applyPoint p u) := by
  unfold applyPoint
  rw [m.points.select_congr h]
  refine Attempt.Alike.same fun i => ?_
  rw [h.subtree]
  refine Attempt.Alike.same fun s => ?_
  refine Attempt.Alike.same fun other => ?_
  exact replaceSubtree_alike h s other

theorem adjust_alike (h : t.Alike u) (s : Subtree) :
    Attempt.Alike Tree.Alike (m.adjust p t s) (m.adjust p u s) := by
  refine Attempt.Alike.ite (by rw [h.arityAt]) (fun _ => ?_) fun _ => ?_
  · refine Attempt.Alike.same fun found => ?_
    cases found with
    | some id => exact Attempt.Alike.draw (h.modify s.start id)
    | none => exact Attempt.Alike.pure h
  · refine Attempt.Alike.same fun found => ?_
    cases found with
    | some id =>
      dsimp only
      simp only [h.children, Refill.arguments_congr h]
      refine Attempt.Alike.same fun head => ?_
      refine Attempt.Alike.same fun children => ?_
      refine Attempt.Alike.same fun other => ?_
      exact replaceSubtree_alike h s other
    | none => exact Attempt.Alike.pure h

theorem wrap_congr (h : t.Alike u) (s : Subtree) (slot i : Nat) (types : List TypeId) (out : Tree) :
    m.wrap p t s slot i types out = m.wrap p u s slot i types out := by
  induction types generalizing i out with
  | nil => rfl
  | cons type types ih => simp only [wrap, h.copySubtree, ih]

theorem sub_alike (h : t.Alike u) (s : Subtree) :
    Attempt.Alike Tree.Alike (m.sub p t s) (m.sub p u s) := by
  refine Attempt.Alike.same fun found => ?_
  cases found with
  | some id =>
    dsimp only
    simp only [m.wrap_congr h]
    refine Attempt.Alike.same fun slot => ?_
    refine Attempt.Alike.same fun head => ?_
    refine Attempt.Alike.same fun other => ?_
    exact replaceSubtree_alike h s other
  | none => exact Attempt.Alike.pure h

theorem ancestor?_congr (h : t.Alike u) (type : TypeId) (rounds node : Nat) :
    ancestor? p t type rounds node = ancestor? p u type rounds node := by
  induction rounds generalizing node with
  | zero => rfl
  | succ rounds ih => simp only [ancestor?, h.parents, h.subtree?, ih]

theorem jump_agree (h : t.Alike u) (s : Subtree) :
    Agree (fun x y => x.1.Alike y.1 ∧ x.2 = y.2) (jump p t s) (jump p u s) := by
  unfold jump
  rw [h.size, ancestor?_congr h]
  cases ancestor? p u s.returns u.size s.start with
  | some target =>
    dsimp only [extractSubtree]
    rw [h.copySubtree]
    refine Agree.same fun other => ?_
    refine Agree.bind (h.replaceSubtree target other) fun v w hvw => ?_
    exact Agree.ok ⟨hvw, hvw.endpoint target.start⟩
  | none => exact Agree.ok ⟨h, rfl⟩

theorem copy_alike (h : t.Alike u) (s : Subtree) :
    Draw.Alike Tree.Alike (copy p t s) (copy p u s) := by
  unfold copy
  simp only [h.size, h.subtree]
  refine Draw.Alike.same fun all => ?_
  refine Draw.Alike.same fun found => ?_
  cases found with
  | some source =>
    dsimp only [extractSubtree]
    rw [h.copySubtree]
    refine Draw.Alike.same fun other => ?_
    exact Draw.Alike.lift (h.replaceSubtree s other)
  | none => exact Draw.Alike.pure h

theorem edit_alike (h : t.Alike u) (i : Nat) (kind : MutationEdit) :
    Attempt.Alike (fun x y => x.1.Alike y.1 ∧ x.2 = y.2) (m.edit p t i kind)
      (m.edit p u i kind) := by
  unfold edit
  rw [h.subtree]
  refine Attempt.Alike.same fun s => ?_
  cases kind with
  | expression =>
    refine Attempt.Alike.same fun other => ?_
    refine Attempt.Alike.bind (replaceSubtree_alike h s other) fun v w hvw => ?_
    exact Attempt.Alike.pure ⟨hvw, hvw.endpoint i⟩
  | adjust =>
    refine Attempt.Alike.bind (m.adjust_alike h s) fun v w hvw => ?_
    exact Attempt.Alike.pure ⟨hvw, hvw.endpoint i⟩
  | sub =>
    refine Attempt.Alike.bind (m.sub_alike h s) fun v w hvw => ?_
    exact Attempt.Alike.pure ⟨hvw, hvw.endpoint i⟩
  | jump => exact Attempt.Alike.lift (jump_agree h s)
  | copy =>
    refine Attempt.Alike.bind (Attempt.Alike.draw (copy_alike h s)) fun v w hvw => ?_
    exact Attempt.Alike.pure ⟨hvw, hvw.endpoint i⟩

theorem scan_alike (h : t.Alike u) (chance : Double) (weights : Option Weights) (rounds i : Nat) :
    Attempt.Alike Tree.Alike (m.scan p chance weights rounds i t)
      (m.scan p chance weights rounds i u) := by
  induction rounds generalizing i t u with
  | zero => exact Attempt.Alike.pure h
  | succ rounds ih =>
    refine Attempt.Alike.ite (by rw [h.size]) (fun _ => Attempt.Alike.pure h) fun _ => ?_
    refine Attempt.Alike.same fun hit => ?_
    refine Attempt.Alike.ite Iff.rfl (fun _ => ?_) fun _ => ih h (i + 1)
    refine Attempt.Alike.same fun kind => ?_
    refine Attempt.Alike.bind (m.edit_alike h i kind) fun out out' hout => ?_
    obtain ⟨v, stop⟩ := out
    obtain ⟨w, stop'⟩ := out'
    obtain ⟨hvw, rfl⟩ := hout
    exact ih hvw (max stop (i + 1))

/-- Mutants of alike trees are alike. -/
theorem apply_alike (h : t.Alike u) :
    Attempt.Alike Tree.Alike (m.apply p t) (m.apply p u) := by
  refine Attempt.Alike.ite (by rw [h.isEmpty]) (fun _ => Attempt.Alike.pure h) fun _ => ?_
  cases m.kind with
  | point => exact m.applyPoint_alike h
  | advanced =>
    unfold applyAdvanced nodeChance
    rw [h.size]
    refine Attempt.Alike.same fun weights => ?_
    exact m.scan_alike h _ weights _ 0

end Mutation

end GeneticProgramming
