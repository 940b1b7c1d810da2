import GeneticProgramming.Variation.Point

/-!
# Crossover

Two parents exchange material at points of the same type: whole subtrees, or nodes that keep the
arguments of the place they are moved to.
-/

namespace GeneticProgramming

inductive CrossoverKind where
  | subtree
  /-- Exchanges subtrees whose roots take the same argument types in any order. -/
  | onePoint
  /-- Exchanges nodes and refills their arguments. -/
  | advanced
deriving DecidableEq, Repr

structure Crossover where
  kind : CrossoverKind
  tries : Nat
  minTreeSize : Nat
  points : PointSelector
  replacement : DepthWindow
  generator : Generator
deriving DecidableEq, Repr

namespace Crossover

variable {C : Type} (p : Palette C) (c : Crossover)

/-- No parent has fewer nodes than this. -/
def leastSize : Nat := max c.minTreeSize 1

def checkSize (t : Tree) : Except GenerationError Unit :=
  if t.size < c.leastSize then .error (.treeTooSmall t.size c.leastSize) else .ok ()

/-- Whether points of two parents may be exchanged. -/
def compatible (t : Tree) (a : Subtree) (u : Tree) (b : Subtree) : Bool :=
  a.returns = b.returns && match c.kind with
    | .onePoint =>
      let multiset (t : Tree) (s : Subtree) :=
        (t.records[s.start]?).bind fun r => (p.entry? r.operator).map Entry.argumentMultiset
      multiset t a = multiset u b
    | _ => true

/-- A point of `u` that is compatible with a point of `t`, in at most so many tries. -/
def findPartner (t : Tree) (a : Subtree) (u : Tree) : Nat → Attempt Subtree
  | 0 => throw (.noValidType (some a.returns))
  | tries + 1 => do
    let b ← u.subtree p (← c.points.select p u)
    if c.compatible p t a u b then return b else findPartner t a u tries

/-- Compatible points of two parents; that of the first one is chosen once. -/
def findPoints (t u : Tree) : Attempt (Subtree × Subtree) := do
  let a ← t.subtree p (← c.points.select p t)
  return (a, ← c.findPartner p t a u (max c.tries 1))

/-- The node at one point above the arguments at another. -/
def rebuild (headTree : Tree) (head : Subtree) (bodyTree : Tree) (body : Subtree) :
    Attempt Tree := do
  let out ← Refill.head p headTree head.start .empty
  let r ← demand headTree.records[head.start]?
  let children ← bodyTree.children p body.start
  Refill.arguments p c.generator c.replacement.widened bodyTree (p.argumentTypes r.operator)
    children out

/-- Two children of two parents. -/
def apply (t u : Tree) : Attempt (Tree × Tree) := do
  c.checkSize t
  c.checkSize u
  let (a, b) ← c.findPoints p t u
  match c.kind with
  | .advanced =>
    let left ← c.rebuild p u b t a
    let right ← c.rebuild p t a u b
    return (← t.duplicate.replaceSubtree a left, ← u.duplicate.replaceSubtree b right)
  | _ => t.duplicate.swapSubtrees a u.duplicate b

end Crossover

end GeneticProgramming
