import GeneticProgramming.Tree.Edit
import GeneticProgramming.Variation.Generator

/-!
# Choosing points

Variation works at points of a tree: nodes chosen evenly, or by a walk down from the root.
-/

namespace GeneticProgramming

structure PointSelector where
  /-- The chance of a terminal, where nodes are chosen evenly. -/
  terminalChance : Double
  /-- Whether to walk down from the root. -/
  traverse : Bool
  /-- What each level adds to the chance of ending a walk. -/
  depthMultiplier : Double
deriving DecidableEq, Repr

namespace PointSelector

variable {C : Type} (p : Palette C) (s : PointSelector)

/-- A terminal or a non-terminal, each node of the kind with the same chance. -/
def even (t : Tree) : Draw Nat := do
  let wanted ← Draw.chance s.terminalChance.clampUnit
  match ← Draw.element ((List.range t.size).filter fun i => (t.arityAt p i = 0) = wanted) with
  | some i => return i
  | none => Draw.below t.size

/-- The chance that a walk ends at a depth. -/
def exitChance (depth : Nat) : Double :=
  (Double.ofNat (depth + 1) * s.depthMultiplier).clampUnit

/-- Walks from a node towards the leaves for at most `rounds` levels. -/
def walk (t : Tree) : Nat → Nat → Nat → Draw Nat
  | 0, node, _ => pure node
  | rounds + 1, node, depth => do
    let children ← t.children p node
    if children.isEmpty then return node
    if ← Draw.chance (s.exitChance depth) then return node
    let child ← demand children[← Draw.below children.length]?
    walk t rounds child.start (depth + 1)

/-- The index of a node; a tree of one node needs no draw. -/
def select (t : Tree) : Draw Nat :=
  if t.size ≤ 1 then pure 0
  else if s.traverse then s.walk p t t.size 0 0
  else s.even p t

/-- The first of some selected nodes that returns a type; one is selected at least. -/
def selectMatching (t : Tree) (type : TypeId) : Nat → Draw (Option Nat)
  | 0 => attempt
  | 1 => attempt
  | tries + 2 => do
    match ← attempt with
    | some i => return some i
    | none => selectMatching t type (tries + 1)
where
  attempt : Draw (Option Nat) := do
    let i ← s.select p t
    return if (← t.subtree p i).returns = type then some i else none

end PointSelector

/-! ## Refilling arguments -/

namespace Refill

/-- The first child that returns a type, and the other children. -/
def takeFirst (type : TypeId) (children : List Subtree) : Option (Subtree × List Subtree) :=
  match children with
  | [] => none
  | c :: cs =>
    if c.returns = type then some (c, cs)
    else (takeFirst type cs).map fun (found, rest) => (found, c :: rest)

variable {C : Type} (p : Palette C)

/-- Appends one subtree for each argument type: the first child of that type that is left, or else a
fresh one. -/
def arguments (g : Generator) (w : DepthWindow) (donor : Tree) :
    List TypeId → List Subtree → Tree → Attempt Tree
  | [], _, out => return out
  | type :: types, children, out =>
    match takeFirst type children with
    | some (child, rest) => do arguments g w donor types rest (← donor.copySubtree child out)
    | none => do arguments g w donor types children (← g.extend p w type out)

/-- Appends the node at an index; a literal keeps its value. -/
def head (source : Tree) (i : Nat) (out : Tree) : Draw Tree := do
  let r ← demand source.records[i]?
  if r.isLiteral then source.copySubtree (← source.subtree p i) out else out.push p r.operator

end Refill

end GeneticProgramming
