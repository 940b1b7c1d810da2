import GeneticProgramming.Variation.Point

/-!
# Mutation

A point mutation grows one subtree anew.  An advanced mutation scans the nodes from left to right
and edits some of them; the scan goes on behind each edit.
-/

namespace GeneticProgramming

inductive MutationKind where
  | point
  | advanced
deriving DecidableEq, Repr

/-- The weights of the edits of an advanced mutation. -/
structure MutationChances where
  expression : Double
  adjust : Double
  sub : Double
  jump : Double
  copy : Double
deriving DecidableEq, Repr

def MutationChances.weights (c : MutationChances) : List Double :=
  [c.expression, c.adjust, c.sub, c.jump, c.copy]

structure Mutation where
  kind : MutationKind
  replacement : DepthWindow
  generator : Generator
  points : PointSelector
  /-- The number of edits that a scan of a tree makes on average. -/
  perTreeChance : Double
  chances : MutationChances
deriving DecidableEq, Repr

/-- The edits of an advanced mutation, in the order of their weights. -/
inductive MutationEdit where
  /-- Grows the subtree anew. -/
  | expression
  /-- Puts another operator at its root and refills the arguments. -/
  | adjust
  /-- Makes it an argument of a new operator. -/
  | sub
  /-- Puts it in the place of the nearest ancestor of its type. -/
  | jump
  /-- Replaces it by a copy of a subtree elsewhere. -/
  | copy
deriving DecidableEq, Repr

namespace MutationEdit

def all : List MutationEdit := [.expression, .adjust, .sub, .jump, .copy]

end MutationEdit

namespace Mutation

variable {C : Type} (p : Palette C) (m : Mutation)

/-- A fresh tree. -/
def regrow (type : TypeId) : Attempt Tree :=
  m.generator.extend p m.replacement.widened type .empty

/-- Grows one subtree anew. -/
def applyPoint (t : Tree) : Attempt Tree := do
  let s ← t.subtree p (← m.points.select p t)
  t.replaceSubtree s (← m.regrow p s.returns)

/-! ## Edits -/

/-- Puts another operator at the root of a subtree. -/
def adjust (t : Tree) (s : Subtree) : Attempt Tree := do
  if t.arityAt p s.start = 0 then
    match ← Draw.element (p.terminals s.returns) with
    | some id => t.modify p s.start id
    | none => return t
  else
    match ← Draw.element (p.nonTerminals s.returns) with
    | some id =>
      let head ← Tree.empty.push p id
      let children ← t.children p s.start
      let rebuilt ← Refill.arguments p m.generator m.replacement.widened t (p.argumentTypes id)
        children head
      t.replaceSubtree s rebuilt
    | none => return t

/-- Appends the arguments of a wrapper: a copy of the subtree in one slot, fresh trees in the
others. -/
def wrap (t : Tree) (s : Subtree) (slot : Nat) : Nat → List TypeId → Tree → Attempt Tree
  | _, [], out => return out
  | i, type :: types, out => do
    let out ← if i = slot then t.copySubtree s out
      else m.generator.extend p m.replacement.widened type out
    wrap t s slot (i + 1) types out

/-- Makes a subtree an argument of an operator that returns its type and also takes it. -/
def sub (t : Tree) (s : Subtree) : Attempt Tree := do
  let wrappers :=
    (p.nonTerminals s.returns).filter fun id => (p.argumentTypes id).contains s.returns
  match ← Draw.element wrappers with
  | some id =>
    let types := p.argumentTypes id
    let slots := (List.range types.length).filter fun i => types[i]? = some s.returns
    let slot := (← Draw.element slots).getD 0
    t.replaceSubtree s (← m.wrap p t s slot 0 types (← Tree.empty.push p id))
  | none => return t

/-- The nearest ancestor of a node that returns a type. -/
def ancestor? (t : Tree) (type : TypeId) : Nat → Nat → Option Subtree
  | 0, _ => none
  | rounds + 1, node => do
    let parent ← ((t.parents p)[node]?).join
    let s ← t.subtree? p parent
    if s.returns = type then some s else ancestor? t type rounds parent

/-- Puts a subtree in the place of its nearest ancestor of the same type; also answers where it ends
then. -/
def jump (t : Tree) (s : Subtree) : Except Fault (Tree × Nat) := do
  match ancestor? p t s.returns t.size s.start with
  | some target =>
    let t ← t.replaceSubtree target (← t.extractSubtree s)
    return (t, t.endpoint p target.start)
  | none => return (t, s.stop)

/-- Replaces a subtree by a copy of one of the same type that does not overlap it. -/
def copy (t : Tree) (s : Subtree) : Draw Tree := do
  let all ← (List.range t.size).mapM fun i => t.subtree p i
  let sources := all.filter fun o => o.returns = s.returns && (o.stop ≤ s.start || s.stop ≤ o.start)
  match ← Draw.element sources with
  | some source => t.replaceSubtree s (← t.extractSubtree source)
  | none => return t

/-- Edits the subtree at an index, and answers where the edit ends. -/
def edit (t : Tree) (i : Nat) (kind : MutationEdit) : Attempt (Tree × Nat) := do
  let s ← t.subtree p i
  let behind (t : Tree) : Tree × Nat := (t, t.endpoint p i)
  match kind with
  | .expression => return behind (← t.replaceSubtree s (← m.regrow p s.returns))
  | .adjust => return behind (← m.adjust p t s)
  | .sub => return behind (← m.sub p t s)
  | .jump => jump p t s
  | .copy => return behind (← copy p t s)

/-! ## The scan -/

/-- The edit of a node that is due for one. -/
def drawEdit (weights : Option Weights) : Draw MutationEdit :=
  match weights with
  | some w => return (MutationEdit.all[← w.index]?).getD .expression
  | none => pure .expression

/-- Puts each node to a draw, from an index on, for at most so many draws. -/
def scan (chance : Double) (weights : Option Weights) : Nat → Nat → Tree → Attempt Tree
  | 0, _, t => return t
  | rounds + 1, i, t => do
    if t.size ≤ i then return t
    if ← Draw.chance chance then
      let (t, stop) ← m.edit p t i (← drawEdit weights)
      scan chance weights rounds (max stop (i + 1)) t
    else scan chance weights rounds (i + 1) t

/-- The chance of each node of a tree to be edited. -/
def nodeChance (t : Tree) : Double := (m.perTreeChance / Double.ofNat t.size).clampUnit

/-- Scans a tree.  Each round leaves fewer nodes ahead, so as many rounds as nodes are enough. -/
def applyAdvanced (t : Tree) : Attempt Tree := do
  let weights ← Weights.ofList m.chances.weights
  m.scan p (m.nodeChance t) weights t.size 0 t

/-- Mutates a tree; an empty one stays as it is. -/
def apply (t : Tree) : Attempt Tree :=
  if t.isEmpty then return t
  else match m.kind with
    | .point => m.applyPoint p t
    | .advanced => m.applyAdvanced p t

end Mutation

end GeneticProgramming
