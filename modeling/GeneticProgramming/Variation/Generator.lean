import GeneticProgramming.Tree.Basic

/-!
# Growing trees

A generator appends one complete tree of a given type.  It decides at each depth whether to ask for
a terminal or for a non-terminal; where the type has no operator of the wanted kind that fits, it
takes the way to the ground that is shortest.

The tree is extended in place, so there is one also where the generator fails: `Generator.generate`
gives it back with the error.  Whoever has no use for such a tree calls `Generator.extend`.
-/

namespace GeneticProgramming

/-- A random computation that may fail for want of a tree. -/
abbrev Attempt := ExceptT GenerationError Draw

/-- A random computation that extends a tree in place; what it appends before it fails stays. -/
abbrev Growth := ExceptT GenerationError (StateT Tree Draw)

namespace Growth

/-- A choice that leaves the tree alone. -/
def choose {α : Type} (x : Attempt α) : Growth α := ExceptT.mk fun t => return (← x.run, t)

def push {C : Type} (p : Palette C) (id : OperatorId) : Growth Unit :=
  ExceptT.mk fun t => return (.ok (), ← t.push p id)

/-- What a tree is extended to.  If that fails, what was appended is dropped with the tree. -/
def kept (x : Growth Unit) (t : Tree) : Attempt Tree := ExceptT.mk do
  let (result, u) ← x.run.run t
  return result.map fun _ => u

end Growth

/-- The least and the greatest depth that are asked for. -/
structure DepthWindow where
  least : Nat
  most : Nat
deriving DecidableEq, Repr

/-- The window with its greatest depth raised to the least one. -/
def DepthWindow.widened (w : DepthWindow) : DepthWindow := ⟨w.least, max w.most w.least⟩

inductive Generator where
  /-- Asks for a terminal with a fixed chance. -/
  | grow (terminalChance : Double)
  /-- Asks for non-terminals down to the greatest depth. -/
  | full
deriving DecidableEq, Repr

namespace Generator

variable {C : Type} (p : Palette C) (g : Generator)

/-- Whether a terminal is asked for at a depth. -/
def wantsTerminal (w : DepthWindow) (depth : Nat) : Draw Bool :=
  if w.most ≤ depth then pure true
  else if depth < w.least then pure false
  else match g with
    | grow terminalChance => Draw.chance terminalChance.clampUnit
    | full => pure false

/-- An operator on the shortest way to the ground. -/
def closing (type : TypeId) : Attempt OperatorId := do
  let ids := p.nonTerminals type
  let least := (ids.map p.operatorGround).min?
  match ← Draw.element (ids.filter fun id => some (p.operatorGround id) = least) with
  | some id => return id
  | none => throw (.noValidType (some type))

/-- A terminal if there is one, or else an operator on the shortest way to the ground. -/
def terminal (type : TypeId) : Attempt OperatorId := do
  match ← Draw.element (p.terminals type) with
  | some id => return id
  | none => closing p type

/-- A non-terminal that leaves room for its arguments, or else a terminal. -/
def nonTerminal (w : DepthWindow) (type : TypeId) (depth : Nat) : Attempt OperatorId := do
  let fitting := (p.nonTerminals type).filter fun id => depth + p.operatorGround id ≤ w.most
  match ← Draw.element fitting with
  | some id => return id
  | none => terminal p type

/-- The operator of a node at a depth. -/
def operator (w : DepthWindow) (type : TypeId) (depth : Nat) : Attempt OperatorId := do
  if ← g.wantsTerminal w depth then terminal p type else nonTerminal p w type depth

/-- Appends a tree of at most `levels` levels. -/
def appendTree (w : DepthWindow) : Nat → TypeId → Nat → Growth Unit
  | 0, type, _ => throw (.noValidType (some type))
  | levels + 1, type, depth => do
    let id ← Growth.choose (g.operator p w type depth)
    Growth.push p id
    (p.argumentTypes id).forM fun type => appendTree w levels type (depth + 1)

/-- Appends a tree that returns a type.  Each step down leaves less of the window, or comes nearer
to the ground, so the levels never run out. -/
def growth (w : DepthWindow) (type : TypeId) : Growth Unit :=
  g.appendTree p w (max w.most (p.ground type) + 1) type 0

/-- Appends a tree that returns a type to a tree, which is given back whether that fails or not. -/
def generate (w : DepthWindow) (type : TypeId) (t : Tree) :
    Draw (Except GenerationError Unit × Tree) :=
  (g.growth p w type).run.run t

/-- A tree with one behind it that returns a type. -/
def extend (w : DepthWindow) (type : TypeId) (t : Tree) : Attempt Tree := (g.growth p w type).kept t

end Generator

/-! ## Initial populations -/

/-- How the trees of an initial population are spread over depths and shapes. -/
inductive Initializer where
  | grow
  | full
  | halfHalf
  /-- Cycles through the depths of the window, and changes the shape after each round. -/
  | rampedHalfHalf
deriving DecidableEq, Repr

namespace Initializer

/-- The greatest depth of the tree in a slot, and whether it is grown.  The width of the window has
to be a machine word, whether it is cycled through or not: its sum is checked, as it is in a
development build.  Where sums wrap, a width of 2^64 is zero, which only a cycle through the depths
cannot divide by. -/
def shape (kind : Initializer) (w : DepthWindow) (slot : Nat) : Except Fault (Nat × Bool) := do
  let span ← demandWord (w.most - w.least + 1)
  return match kind with
    | .grow => (w.most, true)
    | .full => (w.most, false)
    | .halfHalf => (w.most, slot % 2 = 0)
    | .rampedHalfHalf => (w.least + slot % span, slot / span % 2 = 0)

/-- The tree in a slot of an initial population. -/
def plant {C : Type} (p : Palette C) (kind : Initializer) (slot : Nat) (type : TypeId)
    (w : DepthWindow) (terminalChance : Double) : Attempt Tree := do
  let (depth, grown) ← kind.shape w slot
  let generator := if grown then Generator.grow terminalChance else .full
  generator.extend p ⟨min w.least depth, depth⟩ type .empty

end Initializer

end GeneticProgramming
