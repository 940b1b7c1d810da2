import GeneticProgramming.Palette.Basic

/-!
# Guarded stacks

A stack answers every typed read with the value that its bytes happen to spell.  A guarded stack
also remembers what each cell was pushed as, so that a reader can ask first whether a value of its
type lies where it wants to look.

Guarded stacks serve those who try stacks out with requests that nobody has checked, as a test
driver does; neither trees nor runs use them, and no theorem elsewhere is about them.  Of their own
laws, `inStep_push` says that the kinds stay in step with the cells, and `map_stack_transferBytes`
that the guard changes nothing of what is moved.
-/

namespace GeneticProgramming

/-- What a cell was pushed as. -/
inductive CellKind where
  | data
  | truth
  | text
  | ints
deriving DecidableEq, Repr

namespace CellKind

/-- Whether the cell is a reference. -/
def isShared : CellKind → Bool
  | .text => true
  | .ints => true
  | _ => false

/-- All cells of a value are of one kind. -/
def ofType : ValueType → CellKind
  | .scalar .bool => .truth
  | .text => .text
  | .ints => .ints
  | _ => .data

end CellKind

/-- The kinds of the cells that hold a value. -/
def ValueType.kinds (t : ValueType) : List CellKind := List.replicate t.words (.ofType t)

structure GuardedStack where
  stack : Stack
  /-- The kinds of all cells, the newest first. -/
  kinds : List CellKind
deriving DecidableEq, Repr

namespace GuardedStack

def empty : GuardedStack := ⟨.empty, []⟩

instance : Inhabited GuardedStack := ⟨empty⟩

def withCapacity (bytes : Nat) : Except Fault GuardedStack := do
  return ⟨← Stack.withCapacity bytes, []⟩

variable (g : GuardedStack)

/-! ## Questions -/

/-- Whether a value of a type lies at a distance in bytes from the newest byte.  A place outside the
stack holds no other value, so reading there is safe, and fails. -/
def admits (t : ValueType) (offset : Nat) : Bool :=
  g.stack.size < offset + t.size ||
    (offset % 8 = 0 && (g.kinds.drop (offset / 8)).take t.words = t.kinds)

/-- Whether values of some types follow each other from a distance in bytes on. -/
def admitsAll : List ValueType → Nat → Bool
  | [], _ => true
  | t :: ts, offset => g.admits t offset && admitsAll ts (offset + t.size)

/-- Whether a range of bytes touches no reference. -/
def isPlain (offset size : Nat) : Bool :=
  let start := offset / 8
  size = 0 || g.stack.size < offset + size ||
    ((g.kinds.take ((offset + size + 7) / 8)).drop start).all fun k => !k.isShared

/-! ## Changes -/

def push (t : ValueType) (x : t.Carrier) : GuardedStack := ⟨g.stack.push t x, t.kinds ++ g.kinds⟩

/-- Pushes words of data. -/
def pushWords (words : List UInt64) : GuardedStack :=
  ⟨g.stack.pushRun (words.map .word), List.replicate words.length .data ++ g.kinds⟩

def reset : GuardedStack := ⟨g.stack.reset, []⟩

def reserve (bytes : Nat) : Except Fault GuardedStack := do
  return { g with stack := ← g.stack.reserve bytes }

/-- What is left by a request that takes words off the stack; they stay if it is refused. -/
private def left {α : Type} (words : Nat) (result : Except StackError α) (stack : Stack) :
    GuardedStack :=
  ⟨stack, if result.isOk then g.kinds.drop words else g.kinds⟩

/-- Drops whole words, counted in bytes. -/
def drop (bytes : Nat) : Except StackError Unit × GuardedStack :=
  let (result, stack) := g.stack.popBytes bytes
  (result, g.left (bytes / 8) result stack)

/-- Moves whole words, counted in bytes, onto another stack. -/
def transfer (other : GuardedStack) (bytes : Nat) :
    Except StackError Unit × GuardedStack × GuardedStack :=
  let words := bytes / 8
  let (result, source, target) := g.stack.moveBytes other.stack bytes
  let moved := if result.isOk then g.kinds.take words else []
  (result, g.left words result source, ⟨target, moved ++ other.kinds⟩)

/-- Moves bytes by way of a block of memory, as `Stack.transferBytes` does. -/
def transferBytes (other : GuardedStack) (bytes : Nat) :
    Except Fault (Except StackError Unit × GuardedStack × GuardedStack) := do
  let _ ← demandBlock bytes
  return g.transfer other bytes

def pop (t : ValueType) : Except StackError t.Carrier × GuardedStack :=
  let (result, stack) := g.stack.pop t
  (result, g.left t.words result stack)

variable {C : Type} (p : Palette C)

/-- The types that an operator takes off the stack. -/
def argumentTypes (id : OperatorId) : List ValueType :=
  ((p.entry? id).map (·.operator.arguments)).getD []

/-- Pushes a fresh literal, if the operator is one. -/
def produce (id : OperatorId) : Draw (Bool × GuardedStack) := do
  match ← p.produce id with
  | some v => return (true, g.push v.type v.content)
  | none => return (false, g)

/-- Replaces the arguments of an operator by its value. -/
def invoke (id : OperatorId) (context : C) : Except Fault GuardedStack := do
  let stack ← p.invoke id context g.stack
  let e ← demand (p.entry? id)
  let rest := g.kinds.drop (e.operator.arguments.map ValueType.words).sum
  return ⟨stack, e.operator.returns.kinds ++ rest⟩

/-- Takes the values of a region off the stack. -/
def discard (id : OperatorId) (region : Palette.Region) :
    Except Fault (Except StackError GuardedStack) := do
  let e ← demand (p.entry? id)
  let words := ((Palette.regionTypes e.operator region).map ValueType.words).sum
  return (← p.discard id region g.stack).map fun stack => ⟨stack, g.kinds.drop words⟩

/-! ## Laws -/

/-- The kinds are those of the cells. -/
def InStep : Prop := g.kinds.length = g.stack.cells.length

theorem inStep_empty : empty.InStep := rfl

theorem length_kinds (t : ValueType) : t.kinds.length = t.words := by
  simp [ValueType.kinds]

theorem inStep_push {t : ValueType} {x : t.Carrier} (hx : (t.store x).length = t.words)
    (h : g.InStep) : (g.push t x).InStep := by
  simp only [InStep] at h ⊢
  simp [push, Stack.push, length_kinds, hx, h]

/-- The stacks are moved between as if they were not guarded. -/
theorem map_stack_transferBytes (g other : GuardedStack) (bytes : Nat) :
    (g.transferBytes other bytes).map (fun (result, s, t) => (result, s.stack, t.stack)) =
      g.stack.transferBytes other.stack bytes := by
  unfold transferBytes Stack.transferBytes
  cases demandBlock bytes <;> rfl

end GuardedStack

end GeneticProgramming
