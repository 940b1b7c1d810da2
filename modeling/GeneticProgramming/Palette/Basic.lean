import GeneticProgramming.Palette.Error
import GeneticProgramming.Palette.Operator

/-!
# Palettes

A palette is a list of operators whose types are numbered and can all be grown: each type has a
ground depth, the least depth of a finite tree that returns it.
-/

namespace GeneticProgramming

/-- Marks of a node: its value is its own, and that value is a shared reference. -/
structure Flags where
  ephemeral : Bool
  shared : Bool
deriving DecidableEq, Repr

namespace Flags

def bits (f : Flags) : UInt8 := (if f.ephemeral then 1 else 0) ||| (if f.shared then 2 else 0)

/-- The lowest two bits decide; the others are not looked at. -/
def ofBits (b : UInt8) : Flags := ⟨b &&& 1 != 0, b &&& 2 != 0⟩

@[simp] theorem ofBits_bits (f : Flags) : ofBits f.bits = f := by
  rcases f with ⟨_ | _, _ | _⟩ <;> rfl

end Flags

/-- An operator of a palette with the numbers of its types. -/
structure Entry (C : Type) where
  operator : Operator C
  returns : TypeId
  arguments : List TypeId

namespace Entry

variable {C : Type} (e : Entry C)

def arity : Nat := e.arguments.length

def isTerminal : Bool := e.arguments.isEmpty

def flags : Flags := ⟨e.operator.isLiteral, e.operator.isLiteral && e.operator.returns.isShared⟩

/-- The argument types in ascending order. -/
def argumentMultiset : List TypeId := e.arguments.mergeSort

end Entry

/-! ## Ground depths -/

namespace Ground

/-- The least depth of a tree under an operator, where the depths of some types are known. -/
def ofArguments (known : List (Option Nat)) : List TypeId → Option Nat
  | [] => some 0
  | t :: ts => do
    let depths ← (t :: ts).mapM fun t => (known[t]?).join
    return depths.foldl max 0 + 1

/-- The depths that were found so far, of each type and of each operator; nothing is known of those
that no finite tree reaches. -/
structure Known where
  types : List (Option Nat)
  operators : List (Option Nat)
deriving DecidableEq, Repr

/-- Nothing is known at first. -/
def unknown (types operators : Nat) : Known :=
  ⟨List.replicate types none, List.replicate operators none⟩

/-- The lesser of a depth and one that may be known. -/
def lower (d : Nat) : Option Nat → Option Nat
  | none => some d
  | some x => some (min d x)

/-- Looks at one operator: the depths that are known of its arguments may lower its own depth and
that of the type that it returns. -/
def visit {C : Type} (known : Known) (e : Entry C) (id : OperatorId) : Known :=
  match ofArguments known.types e.arguments with
  | some d => ⟨known.types.modify e.returns (lower d), known.operators.modify id (lower d)⟩
  | none => known

/-- Looks at all operators in their order. -/
def pass {C : Type} (entries : List (Entry C)) (known : Known) : Known :=
  entries.zipIdx.foldl (fun known (e, id) => visit known e id) known

/-- Goes over the operators until a pass changes nothing, or for so many passes. -/
def settle {C : Type} (entries : List (Entry C)) : Nat → Known → Known
  | 0, known => known
  | passes + 1, known =>
    let next := pass entries known
    if next = known then known else settle entries passes next

/-- The ground depths.  As many passes as there are types settle those of the types, because each
depth below that of a type is the depth of another type; one more settles the operators. -/
def find {C : Type} (entries : List (Entry C)) (types : Nat) : Known :=
  settle entries (types + 1) (unknown types entries.length)

end Ground

structure Palette (C : Type) where
  types : TypeTable
  entries : List (Entry C)
  /-- The ground depth of each type. -/
  grounds : List Nat
  root : Option TypeId

namespace Palette

variable {C : Type} (p : Palette C)

/-! ## Building -/

def checkType (t : ValueType) : Except BuildError Unit :=
  if 8 < t.alignment then .error (.unsupportedAlignment t.label)
  else if 65535 < t.size then .error (.unsupportedSize t.label)
  else .ok ()

/-- The types of an operator in the order of their registration. -/
def signature (op : Operator C) : List ValueType := op.returns :: op.arguments

def register (table : TypeTable) (op : Operator C) :
    Except BuildError (Entry C × TypeTable) := do
  (signature op).forM checkType
  let (returns, table) := table.register op.returns
  let (arguments, table) := table.registerAll op.arguments
  return (⟨op, returns, arguments⟩, table)

def registerAll : TypeTable → List (Operator C) →
    Except BuildError (List (Entry C) × TypeTable)
  | table, [] => .ok ([], table)
  | table, op :: ops => do
    let (entry, table) ← register table op
    let (entries, table) ← registerAll table ops
    return (entry :: entries, table)

def labelOf (table : TypeTable) (id : TypeId) : String :=
  ((table.type? id).map ValueType.label).getD ""

def groundAll (table : TypeTable) (depths : List (Option Nat)) :
    Except BuildError (List Nat) :=
  match depths.findIdx? Option.isNone with
  | some id => .error (.ungroundedType (labelOf table id))
  | none => .ok (depths.map (·.getD 0))

def findRoot (table : TypeTable) (entries : List (Entry C)) :
    Option ValueType → Except BuildError (Option TypeId)
  | none => .ok none
  | some t =>
    match table.find? t with
    | some id =>
      if entries.any (·.returns = id) then .ok (some id) else .error (.unknownRootType t.label)
    | none => .error (.unknownRootType t.label)

/-- Numbers the types of the operators and finds the ground depths.  Operators are looked at one by
one, so the first type that no tree can store is reported; then come the types that no tree can
return, and last the root type. -/
def build (operators : List (Operator C)) (root : Option ValueType) :
    Except BuildError (Palette C) := do
  if operators.isEmpty then throw .empty
  let (entries, table) ← registerAll .empty operators
  let grounds ← groundAll table (Ground.find entries table.count).types
  let root ← findRoot table entries root
  return ⟨table, entries, grounds, root⟩

/-! ## Looking up -/

def size : Nat := p.entries.length

def entry? (id : OperatorId) : Option (Entry C) := p.entries[id]?

def type? (id : TypeId) : Option ValueType := p.types.type? id

/-- The number of arguments; none for an unknown operator. -/
def arity (id : OperatorId) : Nat := ((p.entry? id).map Entry.arity).getD 0

def returns? (id : OperatorId) : Option TypeId := (p.entry? id).map Entry.returns

def argumentTypes (id : OperatorId) : List TypeId := ((p.entry? id).map Entry.arguments).getD []

/-- The first operator with a name. -/
def find? (name : String) : Option OperatorId :=
  p.entries.findIdx? (·.operator.name = some name)

def displayName (id : OperatorId) : String :=
  ((p.entry? id).bind (·.operator.name)).getD (operatorTag id)

def having (test : Entry C → Bool) : List OperatorId :=
  (List.range p.size).filter fun id => (p.entry? id).any test

def terminals (t : TypeId) : List OperatorId :=
  p.having fun e => e.returns = t && e.isTerminal

def nonTerminals (t : TypeId) : List OperatorId :=
  p.having fun e => e.returns = t && !e.isTerminal

/-- The least depth of a tree that returns the type. -/
def ground (t : TypeId) : Nat := (p.grounds[t]?).getD 0

/-- The least depth of a tree under the operator. -/
def operatorGround (id : OperatorId) : Nat :=
  (Ground.ofArguments (p.grounds.map some) (p.argumentTypes id)).getD 0

/-! ## Drawing -/

/-- The root type, or any type with a non-terminal, or else with a terminal. -/
def pickRootType : Draw (Except GenerationError TypeId) := do
  match p.root with
  | some root => return .ok root
  | none =>
    let ids := List.range p.types.count
    match ← Draw.element (ids.filter fun t => !(p.nonTerminals t).isEmpty) with
    | some t => return .ok t
    | none =>
      match ← Draw.element (ids.filter fun t => !(p.terminals t).isEmpty) with
      | some t => return .ok t
      | none => return .error (.noValidType none)

/-- Any operator that returns the type. -/
def randomOperator (t : TypeId) : Draw (Option OperatorId) := do
  let all := p.terminals t ++ p.nonTerminals t
  if all.isEmpty then return none
  return all[← Draw.below all.length]?

/-! ## Running operators -/

/-- Replaces the arguments of an operator on the stack by its value. -/
def invoke (id : OperatorId) (context : C) (s : Stack) : Except Fault Stack :=
  match (p.entry? id).bind fun e => e.operator.invoke? context s with
  | some (.ok s) => .ok s
  | some (.error e) => .error (.brokenStack e)
  | none => .error (.brokenStack (.outOfRange id 0 p.size))

/-- The value of a fresh literal of an operator that is one. -/
def produce (id : OperatorId) : Draw (Option Value) :=
  match (p.entry? id).bind fun e => e.operator.produce? with
  | some draw => some <$> draw
  | none => pure none

/-- Which values of an operator are taken off the stack. -/
inductive Region where
  | arguments
  | returned
deriving DecidableEq, Repr

/-- The types of a region. -/
def regionTypes (op : Operator C) : Region → List ValueType
  | .arguments => op.arguments
  | .returned => [op.returns]

/-- Takes the values of a region off the stack; each has to lie within one page. -/
def discard (id : OperatorId) (region : Region) (s : Stack) :
    Except Fault (Except StackError Stack) := do
  let e ← demand (p.entry? id)
  let types := regionTypes e.operator region
  return do
    let _ ← Operator.readArguments s types 0
    s.drop (types.map ValueType.words).sum

end Palette

end GeneticProgramming
