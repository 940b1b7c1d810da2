import GeneticProgramming.Tree.Basic

/-!
# Walking trees

Subtrees are ranges of records.  The end of a subtree is where the arguments that are still owed
fall to none; parents and depths come from one pass with the chain of open ancestors.
-/

namespace GeneticProgramming

/-- The records from `start` up to `stop`, with the type that the first one returns. -/
structure Subtree where
  start : Nat
  stop : Nat
  returns : TypeId
deriving DecidableEq, Repr

namespace Subtree

def length (s : Subtree) : Nat := s.stop - s.start

def isEmpty (s : Subtree) : Bool := s.stop = s.start

end Subtree

namespace Tree

variable {C : Type} (p : Palette C) (t : Tree)

/-- The number of records until `debt` subtrees are complete, or until there are no more. -/
def span (p : Palette C) : Nat → List Record → Nat
  | 0, _ => 0
  | _ + 1, [] => 0
  | debt + 1, r :: rs => 1 + span p (debt + p.arity r.operator) rs

/-- The end of the subtree at an index. -/
def endpoint (i : Nat) : Nat := i + span p 1 (t.records.drop i)

/-- The arity of the node at an index. -/
def arityAt (i : Nat) : Nat := ((t.records[i]?).map fun r => p.arity r.operator).getD 0

def subtree? (i : Nat) : Option Subtree := do
  let r ← t.records[i]?
  return ⟨i, t.endpoint p i, ← p.returns? r.operator⟩

/-- The subtree at an index that has to exist. -/
def subtree (i : Nat) : Except Fault Subtree := demand (t.subtree? p i)

def rootType? : Option TypeId := (t.subtree? p 0).map Subtree.returns

/-- Subtrees that follow each other, as far as there are records. -/
def siblings : Nat → Nat → List Subtree
  | 0, _ => []
  | count + 1, i =>
    match t.subtree? p i with
    | some s => s :: siblings count s.stop
    | none => []

/-- The arguments of the node at an index, as far as there are records. -/
def arguments (i : Nat) : List Subtree := t.siblings p (t.arityAt p i) (i + 1)

/-- The arguments of the node at an index, all of which have to exist. -/
def children (i : Nat) : Except Fault (List Subtree) := do
  let _ ← demand t.records[i]?
  let found := t.arguments p i
  if found.length < t.arityAt p i then throw .missingIndex
  return found

/-! ## Parents and depths -/

/-- A node whose arguments are not all read yet. -/
structure Open where
  index : Nat
  missing : Nat

/-- Parent and depth of each record, given the chain of ancestors, the nearest first; those whose
arguments are complete are dropped from it. -/
def frames (p : Palette C) : Nat → List Open → List Record → List (Option Nat × Nat)
  | _, _, [] => []
  | i, ancestors, r :: rs =>
    let waiting := ancestors.dropWhile (·.missing = 0)
    let served := match waiting with
      | [] => []
      | top :: rest => { top with missing := top.missing - 1 } :: rest
    let arity := p.arity r.operator
    let next := if arity = 0 then served else ⟨i, arity⟩ :: served
    (waiting.head?.map Open.index, waiting.length) :: frames p (i + 1) next rs

def parents : List (Option Nat) := (frames p 0 [] t.records).map Prod.fst

def depths : List Nat := (frames p 0 [] t.records).map Prod.snd

def depth : Nat := (t.depths p).foldl max 0

/-! ## Checking -/

/-- The record at which the debt of a walk is paid before its end, or else its end. -/
def walkEnd (p : Palette C) : Nat → Nat → List Record → Nat × Nat
  | i, debt, [] => (i, debt)
  | i, 0, _ :: _ => (i, 1)
  | i, debt + 1, r :: rs => walkEnd p (i + 1) (debt + p.arity r.operator) rs

def checkArity : Except TreeError Unit :=
  if t.isEmpty then .ok ()
  else match walkEnd p 0 1 t.records with
    | (_, 0) => .ok ()
    | (stop, _) => .error (.unbalancedArity stop t.size)

/-- The first argument of a node that does not return what the node requires. -/
def mismatch (i : Nat) (id : OperatorId) : Option TreeError :=
  ((t.arguments p i).zip (p.argumentTypes id)).findSome? fun (child, expected) =>
    if child.returns = expected then none
    else some (.typeMismatch child.start expected child.returns)

def firstError : Option TreeError → Except TreeError Unit
  | some e => .error e
  | none => .ok ()

/-- Whether a tree is empty or exactly one complete, well-typed tree with the literal bytes that its
records describe. -/
def check : Except TreeError Unit := do
  firstError (t.records.zipIdx.findSome? fun (r, i) =>
    if (p.entry? r.operator).isSome then none else some (.unknownOperator i r.operator))
  let expected := literalWords t.records
  if expected ≠ t.values.words then throw (.byteMismatch (8 * expected) t.values.size)
  t.checkArity p
  firstError (t.records.zipIdx.findSome? fun (r, i) => t.mismatch p i r.operator)

end Tree

end GeneticProgramming
