import GeneticProgramming.Tree.Walk

/-!
# Evaluation

A tree is evaluated from its last record to its first.  A literal pushes a copy of its value, any
other node replaces its arguments, the first one on top, by its value.  The value of the root is
left pending until it is taken or another tree is evaluated.
-/

namespace GeneticProgramming

inductive EvaluationError where
  | empty
  | typeMismatch (requested found : String)
deriving DecidableEq, Repr

def EvaluationError.message : EvaluationError → String
  | .empty => "no evaluation result on the stack"
  | .typeMismatch requested found =>
    "tree returns `" ++ found ++ "` but `" ++ requested ++ "` was requested"

/-- The type of a result that waits on the stack, with its number. -/
structure Pending where
  id : TypeId
  type : ValueType
deriving DecidableEq, Repr

/-- A stack that is used for one evaluation after another. -/
structure Workspace where
  values : Stack
  pending : Option Pending
deriving DecidableEq, Repr

namespace Workspace

def empty : Workspace := ⟨.empty, none⟩

instance : Inhabited Workspace := ⟨empty⟩

/-- Takes a pending result off the stack. -/
def discard (w : Workspace) : Except Fault Workspace :=
  match w.pending with
  | none => .ok w
  | some pending => do
    let _ ← trust (w.values.runAt 0 pending.type.words)
    return ⟨← trust (w.values.drop pending.type.words), none⟩

variable {C : Type} (p : Palette C)

/-- Evaluates records from the last one to the first.  The state is the stack of values and the
number of words of literals that were read. -/
def walk (p : Palette C) (literals : Stack) (context : C) (s : Stack) :
    List Record → Except Fault (Stack × Nat)
  | [] => .ok (s, 0)
  | r :: rs => do
    let (s, cursor) ← walk p literals context s rs
    if r.isLiteral then
      let run ← trust (literals.runAt (8 * cursor) r.words)
      return (s.pushRun run, cursor + r.words)
    else
      return (← p.invoke r.operator context s, cursor)

/-- Evaluates a tree; of an empty one there is no result. -/
def evaluate (w : Workspace) (t : Tree) (context : C) : Except Fault Workspace := do
  let cleared : Workspace := ⟨(← w.discard).values.reset, none⟩
  match t.records.head? with
  | none => return cleared
  | some root =>
    let reserved ← cleared.values.reserve (t.values.size + 8 * t.size)
    let (values, _) ← walk p t.values context reserved t.records
    let e ← demand (p.entry? root.operator)
    let type := e.operator.returns
    if values.words ≠ type.words then
      throw (.brokenStack (.outOfRange 0 type.size values.size))
    return ⟨values, some ⟨e.returns, type⟩⟩

/-- The type of the pending result, which has to be the requested one. -/
def checkPending (w : Workspace) (requested : ValueType) : Except EvaluationError Unit :=
  match w.pending with
  | none => .error .empty
  | some pending =>
    if pending.type = requested then .ok ()
    else .error (.typeMismatch requested.label pending.type.label)

/-- Takes the pending result; one of another type is left pending. -/
def take (w : Workspace) (t : ValueType) :
    Except Fault (Except EvaluationError t.Carrier × Workspace) :=
  match w.checkPending t with
  | .error e => .ok (.error e, w)
  | .ok () => do
    let (x, values) := w.values.pop t
    return (.ok (← trust x), ⟨values, none⟩)

/-- Looks at the pending result and then discards it; one of another type is left pending. -/
def look (w : Workspace) (t : ValueType) :
    Except Fault (Except EvaluationError t.Carrier × Workspace) :=
  match w.checkPending t with
  | .error e => .ok (.error e, w)
  | .ok () => do
    let x ← trust (w.values.valueAt t 0)
    return (.ok x, ← w.discard)

def describe (w : Workspace) : String :=
  let pending := match w.pending with
    | none => "None"
    | some pending => s!"Some(TypeId({pending.id}))"
  s!"EvaluationContext \x7b values: {w.values.describe}, pending: {pending} \x7d"

end Workspace

/-- Whether each operator of a tree finds values of its own types: the tree is well-formed, or there
is only one type, whose values are all plain data. -/
def Palette.canEvaluate {C : Type} (p : Palette C) (t : Tree) : Bool :=
  (t.check p).isOk || match p.types.types with
    | [type] => !type.isShared
    | _ => false

/-- Evaluates a tree in a workspace of its own. -/
def Palette.evaluate {C : Type} (p : Palette C) (t : Tree) (type : ValueType) (context : C) :
    Except Fault (Except EvaluationError type.Carrier) := do
  let w ← Workspace.empty.evaluate p t context
  return (← w.take type).1

end GeneticProgramming
