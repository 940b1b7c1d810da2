import GeneticProgramming.Json.Forms
import GeneticProgramming.Palette.Basic

/-!
# Palettes in documents

All that a palette knows of its types and operators.
-/

namespace GeneticProgramming

variable {C : Type}

/-! ## Errors -/

def BuildError.document (e : BuildError) : Json :=
  let kind := match e with
    | .empty => "Empty"
    | .unsupportedAlignment _ => "UnsupportedAlignment"
    | .unsupportedSize _ => "UnsupportedSize"
    | .ungroundedType _ => "UngroundedType"
    | .unknownRootType _ => "UnknownRootType"
  .failure "BuildError" kind e.message

def GenerationError.document (e : GenerationError) : Json :=
  let kind := match e with
    | .noValidType _ => "NoValidType"
    | .treeTooSmall _ _ => "TreeTooSmall"
  .failure "GenerationError" kind e.message

/-! ## Operators and types -/

namespace Operator

def document (op : Operator C) : Json := .object [
  ("name", .ofOption .ofString op.name),
  ("argc", .ofNat op.arity),
  ("ephemeral", .bool op.isLiteral),
  ("debug", .string op.describe)]

end Operator

namespace TypeTable

def document (table : TypeTable) : Json :=
  .ofList (fun (t, id) => .array [.ofNat id, .string (typeTag id), .string t.label, .ofNat t.size,
    .bool t.isShared, .bool true]) table.types.zipIdx

end TypeTable

/-! ## Palettes -/

namespace Palette

variable (p : Palette C)

private def typeDocument (t : ValueType) (id : TypeId) : Json := .object [
  ("id", .ofNat id),
  ("name", .string t.label),
  ("size", .ofNat t.size),
  ("drop", .bool t.isShared),
  ("ground", .ofNat (p.ground id)),
  ("terminals", .ofList .ofNat (p.terminals id)),
  ("non_terminals", .ofList .ofNat (p.nonTerminals id))]

private def entryDocument (e : Entry C) (id : OperatorId) : Json := .object [
  ("id", .ofNat id),
  ("name", .ofOption .ofString e.operator.name),
  ("display", .string (p.displayName id)),
  ("found", .ofOption .ofNat (e.operator.name.bind p.find?)),
  ("returns", .ofNat e.returns),
  ("arguments", .ofList .ofNat e.arguments),
  ("multiset", .ofList .ofNat e.argumentMultiset),
  ("argc", .ofNat e.arity),
  ("context", .ofNat (if e.operator.consultsContext then 1 else 0)),
  ("terminal", .bool e.isTerminal),
  ("flags", .ofNat e.flags.bits.toNat),
  ("arg_bytes", .ofNat e.operator.argumentSize),
  ("return_bytes", .ofNat e.operator.returns.size),
  ("ground", .ofNat (p.operatorGround id))]

/-- What a palette says of an operator and a type beyond its last ones. -/
private def beyond : Json := .object [
  ("get", .bool (p.entry? p.size).isNone),
  ("display", .string (p.displayName p.size)),
  ("terminals", .ofList .ofNat (p.terminals p.types.count))]

def document : Json := .object [
  ("len", .ofNat p.size),
  ("empty", .bool p.entries.isEmpty),
  ("root", .ofOption .ofNat p.root),
  ("types", .ofList (fun (t, id) => p.typeDocument t id) p.types.types.zipIdx),
  ("operators", .ofList (fun (e, id) => p.entryDocument e id) p.entries.zipIdx),
  ("beyond", p.beyond)]

end Palette

end GeneticProgramming
