import GeneticProgramming.Stream.Document
import GeneticProgramming.Tree.Term

/-!
# Trees in documents

The records of a tree, the bytes of its literals, whether it is well-formed, and its text.
-/

namespace GeneticProgramming

def TreeError.document (e : TreeError) : Json :=
  let kind := match e with
    | .byteMismatch _ _ => "ByteMismatch"
    | .unbalancedArity _ _ => "UnbalancedArity"
    | .typeMismatch _ _ _ => "TypeMismatch"
    | .literalMismatch _ _ => "LiteralMismatch"
    | .unknownOperator _ _ => "UnknownOperator"
  .failure "TreeError" kind e.message

def Subtree.document (s : Subtree) : Json := .array [
  .ofNat s.start, .ofNat s.stop, .ofNat s.returns, .ofNat s.length, .bool s.isEmpty]

namespace Tree

variable {C : Type} (p : Palette C)

/-- The greatest number of bytes of a literal that are shown in full. -/
def shownInFull : Nat := 64

/-- The bytes of a literal; what a reference looks like in memory is not shown. -/
def literalDocument (n : Node) : Json :=
  match (p.entry? n.record.operator).map (·.operator.returns) with
  | none => .null
  | some t =>
    let bytes := t.ownBytes n.literal
    if t.isShared then .string "*"
    else if shownInFull < bytes.length then
      .string (s!"{bytes.length}:" ++ Bytes.digestText bytes)
    else .string (Text.hexBytes bytes)

variable (t : Tree)

/-- A tree that is not one complete term has no text. -/
def document : Except Fault Json := do
  let common : List (String × Json) := [
    ("ops", .ofList (fun r => .ofNat r.operator) t.records),
    ("lits", .ofList (literalDocument p) (t.nodes.filter (·.record.isLiteral))),
    ("bytes", .ofNat t.values.size)]
  match t.check p with
  | .ok () => return .object (common ++ [("check", .string "ok"), ("expr", .string (← t.text p))])
  | .error e =>
    let check := ("check", e.document)
    match e with
    | .unbalancedArity _ _ => return .object (common ++ [check])
    | _ => return .object (common ++ [check, ("expr", .string (← t.text p))])

/-- A tree as a text, and as one that says more. -/
def textDocument : Except Fault Json := do
  return .object [
    ("display", .string (← t.text p)),
    ("debug", .string (← t.describe p))]

/-- How the nodes of a tree hang together. -/
def shapeDocument : Json := .object [
  ("size", .ofNat t.size),
  ("empty", .bool t.isEmpty),
  ("depth", .ofNat (t.depth p)),
  ("depths", .ofList .ofNat (t.depths p)),
  ("parents", .ofList (.ofOption .ofNat) (t.parents p)),
  ("root", .ofOption .ofNat (t.rootType? p)),
  ("ends", .ofList (fun i => .ofNat (t.endpoint p i)) (List.range t.size)),
  ("records", .ofList (fun r => .array [
    .ofNat r.operator, .ofNat r.size, .bool r.isLiteral, .ofNat r.flags.bits.toNat]) t.records)]

end Tree

end GeneticProgramming
