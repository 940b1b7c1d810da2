import GeneticProgramming.Stream.Bytes

/-!
# Schemas

The schema of a palette describes its operators: names, arities, and the numbers and sizes of their
types.  A stream is accepted only by a palette with the same schema, and the first difference is
reported.
-/

namespace GeneticProgramming

/-- What a schema says of an operator. -/
structure Description where
  id : Nat
  name : Option String
  argumentBytes : Nat
  returnBytes : Nat
  arity : Nat
  contextArity : Nat
  returns : Nat
  arguments : List Nat
deriving DecidableEq, Repr

namespace Description

def ofEntry {C : Type} (id : OperatorId) (e : Entry C) : Description where
  id
  name := e.operator.name
  argumentBytes := e.operator.argumentSize
  returnBytes := e.operator.returns.size
  arity := e.arity
  contextArity := if e.operator.consultsContext then 1 else 0
  returns := e.returns
  arguments := e.arguments

def nameBytes : Option String → Bytes
  | some name => 1 :: Bytes.ofString name
  | none => [0]

def toBytes (d : Description) : Bytes :=
  Bytes.ofNat d.id ++ nameBytes d.name ++ Bytes.ofNat d.argumentBytes ++
    Bytes.ofNat d.returnBytes ++ Bytes.ofNat16 d.arity ++ Bytes.ofNat16 d.contextArity ++
    Bytes.ofNat d.returns ++ Bytes.ofList Bytes.ofNat d.arguments

/-- The bytes that a name may have. -/
def longestName : Nat := 65536

def readName (id : Nat) : Reader (Option String) := do
  if (← Reader.byte) = 0 then return none
  let length ← Reader.nat
  if longestName < length then throw (.invalidName id none none)
  let bytes ← Reader.take length
  match String.fromUTF8? ⟨bytes.toArray⟩ with
  | some name => return some name
  | none => throw (.invalidName id none none)

def read : Reader Description := do
  let id ← Reader.nat
  let name ← readName id
  let argumentBytes ← Reader.nat
  let returnBytes ← Reader.nat
  let arity ← Reader.nat16
  let contextArity ← Reader.nat16
  let returns ← Reader.nat
  let arguments ← Reader.list Reader.nat
  return ⟨id, name, argumentBytes, returnBytes, arity, contextArity, returns, arguments⟩

/-- The first difference between argument types. -/
def argumentMismatch (found expected : List Nat) : Option Nat :=
  (found.zip expected).findIdx? fun (f, e) => f ≠ e

/-- Compares a description that was read with that of an operator; the first difference counts. -/
def compare (found own : Description) : Except StreamError Unit := do
  let id := found.id
  if id ≠ own.id then throw (.invalidOperatorId id)
  if found.name ≠ own.name then throw (.invalidName id own.name found.name)
  if found.arity ≠ own.arity || found.contextArity ≠ own.contextArity then
    throw (.mismatchedArity id)
  if found.returns ≠ own.returns then throw (.mismatchedReturnType id)
  if found.arguments.length ≠ own.arity then throw (.mismatchedArity id)
  if let some position := argumentMismatch found.arguments own.arguments then
    throw (.mismatchedArgumentType id position)
  if found.argumentBytes ≠ own.argumentBytes then
    throw (.mismatchedBytes id own.argumentBytes found.argumentBytes)
  if found.returnBytes ≠ own.returnBytes then
    throw (.mismatchedBytes id own.returnBytes found.returnBytes)

end Description

namespace Palette

variable {C : Type} (p : Palette C)

/-- The descriptions of all operators. -/
def schema : List Description := p.entries.zipIdx.map fun (e, id) => .ofEntry id e

def schemaBytes : Bytes := Bytes.ofList Description.toBytes p.schema

def compareAll : List Description → Reader Unit
  | [] => return ()
  | own :: rest => do
    let found ← Description.read
    found.compare own
    compareAll rest

/-- Reads a schema that has to be the palette's own. -/
def readSchema : Reader Unit := do
  let count ← Reader.nat
  if count ≠ p.size then throw (.unexpectedSize p.size count)
  compareAll p.schema

end Palette

end GeneticProgramming
