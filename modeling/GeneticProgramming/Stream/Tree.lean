import GeneticProgramming.Stream.Bytes
import GeneticProgramming.Tree.Walk

/-!
# Trees in streams

A tree is written as its records and the bytes of its literals.  Only values that are no references
can be written, and what is read has to fit the palette and to be a well-formed tree.
-/

namespace GeneticProgramming

namespace Record

def toBytes (r : Record) : Bytes :=
  Bytes.ofNat16 r.size ++ Bytes.ofNat r.operator ++ [r.flags.bits]

end Record

namespace Tree

/-- The bytes of all literals. -/
def literalBytes (t : Tree) : Bytes := t.values.contents.flatMap Cell.bytes

/-- The records and then the bytes of the literals. -/
def toBytes (t : Tree) : Bytes :=
  Bytes.ofList Record.toBytes t.records ++ Bytes.ofNat t.literalBytes.length ++ t.literalBytes

/-- Whether the bytes of all literals are told by their values: the bytes behind them are zero. -/
def hasZeroPadding {C : Type} (p : Palette C) (t : Tree) : Bool :=
  t.nodes.all fun n => !n.record.isLiteral ||
    (p.entry? n.record.operator).all fun e => e.operator.returns.hasZeroPadding n.literal

/-- Writes a tree, unless one of its literals is a reference. -/
def write (t : Tree) : Output :=
  match t.records.find? (·.flags.shared) with
  | some r => .fail (.unserializableValue r.operator)
  | none => .ofBytes t.toBytes

variable {C : Type} (p : Palette C)

/-- Reads the record at an index and compares it with the palette. -/
def readRecord (index : Nat) : Reader Record := do
  let size ← Reader.nat16
  let id ← Reader.nat
  let flags := Flags.ofBits (← Reader.byte)
  match if id < 2 ^ 32 then p.entry? id else none with
  | none => throw (.invalidOperatorId id)
  | some e =>
    let expected := e.operator.returns.size
    if size ≠ expected then throw (.mismatchedBytes index expected size)
    if flags.shared || e.flags.shared then throw (.unserializableValue id)
    if flags ≠ e.flags then throw (.invalidOperatorId id)
    return ⟨id, size, flags⟩

def readRecords : Nat → Nat → Reader (List Record)
  | _, 0 => return []
  | index, n + 1 => do
    let r ← readRecord p index
    return r :: (← readRecords (index + 1) n)

def read : Reader Tree := do
  let records ← readRecords p 0 (← Reader.nat)
  let expected := 8 * literalWords records
  let found ← Reader.nat
  if found ≠ expected then throw (.unexpectedSize expected found)
  let cells := Cell.ofBytes (← Reader.take expected)
  let t : Tree := ⟨records, Stack.empty.pushRun cells⟩
  match t.check p with
  | .ok () => return t
  | .error e => throw (.malformedTree e)

end Tree

end GeneticProgramming
