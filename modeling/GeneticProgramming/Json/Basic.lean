import GeneticProgramming.Number.Double

/-!
# JSON documents

A document keeps the digits of its numbers, so that whole numbers stay exact and each reader decides
which numbers it takes.  Objects keep all their members in order, repeated names included.
-/

namespace GeneticProgramming

namespace Json

/-- A number as it was written. -/
structure Number where
  negative : Bool
  whole : List Nat
  fraction : Option (List Nat)
  /-- The sign of the exponent, true for a negative one, and its digits. -/
  exponent : Option (Bool × List Nat)
deriving DecidableEq, Repr

namespace Number

/-- The greatest significand that is kept exactly. -/
def widest : Nat := 2 ^ 64 - 1

/-- The greatest exponent that is told from larger ones. -/
def farthest : Nat := 2 ^ 31 - 1

/-- Appends digits as long as the significand stays a word; also gives the digits that are left. -/
def accumulate (significand : Nat) : List Nat → Nat × List Nat
  | [] => (significand, [])
  | d :: ds =>
    if widest < significand * 10 + d then (significand, d :: ds)
    else accumulate (significand * 10 + d) ds

/-- A power of ten. -/
def powerOfTen (n : Nat) : Double := .ofFloat (Float.ofScientific 1 false n)

/-- Scales by a negative power of ten in steps of at most `10 ^ 308`. -/
def scaleDown : Nat → Double → Nat → Double
  | 0, x, _ => x
  | rounds + 1, x, n =>
    if n ≤ 308 then x / powerOfTen n
    else if x.eq .zero then x
    else scaleDown rounds (x / powerOfTen 308) (n - 308)

/-- `significand * 10 ^ exponent`, each step rounded; none if that is too large. -/
def ofParts (significand : Nat) (exponent : Int) : Option Double :=
  let x := Double.ofNat significand
  if exponent < 0 then some (scaleDown 8 x (-exponent).toNat)
  else if significand = 0 then some .zero
  else if 308 < exponent then none
  else
    let y := x * powerOfTen exponent.toNat
    if y.isFinite then some y else none

private def digits (ds : List Nat) : Nat := ds.foldl (fun n d => n * 10 + d) 0

/-- The double that a number is read as; none if it is too large. -/
def toDouble? (n : Number) : Option Double := do
  let (significand, dropped) := accumulate 0 n.whole
  let fraction := n.fraction.getD []
  let (significand, ignored) := accumulate significand fraction
  let shift : Int := dropped.length - (fraction.length - ignored.length : Nat)
  let magnitude ← match n.exponent with
    | none => ofParts significand shift
    | some (negative, ds) =>
      let e := digits ds
      if farthest < e then if significand ≠ 0 && !negative then none else some .zero
      else ofParts significand (if negative then shift - e else shift + e)
  return if n.negative then -magnitude else magnitude

/-- Whether a number is written as a whole one. -/
def isWhole (n : Number) : Bool := n.fraction.isNone && n.exponent.isNone

/-- A whole number that is not negative and fits a word. -/
def toNat? (n : Number) : Option Nat :=
  let v := digits n.whole
  if n.isWhole && !n.negative && v ≤ widest then some v else none

/-- A whole number that fits a signed word; minus zero is none. -/
def toInt? (n : Number) : Option Int :=
  let v := digits n.whole
  if !n.isWhole then none
  else if n.negative then if 0 < v && v ≤ 2 ^ 63 then some (-v) else none
  else if v < 2 ^ 63 then some v else none

end Number

end Json

inductive Json where
  | null
  | bool (b : Bool)
  | number (n : Json.Number)
  | string (s : String)
  | array (elements : List Json)
  | object (members : List (String × Json))
  /-- A text with half of a surrogate pair in it, or an object with such a name.  It can be passed
  over where nothing is looked for, but it is no value of any kind. -/
  | garbled

namespace Json

mutual

/-- Whether all of a document are values, its numbers are doubles, and it has no more levels of
arrays and objects than so many. -/
def isSound (levels : Nat) : Json → Bool
  | .garbled => false
  | .number n => n.toDouble?.isSome
  | .array elements => 0 < levels && soundElements (levels - 1) elements
  | .object members => 0 < levels && soundMembers (levels - 1) members
  | _ => true

private def soundElements (levels : Nat) : List Json → Bool
  | [] => true
  | x :: xs => isSound levels x && soundElements levels xs

private def soundMembers (levels : Nat) : List (String × Json) → Bool
  | [] => true
  | (_, x) :: xs => isSound levels x && soundMembers levels xs

end

/-- The last member of a name. -/
def get? (j : Json) (name : String) : Option Json :=
  match j with
  | .object members => (members.reverse.find? (·.1 = name)).map Prod.snd
  | _ => none

def toBool? : Json → Option Bool
  | .bool b => some b
  | _ => none

def toNat? : Json → Option Nat
  | .number n => n.toNat?
  | _ => none

def toInt? : Json → Option Int
  | .number n => n.toInt?
  | _ => none

def toDouble? : Json → Option Double
  | .number n => n.toDouble?
  | _ => none

def toString? : Json → Option String
  | .string s => some s
  | _ => none

def toList? : Json → Option (List Json)
  | .array elements => some elements
  | _ => none

/-! ## Records and variants -/

/-- The fields of a record with the given names, in their order.  A record is an object without a
repeated field, in which other members are ignored, or an array with the fields in order. -/
def fields? (names : List String) : Json → Option (List (Option Json))
  | .object members =>
    if names.any fun name => 1 < members.countP (·.1 = name) then none
    else some (names.map fun name => members.lookup name)
  | .array elements =>
    if names.length < elements.length then none
    else some ((List.range names.length).map (elements[·]?))
  | _ => none

/-- The name of a variant and what it holds: a text, or an object of one member. -/
def variant? : Json → Option (String × Option Json)
  | .string s => some (s, none)
  | .object [(name, content)] => some (name, some content)
  | _ => none

/-- Whether the content of a variant is that of one that holds nothing. -/
def isBare : Option Json → Bool
  | none => true
  | some .null => true
  | _ => false

end Json

end GeneticProgramming
