import GeneticProgramming.Json.Printer
import GeneticProgramming.Text.Hex

/-!
# Forms of documents

How lists, options and floating-point numbers are put into documents, and how fields are taken out.
A floating-point number is written as the word that stores it, so that nothing is lost but the
payload of a NaN; it is read from that form, from a number, or from the names of what is no number.
-/

namespace GeneticProgramming

namespace Json

def ofString (s : String) : Json := .string s

def ofList {α : Type} (f : α → Json) (xs : List α) : Json := .array (xs.map f)

def ofOption {α : Type} (f : α → Json) (x : Option α) : Json := (x.map f).getD .null

/-- An error by its family, its kind and its message. -/
def failure (family kind message : String) : Json :=
  .object [("error", .string (family ++ "." ++ kind)), ("message", .string message)]

/-! ## Fields -/

variable (j : Json) (name : String)

def text? : Option String := (j.get? name).bind toString?

def textD (standard : String) : String := (j.text? name).getD standard

def nat? : Option Nat := (j.get? name).bind toNat?

def natD (standard : Nat) : Nat := (j.nat? name).getD standard

def boolD : Bool := ((j.get? name).bind toBool?).getD false

/-- A field that holds a list; a missing one counts as empty. -/
def listD : List Json := ((j.get? name).bind toList?).getD []

def intD : Int := ((j.get? name).bind toInt?).getD 0

end Json

/-! ## Numbers by their words -/

/-- The word of so many bits that the digits after a tag spell; a plus sign may come first. -/
private def tagged? (tag : String) (width : Nat) (s : String) : Option Nat :=
  if s.startsWith tag then
    let digits := match s.toList.drop tag.length with
      | '+' :: rest => rest
      | all => all
    (Text.readHexNat digits).filter (· < 2 ^ width)
  else none

namespace Single

def document (x : Single) : Json :=
  .string ("f32:" ++ if x.isNaN then "nan" else Text.hexNat 8 x.bits.toNat)

end Single

namespace Double

def document (x : Double) : Json :=
  .string ("f64:" ++ if x.isNaN then "nan" else Text.hexNat 16 x.bits.toNat)

/-- A number, or one of the names of what is no ordinary number. -/
private def named? : Json → Option Double
  | .number n => n.toDouble?
  | .string "nan" => some nan
  | .string "inf" => some infinity
  | .string "-inf" => some negInfinity
  | .string "-0" => some negZero
  | _ => none

def ofDocument? (j : Json) : Option Double :=
  match j.toString?.bind (tagged? "f64:" 64) with
  | some n => some ⟨UInt64.ofNat n⟩
  | none => named? j

/-- Whatever is no number counts as zero. -/
def ofDocument (j : Json) : Double := (ofDocument? j).getD zero

end Double

/-- A single is read from its own word, but not from that of a double; a number is rounded. -/
def Single.ofDocument? (j : Json) : Option Single :=
  match j.toString?.bind (tagged? "f32:" 32) with
  | some n => some ⟨UInt32.ofNat n⟩
  | none => (Double.named? j).map Double.toSingle

namespace Json

variable (j : Json) (name : String)

def double? : Option Double := (j.get? name).bind Double.ofDocument?

def doubleD : Double := (j.double? name).getD .zero

/-- The numbers of a field that holds a list; whatever is no number is left out. -/
def doublesD : List Double := (j.listD name).filterMap Double.ofDocument?

end Json

end GeneticProgramming
