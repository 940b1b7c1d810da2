import GeneticProgramming.Catalogue.Objectives
import GeneticProgramming.Catalogue.Operators
import GeneticProgramming.Value.Document

/-!
# The catalogue in documents

Scenes, operators and objectives of the catalogue as documents describe them.
-/

namespace GeneticProgramming

namespace Catalogue

/-- What is missing from a scene is zero, false or empty. -/
def sceneOf (j : Json) : Scene where
  x := ((j.get? "x").bind Single.ofDocument?).getD .zero
  y := j.doubleD "y"
  n := Int64.ofInt (j.intD "n")
  on := j.boolD "on"
  s := j.textD "s" ""

/-- The scene of a document that may hold one. -/
def sceneIn (j : Json) : Scene := ((j.get? "ctx").map sceneOf).getD .empty

/-- An operator of the catalogue: under its own name, or as a record that gives it another name or
none. -/
def operatorOf? (j : Json) : Option (Operator Scene) :=
  match j with
  | .string s => operator? s (some s)
  | _ => do operator? (← j.text? "fn") (j.text? "name")

/-- The operators of a list, and the root type if one is named; none if a name is unknown. -/
def ingredients? (operators : List Json) (root : Option Json) :
    Option (List (Operator Scene) × Option ValueType) := do
  let operators ← operators.mapM operatorOf?
  match root with
  | some (.string name) => return (operators, some (← type? name))
  | _ => return (operators, none)

/-! ## Objectives -/

/-- A document with its members in the order of their names. -/
def sorted : Json → Json
  | .object members => .object (members.mergeSort fun a b => a.1 ≤ b.1)
  | j => j

/-- What is expected is given as the document of the value, with members in any order. -/
def expectationOf (type : ValueType) (j : Json) : Expectation type where
  scene := sceneIn j
  holds x := (sorted (type.document x)).compact = (sorted ((j.get? "want").getD .null)).compact

def rowOf (j : Json) : Row where
  failure := j.text? "error"
  raw := j.double? "raw"
  standardized := j.double? "standardized"
  adjusted := j.double? "adjusted"
  hits := ((j.get? "hits").bind Json.toInt?).map Int64.ofInt
  solved := j.boolD "solved"

/-- An objective by its kind; one of no known kind fails. -/
def objectiveOf (j : Json) : Objective Scene :=
  match j.text? "kind" with
  | some "poly" =>
    fitPolynomial (j.doublesD "coefficients") (j.doublesD "xs") (j.double? "solve")
  | some "size" => reachSize (j.natD "target" 0) (j.boolD "solve")
  | some "table" => lookUp ((j.listD "rows").map rowOf)
  | some "match" =>
    match (j.text? "type").bind type? with
    | some type => meetExpectations type ((j.listD "cases").map (expectationOf type))
    | none => failing "unknown type"
  | _ => failing "unknown fitness"

end Catalogue

end GeneticProgramming
