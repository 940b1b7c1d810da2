import GeneticProgramming.Tree.Walk
import GeneticProgramming.Value.Text

/-!
# Terms

A term is a tree in the usual sense: a node above its arguments.  The pre-order listing of a tree is
read back into a term from its last node to its first.
-/

namespace GeneticProgramming

inductive Term where
  | node (head : Node) (arguments : List Term)

namespace Term

variable {C : Type} (p : Palette C)

def head : Term → Node
  | .node n _ => n

def arguments : Term → List Term
  | .node _ ts => ts

mutual

/-- The pre-order listing of a term. -/
def nodes : Term → List Node
  | .node n ts => n :: nodesAll ts

def nodesAll : List Term → List Node
  | [] => []
  | t :: ts => nodes t ++ nodesAll ts

end

mutual

def depth : Term → Nat
  | .node _ ts => depthAll ts

/-- The number of levels of some terms. -/
def depthAll : List Term → Nat
  | [] => 0
  | t :: ts => max (depth t + 1) (depthAll ts)

end

/-- Reads the terms that a list of nodes spells out, the last node first. -/
def assemble : List Node → Option (List Term)
  | [] => some []
  | n :: ns => do
    let terms ← assemble ns
    let arity := p.arity n.record.operator
    if terms.length < arity then none
    else some (.node n (terms.take arity) :: terms.drop arity)

/-- The text of a literal. -/
def literalText (n : Node) : String :=
  match p.entry? n.record.operator with
  | some e => e.operator.returns.render (e.operator.returns.load n.literal)
  | none => "?"

mutual

/-- A literal shows its value, another leaf its name, and an inner node is put in parentheses with
its name and its arguments. -/
def text : Term → String
  | .node n ts =>
    if n.record.isLiteral then literalText p n
    else
      let name := p.displayName n.record.operator
      if ts.isEmpty then name else "(" ++ name ++ textAll ts ++ ")"

/-- Arguments, each after a blank. -/
def textAll : List Term → String
  | [] => ""
  | t :: ts => " " ++ text t ++ textAll ts

end

end Term

namespace Tree

variable {C : Type} (p : Palette C) (t : Tree)

/-- The term at the root, if the records complete it. -/
def term? : Option Term := do
  let terms ← Term.assemble p (t.nodes.take (t.endpoint p 0))
  terms.head?

/-- The text of the term at the root; an empty tree has the empty text. -/
def text : Except Fault String :=
  if t.isEmpty then .ok "" else (demand (t.term? p)).map (Term.text p)

def describe : Except Fault String := do
  let expr := Text.quoted (← t.text p)
  return s!"Tree \x7b size: {t.size}, value_bytes: {t.values.size}, expr: {expr} \x7d"

end Tree

end GeneticProgramming
