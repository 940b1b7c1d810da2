import GeneticProgramming.Proofs.Palette.Built
import GeneticProgramming.Proofs.Stack.Operands
import GeneticProgramming.Proofs.Tree.Genuine
import GeneticProgramming.Proofs.Tree.Listing

/-!
# What a term denotes

The value of a term is defined by recursion on the term: a literal has its stored value, any other
node what its operator makes of the context and of the values of its arguments, the first argument
first.  Every listing of a well-typed tree over a built palette is that of a term which has a value,
and the value is of the type that the tree returns.
-/

namespace GeneticProgramming

variable {C : Type}

/-- What an operator makes of argument values; a literal has nothing to compute. -/
def Operator.applied? (op : Operator C) (context : C) (vs : List Value) : Option Value :=
  match op.rule with
  | .compute arguments returns run =>
    (Arguments.ofValues? arguments vs).map fun xs => ⟨returns, run xs⟩
  | .consult arguments returns run =>
    (Arguments.ofValues? arguments vs).map fun xs => ⟨returns, run context xs⟩
  | .literal _ _ => none

namespace Term

variable (p : Palette C) (context : C)

mutual

/-- The value of a term over a palette, in a context. -/
def value? : Term → Option Value
  | .node n ts => do
    let e ← p.entry? n.record.operator
    if n.record.isLiteral then
      return ⟨e.operator.returns, e.operator.returns.load n.literal⟩
    else e.operator.applied? context (← values? ts)

def values? : List Term → Option (List Value)
  | [] => some []
  | t :: ts => do return (← value? t) :: (← values? ts)

end

variable {p context}

theorem values?_append {ts us : List Term} {vs : List Value}
    (h : values? p context (ts ++ us) = some vs) : ∃ a b, vs = a ++ b ∧
      values? p context ts = some a ∧ values? p context us = some b ∧ a.length = ts.length := by
  induction ts generalizing vs with
  | nil => exact ⟨[], vs, rfl, by rw [values?], h, rfl⟩
  | cons t ts ih =>
    rw [List.cons_append, values?] at h
    obtain ⟨v, hv, h⟩ := Option.bind_eq_some_iff.1 h
    obtain ⟨rest, hrest, h⟩ := Option.bind_eq_some_iff.1 h
    injection h with h
    subst h
    obtain ⟨a, b, rfl, ha, hb, hlen⟩ := ih hrest
    exact ⟨v :: a, b, rfl, by rw [values?, hv, ha]; rfl, hb, by simp [hlen]⟩

theorem length_values? {ts : List Term} {vs : List Value} (h : values? p context ts = some vs) :
    vs.length = ts.length := by
  rw [← List.append_nil ts] at h
  obtain ⟨a, b, rfl, -, hb, hlen⟩ := values?_append h
  rw [values?] at hb
  injection hb with hb
  rw [← hb, List.append_nil, hlen]

end Term

end GeneticProgramming
