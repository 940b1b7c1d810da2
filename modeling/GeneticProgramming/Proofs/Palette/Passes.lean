import GeneticProgramming.Proofs.Palette.Rounds
import Mathlib.Logic.Function.Iterate

/-!
# Passes

The depths are found by going over the operators in their order, where each depth counts at once for
the operators behind it.  So a pass may find more than a round, but never less, and never a depth
that is too small.  The main statement, `Ground.find_eq`, says that the passes end with the depths of
the rounds, and `Ground.pass_find` that another pass would change nothing.
-/

namespace GeneticProgramming

namespace Ground

variable {C : Type} {entries : List (Entry C)} {types : Nat}

/-! ## Depths that are no greater -/

/-- One list of depths knows whatever another one knows, and no greater depths. -/
def Below (xs ys : List (Option Nat)) : Prop :=
  ∀ t d, known? ys t = some d → ∃ x, known? xs t = some x ∧ x ≤ d

section

variable {xs ys zs : List (Option Nat)} {i t d x : Nat}

theorem Below.refl (xs : List (Option Nat)) : Below xs xs :=
  fun _ d h => ⟨d, h, Nat.le_refl d⟩

theorem Below.trans (h : Below xs ys) (h' : Below ys zs) : Below xs zs := by
  intro t d hd
  obtain ⟨y, hy, hyd⟩ := h' t d hd
  obtain ⟨x, hx, hxy⟩ := h t y hy
  exact ⟨x, hx, Nat.le_trans hxy hyd⟩

theorem known?_eq_getElem (h : t < xs.length) : known? xs t = xs[t] := by
  simp [known?, h]

theorem Below.antisymm (h : Below xs ys) (h' : Below ys xs) (hlength : xs.length = ys.length) :
    xs = ys := by
  refine List.ext_getElem hlength fun i hi hj => ?_
  rw [← known?_eq_getElem hi, ← known?_eq_getElem hj]
  cases hys : known? ys i with
  | some y =>
    obtain ⟨x, hxs, hle⟩ := h i y hys
    obtain ⟨y', hys', hle'⟩ := h' i x hxs
    rw [hys] at hys'
    injection hys' with hys'
    rw [hxs, Nat.le_antisymm hle (hys' ▸ hle')]
  | none =>
    cases hxs : known? xs i with
    | none => rfl
    | some x =>
      obtain ⟨y, hys', -⟩ := h' i x hxs
      rw [hys] at hys'
      contradiction

/-- Smaller depths of the arguments give a smaller depth of the operator. -/
theorem Below.ofArguments {ts : List TypeId} (h : Below xs ys)
    (hd : ofArguments ys ts = some d) : ∃ x, ofArguments xs ts = some x ∧ x ≤ d := by
  refine exists_ofArguments_le fun t ht => ?_
  obtain ⟨y, hy, hlt⟩ := (ofArguments_le_iff hd).1 (Nat.le_refl d) t ht
  obtain ⟨x, hx, hle⟩ := h t y hy
  exact ⟨x, hx, Nat.lt_of_le_of_lt hle hlt⟩

/-! ## Lowering one depth -/

theorem known?_modify_of_ne (f : Option Nat → Option Nat) (h : i ≠ t) :
    known? (xs.modify i f) t = known? xs t := by
  rw [known?, known?, List.getElem?_modify]
  cases xs[t]? <;> simp [h]

theorem known?_modify_self (f : Option Nat → Option Nat) (h : i < xs.length) :
    known? (xs.modify i f) i = f (known? xs i) := by
  simp [known?, h]

theorem lower_le (d : Nat) (known : Option Nat) : ∃ x, lower d known = some x ∧ x ≤ d := by
  cases known with
  | none => exact ⟨d, rfl, Nat.le_refl d⟩
  | some x => exact ⟨min d x, rfl, Nat.min_le_left d x⟩

theorem exists_known?_lower (h : i < xs.length) :
    ∃ x, known? (xs.modify i (lower d)) i = some x ∧ x ≤ d := by
  rw [known?_modify_self _ h]
  exact lower_le d _

theorem below_lower (xs : List (Option Nat)) (i d : Nat) : Below (xs.modify i (lower d)) xs := by
  intro t x hx
  by_cases hi : i = t
  · subst hi
    obtain ⟨hlt, -⟩ := List.getElem?_eq_some_iff.1 (Option.join_eq_some_iff.1 hx)
    rw [known?_modify_self _ hlt, hx]
    exact ⟨min d x, rfl, Nat.min_le_right d x⟩
  · exact ⟨x, by rwa [known?_modify_of_ne _ hi], Nat.le_refl x⟩

theorem Below.lower (h : Below xs ys) (hx : known? xs i = some x) (hle : x ≤ d) :
    Below xs (ys.modify i (Ground.lower d)) := by
  intro t y hy
  by_cases hi : i = t
  · subst hi
    obtain ⟨hlt, -⟩ := List.getElem?_eq_some_iff.1 (Option.join_eq_some_iff.1 hy)
    rw [List.length_modify] at hlt
    rw [known?_modify_self _ hlt] at hy
    cases hys : known? ys i with
    | none =>
      rw [hys] at hy
      injection hy with hy
      exact ⟨x, hx, hy ▸ hle⟩
    | some z =>
      rw [hys] at hy
      injection hy with hy
      obtain ⟨x', hx', hle'⟩ := h i z hys
      rw [hx] at hx'
      injection hx' with hx'
      exact ⟨x, hx, hy ▸ Nat.le_min.2 ⟨hle, hx' ▸ hle'⟩⟩
  · rw [known?_modify_of_ne _ hi] at hy
    exact h t y hy

end

/-! ## One pass -/

namespace Known

/-- No depth is greater. -/
structure Below (a b : Known) : Prop where
  types : Ground.Below a.types b.types
  operators : Ground.Below a.operators b.operators

theorem Below.refl (a : Known) : a.Below a := ⟨.refl _, .refl _⟩

theorem Below.trans {a b c : Known} (h : a.Below b) (h' : b.Below c) : a.Below c :=
  ⟨h.types.trans h'.types, h.operators.trans h'.operators⟩

/-- A depth is kept for each type and for each operator. -/
structure Sized (entries : List (Entry C)) (types : Nat) (known : Known) : Prop where
  types : known.types.length = types
  operators : known.operators.length = entries.length

end Known

section

variable {known : Known} {e : Entry C} {id : OperatorId} {d k : Nat}

theorem visit_below (known : Known) (e : Entry C) (id : OperatorId) :
    (visit known e id).Below known := by
  unfold visit
  split
  · exact ⟨below_lower _ _ _, below_lower _ _ _⟩
  · exact .refl known

theorem Known.Sized.visit (h : known.Sized entries types) (e : Entry C) (id : OperatorId) :
    (Ground.visit known e id).Sized entries types := by
  unfold Ground.visit
  split
  · exact ⟨by rw [List.length_modify, h.types], by rw [List.length_modify, h.operators]⟩
  · exact h

/-- What every visit preserves, a pass preserves. -/
theorem pass_induction {P : Known → Prop}
    (hvisit : ∀ known e id, entries[id]? = some e → P known → P (visit known e id))
    (h : P known) : P (pass entries known) := by
  refine List.foldlRecOn _ _ h fun known hknown pair hpair => ?_
  exact hvisit known pair.1 pair.2 (List.mem_zipIdx_iff_getElem?.1 hpair) hknown

theorem Known.Sized.pass (h : known.Sized entries types) :
    (Ground.pass entries known).Sized entries types :=
  pass_induction (fun _ e id _ h => h.visit e id) h

theorem pass_below (known : Known) : (pass entries known).Below known :=
  pass_induction (P := (·.Below known)) (fun _ e id _ h => (visit_below _ e id).trans h) (.refl known)

/-- A pass looks at each operator, with no greater depths before and no greater ones after. -/
theorem exists_visit (known : Known) (he : entries[id]? = some e) :
    ∃ before : Known, before.Below known ∧ (pass entries known).Below (visit before e id) ∧
      ∀ types, known.Sized entries types → before.Sized entries types := by
  have hmem : (e, id) ∈ entries.zipIdx := List.mem_zipIdx_iff_getElem?.2 he
  obtain ⟨front, back, hsplit⟩ := List.append_of_mem hmem
  have hfold : ∀ (pairs : List (Entry C × OperatorId)) (a : Known),
      (pairs.foldl (fun known (e, id) => visit known e id) a).Below a := by
    intro pairs a
    refine List.foldlRecOn (motive := fun b : Known => b.Below a) _ _ (.refl a) fun b hb pair _ => ?_
    exact (visit_below b pair.1 pair.2).trans hb
  refine ⟨front.foldl (fun known (e, id) => visit known e id) known, hfold front known, ?_, ?_⟩
  · have hpass : pass entries known = back.foldl (fun known (e, id) => visit known e id)
        (visit (front.foldl (fun known (e, id) => visit known e id) known) e id) := by
      rw [pass, hsplit, List.foldl_append, List.foldl_cons]
    exact hpass ▸ hfold back _
  · intro types hsized
    exact List.foldlRecOn _ _ hsized fun b hb pair _ => hb.visit pair.1 pair.2

end

/-! ## All passes -/

/-- The depths that the rounds settle on. -/
def least (entries : List (Entry C)) (types : Nat) : Known :=
  ⟨depths entries types types,
    entries.map fun e => ofArguments (depths entries types types) e.arguments⟩

section

variable {known : Known} {e : Entry C} {id : OperatorId} {d k : Nat}

@[simp] theorem length_depths (entries : List (Entry C)) (types k : Nat) :
    (depths entries types k).length = types := by
  cases k <;> simp [depths]

theorem known?_least_operators (he : entries[id]? = some e) :
    known? (least entries types).operators id =
      ofArguments (depths entries types types) e.arguments := by
  rw [known?, least, List.getElem?_map, he]
  rfl

theorem sized_least (entries : List (Entry C)) (types : Nat) :
    (least entries types).Sized entries types :=
  ⟨length_depths _ _ _, List.length_map _⟩

theorem sized_unknown (entries : List (Entry C)) (types : Nat) :
    (unknown types entries.length).Sized entries types :=
  ⟨List.length_replicate, List.length_replicate⟩

theorem below_unknown (a : Known) (types operators : Nat) : a.Below (unknown types operators) := by
  have hnone : ∀ n t d, known? (List.replicate n none) t ≠ some d := by
    intro n t d h
    rw [known?, List.getElem?_replicate] at h
    split at h <;> contradiction
  exact ⟨fun t d h => absurd h (hnone _ t d), fun t d h => absurd h (hnone _ t d)⟩

/-- A pass finds all that a round finds. -/
theorem pass_types_below (hsized : known.Sized entries types)
    (h : Below known.types (depths entries types k)) :
    Below (pass entries known).types (depths entries types (k + 1)) := by
  intro t d hd
  have ht := lt_types_of_depth? hd
  rw [← depth?, depth?_succ ht, ofType_eq_some_iff] at hd
  obtain ⟨⟨e, he, rfl, harguments⟩, -⟩ := hd
  obtain ⟨id, hid⟩ := List.mem_iff_getElem?.1 he
  obtain ⟨before, hbefore, hafter, hkept⟩ := exists_visit known hid
  obtain ⟨x, hx, hxd⟩ := (hbefore.types.trans h).ofArguments harguments
  have hlength : e.returns < before.types.length := by rwa [(hkept types hsized).types]
  obtain ⟨y, hy, hyx⟩ := exists_known?_lower (d := x) hlength
  obtain ⟨z, hz, hzy⟩ := hafter.types e.returns y (by rw [visit, hx]; exact hy)
  exact ⟨z, hz, by omega⟩

/-- A pass over settled types settles the operators. -/
theorem pass_operators_below (hsized : known.Sized entries types)
    (h : Below known.types (depths entries types types)) :
    Below (pass entries known).operators (least entries types).operators := by
  intro id d hd
  obtain ⟨e, he⟩ : ∃ e, entries[id]? = some e := by
    rw [known?, least, List.getElem?_map] at hd
    cases he : entries[id]? with
    | some e => exact ⟨e, rfl⟩
    | none => rw [he] at hd; contradiction
  rw [known?_least_operators he] at hd
  obtain ⟨before, hbefore, hafter, hkept⟩ := exists_visit known he
  obtain ⟨x, hx, hxd⟩ := (hbefore.types.trans h).ofArguments hd
  obtain ⟨hlt, -⟩ := List.getElem?_eq_some_iff.1 he
  have hlength : id < before.operators.length := by rwa [(hkept types hsized).operators]
  obtain ⟨y, hy, hyx⟩ := exists_known?_lower (d := x) hlength
  obtain ⟨z, hz, hzy⟩ := hafter.operators id y (by rw [visit, hx]; exact hy)
  exact ⟨z, hz, by omega⟩

/-- Settled depths stay as they are. -/
theorem eq_least (hsized : known.Sized entries types) (hleast : (least entries types).Below known)
    (htypes : Below known.types (depths entries types types))
    (hoperators : Below known.operators (least entries types).operators) :
    known = least entries types := by
  have hsized' := sized_least entries types
  have h1 := htypes.antisymm hleast.types (hsized.types.trans hsized'.types.symm)
  have h2 := hoperators.antisymm hleast.operators
    (hsized.operators.trans hsized'.operators.symm)
  cases known
  exact congrArg₂ Known.mk h1 h2

section

variable (hreturns : ∀ e ∈ entries, e.returns < types)

include hreturns

/-- The depths that the rounds settle on are bounds for every operator. -/
theorem depth?_le_of_ofArguments (he : e ∈ entries)
    (hd : ofArguments (depths entries types types) e.arguments = some d) :
    ∃ x, depth? entries types types e.returns = some x ∧ x ≤ d := by
  rw [← ofType_settled entries (hreturns e he)]
  cases hx : ofType entries (depths entries types types) e.returns with
  | some x => exact ⟨x, rfl, (ofType_eq_some_iff.1 hx).2 e he rfl d hd⟩
  | none =>
    rw [ofType_eq_none_iff.1 hx e he rfl] at hd
    contradiction

/-- No visit finds a depth that is too small. -/
theorem least_below_visit (he : entries[id]? = some e) (h : (least entries types).Below known) :
    (least entries types).Below (visit known e id) := by
  unfold visit
  split
  · next d hd =>
    obtain ⟨x, hx, hxd⟩ := h.types.ofArguments hd
    obtain ⟨y, hy, hyx⟩ := depth?_le_of_ofArguments hreturns (List.mem_of_getElem? he) hx
    exact ⟨h.types.lower hy (Nat.le_trans hyx hxd),
      h.operators.lower ((known?_least_operators he).trans hx) hxd⟩
  · exact h

/-- What the passes know after some rounds. -/
theorem passes (k : Nat) :
    let known := (pass entries)^[k] (unknown types entries.length)
    known.Sized entries types ∧ (least entries types).Below known ∧
      Below known.types (depths entries types k) := by
  induction k with
  | zero =>
    refine ⟨sized_unknown entries types, below_unknown _ _ _, fun t d hd => ?_⟩
    rw [← depth?, depth?_zero] at hd
    contradiction
  | succ k ih =>
    obtain ⟨hsized, hleast, htypes⟩ := ih
    rw [Function.iterate_succ_apply']
    exact ⟨hsized.pass, pass_induction (fun _ _ _ he h => least_below_visit hreturns he h) hleast,
      pass_types_below hsized htypes⟩

theorem iterate_pass_eq :
    (pass entries)^[types + 1] (unknown types entries.length) = least entries types := by
  obtain ⟨hsized, -, htypes⟩ := passes hreturns types
  obtain ⟨hsized', hleast', -⟩ := passes hreturns (types + 1)
  rw [Function.iterate_succ_apply'] at hsized' hleast' ⊢
  exact eq_least hsized' hleast' ((pass_below _).types.trans htypes)
    (pass_operators_below hsized htypes)

theorem pass_least : pass entries (least entries types) = least entries types := by
  have hsized := sized_least entries types
  have hbelow : (pass entries (least entries types)).Below (least entries types) := pass_below _
  exact eq_least hsized.pass
    (pass_induction (fun _ _ _ he h => least_below_visit hreturns he h) (.refl _))
    hbelow.types hbelow.operators

end

/-- Passes that stop once nothing changes come out where they would come out otherwise. -/
theorem settle_eq_iterate (entries : List (Entry C)) (passes : Nat) (known : Known) :
    settle entries passes known = (pass entries)^[passes] known := by
  induction passes generalizing known with
  | zero => rfl
  | succ passes ih =>
    rw [settle]
    split
    · next hsame => exact (Function.iterate_fixed hsame (passes + 1)).symm
    · exact ih _

theorem find_eq (hreturns : ∀ e ∈ entries, e.returns < types) :
    find entries types = least entries types := by
  rw [find, settle_eq_iterate, iterate_pass_eq hreturns]

theorem pass_find (hreturns : ∀ e ∈ entries, e.returns < types) :
    pass entries (find entries types) = find entries types := by
  rw [find_eq hreturns, pass_least hreturns]

end

end Ground

end GeneticProgramming
