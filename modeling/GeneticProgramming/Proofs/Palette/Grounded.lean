import GeneticProgramming.Proofs.Palette.Passes

/-!
# Ground depths

In a palette that was built every type has a depth, and each type is returned by an operator whose
arguments lie nearer to the ground: `Palette.IsBuilt.exists_operator`.
-/

namespace GeneticProgramming

namespace Palette

variable {C : Type} {p : Palette C}

theorem grounds_of_groundAll {table : TypeTable} {depths : List (Option Nat)} {grounds : List Nat}
    (h : groundAll table depths = .ok grounds) : depths = grounds.map some := by
  unfold groundAll at h
  split at h
  · contradiction
  · next hall =>
    injection h with h
    rw [List.findIdx?_eq_none_iff] at hall
    rw [← h, List.map_map]
    refine (List.map_id depths).symm.trans (List.map_congr_left fun d hd => ?_)
    cases d with
    | none => exact absurd (hall none hd) (by decide)
    | some d => rfl

namespace IsBuilt

variable {t : TypeId} {id : OperatorId} {e : Entry C}

theorem returns_lt (h : p.IsBuilt) (he : p.entry? id = some e) : e.returns < p.types.count :=
  (h.typed he).returns_lt

theorem depths_eq (h : p.IsBuilt) :
    Ground.depths p.entries p.types.count p.types.count = p.grounds.map some := by
  obtain ⟨_, _, -, -, hgrounds, -⟩ := h.steps
  have hreturns : ∀ e ∈ p.entries, e.returns < p.types.count := by
    intro e he
    obtain ⟨id, hid⟩ := List.mem_iff_getElem?.1 he
    exact h.returns_lt hid
  rw [← grounds_of_groundAll hgrounds, Ground.find_eq hreturns]
  rfl

theorem known?_eq (h : p.IsBuilt) (ht : t < p.types.count) :
    Ground.known? (p.grounds.map some) t = some (p.ground t) := by
  have hlen : p.grounds.length = p.types.count := by
    rw [← List.length_map some, ← h.depths_eq, Ground.length_depths]
  have hlt : t < p.grounds.length := hlen ▸ ht
  rw [Ground.known?, List.getElem?_map, List.getElem?_eq_getElem hlt, ground,
    List.getElem?_eq_getElem hlt]
  rfl

/-- The ground depth of a type is the least one of an operator that returns it. -/
theorem ofType_eq (h : p.IsBuilt) (ht : t < p.types.count) :
    Ground.ofType p.entries (p.grounds.map some) t = some (p.ground t) := by
  have hsettled := Ground.ofType_settled p.entries ht
  rwa [Ground.depth?, h.depths_eq, h.known?_eq ht] at hsettled

theorem arguments_lt (h : p.IsBuilt) (he : p.entry? id = some e) :
    ∀ t ∈ e.arguments, t < p.types.count := by
  intro t ht
  have hmem : p.types.type? t ∈ e.operator.arguments.map some :=
    (h.typed he).arguments ▸ List.mem_map_of_mem ht
  obtain ⟨type, -, htype⟩ := List.mem_map.1 hmem
  obtain ⟨hlt, -⟩ := List.getElem?_eq_some_iff.1 htype.symm
  exact hlt

theorem operatorGround_eq (h : p.IsBuilt) (he : p.entry? id = some e) :
    Ground.ofArguments (p.grounds.map some) e.arguments = some (p.operatorGround id) := by
  have hknown : ∀ t ∈ e.arguments, (Ground.known? (p.grounds.map some) t).isSome := by
    intro t ht
    rw [h.known?_eq (h.arguments_lt he t ht)]
    rfl
  obtain ⟨d, hd⟩ := Ground.exists_ofArguments _ hknown
  rw [operatorGround, argumentTypes, he, Option.map_some, Option.getD_some, hd, Option.getD_some]

/-- Arguments lie nearer to the ground. -/
theorem ground_lt (h : p.IsBuilt) (he : p.entry? id = some e) (ht : t ∈ e.arguments) :
    p.ground t < p.operatorGround id := by
  obtain ⟨x, hx, hlt⟩ := (Ground.ofArguments_le_iff (h.operatorGround_eq he)).1 (Nat.le_refl _) t ht
  rw [h.known?_eq (h.arguments_lt he t ht)] at hx
  injection hx with hx
  exact hx ▸ hlt

/-- Each type is returned by an operator at its ground depth. -/
theorem exists_operator (h : p.IsBuilt) (ht : t < p.types.count) :
    ∃ id e, p.entry? id = some e ∧ e.returns = t ∧ p.operatorGround id = p.ground t := by
  obtain ⟨⟨e, he, hreturns, harguments⟩, -⟩ := Ground.ofType_eq_some_iff.1 (h.ofType_eq ht)
  obtain ⟨id, hid⟩ := List.mem_iff_getElem?.1 he
  refine ⟨id, e, hid, hreturns, ?_⟩
  have hground := h.operatorGround_eq hid
  rw [harguments] at hground
  injection hground with hground
  exact hground.symm

end IsBuilt

end Palette

end GeneticProgramming
