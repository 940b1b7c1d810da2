import GeneticProgramming.Proofs.Palette.Passes
import GeneticProgramming.Proofs.Tree.Depth
import GeneticProgramming.Proofs.Tree.Genuine
import Mathlib.Data.List.Induction

/-!
# Least depths

What the ground depths mean for trees.  A type has a ground depth exactly if a finite tree returns
it, and then the depth is that of the least such tree; and likewise for the operators and the trees
that have them at their root: `Palette.isLeastDepth_type` and `Palette.isLeastDepth_operator`.
-/

namespace GeneticProgramming

variable {C : Type} {p : Palette C}

/-- Values of each type exist. -/
theorem ValueType.nonempty_carrier (t : ValueType) : Nonempty t.Carrier :=
  match t with
  | .scalar s => ⟨s.default⟩
  | .array s n => ⟨Vector.replicate n s.default⟩
  | .unit => ⟨()⟩
  | .text => ⟨""⟩
  | .ints => ⟨[]⟩
  | .wide => ⟨(0, 0)⟩

/-- The operator of the first node. -/
def Tree.rootOperator? (t : Tree) : Option OperatorId := t.records.head?.map Record.operator

namespace Palette

/-- The least depth of the trees of a kind, or nothing if there are no such trees.  No tree that the
check accepts is less deep, and one that is so deep has also values of the right types. -/
def IsLeastDepth (p : Palette C) (kind : Tree → Prop) : Option Nat → Prop
  | some d => (∃ t : Tree, t.Sound p ∧ t.check p = .ok () ∧ kind t ∧ t.depth p = d) ∧
      ∀ t : Tree, t.check p = .ok () → kind t → d ≤ t.depth p
  | none => ∀ t : Tree, t.check p = .ok () → ¬ kind t

/-- The depths of types that the rounds settle on. -/
abbrev typeDepth? (p : Palette C) (t : TypeId) : Option Nat :=
  Ground.depth? p.entries p.types.count p.types.count t

/-- The depth of an operator over the depths of its arguments. -/
abbrev entryDepth? (p : Palette C) (e : Entry C) : Option Nat :=
  Ground.ofArguments (Ground.depths p.entries p.types.count p.types.count) e.arguments

variable {e : Entry C} {id : OperatorId} {type : TypeId} {d n : Nat}

/-! ## No tree is less deep -/

section

variable (hreturns : ∀ e ∈ p.entries, e.returns < p.types.count)

include hreturns

/-- Trees that are spelled out within some depth return types that have depths within what is
left. -/
theorem typeDepth?_of_spells {ts : List TypeId} {rs : List Record} (h : Spells p ts rs) :
    ∀ owed : List (TypeId × Nat), owed.map Prod.fst = ts →
      (∀ d ∈ Tree.depthsFrom p (owed.map Prod.snd) rs, d ≤ n) →
        ∀ o ∈ owed, ∃ x, p.typeDepth? o.1 = some x ∧ o.2 + x ≤ n := by
  induction h with
  | nil =>
    intro owed howed _ o ho
    rw [List.map_eq_nil_iff.1 howed] at ho
    contradiction
  | @cons e r ts rs he _ ih =>
    intro owed howed hdepths
    cases owed with
    | nil => contradiction
    | cons o owed =>
      injection howed with hfirst howed
      obtain ⟨hd, hdepths⟩ := List.forall_mem_cons.1 hdepths
      have hlater := ih (due (o.2 + 1) e.arguments ++ owed)
        (by rw [List.map_append, map_fst_due, howed])
        (by rw [List.map_append, map_snd_due, ← arity_eq he]; exact hdepths)
      -- the arguments lie within what is left, so the operator does
      have harguments : ∀ a ∈ e.arguments, ∃ x, p.typeDepth? a = some x ∧ x < n - o.2 := by
        intro a ha
        have hmem : (a, o.2 + 1) ∈ due (o.2 + 1) e.arguments ++ owed :=
          List.mem_append_left _ (List.mem_map.2 ⟨a, ha, rfl⟩)
        obtain ⟨x, hx, hle⟩ := hlater _ hmem
        dsimp only at hle
        exact ⟨x, hx, by omega⟩
      obtain ⟨y, hy, hle⟩ := Ground.exists_ofArguments_le harguments
      obtain ⟨x, hx, hxy⟩ :=
        Ground.depth?_le_of_ofArguments hreturns (List.mem_of_getElem? he) hy
      intro o' ho'
      rcases List.mem_cons.1 ho' with rfl | ho'
      · have hd : o'.2 ≤ n := hd
        exact ⟨x, hfirst ▸ hx, by omega⟩
      · exact hlater o' (List.mem_append_right _ ho')

/-- A tree is as deep as its operator at the root demands. -/
theorem entryDepth?_of_spells {r : Record} {rs : List Record} {t : Tree}
    (hrecords : t.records = r :: rs) (he : p.entry? r.operator = some e)
    (h : Spells p e.arguments rs) : ∃ x, p.entryDepth? e = some x ∧ x ≤ t.depth p := by
  have hdepths := Tree.depth_le_iff.1 (Nat.le_refl (t.depth p))
  rw [hrecords, Tree.depthsFrom] at hdepths
  obtain ⟨-, hdepths⟩ := List.forall_mem_cons.1 hdepths
  have hlater := typeDepth?_of_spells hreturns h (due 1 e.arguments) (map_fst_due _ _) (by
    rw [map_snd_due, ← arity_eq he]
    simpa using hdepths)
  refine Ground.exists_ofArguments_le fun a ha => ?_
  obtain ⟨x, hx, hle⟩ := hlater (a, 1) (List.mem_map.2 ⟨a, ha, rfl⟩)
  exact ⟨x, hx, by omega⟩

end

/-! ## Some tree is that deep -/

theorem exists_produces (e : Entry C) : ∃ v, Produces e v := by
  cases hliteral : e.operator.isLiteral with
  | true =>
    obtain ⟨x⟩ := e.operator.returns.nonempty_carrier
    exact ⟨some ⟨e.operator.returns, x⟩, hliteral, rfl⟩
  | false => exact ⟨none, hliteral⟩

/-- The record that the palette gives the operator. -/
def Gives (p : Palette C) (r : Record) : Prop :=
  ∃ e, p.entry? r.operator = some e ∧ r = Tree.recordOf e r.operator

/-- Any such records are those of a tree with values of the right types. -/
theorem exists_sound {rs : List Record} (h : ∀ r ∈ rs, p.Gives r) :
    ∃ t : Tree, t.Sound p ∧ t.records = rs := by
  induction rs using List.reverseRecOn with
  | nil => exact ⟨.empty, .empty, rfl⟩
  | append_singleton rs r ih =>
    obtain ⟨t, hsound, rfl⟩ := ih fun r hr => h r (List.mem_append_left _ hr)
    obtain ⟨e, he, hr⟩ := h r (List.mem_append_right _ List.mem_cons_self)
    obtain ⟨v, hv⟩ := exists_produces e
    refine ⟨t.grown e r.operator v, hsound.grown he hv, ?_⟩
    rw [hr]
    cases v <;> rfl

/-- Arguments that can be spelled out one by one can be spelled out together. -/
theorem exists_spellsAt_of_forall {Rule : Nat → OperatorId → Prop} {ts : List TypeId}
    (h : ∀ t ∈ ts, ∃ rs, SpellsAt p Rule [(t, d)] rs ∧ ∀ r ∈ rs, p.Gives r) :
    ∃ rs, SpellsAt p Rule (due d ts) rs ∧ ∀ r ∈ rs, p.Gives r := by
  induction ts with
  | nil => exact ⟨[], .nil, fun r hr => absurd hr List.not_mem_nil⟩
  | cons t ts ih =>
    obtain ⟨ht, hts⟩ := List.forall_mem_cons.1 h
    obtain ⟨rs, hrs, hgives⟩ := ht
    obtain ⟨ss, hss, hgives'⟩ := ih hts
    exact ⟨rs ++ ss, hrs.append hss, fun r hr => (List.mem_append.1 hr).elim (hgives r) (hgives' r)⟩

/-- Above arguments that can be spelled out stands the operator. -/
theorem exists_spellsAt_of_entry (Rule : Nat → OperatorId → Prop) (he : p.entry? id = some e)
    (hrule : Rule d id)
    (h : ∀ t ∈ e.arguments, ∃ rs, SpellsAt p Rule [(t, d + 1)] rs ∧ ∀ r ∈ rs, p.Gives r) :
    ∃ rs, SpellsAt p Rule [(e.returns, d)] (Tree.recordOf e id :: rs) ∧
      ∀ r ∈ Tree.recordOf e id :: rs, p.Gives r := by
  obtain ⟨rs, hrs, hgives⟩ := exists_spellsAt_of_forall h
  refine ⟨rs, .cons he hrule (by rwa [List.append_nil]), ?_⟩
  exact List.forall_mem_cons.2 ⟨⟨e, he, rfl⟩, hgives⟩

/-- A type can be returned within its depth. -/
theorem exists_spellsAt {x : Nat} (h : p.typeDepth? type = some x) (d : Nat) (hle : d + x ≤ n) :
    ∃ rs, SpellsAt p (fun j _ => j ≤ n) [(type, d)] rs ∧ ∀ r ∈ rs, p.Gives r := by
  induction x using Nat.strongRecOn generalizing type d with
  | ind x ih =>
    have hsettled := Ground.ofType_settled p.entries (Ground.lt_types_of_depth? h)
    obtain ⟨⟨e, he, rfl, harguments⟩, -⟩ := Ground.ofType_eq_some_iff.1 (hsettled.trans h)
    obtain ⟨id, hid⟩ := List.mem_iff_getElem?.1 he
    have hd : d ≤ n := by omega
    obtain ⟨rs, hrs⟩ := exists_spellsAt_of_entry (fun j _ => j ≤ n) hid hd fun a ha => by
      obtain ⟨y, hy, hlt⟩ := (Ground.ofArguments_le_iff harguments).1 (Nat.le_refl x) a ha
      exact ih y hlt hy (d + 1) (by omega)
    exact ⟨_, hrs⟩

/-- A tree that is spelled out within a depth. -/
theorem exists_tree {r : Record} {rs : List Record}
    (h : SpellsAt p (fun j _ => j ≤ n) [(type, 0)] (r :: rs)) (hgives : ∀ r' ∈ r :: rs, p.Gives r') :
    ∃ t : Tree, t.Sound p ∧ t.check p = .ok () ∧ t.rootType? p = some type ∧
      t.rootOperator? = some r.operator ∧ t.depth p ≤ n := by
  obtain ⟨t, hsound, hrecords⟩ := exists_sound hgives
  have hspells : Spells p [type] t.records := hrecords ▸ h.spells
  refine ⟨t, hsound, ?_, Tree.rootType?_eq hspells, ?_, ?_⟩
  · exact Tree.check_eq_ok_iff.2 ⟨hsound.1.lists.literalWords_eq, .inr ⟨type, hspells⟩⟩
  · rw [Tree.rootOperator?, hrecords]
    rfl
  · refine Tree.depth_le_iff.2 fun d hd => ?_
    rw [hrecords] at hd
    obtain ⟨_, hle⟩ := h.rule d hd
    exact hle

/-! ## Depths of types and operators -/

/-- The root of a tree that the check accepts. -/
theorem exists_root {t : Tree} (hcheck : t.check p = .ok ()) (hne : t.records ≠ []) :
    ∃ r rs e, t.records = r :: rs ∧ p.entry? r.operator = some e ∧ Spells p e.arguments rs ∧
      t.rootType? p = some e.returns := by
  obtain ⟨-, hempty | ⟨type, hspells⟩⟩ := Tree.check_eq_ok_iff.1 hcheck
  · contradiction
  · have htype := Tree.rootType?_eq hspells
    generalize hrecords : t.records = xs at hspells
    cases hspells with
    | @cons e r _ rs he hspells =>
      rw [List.append_nil] at hspells
      exact ⟨r, rs, e, rfl, he, hspells, htype⟩

/-- A bound for all trees of a kind that one of them attains. -/
theorem isLeastDepth_of {kind : Tree → Prop} {depth? : Option Nat}
    (hbound : ∀ t : Tree, t.check p = .ok () → kind t → ∃ x, depth? = some x ∧ x ≤ t.depth p)
    (hattained : ∀ d, depth? = some d →
      ∃ t : Tree, t.Sound p ∧ t.check p = .ok () ∧ kind t ∧ t.depth p ≤ d) :
    p.IsLeastDepth kind depth? := by
  cases depth? with
  | none =>
    intro t hcheck hkind
    obtain ⟨x, hx, -⟩ := hbound t hcheck hkind
    contradiction
  | some d =>
    have hle : ∀ t : Tree, t.check p = .ok () → kind t → d ≤ t.depth p := by
      intro t hcheck hkind
      obtain ⟨x, hx, hle⟩ := hbound t hcheck hkind
      injection hx with hx
      exact hx ▸ hle
    obtain ⟨t, hsound, hcheck, hkind, hdepth⟩ := hattained d rfl
    exact ⟨⟨t, hsound, hcheck, hkind, Nat.le_antisymm hdepth (hle t hcheck hkind)⟩, hle⟩

section

variable (hreturns : ∀ e ∈ p.entries, e.returns < p.types.count)

include hreturns

theorem isLeastDepth_operator (he : p.entry? id = some e) :
    p.IsLeastDepth (fun t => t.rootOperator? = some id) (p.entryDepth? e) := by
  refine isLeastDepth_of ?_ fun d hd => ?_
  · intro t hcheck hroot
    obtain ⟨r, hr, rfl⟩ := Option.map_eq_some_iff.1 hroot
    have hne : t.records ≠ [] := by
      intro hnil
      rw [hnil] at hr
      contradiction
    obtain ⟨r', rs, e', hrecords, he', hspells, -⟩ := exists_root hcheck hne
    rw [hrecords] at hr
    injection hr with hr
    subst hr
    rw [he] at he'
    injection he' with he'
    exact entryDepth?_of_spells hreturns hrecords he (he' ▸ hspells)
  · obtain ⟨rs, hrs, hgives⟩ :=
      exists_spellsAt_of_entry (fun j _ => j ≤ d) he (Nat.zero_le d) fun a ha => by
        obtain ⟨y, hy, hlt⟩ := (Ground.ofArguments_le_iff hd).1 (Nat.le_refl d) a ha
        exact exists_spellsAt hy 1 (by omega)
    obtain ⟨t, hsound, hcheck, -, hroot, hdepth⟩ := exists_tree hrs hgives
    exact ⟨t, hsound, hcheck, hroot, hdepth⟩

theorem isLeastDepth_type (type : TypeId) :
    p.IsLeastDepth (fun t => t.rootType? p = some type) (p.typeDepth? type) := by
  refine isLeastDepth_of ?_ fun d hd => ?_
  · intro t hcheck hroot
    have hne : t.records ≠ [] := by
      intro hnil
      rw [Tree.rootType?, Tree.subtree?, hnil] at hroot
      contradiction
    obtain ⟨r, rs, e, hrecords, he, hspells, hreturned⟩ := exists_root hcheck hne
    rw [hroot] at hreturned
    injection hreturned with hreturned
    obtain ⟨y, hy, hyd⟩ := entryDepth?_of_spells hreturns hrecords he hspells
    obtain ⟨x, hx, hxy⟩ := Ground.depth?_le_of_ofArguments hreturns (List.mem_of_getElem? he) hy
    exact ⟨x, hreturned ▸ hx, Nat.le_trans hxy hyd⟩
  · obtain ⟨rs, hrs, hgives⟩ := exists_spellsAt hd 0 (Nat.le_of_eq (Nat.zero_add d))
    cases rs with
    | nil => contradiction
    | cons r rs =>
      obtain ⟨t, hsound, hcheck, hroot, -, hdepth⟩ := exists_tree hrs hgives
      exact ⟨t, hsound, hcheck, hroot, hdepth⟩

end

end Palette

end GeneticProgramming
