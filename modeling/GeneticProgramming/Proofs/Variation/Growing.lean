import GeneticProgramming.Proofs.Tree.Depth
import GeneticProgramming.Proofs.Tree.Genuine

/-!
# Grown trees

A generator appends exactly one tree of the wanted type.  Each step down comes nearer to the ground
or leaves less of the window, so over a palette that was built the levels never run out and no node
lies deeper than the window and the ground of its type allow: `Generator.extend_yields`.
-/

namespace GeneticProgramming

variable {C : Type} {p : Palette C}

namespace Palette

variable {id : OperatorId} {type : TypeId}

theorem mem_having {test : Entry C → Bool} :
    id ∈ p.having test ↔ ∃ e, p.entry? id = some e ∧ test e = true := by
  rw [having, List.mem_filter, List.mem_range, Option.any_eq_true]
  refine and_iff_right_of_imp fun h => ?_
  obtain ⟨e, he, -⟩ := h
  exact (List.getElem?_eq_some_iff.1 he).1

theorem mem_terminals :
    id ∈ p.terminals type ↔ ∃ e, p.entry? id = some e ∧ e.returns = type ∧ e.arguments = [] := by
  simp [terminals, mem_having, Entry.isTerminal]

theorem mem_nonTerminals :
    id ∈ p.nonTerminals type ↔ ∃ e, p.entry? id = some e ∧ e.returns = type ∧ e.arguments ≠ [] := by
  simp [nonTerminals, mem_having, Entry.isTerminal]

end Palette

/-! ## Appending records -/

/-- A sound tree that goes on from another one with some records. -/
def Tree.Appends (p : Palette C) (Listing : List Record → Prop) (t u : Tree) : Prop :=
  u.Sound p ∧ ∃ rs, u.records = t.records ++ rs ∧ Listing rs

namespace Tree.Appends

variable {Listing Listing' : List Record → Prop} {t u v : Tree}

theorem mono (h : t.Appends p Listing u) (hmono : ∀ rs, Listing rs → Listing' rs) :
    t.Appends p Listing' u := by
  obtain ⟨hsound, rs, hrs, hlisting⟩ := h
  exact ⟨hsound, rs, hrs, hmono rs hlisting⟩

theorem refl (h : t.Sound p) (hnil : Listing []) : t.Appends p Listing t :=
  ⟨h, [], (List.append_nil _).symm, hnil⟩

theorem trans {Whole : List Record → Prop} (h : t.Appends p Listing u)
    (h' : u.Appends p Listing' v) (hwhole : ∀ rs ss, Listing rs → Listing' ss → Whole (rs ++ ss)) :
    t.Appends p Whole v := by
  obtain ⟨-, rs, hrs, hlisting⟩ := h
  obtain ⟨hsound, ss, hss, hlisting'⟩ := h'
  exact ⟨hsound, rs ++ ss, by rw [hss, hrs, List.append_assoc], hwhole rs ss hlisting hlisting'⟩

end Tree.Appends

/-- A record of an operator. -/
def IsRecordOf (p : Palette C) (id : OperatorId) (rs : List Record) : Prop :=
  ∃ e, p.entry? id = some e ∧ rs = [Tree.recordOf e id]

theorem Tree.push_yields {t : Tree} (h : t.Sound p) (id : OperatorId) :
    Yields (t.push p id) (t.Appends p (IsRecordOf p id)) := by
  refine Yields.and (h.push id) ?_
  rw [push_eq]
  refine Yields.bind (Yields.lift fun e he => eq_of_demand he) fun e he => ?_
  refine Yields.bind (Yields.trivial _) fun v _ => Yields.pure ⟨[recordOf e id], ?_, e, he, rfl⟩
  cases v <;> rfl

/-! ## Choosing operators -/

namespace Generator

/-- An operator that returns a type and whose arguments, one level below it, reach the ground in
time. -/
def Leads (p : Palette C) (type : TypeId) (depth n : Nat) (id : OperatorId) : Prop :=
  ∃ e, p.entry? id = some e ∧ e.returns = type ∧ ∀ a ∈ e.arguments, depth + 1 + p.ground a ≤ n

variable {type : TypeId} {depth n : Nat} {w : DepthWindow}

/-- Without terminals there is an operator on the way to the ground. -/
theorem closing_yields (hp : p.IsBuilt) (htype : type < p.types.count)
    (hterminals : p.terminals type = []) (hground : depth + p.ground type ≤ n) :
    Attempt.Yields (closing p type) (Leads p type depth n) fun _ => False := by
  obtain ⟨id₀, e₀, he₀, hreturns₀, hground₀⟩ := hp.exists_operator htype
  have hmem₀ : id₀ ∈ p.nonTerminals type := by
    refine Palette.mem_nonTerminals.2 ⟨e₀, he₀, hreturns₀, fun hnil => ?_⟩
    have hmem := Palette.mem_terminals.2 ⟨e₀, he₀, hreturns₀, hnil⟩
    rw [hterminals] at hmem
    exact absurd hmem List.not_mem_nil
  unfold closing
  cases hleast : ((p.nonTerminals type).map p.operatorGround).min? with
  | none =>
    rw [List.min?_eq_none_iff, List.map_eq_nil_iff] at hleast
    rw [hleast] at hmem₀
    exact absurd hmem₀ List.not_mem_nil
  | some least =>
    obtain ⟨hmem, hle⟩ := List.min?_eq_some_iff.1 hleast
    have hleground : least ≤ p.ground type :=
      hground₀ ▸ hle _ (List.mem_map_of_mem hmem₀)
    refine Attempt.Yields.bind (Attempt.Yields.draw (Draw.element_yields _)) fun found hfound => ?_
    cases found with
    | some id =>
      obtain ⟨hid, hidleast⟩ := List.mem_filter.1 hfound
      obtain ⟨e, he, hreturns, -⟩ := Palette.mem_nonTerminals.1 hid
      refine Attempt.Yields.pure ⟨e, he, hreturns, fun a ha => ?_⟩
      have hlt := hp.ground_lt he ha
      rw [hleast, decide_eq_true_eq, Option.some.injEq] at hidleast
      omega
    | none =>
      obtain ⟨id, hid, hidleast⟩ := List.mem_map.1 hmem
      have hno := List.filter_eq_nil_iff.1 hfound id hid
      rw [hleast, hidleast] at hno
      exact absurd (decide_eq_true rfl) hno

theorem terminal_yields (hp : p.IsBuilt) (htype : type < p.types.count)
    (hground : depth + p.ground type ≤ n) :
    Attempt.Yields (terminal p type) (Leads p type depth n) fun _ => False := by
  unfold terminal
  refine Attempt.Yields.bind (Attempt.Yields.draw (Draw.element_yields _)) fun found hfound => ?_
  cases found with
  | some id =>
    obtain ⟨e, he, hreturns, hnil⟩ := Palette.mem_terminals.1 hfound
    exact Attempt.Yields.pure ⟨e, he, hreturns, fun a ha => absurd (hnil ▸ ha) List.not_mem_nil⟩
  | none => exact closing_yields hp htype hfound hground

theorem nonTerminal_yields (hp : p.IsBuilt) (htype : type < p.types.count)
    (hground : depth + p.ground type ≤ n) (hmost : w.most ≤ n) :
    Attempt.Yields (nonTerminal p w type depth) (Leads p type depth n) fun _ => False := by
  unfold nonTerminal
  refine Attempt.Yields.bind (Attempt.Yields.draw (Draw.element_yields _)) fun found hfound => ?_
  cases found with
  | some id =>
    obtain ⟨hid, hfits⟩ := List.mem_filter.1 hfound
    obtain ⟨e, he, hreturns, -⟩ := Palette.mem_nonTerminals.1 hid
    refine Attempt.Yields.pure ⟨e, he, hreturns, fun a ha => ?_⟩
    have hlt := hp.ground_lt he ha
    have hle := of_decide_eq_true hfits
    omega
  | none => exact terminal_yields hp htype hground

theorem operator_yields (hp : p.IsBuilt) (g : Generator) (htype : type < p.types.count)
    (hground : depth + p.ground type ≤ n) (hmost : w.most ≤ n) :
    Attempt.Yields (g.operator p w type depth) (Leads p type depth n) fun _ => False := by
  unfold operator
  refine Attempt.Yields.bind (Attempt.Yields.draw (Yields.trivial _)) fun wanted _ => ?_
  exact Attempt.Yields.ite (fun _ => terminal_yields hp htype hground)
    fun _ => nonTerminal_yields hp htype hground hmost

/-! ## Appending trees -/

/-- Listings of one tree for each type, with no node below a depth. -/
abbrev Reaches (p : Palette C) (depth n : Nat) (types : List TypeId) : List Record → Prop :=
  SpellsAt p (fun d _ => d ≤ n) (due depth types)

/-- Listings of one tree for each type, with no node below a depth, and with operators that a rule
allows at their depths. -/
abbrev Follows (p : Palette C) (n : Nat) (Rule : Nat → OperatorId → Prop) (depth : Nat)
    (types : List TypeId) : List Record → Prop :=
  SpellsAt p (fun d id => d ≤ n ∧ Rule d id) (due depth types)

/-- The arguments are appended one after another behind their node. -/
theorem kept_appendTree (g : Generator) (w : DepthWindow) (levels : Nat) (type : TypeId)
    (depth : Nat) (t : Tree) : (g.appendTree p w (levels + 1) type depth).kept t = (do
      let id ← g.operator p w type depth
      let u ← t.push p id
      (p.argumentTypes id).foldlM
        (fun v type => (g.appendTree p w levels type (depth + 1)).kept v) u) := by
  rw [appendTree, Growth.kept_choose]
  refine bind_congr fun id => ?_
  rw [Growth.kept_seq, Growth.kept_push]
  exact bind_congr fun u => Growth.kept_forM _ _ u

/-- A rule that is kept wherever an operator is chosen is kept by all of the tree. -/
theorem appendTree_follows {Rule : Nat → OperatorId → Prop} (hp : p.IsBuilt) (g : Generator)
    (hrule : ∀ type depth, Attempt.Yields (g.operator p w type depth) (Rule depth))
    (hmost : w.most ≤ n) {levels : Nat} (hlevels : n < levels + depth)
    (htype : type < p.types.count) (hground : depth + p.ground type ≤ n) {t : Tree}
    (ht : t.Sound p) :
    Attempt.Yields ((g.appendTree p w levels type depth).kept t)
      (t.Appends p (Follows p n Rule depth [type])) fun _ => False := by
  induction levels generalizing type depth t with
  | zero => omega
  | succ levels ih =>
    rw [kept_appendTree]
    refine Attempt.Yields.bind ((operator_yields hp g htype hground hmost).and (hrule type depth))
      fun id hid => ?_
    obtain ⟨⟨e, he, rfl, harguments⟩, hallowed⟩ := hid
    refine Attempt.Yields.bind (Attempt.Yields.draw (Tree.push_yields ht id)) fun u hu => ?_
    rw [Palette.argumentTypes_eq he]
    -- the arguments so far are spelled out behind the node
    let Done (rest : List TypeId) (v : Tree) : Prop := ∃ done, done ++ rest = e.arguments ∧
      u.Appends p (Follows p n Rule (depth + 1) done) v
    have hfold : Attempt.Yields (e.arguments.foldlM (fun v type =>
        (g.appendTree p w levels type (depth + 1)).kept v) u) (Done []) fun _ => False := by
      refine Attempt.Yields.foldlM e.arguments ⟨[], rfl, .refl hu.1 .nil⟩ fun a rest v hv => ?_
      obtain ⟨done, hdone, hv⟩ := hv
      have ha : a ∈ e.arguments := by rw [← hdone]; simp
      refine (ih (by omega) (hp.arguments_lt he a ha) (harguments a ha) hv.1).mono
        (fun v' hv' => ⟨done ++ [a], by simpa using hdone, hv.trans hv' fun rs ss hrs hss => ?_⟩)
        fun _ h => h
      rw [Follows, due, List.map_append]
      exact hrs.append hss
    refine hfold.mono (fun v hv => ?_) fun _ h => h
    obtain ⟨done, hdone, hv⟩ := hv
    rw [List.append_nil] at hdone
    subst hdone
    refine hu.trans hv fun rs ss hrs hss => ?_
    obtain ⟨e', he', rfl⟩ := hrs
    rw [he] at he'
    injection he' with he'
    subst he'
    refine .cons he ⟨by omega, hallowed⟩ ?_
    change SpellsAt p _ (due (depth + 1) e.arguments ++ []) ss
    rwa [List.append_nil]

theorem extend_follows {Rule : Nat → OperatorId → Prop} (hp : p.IsBuilt) (g : Generator)
    (w : DepthWindow)
    (hrule : ∀ type depth, Attempt.Yields (g.operator p w type depth) (Rule depth))
    (htype : type < p.types.count) {t : Tree} (ht : t.Sound p) :
    Attempt.Yields (g.extend p w type t)
      (t.Appends p (Follows p (max w.most (p.ground type)) Rule 0 [type])) fun _ => False := by
  have hground : 0 + p.ground type ≤ max w.most (p.ground type) := by omega
  exact appendTree_follows hp g hrule (Nat.le_max_left _ _) (by omega) htype hground ht

/-- A generator over a built palette appends one tree of the wanted type and never fails. -/
theorem extend_yields (hp : p.IsBuilt) (g : Generator) (w : DepthWindow)
    (htype : type < p.types.count) {t : Tree} (ht : t.Sound p) :
    Attempt.Yields (g.extend p w type t)
      (t.Appends p (Reaches p 0 (max w.most (p.ground type)) [type])) fun _ => False := by
  have hany : ∀ type depth, Attempt.Yields (g.operator p w type depth) fun _ => True :=
    fun _ _ => Attempt.Yields.trivial _
  refine (extend_follows hp g w hany htype ht).mono (fun u hu => hu.mono fun rs hrs => ?_)
    fun _ h => h
  exact SpellsAt.mono hrs fun _ _ hallowed => hallowed.1

end Generator

end GeneticProgramming
