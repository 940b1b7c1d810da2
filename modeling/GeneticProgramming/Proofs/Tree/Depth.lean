import GeneticProgramming.Proofs.Palette.Grounded
import GeneticProgramming.Proofs.Tree.Shape

/-!
# Depths of nodes

The depths of a listing need no more than the depths at which the next trees are due: `depthsFrom`
keeps those instead of a chain of ancestors.  `SpellsAt` is the grammar of listings with a depth for
each tree and a rule for the operators at each depth; `Tree.depth_le_iff` reads off the depth of a
tree.
-/

namespace GeneticProgramming

variable {C : Type} {p : Palette C}

namespace Tree

/-! ## Depths that are due -/

/-- The depth of each record, given the depths of the trees that are due next; where none is due a
new tree begins at the root. -/
def depthsFrom (p : Palette C) : List Nat → List Record → List Nat
  | _, [] => []
  | due, r :: rs =>
    due.headD 0 ::
      depthsFrom p (List.replicate (p.arity r.operator) (due.headD 0 + 1) ++ due.tail) rs

/-- The depths of the trees that a chain of ancestors waits for. -/
def owed : List Open → List Nat
  | [] => []
  | a :: as => List.replicate a.missing (as.length + 1) ++ owed as

theorem owed_dropWhile (ancestors : List Open) :
    owed (ancestors.dropWhile (·.missing = 0)) = owed ancestors := by
  induction ancestors with
  | nil => rfl
  | cons a as ih =>
    rw [List.dropWhile_cons]
    split
    · next h =>
      rw [ih, owed, of_decide_eq_true h]
      rfl
    · rfl

/-- The ancestor that is left in front misses arguments. -/
theorem missing_ne_zero {ancestors rest : List Open} {top : Open}
    (h : ancestors.dropWhile (·.missing = 0) = top :: rest) : top.missing ≠ 0 := by
  have hhead := List.head_dropWhile_not (p := fun a : Open => decide (a.missing = 0))
    (l := ancestors) (by rw [h]; exact List.cons_ne_nil top rest)
  simpa [h] using hhead

/-- An ancestor in front that has no arguments is owed nothing. -/
theorem owed_next (i arity : Nat) (served : List Open) :
    owed (if arity = 0 then served else ⟨i, arity⟩ :: served) =
      List.replicate arity (served.length + 1) ++ owed served := by
  split
  · next h =>
    rw [h]
    rfl
  · rfl

theorem depths_frames (i : Nat) (ancestors : List Open) (rs : List Record) :
    (frames p i ancestors rs).map Prod.snd = depthsFrom p (owed ancestors) rs := by
  induction rs generalizing i ancestors with
  | nil => rfl
  | cons r rs ih =>
    rw [frames, depthsFrom, ← owed_dropWhile ancestors]
    cases hwaiting : ancestors.dropWhile (·.missing = 0) with
    | nil =>
      simp only [List.map_cons, ih, owed_next]
      rfl
    | cons top rest =>
      obtain ⟨m, hm⟩ := Nat.exists_eq_succ_of_ne_zero (missing_ne_zero hwaiting)
      simp only [List.map_cons, ih, owed_next, owed, hm, List.replicate_succ, List.length_cons]
      rfl

theorem depths_eq (t : Tree) : t.depths p = depthsFrom p [0] t.records := by
  rw [depths, depths_frames]
  cases t.records <;> rfl

theorem depth_le_iff {t : Tree} {n : Nat} :
    t.depth p ≤ n ↔ ∀ d ∈ depthsFrom p [0] t.records, d ≤ n := by
  rw [depth, foldl_max_le_iff, depths_eq]
  exact and_iff_right (Nat.zero_le n)

end Tree

/-! ## Listings with depths -/

/-- Trees of some types at the same depth. -/
def due (d : Nat) (ts : List TypeId) : List (TypeId × Nat) := ts.map (·, d)

@[simp] theorem map_fst_due (d : Nat) (ts : List TypeId) : (due d ts).map Prod.fst = ts := by
  rw [due, List.map_map]
  exact List.map_id ts

@[simp] theorem map_snd_due (d : Nat) (ts : List TypeId) :
    (due d ts).map Prod.snd = List.replicate ts.length d := by
  rw [due, List.map_map]
  exact List.map_const'

/-- Records that spell out trees of the given types, each at a given depth, by operators that a rule
allows there. -/
inductive SpellsAt (p : Palette C) (Rule : Nat → OperatorId → Prop) :
    List (TypeId × Nat) → List Record → Prop where
  | nil : SpellsAt p Rule [] []
  | cons {e : Entry C} {r : Record} {d : Nat} {ts : List (TypeId × Nat)} {rs : List Record} :
      p.entry? r.operator = some e → Rule d r.operator →
        SpellsAt p Rule (due (d + 1) e.arguments ++ ts) rs →
          SpellsAt p Rule ((e.returns, d) :: ts) (r :: rs)

namespace SpellsAt

variable {Rule : Nat → OperatorId → Prop} {ts us : List (TypeId × Nat)} {rs ss : List Record}

theorem append (h : SpellsAt p Rule ts rs) (h' : SpellsAt p Rule us ss) :
    SpellsAt p Rule (ts ++ us) (rs ++ ss) := by
  induction h with
  | nil => exact h'
  | cons he hrule _ ih =>
    rw [List.append_assoc] at ih
    exact cons he hrule ih

theorem mono {Rule' : Nat → OperatorId → Prop} (h : SpellsAt p Rule ts rs)
    (hrule : ∀ d id, Rule d id → Rule' d id) : SpellsAt p Rule' ts rs := by
  induction h with
  | nil => exact .nil
  | cons he hallowed _ ih => exact .cons he (hrule _ _ hallowed) ih

theorem spells (h : SpellsAt p Rule ts rs) : Spells p (ts.map Prod.fst) rs := by
  induction h with
  | nil => exact .nil
  | cons he _ _ ih =>
    rw [List.map_append, map_fst_due] at ih
    exact .cons he ih

/-- The rule allows each operator at its depth. -/
theorem forall₂_depthsFrom (h : SpellsAt p Rule ts rs) :
    List.Forall₂ (fun d r => Rule d r.operator) (Tree.depthsFrom p (ts.map Prod.snd) rs) rs := by
  induction h with
  | nil => exact .nil
  | cons he hrule _ ih =>
    rw [List.map_append, map_snd_due, ← Palette.arity_eq he] at ih
    exact .cons hrule ih

/-- The rule allows an operator at each depth. -/
theorem rule (h : SpellsAt p Rule ts rs) :
    ∀ d ∈ Tree.depthsFrom p (ts.map Prod.snd) rs, ∃ id, Rule d id := by
  have hrules := h.forall₂_depthsFrom
  clear h
  generalize Tree.depthsFrom p (ts.map Prod.snd) rs = ds at hrules
  induction hrules with
  | nil => exact fun d hd => absurd hd List.not_mem_nil
  | cons hrule _ ih => exact List.forall_mem_cons.2 ⟨⟨_, hrule⟩, ih⟩

end SpellsAt

end GeneticProgramming
