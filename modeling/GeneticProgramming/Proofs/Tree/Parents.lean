import GeneticProgramming.Proofs.Tree.Depth

/-!
# Parents enclose their arguments

The pass that finds parents keeps a chain of open ancestors.  `Waits` says what the arguments that
an ancestor still misses are good for: its subtree ends where they are complete, behind those of the
ancestors that were opened within it.  So a node lies in the subtree of its parent.
-/

namespace GeneticProgramming

namespace Tree

variable {C : Type} {p : Palette C} {t : Tree} {rs : List Record}

/-! ## Nested subtrees -/

theorem span_le_span (debt more : Nat) (rs : List Record) :
    span p debt rs ≤ span p (debt + more) rs := by
  induction rs generalizing debt with
  | nil => cases debt <;> exact Nat.zero_le _
  | cons r rs ih =>
    cases debt with
    | zero => exact Nat.zero_le _
    | succ debt =>
      have hrest := ih (debt + p.arity r.operator)
      rw [Nat.add_right_comm debt 1 more, span, span, Nat.add_right_comm debt more]
      omega

/-- The tree at a record that a walk passes is complete when the walk ends. -/
theorem span_drop_le {debt k : Nat} (hk : k < span p debt rs) :
    k + span p 1 (rs.drop k) ≤ span p debt rs := by
  induction k generalizing debt rs with
  | zero =>
    cases debt with
    | zero => rw [span_zero] at hk; exact absurd hk (Nat.not_lt_zero _)
    | succ debt =>
      rw [List.drop_zero, Nat.zero_add, Nat.add_comm debt 1]
      exact span_le_span 1 debt rs
  | succ k ih =>
    cases debt with
    | zero => rw [span_zero] at hk; exact absurd hk (Nat.not_lt_zero _)
    | succ debt =>
      cases rs with
      | nil => exact absurd hk (Nat.not_lt_zero _)
      | cons r rs =>
        rw [span] at hk ⊢
        have hrest : k + span p 1 (rs.drop k) ≤ span p (debt + p.arity r.operator) rs :=
          ih (by omega)
        rw [List.drop_succ_cons]
        omega

theorem endpoint_le {a i : Nat} (ha : a ≤ i) (hi : i < t.endpoint p a) :
    t.endpoint p i ≤ t.endpoint p a := by
  obtain ⟨k, rfl⟩ := Nat.exists_eq_add_of_le ha
  rw [endpoint, Nat.add_lt_add_iff_left] at hi
  have hle := span_drop_le hi
  rw [List.drop_drop] at hle
  rw [endpoint, endpoint]
  omega

/-! ## Open ancestors -/

/-- Each ancestor of a chain begins before an index, and its subtree ends where the arguments that
are owed to it are complete, besides those that are owed within it. -/
def Waits (p : Palette C) (t : Tree) (i : Nat) : Nat → List Open → Prop
  | _, [] => True
  | owed, a :: as =>
    (a.index < i ∧ t.endpoint p a.index = i + span p (owed + a.missing) (t.records.drop i)) ∧
      Waits p t i (owed + a.missing) as

namespace Waits

variable {i owed : Nat} {r : Record} {as : List Open}

theorem dropWhile (h : Waits p t i owed as) :
    Waits p t i owed (as.dropWhile (·.missing = 0)) := by
  induction as with
  | nil => exact h
  | cons a as ih =>
    rw [List.dropWhile_cons]
    split
    · next hzero =>
      have hrest := h.2
      rw [of_decide_eq_true hzero] at hrest
      exact ih hrest
    · exact h

/-- A record takes one of the places that are owed, and its arguments are owed from then on. -/
theorem step (h : Waits p t i (owed + 1) as) (hdrop : t.records.drop i = r :: rs) :
    Waits p t (i + 1) (owed + p.arity r.operator) as := by
  have hnext := drop_succ_of_drop hdrop
  induction as generalizing owed with
  | nil => trivial
  | cons a as ih =>
    obtain ⟨⟨hindex, hend⟩, hrest⟩ := h
    rw [Nat.add_right_comm] at hend hrest
    refine ⟨⟨Nat.lt_succ_of_lt hindex, ?_⟩, ?_⟩
    · rw [hend, hdrop, hnext, span, Nat.add_right_comm owed]
      omega
    · rw [Nat.add_right_comm]
      exact ih hrest

/-- A node opens if it has arguments. -/
theorem next (hdrop : t.records.drop i = r :: rs)
    (h : Waits p t (i + 1) (p.arity r.operator) as) :
    Waits p t (i + 1) 0
      (if p.arity r.operator = 0 then as else ⟨i, p.arity r.operator⟩ :: as) := by
  have hnext := drop_succ_of_drop hdrop
  split
  · next hzero => rwa [hzero] at h
  · refine ⟨⟨Nat.lt_succ_self i, ?_⟩, by rwa [Nat.zero_add]⟩
    change i + span p 1 (t.records.drop i) = i + 1 + span p (0 + p.arity r.operator) _
    rw [hdrop, hnext, span]
    omega

end Waits

theorem parent_of_frames {i : Nat} {ancestors : List Open} (h : Waits p t i 0 ancestors)
    (hdrop : t.records.drop i = rs) {k a : Nat}
    (ha : ((frames p i ancestors rs).map Prod.fst)[k]? = some (some a)) :
    a < i + k ∧ i + k < t.endpoint p a := by
  induction rs generalizing i ancestors k with
  | nil => contradiction
  | cons r rs ih =>
    have hnext := drop_succ_of_drop hdrop
    have hwaiting := h.dropWhile
    rw [frames] at ha
    cases hchain : ancestors.dropWhile (·.missing = 0) with
    | nil =>
      rw [hchain] at ha
      cases k with
      | zero => simp at ha
      | succ k =>
        have hserved : Waits p t (i + 1) (p.arity r.operator) [] := trivial
        have hstep := ih (hserved.next hdrop) hnext ha
        rwa [Nat.add_right_comm, Nat.add_assoc] at hstep
    | cons top rest =>
      obtain ⟨m, hm⟩ := Nat.exists_eq_succ_of_ne_zero (missing_ne_zero hchain)
      rw [hchain] at ha hwaiting
      obtain ⟨⟨hindex, hend⟩, hrest⟩ := hwaiting
      rw [hm, Nat.zero_add] at hend hrest
      cases k with
      | zero =>
        injection ha with ha
        injection ha with ha
        subst ha
        refine ⟨hindex, ?_⟩
        rw [hend, hdrop, span]
        omega
      | succ k =>
        have hserved : Waits p t (i + 1) (p.arity r.operator)
            ({ top with missing := top.missing - 1 } :: rest) := by
          have hstep := hrest.step hdrop
          rw [Nat.add_comm m] at hstep
          rw [hdrop, span, ← Nat.add_assoc, Nat.add_comm m] at hend
          rw [Waits, hm, Nat.succ_sub_one, hnext]
          exact ⟨⟨Nat.lt_succ_of_lt hindex, hend⟩, hstep⟩
        have hstep := ih (hserved.next hdrop) hnext ha
        rwa [Nat.add_right_comm, Nat.add_assoc] at hstep

/-- A node lies behind its parent, within the subtree there. -/
theorem parent_encloses {i a : Nat} (h : (t.parents p)[i]? = some (some a)) :
    a < i ∧ i < t.endpoint p a := by
  have hwaits : Waits p t 0 0 [] := trivial
  have hframes := parent_of_frames hwaits List.drop_zero h
  rwa [Nat.zero_add] at hframes

end Tree

end GeneticProgramming
