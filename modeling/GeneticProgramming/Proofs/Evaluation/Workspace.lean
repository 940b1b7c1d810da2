import GeneticProgramming.Evaluation
import GeneticProgramming.Proofs.Tree.Made

/-!
# Workspaces in use

A workspace serves one evaluation after another, of any trees over any palettes.  Whatever was done
with it, a result that is still pending is one run on an otherwise empty stack, so the next
evaluation can discard it: this is `Workspace.Used.ready`.
-/

namespace GeneticProgramming

variable {C : Type} {p : Palette C}

namespace Stack

/-- A stack that a run of so many words was pushed onto last. -/
def EndsIn (s : Stack) (words : Nat) : Prop :=
  ∃ below run, s = pushRun below run ∧ run.length = words ∧ below.Filled

theorem EndsIn.filled {s : Stack} {words : Nat} (h : s.EndsIn words) : s.Filled := by
  obtain ⟨below, run, rfl, -, hfilled⟩ := h
  exact hfilled.pushRun run

/-- If the last run is all there is, it is held alone. -/
theorem EndsIn.holds {s : Stack} {words : Nat} (h : s.EndsIn words) (hall : s.words = words) :
    ∃ run, run.length = words ∧ s.Holds [run] := by
  obtain ⟨below, run, rfl, rfl, hfilled⟩ := h
  have hsum : (below.pushRun run).words = below.words + run.length := by
    rw [← length_contents, contents_pushRun, List.length_append, length_contents]
  exact ⟨run, rfl, (holds_nil_of_words hfilled (by omega)).pushRun run⟩

end Stack

theorem Operator.endsIn_of_replaceArguments {ts : List ValueType} {t : ValueType}
    {run : Arguments ts → t.Carrier} {s s' : Stack} (hs : s.Filled)
    (h : Operator.replaceArguments s ts t run = .ok s') : s'.EndsIn t.words := by
  obtain ⟨xs, -, h⟩ := exists_of_bind_eq_ok h
  obtain ⟨rest, hrest, h⟩ := exists_of_bind_eq_ok h
  injection h with h
  exact ⟨rest, _, h.symm, by simp, hs.drop hrest⟩

/-- What is invoked ends with a push of its result. -/
theorem Palette.endsIn_of_invoke {id : OperatorId} {e : Entry C} (he : p.entry? id = some e)
    {context : C} {s s' : Stack} (hs : s.Filled) (h : p.invoke id context s = .ok s') :
    s'.EndsIn e.operator.returns.words := by
  rw [Palette.invoke, he, Option.bind_some] at h
  cases hinvoke : e.operator.invoke? context s with
  | none => rw [hinvoke] at h; contradiction
  | some result =>
    cases result with
    | error cause => rw [hinvoke] at h; contradiction
    | ok next =>
      rw [hinvoke] at h
      injection h with h
      subst h
      unfold Operator.invoke? at hinvoke
      unfold Operator.returns
      cases hrule : e.operator.rule with
      | compute arguments returns run =>
        rw [hrule] at hinvoke
        injection hinvoke with hinvoke
        exact Operator.endsIn_of_replaceArguments hs hinvoke
      | consult arguments returns run =>
        rw [hrule] at hinvoke
        injection hinvoke with hinvoke
        exact Operator.endsIn_of_replaceArguments hs hinvoke
      | literal returns draw =>
        rw [hrule] at hinvoke
        contradiction

namespace Workspace

variable {w w' : Workspace}

/-- A walk over records of a palette ends with a push of the first one's result. -/
theorem endsIn_of_walk {literals s s' : Stack} {context : C} {rs : List Record} {n : Nat}
    (hs : s.Filled)
    (hrs : ∀ r ∈ rs, ∃ e, p.entry? r.operator = some e ∧ r = Tree.recordOf e r.operator)
    (h : walk p literals context s rs = .ok (s', n)) :
    s'.Filled ∧ ∀ root e, rs.head? = some root → p.entry? root.operator = some e →
      s'.EndsIn e.operator.returns.words := by
  induction rs generalizing s' n with
  | nil =>
    injection h with h
    injection h with h
    exact ⟨h ▸ hs, fun _ _ hroot => nomatch hroot⟩
  | cons r rs ih =>
    obtain ⟨⟨e, he, hr⟩, hrest⟩ := List.forall_mem_cons.1 hrs
    obtain ⟨⟨below, cursor⟩, hbelow, h⟩ := exists_of_bind_eq_ok h
    obtain ⟨hfilled, -⟩ := ih hrest hbelow
    have hends : s'.EndsIn e.operator.returns.words := by
      dsimp only at h
      split at h
      · next hliteral =>
        obtain ⟨run, hrun, h⟩ := exists_of_bind_eq_ok h
        injection h with h
        injection h with h
        have hlen := Stack.Holds.length_of_runAt (eq_of_trust hrun)
        rw [hr, Tree.isLiteral_recordOf] at hliteral
        rw [hr, Tree.words_recordOf, if_pos hliteral] at hlen
        exact ⟨below, run, h.symm, hlen, hfilled⟩
      · obtain ⟨next, hnext, h⟩ := exists_of_bind_eq_ok h
        injection h with h
        injection h with h
        exact h ▸ Palette.endsIn_of_invoke he hfilled hnext
    refine ⟨hends.filled, fun root e' hroot he' => ?_⟩
    injection hroot with hroot
    rw [← hroot, he] at he'
    injection he' with he'
    exact he' ▸ hends

/-- A pending result is one run of its type's size. -/
def Ready (w : Workspace) : Prop := ∀ pending, w.pending = some pending →
  ∃ run, run.length = pending.type.words ∧ w.values.Holds [run]

theorem ready_of_pending (h : w.pending = none) : w.Ready := by
  intro pending hpending
  rw [h] at hpending
  contradiction

/-- A result that is pending can be discarded. -/
theorem Ready.exists_discard (h : w.Ready) : ∃ w', w.discard = .ok w' := by
  unfold discard
  cases hpending : w.pending with
  | none => exact ⟨w, rfl⟩
  | some pending =>
    obtain ⟨run, hlen, hholds⟩ := h pending hpending
    have halone : w.values.Holds ([] ++ [run] ++ []) := hholds
    have hrun : w.values.runAt 0 run.length = .ok run := halone.runAt
    have hall : w.values.Holds ([] ++ [run]) := hholds
    obtain ⟨t, ht, -⟩ := hall.drop
    rw [List.flatten_singleton] at ht
    refine ⟨⟨t, none⟩, ?_⟩
    simp only [← hlen, hrun, ht, trust_ok, bind, Except.bind]
    rfl

theorem pending_of_discard (h : w.discard = .ok w') : w'.pending = none := by
  unfold discard at h
  split at h
  · next hnone =>
    injection h with h
    exact h ▸ hnone
  · obtain ⟨_, -, h⟩ := exists_of_bind_eq_ok h
    obtain ⟨_, -, h⟩ := exists_of_bind_eq_ok h
    injection h with h
    rw [← h]

/-- Workspaces that trees were evaluated in, and results taken or looked at, in any order. -/
inductive Used : Workspace → Prop where
  | empty : Used .empty
  | evaluate {C : Type} {p : Palette C} {t : Tree} {context : C} {w w' : Workspace} :
      Used w → t.Made p → w.evaluate p t context = .ok w' → Used w'
  | take {type : ValueType} {result : Except EvaluationError type.Carrier} {w w' : Workspace} :
      Used w → w.take type = .ok (result, w') → Used w'
  | look {type : ValueType} {result : Except EvaluationError type.Carrier} {w w' : Workspace} :
      Used w → w.look type = .ok (result, w') → Used w'

/-- What an evaluation leaves pending is the one run that it pushed last. -/
theorem ready_of_evaluate {t : Tree} {context : C} (ht : t.Sound p)
    (h : w.evaluate p t context = .ok w') : w'.Ready := by
  have hrecords : ∀ r ∈ t.records,
      ∃ e, p.entry? r.operator = some e ∧ r = Tree.recordOf e r.operator := by
    intro r hr
    rw [ht.1.lists.records] at hr
    obtain ⟨n, hn, rfl⟩ := List.mem_map.1 hr
    obtain ⟨⟨e, he, hrecord, -⟩⟩ := ht.1.genuine n hn
    exact ⟨e, he, hrecord⟩
  unfold evaluate at h
  obtain ⟨cleared, -, h⟩ := exists_of_bind_eq_ok h
  dsimp only at h
  split at h
  · injection h with h
    exact ready_of_pending (by rw [← h])
  · next root hroot =>
    obtain ⟨reserved, hreserved, h⟩ := exists_of_bind_eq_ok h
    obtain ⟨⟨values, cursor⟩, hwalk, h⟩ := exists_of_bind_eq_ok h
    obtain ⟨e, he, h⟩ := exists_of_bind_eq_ok h
    dsimp only at h
    split at h
    · contradiction
    · next hwords =>
      injection h with h
      subst h
      have hfilled := ((Stack.Holds.reset _).reserve hreserved).filled
      obtain ⟨-, hends⟩ := endsIn_of_walk hfilled hrecords hwalk
      rintro _ ⟨⟩
      exact (hends root e hroot (eq_of_demand he)).holds (Decidable.not_not.1 hwords)

theorem Used.ready (h : w.Used) : w.Ready := by
  induction h with
  | empty => exact ready_of_pending rfl
  | evaluate _ ht h _ => exact ready_of_evaluate ht.sound h
  | @take type result w _ _ h ih =>
    unfold Workspace.take at h
    split at h
    · injection h with h
      injection h with _ h
      exact h ▸ ih
    · obtain ⟨x, -, h⟩ := exists_of_bind_eq_ok h
      injection h with h
      injection h with _ h
      exact ready_of_pending (by rw [← h])
  | @look type result w _ _ h ih =>
    unfold Workspace.look at h
    split at h
    · injection h with h
      injection h with _ h
      exact h ▸ ih
    · obtain ⟨x, -, h⟩ := exists_of_bind_eq_ok h
      obtain ⟨w', hdiscard, h⟩ := exists_of_bind_eq_ok h
      injection h with h
      injection h with _ h
      exact h ▸ ready_of_pending (pending_of_discard hdiscard)

end Workspace

end GeneticProgramming
