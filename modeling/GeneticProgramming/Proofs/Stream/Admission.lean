import GeneticProgramming.Proofs.Evaluation.Correct
import GeneticProgramming.Proofs.Stream.Exact
import GeneticProgramming.Proofs.Stream.Taking
import GeneticProgramming.Proofs.Tree.Edits

/-!
# Trees from any bytes

Whatever bytes are read as a tree, what is accepted is as good as what was grown: its records are
those of the palette, its literals fill its stack, and its evaluation finds its arguments.
`Tree.Admitted` collects what is known of such a tree, and `Tree.read_admitted` shows it.
-/

namespace GeneticProgramming

open Reader

variable {C : Type} {p : Palette C}

/-! ## Evaluations -/

namespace Workspace

/-- An evaluation leaves nothing but one value of the root's type, or it is refused because it needs
more storage than can be addressed: more than so many bytes allow for. -/
def Completes (p : Palette C) (w : Workspace) (t : Tree) (context : C) (bytes : Nat) : Prop :=
  (∃ w' root type, w.evaluate p t context = .ok w' ∧ t.rootType? p = some root ∧
      p.type? root = some type ∧ w'.pending = some ⟨root, type⟩ ∧ w'.values.size = type.size) ∨
    w.evaluate p t context = .error .overflow ∧ 2 ^ 63 < bytes

theorem completes_of_spells {t : Tree} {root : TypeId} {w : Workspace} (hp : p.IsBuilt)
    (ht : t.Sound p) (hspells : Spells p [root] t.records) (hw : w.Used) (context : C) :
    w.Completes p t context (t.values.size + 8 * t.size + 4096) := by
  obtain ⟨-, v, -, -, -, htype, hresult⟩ := evaluate_carries hp ht hspells hw.ready context
  refine hresult.imp_left ?_
  rintro ⟨values, hvalues, hcarries⟩
  refine ⟨_, root, v.type, hvalues, Tree.rootType?_eq hspells, htype, rfl, ?_⟩
  rw [Stack.size, hcarries.words_eq, Value.totalWords_cons, Value.totalWords_nil, Nat.add_zero,
    ValueType.size]

theorem Completes.mono {t : Tree} {w : Workspace} {context : C} {m n : Nat}
    (h : w.Completes p t context m) (hle : m ≤ n) : w.Completes p t context n :=
  h.imp_right fun hrefused => ⟨hrefused.1, Nat.lt_of_lt_of_le hrefused.2 hle⟩

end Workspace

/-! ## Accepted streams -/

namespace Tree

theorem Sound.literalSize_eq_size {t : Tree} (h : t.Sound p) : t.literalSize = t.values.size := by
  have hwhole : ∀ r ∈ t.records, r.Whole := by
    intro r hr
    obtain ⟨e, -, hrecord⟩ := h.1.entry hr
    rw [hrecord]
    exact whole_recordOf e r.operator
  rw [literalSize, literalSize_eq hwhole, h.1.lists.literalWords_eq, Stack.size]

/-- What is known of a tree that some bytes were read as, with the rest of them left. -/
structure Admitted (p : Palette C) (bytes : Bytes) (t : Tree) (rest : Bytes) : Prop where
  consumed : ∃ front, bytes = front ++ rest ∧ t.IsEncoded front
  check : t.check p = .ok ()
  records : ∀ r ∈ t.records, ∃ e, p.entry? r.operator = some e ∧
    r.size = e.operator.returns.size ∧ r.flags = e.flags
  plain : t.IsPlain
  filled : t.literalSize = t.values.size
  evaluates : t.isEmpty = false → ∀ w : Workspace, w.Used → ∀ context,
    w.Completes p t context (bytes.length + 4096)

/-- Any bytes are refused, or they are read as a tree that can be used like any other. -/
theorem read_admitted (hp : p.IsBuilt) (bytes : Bytes) :
    (∃ e, read p bytes = .error e) ∨
      ∃ t rest, read p bytes = .ok (t, rest) ∧ Admitted p bytes t rest := by
  cases hread : read p bytes with
  | error e => exact .inl ⟨e, rfl⟩
  | ok out =>
    obtain ⟨t, rest⟩ := out
    obtain ⟨front, rfl, hencoded⟩ := read_takes p bytes t rest hread
    obtain ⟨hsound, hcheck, hplain⟩ := read_yields p _ t rest hread
    refine .inr ⟨t, rest, rfl, ⟨front, rfl, hencoded⟩, hcheck, ?_, hplain,
      hsound.literalSize_eq_size, ?_⟩
    · intro r hr
      obtain ⟨e, he, hrecord⟩ := hsound.1.entry hr
      exact ⟨e, he, by rw [hrecord]; rfl, by rw [hrecord]; rfl⟩
    · intro hne w hw context
      obtain ⟨-, hempty | ⟨root, hspells⟩⟩ := check_eq_ok_iff.1 hcheck
      · rw [isEmpty, hempty] at hne
        contradiction
      · -- the stream holds at least the bytes that the tree asks storage for
        have hlen := hencoded.length_eq
        refine (Workspace.completes_of_spells hp hsound hspells hw context).mono ?_
        rw [List.length_append]
        omega

/-! ### A shifted letter -/

open SavedState (letters shifted isBuilt_letters portable_letters storable_shifted)

theorem shifted_reads : Reads (read letters) shifted.toBytes shifted.packed :=
  storable_shifted.reads isBuilt_letters portable_letters

/-- What follows the tree is left. -/
theorem read_admitted_shifted : letters.IsBuilt ∧
    Admitted letters (shifted.toBytes ++ [7]) shifted.packed [7] := by
  refine ⟨isBuilt_letters, ?_⟩
  have hread := shifted_reads [7]
  obtain ⟨e, herror⟩ | ⟨t, rest, hok, hadmitted⟩ :=
    read_admitted isBuilt_letters (shifted.toBytes ++ [7])
  · rw [hread] at herror
    contradiction
  · rw [hread] at hok
    injection hok with hok
    injection hok with ht hrest
    rwa [← ht, ← hrest] at hadmitted

end Tree

end GeneticProgramming
