import GeneticProgramming.Proofs.Palette.Built
import Mathlib.Data.List.Perm.Subperm

/-!
# Rounds

The ground depths as a least fixpoint: a round gives each type the least depth that an operator has
over the depths of the round before.  The depths that are found in one round stay in the next one,
and those that are new there are no smaller than the number of the round.  A depth is smaller than
the number of types, because each depth below it is that of another type; so the rounds settle
within the number of types: `Ground.ofType_settled`.
-/

namespace GeneticProgramming

theorem foldl_max_le_iff {xs : List Nat} {a n : Nat} :
    xs.foldl max a ≤ n ↔ a ≤ n ∧ ∀ x ∈ xs, x ≤ n := by
  induction xs generalizing a with
  | nil => simp
  | cons x xs ih =>
    rw [List.foldl_cons, ih, List.forall_mem_cons, Nat.max_le, and_assoc]

namespace Ground

variable {C : Type} {entries : List (Entry C)} {types : Nat}

/-! ## One operator -/

/-- The depth that is known of a type. -/
abbrev known? (known : List (Option Nat)) (t : TypeId) : Option Nat := (known[t]?).join

section

variable {known later : List (Option Nat)} {ts : List TypeId} {d n : Nat}

theorem map_eq_of_mapM {ds : List Nat} (h : ts.mapM (known? known) = some ds) :
    ts.map (known? known) = ds.map some := by
  induction ts generalizing ds with
  | nil =>
    injection h with h
    rw [← h]
    rfl
  | cons t ts ih =>
    rw [List.mapM_cons] at h
    obtain ⟨x, hx, h⟩ := Option.bind_eq_some_iff.1 h
    obtain ⟨xs, hxs, h⟩ := Option.bind_eq_some_iff.1 h
    injection h with h
    rw [← h, List.map_cons, List.map_cons, hx, ih hxs]

/-- The depth under an operator is one more than the greatest depth of an argument. -/
theorem ofArguments_le_iff (h : ofArguments known ts = some d) :
    d ≤ n ↔ ∀ t ∈ ts, ∃ x, known? known t = some x ∧ x < n := by
  cases ts with
  | nil =>
    injection h with h
    simp [← h]
  | cons t ts =>
    obtain ⟨ds, hds, h⟩ := Option.bind_eq_some_iff.1 h
    injection h with h
    have hmap := map_eq_of_mapM hds
    rw [← h, Nat.succ_le_iff]
    constructor
    · intro hlt t' ht'
      have hmem : known? known t' ∈ ds.map some := hmap ▸ List.mem_map_of_mem ht'
      obtain ⟨x, hx, heq⟩ := List.mem_map.1 hmem
      have hle := (foldl_max_le_iff.1 (Nat.le_refl (ds.foldl max 0))).2 x hx
      exact ⟨x, heq.symm, by omega⟩
    · intro hall
      have hpos : 0 < n := by
        obtain ⟨x, -, hx⟩ := hall t List.mem_cons_self
        omega
      have hle : ds.foldl max 0 ≤ n - 1 := by
        refine foldl_max_le_iff.2 ⟨Nat.zero_le _, fun x hx => ?_⟩
        have hmem : some x ∈ (t :: ts).map (known? known) := hmap ▸ List.mem_map_of_mem hx
        obtain ⟨t', ht', heq⟩ := List.mem_map.1 hmem
        obtain ⟨y, hy, hlt⟩ := hall t' ht'
        rw [heq] at hy
        injection hy with hy
        omega
      omega

theorem mapM_of_forall (h : ∀ t ∈ ts, (known? known t).isSome) :
    ∃ ds, ts.mapM (known? known) = some ds := by
  induction ts with
  | nil => exact ⟨[], rfl⟩
  | cons t ts ih =>
    obtain ⟨ht, hts⟩ := List.forall_mem_cons.1 h
    obtain ⟨x, hx⟩ := Option.isSome_iff_exists.1 ht
    obtain ⟨xs, hxs⟩ := ih hts
    exact ⟨x :: xs, by rw [List.mapM_cons, hx, hxs]; rfl⟩

theorem exists_ofArguments {ts : List TypeId} (known : List (Option Nat))
    (h : ∀ t ∈ ts, (known? known t).isSome) : ∃ d, ofArguments known ts = some d := by
  cases ts with
  | nil => exact ⟨0, rfl⟩
  | cons t ts =>
    obtain ⟨ds, hds⟩ := mapM_of_forall h
    exact ⟨ds.foldl max 0 + 1, by rw [ofArguments, hds]; rfl⟩

/-- Arguments whose depths are smaller than a bound give an operator within the bound. -/
theorem exists_ofArguments_le (h : ∀ t ∈ ts, ∃ x, known? known t = some x ∧ x < n) :
    ∃ d, ofArguments known ts = some d ∧ d ≤ n := by
  obtain ⟨d, hd⟩ := exists_ofArguments known fun t ht => by
    obtain ⟨x, hx, -⟩ := h t ht
    exact Option.isSome_iff_exists.2 ⟨x, hx⟩
  exact ⟨d, hd, (ofArguments_le_iff hd).2 h⟩

theorem isSome_of_ofArguments (h : ofArguments known ts = some d) :
    ∀ t ∈ ts, (known? known t).isSome := by
  intro t ht
  obtain ⟨x, hx, -⟩ := (ofArguments_le_iff h).1 (Nat.le_refl d) t ht
  rw [hx]
  rfl

/-- Depths that stay known give the same depth under an operator. -/
theorem ofArguments_stays (hlater : ∀ t x, known? known t = some x → known? later t = some x)
    (h : ofArguments known ts = some d) : ofArguments later ts = some d := by
  have hall := (ofArguments_le_iff h).1 (Nat.le_refl d)
  obtain ⟨d', hd', hle⟩ := exists_ofArguments_le fun t ht => by
    obtain ⟨x, hx, hlt⟩ := hall t ht
    exact ⟨x, hlater t x hx, hlt⟩
  have hge : d ≤ d' := (ofArguments_le_iff h).2 fun t ht => by
    obtain ⟨x, hx, -⟩ := hall t ht
    obtain ⟨y, hy, hlt⟩ := (ofArguments_le_iff hd').1 (Nat.le_refl d') t ht
    rw [hlater t x hx] at hy
    injection hy with hy
    exact ⟨x, hx, by omega⟩
  rw [hd', Nat.le_antisymm hle hge]

end

/-! ## Rounds -/

/-- The least depth of a tree that returns a type. -/
def ofType (entries : List (Entry C)) (known : List (Option Nat)) (t : TypeId) :
    Option Nat :=
  ((entries.filter (·.returns = t)).filterMap fun e => ofArguments known e.arguments).min?

/-- The least depths of trees with at most `rounds` levels. -/
def depths (entries : List (Entry C)) (types : Nat) : Nat → List (Option Nat)
  | 0 => List.replicate types none
  | rounds + 1 => (List.range types).map (ofType entries (depths entries types rounds))

section

variable {known : List (Option Nat)} {t : TypeId} {d : Nat}

/-- The depth of a type is the least one under an operator that returns it. -/
theorem ofType_eq_some_iff : ofType entries known t = some d ↔
    (∃ e ∈ entries, e.returns = t ∧ ofArguments known e.arguments = some d) ∧
      ∀ e ∈ entries, e.returns = t → ∀ x, ofArguments known e.arguments = some x → d ≤ x := by
  rw [ofType, List.min?_eq_some_iff]
  simp only [List.mem_filterMap, List.mem_filter, decide_eq_true_eq, and_assoc,
    forall_exists_index, and_imp]
  constructor
  · rintro ⟨hmem, hleast⟩
    exact ⟨hmem, fun e he ht x hx => hleast x e he ht hx⟩
  · rintro ⟨hmem, hleast⟩
    exact ⟨hmem, fun x e he ht hx => hleast e he ht x hx⟩

theorem ofType_eq_none_iff : ofType entries known t = none ↔
    ∀ e ∈ entries, e.returns = t → ofArguments known e.arguments = none := by
  rw [ofType, List.min?_eq_none_iff, List.filterMap_eq_nil_iff]
  simp only [List.mem_filter, decide_eq_true_eq, and_imp]

end

variable {t : TypeId} {d k : Nat}

/-- The depth of a type that is known after some rounds. -/
abbrev depth? (entries : List (Entry C)) (types k : Nat) (t : TypeId) : Option Nat :=
  known? (depths entries types k) t

theorem depth?_zero : depth? entries types 0 t = none := by
  unfold depth? known? depths
  rw [List.getElem?_replicate]
  split <;> rfl

theorem depth?_succ (ht : t < types) :
    depth? entries types (k + 1) t = ofType entries (depths entries types k) t := by
  unfold depth? known?
  rw [depths, List.getElem?_map, List.getElem?_range ht]
  rfl

theorem lt_types_of_depth? (h : depth? entries types k t = some d) : t < types := by
  refine Decidable.byContradiction fun hno => ?_
  have hlen : (depths entries types k).length = types := by cases k <;> simp [depths]
  have hle : (depths entries types k).length ≤ t := by rw [hlen]; exact Nat.not_lt.1 hno
  rw [depth?, known?, List.getElem?_eq_none hle] at h
  contradiction

theorem depth?_lt (h : depth? entries types k t = some d) : d < k := by
  induction k generalizing t d with
  | zero =>
    rw [depth?_zero] at h
    contradiction
  | succ k ih =>
    rw [depth?_succ (lt_types_of_depth? h), ofType_eq_some_iff] at h
    obtain ⟨e, -, -, hd⟩ := h.1
    refine Nat.lt_succ_of_le ((ofArguments_le_iff hd).2 fun a ha => ?_)
    obtain ⟨x, hx⟩ := Option.isSome_iff_exists.1 (isSome_of_ofArguments hd a ha)
    exact ⟨x, hx, ih hx⟩

/-- What a round adds is no smaller than its number, and what was known stays known. -/
theorem depth?_step (entries : List (Entry C)) (types k : Nat) :
    (∀ t d, depth? entries types k t = none → depth? entries types (k + 1) t = some d → k ≤ d) ∧
      ∀ t d, depth? entries types k t = some d → depth? entries types (k + 1) t = some d := by
  induction k with
  | zero =>
    refine ⟨fun _ _ _ _ => Nat.zero_le _, fun t d h => ?_⟩
    rw [depth?_zero] at h
    contradiction
  | succ k ih =>
    obtain ⟨hnew, hstays⟩ := ih
    -- an operator that is new in this round has an argument that was new in the last one
    have hlate : ∀ ts d, ofArguments (depths entries types k) ts = none →
        ofArguments (depths entries types (k + 1)) ts = some d → k + 1 ≤ d := by
      intro ts d hnone hd
      refine Decidable.byContradiction fun hlt => ?_
      have hknown : ∀ a ∈ ts, (known? (depths entries types k) a).isSome := by
        intro a ha
        have hdk : d ≤ k := by omega
        obtain ⟨y, hy, hyk⟩ := (ofArguments_le_iff hd).1 hdk a ha
        cases hold : known? (depths entries types k) a with
        | some z => rfl
        | none => exact absurd (hnew a y hold hy) (by omega)
      obtain ⟨x, hx⟩ := exists_ofArguments _ hknown
      rw [hnone] at hx
      contradiction
    constructor
    · intro t d hnone hd
      have ht := lt_types_of_depth? hd
      rw [depth?_succ ht] at hnone hd
      obtain ⟨⟨e, he, hreturns, harguments⟩, -⟩ := ofType_eq_some_iff.1 hd
      exact hlate _ d (ofType_eq_none_iff.1 hnone e he hreturns) harguments
    · intro t d hd
      have hlt := depth?_lt hd
      have ht := lt_types_of_depth? hd
      rw [depth?_succ ht] at hd ⊢
      obtain ⟨⟨e, he, hreturns, harguments⟩, hleast⟩ := ofType_eq_some_iff.1 hd
      refine ofType_eq_some_iff.2
        ⟨⟨e, he, hreturns, ofArguments_stays hstays harguments⟩, fun e' he' hr x hx => ?_⟩
      cases hold : ofArguments (depths entries types k) e'.arguments with
      | none =>
        have := hlate _ x hold hx
        omega
      | some y =>
        rw [ofArguments_stays hstays hold] at hx
        injection hx with hx
        exact hx ▸ hleast e' he' hr y hold

/-- Each depth below that of a type is the depth of a type. -/
theorem exists_depth? (h : depth? entries types k t = some d) :
    ∀ j ≤ d, ∃ u, depth? entries types k u = some j := by
  induction k generalizing t d with
  | zero =>
    rw [depth?_zero] at h
    contradiction
  | succ k ih =>
    have hstays := (depth?_step entries types k).2
    intro j hj
    rcases Nat.eq_or_lt_of_le hj with rfl | hlt
    · exact ⟨t, h⟩
    · rw [depth?_succ (lt_types_of_depth? h), ofType_eq_some_iff] at h
      obtain ⟨⟨e, -, -, hd⟩, -⟩ := h
      -- some argument is as deep as possible
      have hdeep : ∃ a ∈ e.arguments, ∃ x, depth? entries types k a = some x ∧ d ≤ x + 1 := by
        refine Decidable.byContradiction fun hno => ?_
        have hle : d ≤ d - 1 := (ofArguments_le_iff hd).2 fun a ha => by
          obtain ⟨x, hx, -⟩ := (ofArguments_le_iff hd).1 (Nat.le_refl d) a ha
          refine ⟨x, hx, ?_⟩
          have : ¬ d ≤ x + 1 := fun hle => hno ⟨a, ha, x, hx, hle⟩
          omega
        omega
      obtain ⟨a, -, x, hx, hle⟩ := hdeep
      obtain ⟨u, hu⟩ := ih hx j (by omega)
      exact ⟨u, hstays u j hu⟩

/-- A depth is smaller than the number of types. -/
theorem depth?_lt_types (h : depth? entries types k t = some d) : d < types := by
  have hmem : List.range (d + 1) ⊆ (List.range types).filterMap (depth? entries types k) := by
    intro j hj
    obtain ⟨u, hu⟩ := exists_depth? h j (Nat.le_of_lt_succ (List.mem_range.1 hj))
    exact List.mem_filterMap.2 ⟨u, List.mem_range.2 (lt_types_of_depth? hu), hu⟩
  calc d + 1 = (List.range (d + 1)).length := List.length_range.symm
    _ ≤ ((List.range types).filterMap (depth? entries types k)).length :=
      (List.nodup_range.subperm hmem).length_le
    _ ≤ (List.range types).length := List.length_filterMap_le _ _
    _ = types := List.length_range

/-- As many rounds as there are types settle all depths. -/
theorem ofType_settled (entries : List (Entry C)) (ht : t < types) :
    ofType entries (depths entries types types) t = depth? entries types types t := by
  obtain ⟨hnew, hstays⟩ := depth?_step entries types types
  rw [← depth?_succ ht]
  cases hold : depth? entries types types t with
  | some d => exact hstays t d hold
  | none =>
    cases hnext : depth? entries types (types + 1) t with
    | none => rfl
    | some d => exact absurd (depth?_lt_types hnext) (Nat.not_lt.2 (hnew t d hold hnext))

end Ground

end GeneticProgramming
