import GeneticProgramming.Proofs.Tree.Nodes

/-!
# The shape of a tree

`Spells` is the grammar of pre-order listings: some records spell out trees of given types, one
after another.  The walks that find ends, arguments and mismatches by counting are read off from
it, and a subtree may be exchanged for any other of its type.  The main statement,
`Tree.check_eq_ok_iff`, says that the check of a tree accepts exactly the listings of one
well-typed tree, or of none.
-/

namespace GeneticProgramming

/-- Records that spell out trees which return the given types. -/
inductive Spells {C : Type} (p : Palette C) : List TypeId → List Record → Prop where
  | nil : Spells p [] []
  | cons {e : Entry C} {r : Record} {ts : List TypeId} {rs : List Record} :
      p.entry? r.operator = some e → Spells p (e.arguments ++ ts) rs →
        Spells p (e.returns :: ts) (r :: rs)

variable {C : Type} {p : Palette C}

namespace Palette

variable {id : OperatorId} {e : Entry C}

theorem arity_eq (he : p.entry? id = some e) : p.arity id = e.arguments.length := by
  simp [arity, he, Entry.arity]

theorem argumentTypes_eq (he : p.entry? id = some e) : p.argumentTypes id = e.arguments := by
  simp [argumentTypes, he]

theorem length_argumentTypes (p : Palette C) (id : OperatorId) :
    (p.argumentTypes id).length = p.arity id := by
  unfold argumentTypes arity
  cases p.entry? id <;> rfl

theorem returns?_eq (he : p.entry? id = some e) : p.returns? id = some e.returns := by
  simp [returns?, he]

end Palette

namespace Spells

variable {ts us : List TypeId} {rs ss : List Record}

theorem append (h : Spells p ts rs) (h' : Spells p us ss) : Spells p (ts ++ us) (rs ++ ss) := by
  induction h with
  | nil => exact h'
  | cons he _ ih =>
    rw [List.append_assoc] at ih
    exact cons he ih

theorem split (h : Spells p (ts ++ us) rs) :
    ∃ a b, rs = a ++ b ∧ Spells p ts a ∧ Spells p us b := by
  induction rs generalizing ts with
  | nil =>
    generalize hxs : ts ++ us = xs at h
    cases h
    obtain ⟨rfl, rfl⟩ := List.append_eq_nil_iff.1 hxs
    exact ⟨[], [], rfl, nil, nil⟩
  | cons r rs ih =>
    cases ts with
    | nil => exact ⟨[], r :: rs, rfl, nil, h⟩
    | cons t ts =>
      rw [List.cons_append] at h
      cases h with
      | cons he h =>
        rw [← List.append_assoc] at h
        obtain ⟨a, b, rfl, ha, hb⟩ := ih h
        exact ⟨r :: a, b, rfl, cons he ha, hb⟩

theorem ne_nil {type : TypeId} (h : Spells p (type :: ts) rs) : rs ≠ [] := by
  cases h
  exact List.cons_ne_nil _ _

theorem eq_nil (h : Spells p [] rs) : rs = [] := by
  cases h
  rfl

theorem known (h : Spells p ts rs) : ∀ r ∈ rs, (p.entry? r.operator).isSome := by
  induction h with
  | nil => exact fun r hr => absurd hr List.not_mem_nil
  | cons he _ ih => exact List.forall_mem_cons.2 ⟨by rw [he]; rfl, ih⟩

/-- A walk over some complete trees ends behind them. -/
theorem span_eq (h : Spells p ts rs) (rest : List Record) :
    Tree.span p ts.length (rs ++ rest) = rs.length := by
  induction h with
  | nil => cases rest <;> rfl
  | cons he _ ih =>
    rw [List.length_append, Nat.add_comm] at ih
    rw [List.length_cons, List.cons_append, Tree.span, Palette.arity_eq he, ih, List.length_cons,
      Nat.add_comm]

/-- At any index there are trees left to spell, and others of the same types may be put there. -/
theorem drop (h : Spells p ts rs) {i : Nat} (hi : i ≤ rs.length) :
    ∃ us, Spells p us (rs.drop i) ∧
      ∀ ss, Spells p us ss → Spells p ts (rs.take i ++ ss) := by
  induction i generalizing ts rs with
  | zero => exact ⟨ts, h, fun ss hss => hss⟩
  | succ i ih =>
    cases h with
    | nil => exact absurd hi (Nat.not_succ_le_zero i)
    | cons he h =>
      obtain ⟨us, hus, hput⟩ := ih h (Nat.le_of_succ_le_succ hi)
      exact ⟨us, hus, fun ss hss => cons he (hput ss hss)⟩

end Spells

namespace Tree

variable {t : Tree} {ts us : List TypeId} {i : Nat} {s : Subtree}

/-! ## Subtrees -/

@[simp] theorem span_zero (rs : List Record) : span p 0 rs = 0 := by cases rs <;> rfl

theorem subtree?_eq_some (h : t.subtree? p i = some s) :
    ∃ r e, t.records[i]? = some r ∧ p.entry? r.operator = some e ∧
      s = ⟨i, t.endpoint p i, e.returns⟩ := by
  obtain ⟨r, hr, h⟩ := Option.bind_eq_some_iff.1 h
  obtain ⟨returns, hreturns, h⟩ := Option.bind_eq_some_iff.1 h
  obtain ⟨e, he, rfl⟩ := Option.map_eq_some_iff.1 hreturns
  injection h with h
  exact ⟨r, e, hr, he, h.symm⟩

theorem subtree?_start (h : t.subtree? p i = some s) : s.start = i := by
  obtain ⟨r, e, -, -, rfl⟩ := subtree?_eq_some h
  rfl

theorem subtree?_lt_size (h : t.subtree? p i = some s) : i < t.size := by
  obtain ⟨r, e, hr, -⟩ := subtree?_eq_some h
  exact (List.getElem?_eq_some_iff.1 hr).1

theorem subtree?_stop (h : t.subtree? p i = some s) : s.stop = t.endpoint p i := by
  obtain ⟨r, e, -, -, rfl⟩ := subtree?_eq_some h
  rfl

/-- The first tree that is spelled out from an index on is the subtree there. -/
theorem subtree?_eq {e : Entry C} {r : Record} {rs rest : List Record}
    (he : p.entry? r.operator = some e) (hspells : Spells p e.arguments rs)
    (hdrop : t.records.drop i = r :: rs ++ rest) :
    t.subtree? p i = some ⟨i, i + (r :: rs).length, e.returns⟩ := by
  have hget : t.records[i]? = some r := by
    have := congrArg List.head? hdrop
    rwa [List.head?_drop] at this
  have hone : Spells p [e.returns] (r :: rs) :=
    Spells.cons he (by rwa [List.append_nil])
  have hend : t.endpoint p i = i + (r :: rs).length := by
    have hspan := hone.span_eq rest
    rw [endpoint, hdrop]
    exact congrArg (i + ·) hspan
  rw [subtree?, hget]
  simp [hend, Palette.returns?_eq he]

/-- The first of the trees that are spelled out from an index on. -/
theorem exists_first {type : TypeId} (h : Spells p (type :: ts) (t.records.drop i)) :
    ∃ s, t.subtree? p i = some s ∧ s.start = i ∧ s.returns = type ∧ s.start < s.stop ∧
      s.stop ≤ t.size ∧ Spells p [type] (slice t.records s.start s.stop) ∧
      Spells p ts (t.records.drop s.stop) := by
  generalize hdrop : t.records.drop i = xs at h
  cases h with
  | @cons e r _ tail he hrest =>
    obtain ⟨rs, rest, rfl, hrs, hbehind⟩ := hrest.split
    rw [← List.cons_append] at hdrop
    have hsub := subtree?_eq he hrs hdrop
    have hlen := congrArg List.length hdrop
    rw [List.length_drop, List.length_append, List.length_cons] at hlen
    have hstop : t.records.drop (i + (r :: rs).length) = rest := by
      rw [← List.drop_drop, hdrop, List.drop_left' rfl]
    have hslice : slice t.records i (i + (r :: rs).length) = r :: rs := by
      rw [slice, List.drop_take, hdrop, Nat.add_sub_cancel_left, List.take_left' rfl]
    refine ⟨_, hsub, rfl, rfl, ?_, ?_, ?_, ?_⟩
    · simp only [List.length_cons]; omega
    · simp only [List.length_cons, size]; omega
    · rw [hslice]
      exact Spells.cons he (by rwa [List.append_nil])
    · rwa [hstop]

/-- A subtree of a well-typed tree is one of its type, and may be exchanged for any other. -/
theorem spells_of_subtree? (h : Spells p ts t.records) (hs : t.subtree? p i = some s) :
    s.start < s.stop ∧ s.stop ≤ t.size ∧
      Spells p [s.returns] (slice t.records s.start s.stop) ∧
      ∀ ss, Spells p [s.returns] ss →
        Spells p ts (t.records.take s.start ++ ss ++ t.records.drop s.stop) := by
  obtain ⟨r, -, hr, -⟩ := subtree?_eq_some hs
  obtain ⟨hi, -⟩ := List.getElem?_eq_some_iff.1 hr
  obtain ⟨us, hus, hput⟩ := h.drop (Nat.le_of_lt hi)
  cases us with
  | nil =>
    rw [List.drop_eq_getElem_cons hi] at hus
    contradiction
  | cons type us =>
    obtain ⟨s', hs', hstart, rfl, hlt, hstop, hspells, hbehind⟩ := exists_first hus
    rw [hs] at hs'
    injection hs' with hs'
    subst hs'
    refine ⟨hlt, hstop, hspells, fun ss hss => ?_⟩
    rw [List.append_assoc, hstart]
    exact hput _ (hss.append hbehind)

theorem rootType?_eq {type : TypeId} (h : Spells p [type] t.records) :
    t.rootType? p = some type := by
  obtain ⟨s, hs, -, hreturns, -⟩ := exists_first (i := 0) h
  rw [rootType?, hs, Option.map_some, hreturns]

/-! ## Arguments -/

/-- Siblings are subtrees. -/
theorem subtree?_of_mem_siblings {count : Nat} (h : s ∈ t.siblings p count i) :
    t.subtree? p s.start = some s := by
  induction count generalizing i with
  | zero => exact absurd h List.not_mem_nil
  | succ count ih =>
    unfold siblings at h
    split at h
    · next first hfirst =>
      rcases List.mem_cons.1 h with rfl | h
      · rwa [subtree?_start hfirst]
      · exact ih h
    · exact absurd h List.not_mem_nil

theorem subtree?_of_mem_children {cs : List Subtree} (h : t.children p i = .ok cs) (hs : s ∈ cs) :
    t.subtree? p s.start = some s := by
  obtain ⟨_, -, h⟩ := exists_of_bind_eq_ok h
  dsimp only at h
  split at h
  · contradiction
  · injection h with h
    exact subtree?_of_mem_siblings (h ▸ hs)

/-- Siblings return the types that are spelled out from their place on. -/
theorem map_returns_siblings {ts us : List TypeId}
    (h : Spells p (ts ++ us) (t.records.drop i)) :
    (t.siblings p ts.length i).map Subtree.returns = ts := by
  induction ts generalizing i with
  | nil => rfl
  | cons type ts ih =>
    obtain ⟨s, hs, -, hreturns, -, -, -, hbehind⟩ := exists_first h
    rw [List.length_cons, siblings, hs]
    simp only [List.map_cons, hreturns, ih hbehind]

/-- The arguments of a node return the types that are spelled out behind it. -/
theorem map_returns_arguments {e : Entry C} {r : Record} (hr : t.records[i]? = some r)
    (he : p.entry? r.operator = some e)
    (h : Spells p (ts ++ us) (t.records.drop (i + 1))) (hlen : ts.length = e.arguments.length) :
    (t.arguments p i).map Subtree.returns = ts := by
  have harity : t.arityAt p i = ts.length := by
    simp [arityAt, hr, Palette.arity_eq he, hlen]
  rw [arguments, harity]
  exact map_returns_siblings h

theorem mismatch_eq_none_iff {e : Entry C} {r : Record} (hr : t.records[i]? = some r)
    (he : p.entry? r.operator = some e)
    (h : Spells p (ts ++ us) (t.records.drop (i + 1))) (hlen : ts.length = e.arguments.length) :
    t.mismatch p i r.operator = none ↔ ts = e.arguments := by
  have hmap := map_returns_arguments hr he h hlen
  rw [mismatch, Palette.argumentTypes_eq he, List.findSome?_eq_none_iff, ← hmap]
  rw [← hmap, List.length_map] at hlen
  clear hmap h
  generalize t.arguments p i = children at *
  generalize e.arguments = expected at *
  induction children generalizing expected with
  | nil => simp [List.length_eq_zero_iff.1 hlen.symm]
  | cons c cs ih =>
    cases expected with
    | nil => contradiction
    | cons type types =>
      have hiff := ih types (Nat.succ.inj hlen)
      simp only [List.zip_cons_cons, List.forall_mem_cons, List.map_cons, List.cons.injEq, hiff]
      simp

/-! ## Checking -/

theorem firstError_eq_ok_iff {x : Option TreeError} : firstError x = .ok () ↔ x = none := by
  cases x <;> simp [firstError]

/-- A walk that pays its debt at the end has passed so many complete trees, if their nodes have
arguments of the right types. -/
theorem exists_spells {rs : List Record} {debt : Nat}
    (hdrop : t.records.drop i = rs) (hwalk : (walkEnd p i debt rs).2 = 0)
    (hknown : ∀ r ∈ rs, (p.entry? r.operator).isSome)
    (htypes : ∀ j r, i ≤ j → t.records[j]? = some r → t.mismatch p j r.operator = none) :
    ∃ ts, ts.length = debt ∧ Spells p ts rs := by
  induction rs generalizing i debt with
  | nil =>
    cases debt with
    | zero => exact ⟨[], rfl, .nil⟩
    | succ debt => simp [walkEnd] at hwalk
  | cons r rs ih =>
    cases debt with
    | zero => simp [walkEnd] at hwalk
    | succ debt =>
      obtain ⟨hr, hrs⟩ := List.forall_mem_cons.1 hknown
      obtain ⟨e, he⟩ := Option.isSome_iff_exists.1 hr
      have hget : t.records[i]? = some r := by
        have := congrArg List.head? hdrop
        rwa [List.head?_drop] at this
      have hnext := drop_succ_of_drop hdrop
      obtain ⟨us, hlen, hus⟩ := ih hnext hwalk hrs fun j q hj => htypes j q (Nat.le_of_succ_le hj)
      -- the first types behind the node are those of its arguments
      rw [Palette.arity_eq he] at hlen
      have hsplit := List.take_append_drop e.arguments.length us
      have htake : (us.take e.arguments.length).length = e.arguments.length := by
        rw [List.length_take]; omega
      have harguments := (mismatch_eq_none_iff hget he (by rwa [hsplit, hnext]) htake).1
        (htypes i r (Nat.le_refl i) hget)
      refine ⟨e.returns :: us.drop e.arguments.length, ?_, .cons he ?_⟩
      · rw [List.length_cons, List.length_drop]; omega
      · rwa [← harguments, htake, hsplit]

theorem walkEnd_eq {rs : List Record} (h : Spells p ts rs) (i : Nat) :
    (walkEnd p i ts.length rs).2 = 0 := by
  induction h generalizing i with
  | nil => rfl
  | cons he _ ih =>
    rw [List.length_append, Nat.add_comm] at ih
    rw [List.length_cons, walkEnd, Palette.arity_eq he]
    exact ih (i + 1)

theorem mismatch_eq_none (h : Spells p ts t.records) {r : Record} (hr : t.records[i]? = some r) :
    t.mismatch p i r.operator = none := by
  obtain ⟨hi, hget⟩ := List.getElem?_eq_some_iff.1 hr
  obtain ⟨us, hus, -⟩ := h.drop (Nat.le_of_lt hi)
  rw [List.drop_eq_getElem_cons hi, hget] at hus
  cases hus with
  | cons he hrest => exact (mismatch_eq_none_iff hr he hrest rfl).2 rfl

theorem checkArity_eq_ok_iff : t.checkArity p = .ok () ↔
    t.records = [] ∨ (walkEnd p 0 1 t.records).2 = 0 := by
  unfold checkArity isEmpty
  split
  · next h => simp [List.isEmpty_iff.1 h]
  · next h =>
    rw [List.isEmpty_iff] at h
    split
    · next hwalk => simp [hwalk]
    · next stop debt hne hwalk =>
      have hdebt : debt ≠ 0 := hne
      simp [hwalk, h, hdebt]

theorem findSome?_unknown_eq_none_iff : (t.records.zipIdx.findSome? fun entry =>
      if (p.entry? entry.1.operator).isSome then none
      else some (TreeError.unknownOperator entry.2 entry.1.operator)) = none ↔
    ∀ r ∈ t.records, (p.entry? r.operator).isSome := by
  rw [List.findSome?_eq_none_iff]
  constructor
  · intro h r hr
    obtain ⟨i, hi⟩ := List.mem_iff_getElem?.1 hr
    have hnone := h (r, i) (List.mem_zipIdx_iff_getElem?.2 hi)
    refine Decidable.byContradiction fun hno => ?_
    dsimp only at hnone
    rw [if_neg hno] at hnone
    contradiction
  · rintro h ⟨r, i⟩ hr
    simp [h r (List.mem_of_getElem? (List.mem_zipIdx_iff_getElem?.1 hr))]

/-- The parts of the check. -/
theorem check_eq_ok_iff_all : t.check p = .ok () ↔
    (∀ r ∈ t.records, (p.entry? r.operator).isSome) ∧
      literalWords t.records = t.values.words ∧ t.checkArity p = .ok () ∧
      ∀ i r, t.records[i]? = some r → t.mismatch p i r.operator = none := by
  have htypes : (t.records.zipIdx.findSome? fun entry =>
      t.mismatch p entry.2 entry.1.operator) = none ↔
      ∀ i r, t.records[i]? = some r → t.mismatch p i r.operator = none := by
    rw [List.findSome?_eq_none_iff]
    constructor
    · intro h i r hr
      exact h (r, i) (List.mem_zipIdx_iff_getElem?.2 hr)
    · rintro h ⟨r, i⟩ hr
      exact h i r (List.mem_zipIdx_iff_getElem?.1 hr)
  rw [← findSome?_unknown_eq_none_iff, ← htypes]
  unfold check
  constructor
  · intro h
    obtain ⟨_, h1, h⟩ := exists_of_bind_eq_ok h
    dsimp only at h
    split at h
    · contradiction
    · next h2 =>
      obtain ⟨_, h3, h4⟩ := exists_of_bind_eq_ok h
      exact ⟨firstError_eq_ok_iff.1 h1, by simpa using h2, h3, firstError_eq_ok_iff.1 h4⟩
  · rintro ⟨h1, h2, h3, h4⟩
    simp only [bind, Except.bind, firstError_eq_ok_iff.2 h1, h2, ne_eq, not_true_eq_false,
      if_false, h3, firstError_eq_ok_iff.2 h4]

/-- The check accepts one well-typed tree, or none, with the literals that the records describe. -/
theorem check_eq_ok_iff : t.check p = .ok () ↔
    literalWords t.records = t.values.words ∧
      (t.records = [] ∨ ∃ type, Spells p [type] t.records) := by
  rw [check_eq_ok_iff_all, checkArity_eq_ok_iff]
  constructor
  · rintro ⟨hknown, hwords, hempty | hwalk, htypes⟩
    · exact ⟨hwords, .inl hempty⟩
    · obtain ⟨ts, hlen, hspells⟩ := exists_spells (i := 0) rfl hwalk hknown fun j r _ =>
        htypes j r
      obtain ⟨type, rfl⟩ := List.length_eq_one_iff.1 hlen
      exact ⟨hwords, .inr ⟨type, hspells⟩⟩
  · rintro ⟨hwords, hempty | ⟨type, hspells⟩⟩
    · refine ⟨?_, hwords, .inl hempty, ?_⟩
      · rw [hempty]
        exact fun r hr => absurd hr List.not_mem_nil
      · intro i r hr
        rw [hempty] at hr
        contradiction
    · exact ⟨hspells.known, hwords, .inr (walkEnd_eq hspells 0),
        fun i r hr => mismatch_eq_none hspells hr⟩

/-- Of the literals the check counts the words and no more. -/
theorem check_of_words {u : Tree} (h : t.check p = .ok ()) (hrecords : u.records = t.records)
    (hwords : u.values.words = t.values.words) : u.check p = .ok () := by
  rw [check_eq_ok_iff] at h ⊢
  rwa [hrecords, hwords]

end Tree

end GeneticProgramming
