import GeneticProgramming.Proofs.Palette.Grounded
import GeneticProgramming.Proofs.Palette.Least

/-!
# Building palettes

When operators make a palette, what is reported when they do not, and that the ground depths are
those of the least trees.  The steps of `Palette.build` are followed one by one: `Obstacle` lists what
each of them may report, the first reason first.  The main statement is `Palette.build_outcome`.
-/

namespace GeneticProgramming

variable {C : Type}

/-! ## First elements -/

/-- The first element that lacks a property. -/
inductive FirstWithout {α : Type} (P : α → Prop) : List α → α → Prop where
  | head {x : α} {xs : List α} : ¬ P x → FirstWithout P (x :: xs) x
  | tail {x y : α} {xs : List α} : P x → FirstWithout P xs y → FirstWithout P (x :: xs) y

namespace FirstWithout

variable {α : Type} {P : α → Prop} {xs ys : List α} {y : α}

theorem lacks (h : FirstWithout P xs y) : ¬ P y := by
  induction h with
  | head hx => exact hx
  | tail _ _ ih => exact ih

theorem mem (h : FirstWithout P xs y) : y ∈ xs := by
  induction h with
  | head _ => exact List.mem_cons_self
  | tail _ _ ih => exact List.mem_cons_of_mem _ ih

theorem of_append (h : FirstWithout P (xs ++ ys) y) :
    FirstWithout P xs y ∨ (∀ x ∈ xs, P x) ∧ FirstWithout P ys y := by
  induction xs with
  | nil => exact .inr ⟨fun x hx => absurd hx List.not_mem_nil, h⟩
  | cons x xs ih =>
    cases h with
    | head hx => exact .inl (.head hx)
    | tail hx h =>
      rcases ih h with h | ⟨hxs, h⟩
      · exact .inl (.tail hx h)
      · exact .inr ⟨List.forall_mem_cons.2 ⟨hx, hxs⟩, h⟩

theorem forall_or_exists (P : α → Prop) (xs : List α) :
    (∀ x ∈ xs, P x) ∨ ∃ y, FirstWithout P xs y := by
  induction xs with
  | nil => exact .inl fun x hx => absurd hx List.not_mem_nil
  | cons x xs ih =>
    by_cases hx : P x
    · rcases ih with hxs | ⟨y, hy⟩
      · exact .inl (List.forall_mem_cons.2 ⟨hx, hxs⟩)
      · exact .inr ⟨y, .tail hx hy⟩
    · exact .inr ⟨x, .head hx⟩

end FirstWithout

/-! ## Registration -/

/-- Values of the type can stand on a stack. -/
structure ValueType.IsStorable (t : ValueType) : Prop where
  alignment : t.alignment ≤ 8
  size : t.size ≤ 65535

namespace TypeTable

variable {table : TypeTable} {t : ValueType} {ts : List ValueType}

theorem mem_register : t ∈ table.types → ∀ u, t ∈ (table.register u).2.types :=
  fun h u => (table.isPrefix_register u).subset h

theorem mem_of_mem_register {u : ValueType} (h : t ∈ (table.register u).2.types) :
    t ∈ table.types ∨ t = u := by
  unfold register at h
  split at h
  · exact .inl h
  · rcases List.mem_append.1 h with h | h
    · exact .inl h
    · exact .inr (List.mem_singleton.1 h)

theorem type?_of_find? {id : TypeId} (h : table.find? t = some id) : table.type? id = some t := by
  obtain ⟨hlt, hid, -⟩ := List.idxOf?_eq_some_iff.1 h
  rw [type?, List.getElem?_eq_getElem hlt, hid]

/-- A table has the types that were registered. -/
theorem mem_registerAll_iff : t ∈ (table.registerAll ts).2.types ↔ t ∈ table.types ∨ t ∈ ts := by
  induction ts generalizing table with
  | nil => exact ⟨.inl, fun h => h.elim id fun h => absurd h List.not_mem_nil⟩
  | cons u ts ih =>
    rw [registerAll, ih, List.mem_cons, ← or_assoc]
    refine or_congr_left ⟨mem_of_mem_register, ?_⟩
    rintro (h | rfl)
    · exact mem_register h u
    · exact List.mem_of_getElem? (table.type?_register t)

theorem registerAll_append (table : TypeTable) (ts us : List ValueType) :
    (table.registerAll (ts ++ us)).2 = ((table.registerAll ts).2.registerAll us).2 := by
  induction ts generalizing table with
  | nil => rfl
  | cons t ts ih => exact ih _

/-- The first type without a property is registered behind types that have it. -/
theorem exists_first {P : ValueType → Prop} (h : FirstWithout P ts t)
    (htable : ∀ u ∈ table.types, P u) :
    ∃ id, (table.registerAll ts).2.type? id = some t ∧
      ∀ j < id, ∀ u, (table.registerAll ts).2.type? j = some u → P u := by
  induction h generalizing table with
  | @head t ts ht =>
    have hnew : table.find? t = none :=
      List.idxOf?_eq_none_iff.2 fun hmem => ht (htable t hmem)
    have hregister : table.register t = (table.count, ⟨table.types ++ [t]⟩) := by
      rw [register, hnew]
    have hkept : table.types ++ [t] <+: (table.registerAll (t :: ts)).2.types := by
      rw [registerAll, hregister]
      exact isPrefix_registerAll _ ts
    refine ⟨table.count, ?_, fun j hj u hu => htable u ?_⟩
    · refine type?_of_isPrefix (a := ⟨table.types ++ [t]⟩) hkept ?_
      simp [type?, count]
    · obtain ⟨rest, hrest⟩ := hkept
      rw [type?, ← hrest, List.append_assoc, List.getElem?_append_left hj] at hu
      exact List.mem_of_getElem? hu
  | @tail u t ts hu _ ih =>
    refine ih fun v hv => ?_
    rcases mem_of_mem_register hv with hv | rfl
    · exact htable v hv
    · exact hu

end TypeTable

namespace Palette

variable {p q : Palette C} {ops : List (Operator C)} {root : Option ValueType}

theorem checkType_eq_ok_iff {t : ValueType} : checkType t = .ok () ↔ t.IsStorable := by
  unfold checkType
  split
  · next h => exact ⟨fun h => by contradiction, fun ⟨ha, _⟩ => absurd ha (Nat.not_le.2 h)⟩
  · split
    · next h => exact ⟨fun h => by contradiction, fun ⟨_, hs⟩ => absurd hs (Nat.not_le.2 h)⟩
    · next ha hs => exact ⟨fun _ => ⟨Nat.not_lt.1 ha, Nat.not_lt.1 hs⟩, fun _ => rfl⟩

theorem forM_eq_ok {ts : List ValueType} (h : ∀ t ∈ ts, t.IsStorable) :
    ts.forM checkType = .ok () := by
  induction ts with
  | nil => rfl
  | cons t ts ih =>
    obtain ⟨ht, hts⟩ := List.forall_mem_cons.1 h
    change (checkType t >>= fun _ => ts.forM checkType) = .ok ()
    rw [checkType_eq_ok_iff.2 ht]
    exact ih hts

theorem forM_eq_error {ts : List ValueType} {t : ValueType} {e : BuildError}
    (h : FirstWithout ValueType.IsStorable ts t) (he : checkType t = .error e) :
    ts.forM checkType = .error e := by
  induction h with
  | @head t ts _ =>
    change (checkType t >>= fun _ => ts.forM checkType) = .error e
    rw [he]
    rfl
  | @tail u t ts hu _ ih =>
    change (checkType u >>= fun _ => ts.forM checkType) = .error e
    rw [checkType_eq_ok_iff.2 hu]
    exact ih he

theorem exists_register {op : Operator C} (h : ∀ t ∈ signature op, t.IsStorable)
    (table : TypeTable) : ∃ e next, register table op = .ok (e, next) := by
  rw [register, forM_eq_ok h]
  exact ⟨_, _, rfl⟩

/-- Operators with types that can be stored are registered. -/
theorem exists_registerAll (h : ∀ t ∈ ops.flatMap signature, t.IsStorable) (table : TypeTable) :
    ∃ entries last, registerAll table ops = .ok (entries, last) := by
  induction ops generalizing table with
  | nil => exact ⟨[], table, rfl⟩
  | cons op ops ih =>
    rw [List.flatMap_cons, List.forall_mem_append] at h
    obtain ⟨e, next, hregister⟩ := exists_register h.1 table
    obtain ⟨entries, last, hrest⟩ := ih h.2 next
    rw [registerAll, hregister]
    simp only [bind, Except.bind, hrest]
    exact ⟨_, _, rfl⟩

/-- The first type that cannot be stored is reported. -/
theorem registerAll_eq_error {t : ValueType} {e : BuildError}
    (h : FirstWithout ValueType.IsStorable (ops.flatMap signature) t)
    (he : checkType t = .error e) (table : TypeTable) : registerAll table ops = .error e := by
  induction ops generalizing table with
  | nil => contradiction
  | cons op ops ih =>
    rw [List.flatMap_cons] at h
    rcases h.of_append with h | ⟨hstorable, h⟩
    · rw [registerAll, register, forM_eq_error h he]
      rfl
    · obtain ⟨entry, next, hregister⟩ := exists_register hstorable table
      rw [registerAll, hregister]
      simp only [bind, Except.bind, ih h]

/-- The types are registered in the order of their first appearance, and the operators are kept. -/
theorem types_of_registerAll {table last : TypeTable} {entries : List (Entry C)}
    (h : registerAll table ops = .ok (entries, last)) :
    last = (table.registerAll (ops.flatMap signature)).2 ∧ entries.map Entry.operator = ops := by
  induction ops generalizing table entries with
  | nil =>
    injection h with h
    injection h with he hlast
    subst he hlast
    exact ⟨rfl, rfl⟩
  | cons op ops ih =>
    obtain ⟨⟨e, next⟩, hregister, h⟩ := exists_of_bind_eq_ok h
    obtain ⟨⟨rest, _⟩, hrest, h⟩ := exists_of_bind_eq_ok h
    injection h with h
    injection h with he hlast
    subst he hlast
    obtain ⟨_, -, hregister⟩ := exists_of_bind_eq_ok hregister
    injection hregister with hregister
    injection hregister with he hnext
    subst he hnext
    obtain ⟨htypes, hoperators⟩ := ih hrest
    refine ⟨?_, ?_⟩
    · rw [List.flatMap_cons, TypeTable.registerAll_append]
      exact htypes
    · rw [List.map_cons, hoperators]

/-! ## Palettes before their depths are found -/

/-- The types and the entries of some operators, before their depths and the root type are
found. -/
def draft (ops : List (Operator C)) : Except BuildError (Palette C) := do
  let (entries, table) ← registerAll .empty ops
  return ⟨table, entries, [], none⟩

/-- A finite tree over the operators returns the type. -/
def Grows (ops : List (Operator C)) (t : ValueType) : Prop :=
  ∃ (q : Palette C) (tree : Tree), draft ops = .ok q ∧ tree.Sound q ∧ tree.check q = .ok () ∧
    (tree.rootType? q).bind q.type? = some t

/-- The depths that are found when the palette is built. -/
abbrev found (p : Palette C) : Ground.Known := Ground.find p.entries p.types.count

/-- The search for ground depths ends and finds those of the least trees. -/
structure FindsLeast (p : Palette C) : Prop where
  passes : (Ground.pass p.entries)^[p.types.count + 1]
    (Ground.unknown p.types.count p.entries.length) = p.found
  settled : Ground.pass p.entries p.found = p.found
  types : ∀ t < p.types.count, p.IsLeastDepth (fun tree => tree.rootType? p = some t)
    (Ground.known? p.found.types t)
  operators : ∀ id < p.size, p.IsLeastDepth (fun tree => tree.rootOperator? = some id)
    (Ground.known? p.found.operators id)

theorem findsLeast (h : ∀ e ∈ p.entries, e.returns < p.types.count) : p.FindsLeast := by
  have hfind := Ground.find_eq h
  refine ⟨?_, Ground.pass_find h, fun t _ => ?_, fun id hid => ?_⟩
  · rw [found, hfind, Ground.iterate_pass_eq h]
  · rw [found, hfind]
    exact isLeastDepth_type h t
  · obtain ⟨e, he⟩ : ∃ e, p.entry? id = some e := ⟨_, List.getElem?_eq_getElem hid⟩
    rw [found, hfind, Ground.known?_least_operators he]
    exact isLeastDepth_operator h he

/-! ## The steps of building -/

theorem draft_eq {entries : List (Entry C)} {table : TypeTable}
    (h : registerAll .empty ops = .ok (entries, table)) :
    draft ops = .ok ⟨table, entries, [], none⟩ := by
  rw [draft, h]
  rfl

section

variable (h : draft ops = .ok q)

include h

theorem registerAll_of_draft : registerAll .empty ops = .ok (q.entries, q.types) := by
  obtain ⟨⟨entries, table⟩, hregister, h⟩ := exists_of_bind_eq_ok h
  injection h with h
  subst h
  exact hregister

theorem typed_of_draft : ∀ e ∈ q.entries, e.Typed q.types :=
  (typed_of_registerAll (registerAll_of_draft h)).2

theorem nodup_of_draft : q.types.types.Nodup :=
  nodup_of_registerAll (registerAll_of_draft h) List.nodup_nil

theorem findsLeast_of_draft : q.FindsLeast :=
  findsLeast fun e he => (typed_of_draft h e he).returns_lt

/-- The types of a draft are those of its operators. -/
theorem mem_types_of_draft {t : ValueType} : t ∈ q.types.types ↔ t ∈ ops.flatMap signature := by
  rw [(types_of_registerAll (registerAll_of_draft h)).1, TypeTable.mem_registerAll_iff]
  exact or_iff_right List.not_mem_nil

/-- The operators that return a type are found by its number. -/
theorem exists_returns_iff {id : TypeId} {t : ValueType} (hid : q.type? id = some t) :
    (∃ e ∈ q.entries, e.returns = id) ↔ ∃ op ∈ ops, op.returns = t := by
  have hoperators := (types_of_registerAll (registerAll_of_draft h)).2
  constructor
  · rintro ⟨e, he, rfl⟩
    have hreturns := (typed_of_draft h e he).returns
    rw [← type?, hid] at hreturns
    injection hreturns with hreturns
    exact ⟨e.operator, hoperators ▸ List.mem_map_of_mem he, hreturns.symm⟩
  · rintro ⟨op, hop, rfl⟩
    rw [← hoperators] at hop
    obtain ⟨e, he, rfl⟩ := List.mem_map.1 hop
    have hnodup := nodup_of_draft h
    have hfound := TypeTable.find?_of_type? hnodup (typed_of_draft h e he).returns
    rw [TypeTable.find?_of_type? hnodup hid] at hfound
    injection hfound with hfound
    exact ⟨e, he, hfound.symm⟩

/-- A finite tree returns a type exactly if a depth of the type is found. -/
theorem grows_iff {id : TypeId} {t : ValueType} (hid : q.type? id = some t) :
    Grows ops t ↔
      (Ground.known? q.found.types id).isSome := by
  obtain ⟨hlt, -⟩ := List.getElem?_eq_some_iff.1 hid
  have hleast := (findsLeast_of_draft h).types id hlt
  constructor
  · rintro ⟨q', tree, hq', -, hcheck, hroot⟩
    rw [h] at hq'
    injection hq' with hq'
    subst hq'
    obtain ⟨id', hroot, hid'⟩ := Option.bind_eq_some_iff.1 hroot
    have hnodup := nodup_of_draft h
    have hfound := TypeTable.find?_of_type? hnodup hid'
    rw [TypeTable.find?_of_type? hnodup hid] at hfound
    injection hfound with hfound
    subst hfound
    cases hdepth : Ground.known? q.found.types id with
    | some d => rfl
    | none =>
      rw [hdepth] at hleast
      exact absurd hroot (hleast tree hcheck)
  · intro hsome
    obtain ⟨d, hd⟩ := Option.isSome_iff_exists.1 hsome
    rw [hd] at hleast
    obtain ⟨⟨tree, hsound, hcheck, hroot, -⟩, -⟩ := hleast
    exact ⟨q, tree, h, hsound, hcheck, by rw [hroot]; exact hid⟩

theorem length_found_of_draft : q.found.types.length = q.types.count := by
  rw [found, Ground.find_eq fun e he => (typed_of_draft h e he).returns_lt]
  exact Ground.length_depths _ _ _

/-- The first type that no finite tree returns is reported. -/
theorem groundAll_eq_error {t : ValueType} (ht : FirstWithout (Grows ops) (ops.flatMap signature) t) :
    groundAll q.types q.found.types = .error (.ungroundedType t.label) := by
  have hnone : ∀ u ∈ TypeTable.empty.types, Grows ops u := fun u hu => absurd hu List.not_mem_nil
  obtain ⟨id, hid, hbefore⟩ := TypeTable.exists_first ht hnone
  rw [← (types_of_registerAll (registerAll_of_draft h)).1] at hid hbefore
  obtain ⟨hlt, -⟩ := List.getElem?_eq_some_iff.1 hid
  have hlength := length_found_of_draft h
  have hfirst : q.found.types.findIdx? Option.isNone = some id := by
    refine List.findIdx?_eq_some_iff_getElem.2 ⟨Nat.lt_of_lt_of_eq hlt hlength.symm, ?_, ?_⟩
    · rw [← Ground.known?_eq_getElem]
      have hunknown := mt (grows_iff h hid).2 ht.lacks
      simpa using hunknown
    · intro j hj
      have hlt' : j < q.types.types.length := Nat.lt_trans hj hlt
      have htype : q.type? j = some q.types.types[j] := List.getElem?_eq_getElem hlt'
      have hsome := (grows_iff h htype).1 (hbefore j hj _ htype)
      rw [← Ground.known?_eq_getElem]
      simpa using Option.isSome_iff_ne_none.1 hsome
  rw [groundAll, hfirst]
  dsimp only
  rw [labelOf, hid]
  rfl

/-- If finite trees return all types, all depths are found. -/
theorem exists_groundAll (hgrows : ∀ t ∈ ops.flatMap signature, Grows ops t) :
    ∃ grounds, groundAll q.types q.found.types = .ok grounds := by
  have hnone : q.found.types.findIdx? Option.isNone = none := by
    refine List.findIdx?_eq_none_iff.2 fun known hknown => ?_
    obtain ⟨id, hid⟩ := List.mem_iff_getElem?.1 hknown
    have hlt : id < q.types.types.length := by
      obtain ⟨hlt, -⟩ := List.getElem?_eq_some_iff.1 hid
      exact Nat.lt_of_lt_of_eq hlt (length_found_of_draft h)
    have htype : q.type? id = some q.types.types[id] := List.getElem?_eq_getElem hlt
    have hsome := (grows_iff h htype).1
      (hgrows _ ((mem_types_of_draft h).1 (List.getElem_mem hlt)))
    rw [Ground.known?, hid] at hsome
    exact Option.isNone_eq_false_iff.2 hsome
  rw [groundAll, hnone]
  exact ⟨_, rfl⟩

theorem findRoot_eq_error {t : ValueType} (ht : ∀ op ∈ ops, op.returns ≠ t) :
    findRoot q.types q.entries (some t) = .error (.unknownRootType t.label) := by
  cases hfind : q.types.find? t with
  | none =>
    rw [findRoot, hfind]
  | some id =>
    have hany : ¬ (q.entries.any (·.returns = id)) = true := by
      intro hany
      obtain ⟨e, he, hid⟩ := List.any_eq_true.1 hany
      obtain ⟨op, hop, hreturns⟩ := (exists_returns_iff h (TypeTable.type?_of_find? hfind)).1
        ⟨e, he, of_decide_eq_true hid⟩
      exact ht op hop hreturns
    rw [findRoot, hfind]
    exact if_neg hany

theorem exists_findRoot (hroot : ∀ t, root = some t → ∃ op ∈ ops, op.returns = t) :
    ∃ id, findRoot q.types q.entries root = .ok id := by
  cases root with
  | none => exact ⟨none, rfl⟩
  | some t =>
    obtain ⟨op, hop, rfl⟩ := hroot t rfl
    have hmem : op.returns ∈ q.types.types :=
      (mem_types_of_draft h).2 (List.mem_flatMap.2 ⟨op, hop, List.mem_cons_self⟩)
    obtain ⟨id, hid⟩ := List.mem_iff_getElem?.1 hmem
    obtain ⟨e, he, hreturns⟩ := (exists_returns_iff h hid).2 ⟨op, hop, rfl⟩
    have hany : (q.entries.any (·.returns = id)) = true :=
      List.any_eq_true.2 ⟨e, he, decide_eq_true hreturns⟩
    refine ⟨some id, ?_⟩
    rw [findRoot, TypeTable.find?_of_type? (nodup_of_draft h) hid]
    exact if_pos hany

theorem build_of_draft (hne : ops ≠ []) (root : Option ValueType) : build ops root = (do
    let grounds ← groundAll q.types q.found.types
    let root ← findRoot q.types q.entries root
    return ⟨q.types, q.entries, grounds, root⟩) := by
  rw [build, registerAll_of_draft h]
  cases ops with
  | nil => contradiction
  | cons op ops => rfl

end

/-! ## When operators make a palette -/

/-- What operators and a root type need. -/
structure Buildable (ops : List (Operator C)) (root : Option ValueType) : Prop where
  nonempty : ops ≠ []
  storable : ∀ t ∈ ops.flatMap signature, t.IsStorable
  grown : ∀ t ∈ ops.flatMap signature, Grows ops t
  root : ∀ t, root = some t → ∃ op ∈ ops, op.returns = t

/-- The first thing that operators and a root type lack, and how it is reported. -/
inductive Obstacle (ops : List (Operator C)) (root : Option ValueType) : BuildError → Prop where
  | empty : ops = [] → Obstacle ops root .empty
  | alignment {t : ValueType} : FirstWithout ValueType.IsStorable (ops.flatMap signature) t →
      8 < t.alignment → Obstacle ops root (.unsupportedAlignment t.label)
  | size {t : ValueType} : FirstWithout ValueType.IsStorable (ops.flatMap signature) t →
      t.alignment ≤ 8 → Obstacle ops root (.unsupportedSize t.label)
  | ungrounded {t : ValueType} : (∀ u ∈ ops.flatMap signature, u.IsStorable) →
      FirstWithout (Grows ops) (ops.flatMap signature) t →
      Obstacle ops root (.ungroundedType t.label)
  | unknownRoot {t : ValueType} : ops ≠ [] → (∀ u ∈ ops.flatMap signature, u.IsStorable) →
      (∀ u ∈ ops.flatMap signature, Grows ops u) → root = some t →
      (∀ op ∈ ops, op.returns ≠ t) → Obstacle ops root (.unknownRootType t.label)

theorem buildable_or_obstacle (ops : List (Operator C)) (root : Option ValueType) :
    Buildable ops root ∨ ∃ e, Obstacle ops root e := by
  by_cases hne : ops = []
  · exact .inr ⟨_, .empty hne⟩
  rcases FirstWithout.forall_or_exists ValueType.IsStorable (ops.flatMap signature) with
    hstorable | ⟨t, ht⟩
  · rcases FirstWithout.forall_or_exists (Grows ops) (ops.flatMap signature) with
      hgrows | ⟨t, ht⟩
    · by_cases hroot : ∀ t, root = some t → ∃ op ∈ ops, op.returns = t
      · exact .inl ⟨hne, hstorable, hgrows, hroot⟩
      · simp only [not_forall, not_exists, not_and] at hroot
        obtain ⟨t, ht, hreturns⟩ := hroot
        exact .inr ⟨_, .unknownRoot hne hstorable hgrows ht hreturns⟩
    · exact .inr ⟨_, .ungrounded hstorable ht⟩
  · rcases Nat.lt_or_ge 8 t.alignment with hlt | hle
    · exact .inr ⟨_, .alignment ht hlt⟩
    · exact .inr ⟨_, .size ht hle⟩

theorem ne_nil_of_mem_flatMap {t : ValueType} (h : t ∈ ops.flatMap signature) : ops ≠ [] := by
  rintro rfl
  exact absurd h List.not_mem_nil

theorem exists_draft (h : ∀ t ∈ ops.flatMap signature, t.IsStorable) :
    ∃ q, draft ops = .ok q := by
  obtain ⟨entries, table, hregister⟩ := exists_registerAll h .empty
  exact ⟨_, draft_eq hregister⟩

theorem build_eq_error_of_registerAll {e : BuildError} (hne : ops ≠ [])
    (h : registerAll .empty ops = .error e) : build ops root = .error e := by
  rw [build, h]
  cases ops with
  | nil => contradiction
  | cons op ops => rfl

/-- What stands in the way is reported. -/
theorem Obstacle.build_eq {e : BuildError} (h : Obstacle ops root e) : build ops root = .error e := by
  cases h with
  | empty hnil =>
    rw [hnil]
    rfl
  | alignment ht hlt =>
    refine build_eq_error_of_registerAll (ne_nil_of_mem_flatMap ht.mem) ?_
    exact registerAll_eq_error ht (if_pos hlt) _
  | @size t ht hle =>
    refine build_eq_error_of_registerAll (ne_nil_of_mem_flatMap ht.mem) ?_
    have hsize : 65535 < t.size := Nat.not_le.1 fun hsize => ht.lacks ⟨hle, hsize⟩
    exact registerAll_eq_error ht ((if_neg (Nat.not_lt.2 hle)).trans (if_pos hsize)) _
  | ungrounded hstorable ht =>
    obtain ⟨q, hq⟩ := exists_draft hstorable
    rw [build_of_draft hq (ne_nil_of_mem_flatMap ht.mem), groundAll_eq_error hq ht]
    rfl
  | unknownRoot hne hstorable hgrows hroot hreturns =>
    obtain ⟨q, hq⟩ := exists_draft hstorable
    obtain ⟨grounds, hgrounds⟩ := exists_groundAll hq hgrows
    rw [build_of_draft hq hne, hgrounds, hroot]
    simp only [bind, Except.bind, findRoot_eq_error hq hreturns]

theorem Buildable.exists_build (h : Buildable ops root) : ∃ p, build ops root = .ok p := by
  obtain ⟨q, hq⟩ := exists_draft h.storable
  obtain ⟨grounds, hgrounds⟩ := exists_groundAll hq h.grown
  obtain ⟨id, hid⟩ := exists_findRoot hq h.root
  rw [build_of_draft hq h.nonempty, hgrounds]
  simp only [bind, Except.bind, hid]
  exact ⟨_, rfl⟩

/-- A palette knows the depths that were found. -/
structure KnowsLeast (p : Palette C) : Prop where
  types : ∀ t < p.types.count,
    p.IsLeastDepth (fun tree => tree.rootType? p = some t) (some (p.ground t))
  operators : ∀ id < p.size,
    p.IsLeastDepth (fun tree => tree.rootOperator? = some id) (some (p.operatorGround id))

theorem IsBuilt.knowsLeast (h : p.IsBuilt) : p.KnowsLeast := by
  have hreturns : ∀ e ∈ p.entries, e.returns < p.types.count := fun e he => by
    obtain ⟨id, hid⟩ := List.mem_iff_getElem?.1 he
    exact h.returns_lt hid
  constructor
  · intro t ht
    have hleast := isLeastDepth_type hreturns t
    rwa [typeDepth?, Ground.depth?, h.depths_eq, h.known?_eq ht] at hleast
  · intro id hid
    have he : p.entry? id = some p.entries[id] := List.getElem?_eq_getElem hid
    have hleast := isLeastDepth_operator hreturns he
    rwa [entryDepth?, h.depths_eq, h.operatorGround_eq he] at hleast

/-- Building succeeds exactly if nothing stands in the way, and otherwise reports the first thing that
does.  The search for depths always ends and finds those of the least trees, also where there are no
trees, and a palette that was built knows these depths. -/
theorem build_outcome (ops : List (Operator C)) (root : Option ValueType) :
    ((∃ p, build ops root = .ok p) ↔ Buildable ops root) ∧
      (∀ e, build ops root = .error e ↔ Obstacle ops root e) ∧
      (∀ q, draft ops = .ok q → q.FindsLeast) ∧
      ∀ p, build ops root = .ok p → p.KnowsLeast := by
  have hcases := buildable_or_obstacle ops root
  refine ⟨⟨?_, Buildable.exists_build⟩, fun e => ⟨?_, Obstacle.build_eq⟩,
    fun q hq => findsLeast_of_draft hq, fun p hp => IsBuilt.knowsLeast ⟨ops, root, hp⟩⟩
  · rintro ⟨p, hp⟩
    rcases hcases with h | ⟨e, he⟩
    · exact h
    · rw [he.build_eq] at hp
      contradiction
  · intro he
    rcases hcases with h | ⟨e', he'⟩
    · obtain ⟨p, hp⟩ := h.exists_build
      rw [hp] at he
      contradiction
    · rw [he'.build_eq] at he
      injection he with he
      exact he ▸ he'

/-- The number of letters of a text. -/
def letterCount : Operator Unit :=
  ⟨some "count", .compute [.text] .uint64 fun (s, _) => UInt64.ofNat s.length⟩

def shout : Operator Unit := ⟨some "shout", .compute [.text] .text fun (s, _) => s ++ "!"⟩

def silence : Operator Unit := ⟨some "silence", .literal .text (pure "")⟩

/-- Numbers of texts, where the first text is found last. -/
def speech : Palette Unit :=
  ⟨⟨[.uint64, .text]⟩, [⟨letterCount, 0, [1]⟩, ⟨shout, 1, [1]⟩, ⟨silence, 1, []⟩], [1, 0], some 0⟩

theorem build_outcome_speech :
    build [letterCount, shout, silence] (some .uint64) = .ok speech ∧
      Buildable [letterCount, shout, silence] (some .uint64) ∧ speech.KnowsLeast ∧
      draft [letterCount, shout, silence] = .ok { speech with grounds := [], root := none } ∧
      FindsLeast { speech with grounds := [], root := none } ∧
      build [letterCount, shout] none = .error (.ungroundedType "u64") ∧
      Obstacle [letterCount, shout] none (.ungroundedType "u64") := by
  obtain ⟨hbuildable, -, hdraft, hknows⟩ :=
    build_outcome [letterCount, shout, silence] (some .uint64)
  obtain ⟨-, hobstacle, -, -⟩ := build_outcome [letterCount, shout] none
  exact ⟨rfl, hbuildable.1 ⟨speech, rfl⟩, hknows speech rfl, rfl, hdraft _ rfl, rfl,
    (hobstacle _).1 rfl⟩

end Palette

end GeneticProgramming
