import GeneticProgramming.Palette.Basic
import GeneticProgramming.Proofs.Outcome

/-!
# Palettes that were built

`Palette.build` numbers the types of its operators and never changes a number again.  In the palette
that it answers, each operator's numbers stand for its own types, and each type fits the size that a
record can tell: this is `Palette.IsBuilt.typed`.
-/

namespace GeneticProgramming

namespace TypeTable

variable {a b : TypeTable}

/-- A number keeps its type as a table grows. -/
theorem type?_of_isPrefix (h : a.types <+: b.types) {id : TypeId} {t : ValueType}
    (ht : a.type? id = some t) : b.type? id = some t := by
  obtain ⟨more, hmore⟩ := h
  obtain ⟨hlt, -⟩ := List.getElem?_eq_some_iff.1 ht
  rw [type?, ← hmore, List.getElem?_append_left hlt]
  exact ht

theorem isPrefix_register (table : TypeTable) (t : ValueType) :
    table.types <+: (table.register t).2.types := by
  unfold register
  split
  · exact List.prefix_refl _
  · exact List.prefix_append _ _

theorem isPrefix_registerAll (table : TypeTable) (ts : List ValueType) :
    table.types <+: (table.registerAll ts).2.types := by
  induction ts generalizing table with
  | nil => exact List.prefix_refl _
  | cons t ts ih => exact (table.isPrefix_register t).trans (ih _)

theorem nodup_register {table : TypeTable} (h : table.types.Nodup) (t : ValueType) :
    (table.register t).2.types.Nodup := by
  unfold register
  cases hfind : table.find? t with
  | some id => exact h
  | none =>
    rw [find?, List.idxOf?_eq_none_iff] at hfind
    refine List.nodup_append.2 ⟨h, List.pairwise_singleton _ t, ?_⟩
    intro u hu v hv huv
    rw [List.mem_singleton.1 hv] at huv
    exact hfind (huv ▸ hu)

theorem nodup_registerAll {table : TypeTable} (h : table.types.Nodup) (ts : List ValueType) :
    (table.registerAll ts).2.types.Nodup := by
  induction ts generalizing table with
  | nil => exact h
  | cons t ts ih => exact ih (nodup_register h t)

/-- A type has one number. -/
theorem find?_of_type? {table : TypeTable} (h : table.types.Nodup) {id : TypeId} {t : ValueType}
    (ht : table.type? id = some t) : table.find? t = some id := by
  obtain ⟨hlt, rfl⟩ := List.getElem?_eq_some_iff.1 ht
  refine List.idxOf?_eq_some_iff.2 ⟨hlt, rfl, fun j hj heq => ?_⟩
  exact absurd ((List.getElem_inj h).1 heq) (Nat.ne_of_lt hj)

theorem map_find?_of_type? {table : TypeTable} (h : table.types.Nodup) {ids : List TypeId}
    {ts : List ValueType} (hts : ids.map table.type? = ts.map some) :
    ts.map table.find? = ids.map some := by
  induction ids generalizing ts with
  | nil =>
    obtain rfl := List.map_eq_nil_iff.1 hts.symm
    rfl
  | cons id ids ih =>
    cases ts with
    | nil => contradiction
    | cons t ts =>
      injection hts with ht hts
      rw [List.map_cons, List.map_cons, find?_of_type? h ht, ih hts]

/-- Types are found under the numbers that they were given. -/
theorem map_type?_registerAll (table : TypeTable) (ts : List ValueType) :
    (table.registerAll ts).1.map (table.registerAll ts).2.type? = ts.map some := by
  induction ts generalizing table with
  | nil => rfl
  | cons t ts ih =>
    simp only [registerAll, List.map_cons]
    rw [type?_of_isPrefix (isPrefix_registerAll _ ts) (table.type?_register t), ih]

end TypeTable

/-- A literal has no arguments. -/
theorem Operator.arguments_of_isLiteral {C : Type} {op : Operator C} (h : op.isLiteral = true) :
    op.arguments = [] := by
  unfold isLiteral at h
  unfold arguments
  split at h
  · next hrule => rw [hrule]
  · contradiction

/-- An entry whose numbers stand for the types of its operator, each of a size that a record can
tell. -/
structure Entry.Typed {C : Type} (table : TypeTable) (e : Entry C) : Prop where
  returns : table.type? e.returns = some e.operator.returns
  arguments : e.arguments.map table.type? = e.operator.arguments.map some
  sizes : ∀ t ∈ Palette.signature e.operator, t.size ≤ 65535

theorem Entry.Typed.returns_lt {C : Type} {table : TypeTable} {e : Entry C} (h : e.Typed table) :
    e.returns < table.count :=
  (List.getElem?_eq_some_iff.1 h.returns).1

theorem Entry.Typed.mono {C : Type} {a b : TypeTable} {e : Entry C} (h : e.Typed a)
    (hab : a.types <+: b.types) : e.Typed b := by
  refine ⟨TypeTable.type?_of_isPrefix hab h.returns, ?_, h.sizes⟩
  rw [← h.arguments]
  refine List.map_congr_left fun id hid => ?_
  have hmem : a.type? id ∈ e.operator.arguments.map some := h.arguments ▸ List.mem_map_of_mem hid
  obtain ⟨t, -, ht⟩ := List.mem_map.1 hmem
  rw [← ht, TypeTable.type?_of_isPrefix hab ht.symm]

namespace Palette

variable {C : Type} {p : Palette C}

theorem size_of_checkType {t : ValueType} (h : checkType t = .ok ()) : t.size ≤ 65535 := by
  unfold checkType at h
  split at h
  · contradiction
  · split at h
    · contradiction
    · omega

theorem sizes_of_forM {ts : List ValueType} (h : ts.forM checkType = .ok ()) :
    ∀ t ∈ ts, t.size ≤ 65535 := by
  induction ts with
  | nil => exact fun t ht => absurd ht List.not_mem_nil
  | cons t ts ih =>
    change (checkType t >>= fun _ => ts.forM checkType) = .ok () at h
    obtain ⟨_, ht, hts⟩ := exists_of_bind_eq_ok h
    exact List.forall_mem_cons.2 ⟨size_of_checkType ht, ih hts⟩

theorem typed_of_register {table last : TypeTable} {op : Operator C} {e : Entry C}
    (h : register table op = .ok (e, last)) : table.types <+: last.types ∧ e.Typed last := by
  obtain ⟨_, hsizes, h⟩ := exists_of_bind_eq_ok h
  injection h with h
  injection h with he hlast
  subst he hlast
  have hreturns := table.isPrefix_register op.returns
  have harguments := (table.register op.returns).2.isPrefix_registerAll op.arguments
  exact ⟨hreturns.trans harguments,
    TypeTable.type?_of_isPrefix harguments (table.type?_register op.returns),
    TypeTable.map_type?_registerAll _ op.arguments, sizes_of_forM hsizes⟩

theorem typed_of_registerAll {table last : TypeTable} {ops : List (Operator C)}
    {entries : List (Entry C)} (h : registerAll table ops = .ok (entries, last)) :
    table.types <+: last.types ∧ ∀ e ∈ entries, e.Typed last := by
  induction ops generalizing table entries with
  | nil =>
    injection h with h
    injection h with he hlast
    subst he hlast
    exact ⟨List.prefix_refl _, fun e he => absurd he List.not_mem_nil⟩
  | cons op ops ih =>
    obtain ⟨⟨e, next⟩, hregister, h⟩ := exists_of_bind_eq_ok h
    obtain ⟨⟨rest, _⟩, hrest, h⟩ := exists_of_bind_eq_ok h
    injection h with h
    injection h with he hlast
    subst he hlast
    obtain ⟨hkept, htyped⟩ := typed_of_register hregister
    obtain ⟨hkept', htyped'⟩ := ih hrest
    exact ⟨hkept.trans hkept', List.forall_mem_cons.2 ⟨htyped.mono hkept', htyped'⟩⟩

theorem nodup_of_registerAll {table last : TypeTable} {ops : List (Operator C)}
    {entries : List (Entry C)} (h : registerAll table ops = .ok (entries, last))
    (hnodup : table.types.Nodup) : last.types.Nodup := by
  induction ops generalizing table entries with
  | nil =>
    injection h with h
    injection h with _ hlast
    exact hlast ▸ hnodup
  | cons op ops ih =>
    obtain ⟨⟨e, next⟩, hregister, h⟩ := exists_of_bind_eq_ok h
    obtain ⟨⟨rest, _⟩, hrest, h⟩ := exists_of_bind_eq_ok h
    injection h with h
    injection h with _ hlast
    subst hlast
    obtain ⟨_, -, hregister⟩ := exists_of_bind_eq_ok hregister
    injection hregister with hregister
    injection hregister with _ hnext
    subst hnext
    exact ih hrest (TypeTable.nodup_registerAll (TypeTable.nodup_register hnodup _) _)

/-- A palette of some operators and a root type. -/
def IsBuilt (p : Palette C) : Prop := ∃ operators root, build operators root = .ok p

/-- The steps of building. -/
theorem IsBuilt.steps (h : p.IsBuilt) : ∃ operators root,
    operators ≠ [] ∧ registerAll .empty operators = .ok (p.entries, p.types) ∧
      groundAll p.types (Ground.find p.entries p.types.count).types = .ok p.grounds ∧
      findRoot p.types p.entries root = .ok p.root := by
  obtain ⟨operators, root, h⟩ := h
  refine ⟨operators, root, ?_⟩
  unfold build at h
  split at h
  · contradiction
  · next hne =>
    obtain ⟨⟨entries, table⟩, hregister, h⟩ := exists_of_bind_eq_ok h
    obtain ⟨grounds, hgrounds, h⟩ := exists_of_bind_eq_ok h
    obtain ⟨root, hroot, h⟩ := exists_of_bind_eq_ok h
    injection h with h
    subst h
    exact ⟨by simpa using hne, hregister, hgrounds, hroot⟩

/-- The numbers in a built palette stand for the types of its operators. -/
theorem IsBuilt.typed (h : p.IsBuilt) {id : OperatorId} {e : Entry C} (he : p.entry? id = some e) :
    e.Typed p.types := by
  obtain ⟨_, _, -, hregister, -, -⟩ := h.steps
  exact (typed_of_registerAll hregister).2 e (List.mem_of_getElem? he)

/-- Types that have different numbers are different. -/
theorem IsBuilt.nodup_types (h : p.IsBuilt) : p.types.types.Nodup := by
  obtain ⟨_, _, -, hregister, -, -⟩ := h.steps
  exact nodup_of_registerAll hregister List.nodup_nil

theorem IsBuilt.length_arguments (h : p.IsBuilt) {id : OperatorId} {e : Entry C}
    (he : p.entry? id = some e) : e.arguments.length = e.operator.arguments.length := by
  have := congrArg List.length (h.typed he).arguments
  simpa using this

end Palette

end GeneticProgramming
