import GeneticProgramming.Proofs.Tree.Parents
import GeneticProgramming.Proofs.Variation.Typed
import GeneticProgramming.Variation.Mutation

/-!
# Edits of one subtree

An edit of a scan finds a region, which is the subtree at the index or the ancestor that it jumps to,
and puts other nodes of its type there; or it finds nothing to put there and leaves the tree alone.
`Mutation.edit_edits` says so of each edit, and that its answer is the end of what was put there.  So
mutation of any kind makes sound, well-typed trees of the same type: `Mutation.apply_yields`.
-/

namespace GeneticProgramming

variable {C : Type} {p : Palette C}

/-- Looking up each element of a list finds what a filter keeps. -/
theorem Draw.mapM_demand_yields {α β : Type} (f : α → Option β) (xs : List α) :
    Yields (xs.mapM fun x => (liftM (demand (f x)) : Draw β)) (· = xs.filterMap f) := by
  induction xs with
  | nil => exact Yields.pure rfl
  | cons x xs ih =>
    rw [List.mapM_cons]
    refine Yields.bind (Yields.lift fun y hy => eq_of_demand hy) fun y hy => ?_
    refine Yields.bind ih fun ys hys => Yields.pure ?_
    rw [List.filterMap_cons_some hy, hys]

namespace Mutation

open GeneticProgramming.Tree

variable {t out : Tree} {type : TypeId} {s : Subtree}

/-! ## Regions -/

/-- The operators that take and return a type. -/
def wrappers (p : Palette C) (type : TypeId) : List OperatorId :=
  (p.nonTerminals type).filter fun id => (p.argumentTypes id).contains type

/-- The subtrees of the same type that do not overlap a subtree. -/
def sources (p : Palette C) (t : Tree) (s : Subtree) : List Subtree :=
  ((List.range t.size).filterMap fun i => t.subtree? p i).filter fun o =>
    o.returns = s.returns && (o.stop ≤ s.start || s.stop ≤ o.start)

/-- The subtree that is replaced when a subtree is edited, if there is anything to replace it by. -/
def region? (p : Palette C) (t : Tree) (s : Subtree) : MutationEdit → Option Subtree
  | .expression => some s
  | .adjust => some s
  | .sub => if (wrappers p s.returns).isEmpty then none else some s
  | .jump => ancestor? p t s.returns t.size s.start
  | .copy => if (sources p t s).isEmpty then none else some s

theorem ancestor?_encloses {rounds node : Nat} {target : Subtree} {a : TypeId}
    (h : ancestor? p t a rounds node = some target) :
    t.Contains p target ∧ target.returns = a ∧ target.start < node ∧
      t.endpoint p node ≤ target.stop := by
  induction rounds generalizing node with
  | zero => contradiction
  | succ rounds ih =>
    obtain ⟨parent, hparent, h⟩ := Option.bind_eq_some_iff.1 h
    obtain ⟨hlt, hend⟩ := parent_encloses (Option.join_eq_some_iff.1 hparent)
    have hle := endpoint_le (Nat.le_of_lt hlt) hend
    obtain ⟨s, hs, h⟩ := Option.bind_eq_some_iff.1 h
    split at h
    · next hreturns =>
      injection h with h
      subst h
      rw [subtree?_start hs, subtree?_stop hs]
      exact ⟨⟨parent, hs⟩, hreturns, hlt, hle⟩
    · obtain ⟨hcontains, hreturns, hstart, hstop⟩ := ih h
      exact ⟨hcontains, hreturns, Nat.lt_trans hstart hlt, Nat.le_trans hle hstop⟩

/-- What is not a jump exchanges the subtree itself. -/
theorem eq_of_region? {kind : MutationEdit} {r : Subtree} (hkind : kind ≠ .jump)
    (hr : region? p t s kind = some r) : r = s := by
  cases kind with
  | expression => exact (Option.some.inj hr).symm
  | adjust => exact (Option.some.inj hr).symm
  | sub => exact (Option.some.inj (Option.ite_none_left_eq_some.1 hr).2).symm
  | jump => exact absurd rfl hkind
  | copy => exact (Option.some.inj (Option.ite_none_left_eq_some.1 hr).2).symm

/-- A region is a subtree of the same type that encloses the one that is edited. -/
theorem region?_encloses {i : Nat} {kind : MutationEdit} {r : Subtree}
    (hs : t.subtree? p i = some s) (hr : region? p t s kind = some r) :
    t.Contains p r ∧ r.returns = s.returns ∧ r.start ≤ i ∧ s.stop ≤ r.stop := by
  by_cases hkind : kind = .jump
  · subst hkind
    obtain ⟨hcontains, hreturns, hstart, hstop⟩ := ancestor?_encloses hr
    rw [subtree?_start hs] at hstart hstop
    exact ⟨hcontains, hreturns, Nat.le_of_lt hstart, subtree?_stop hs ▸ hstop⟩
  · rw [eq_of_region? hkind hr]
    exact ⟨⟨i, hs⟩, rfl, Nat.le_of_eq (subtree?_start hs), Nat.le_refl _⟩

/-! ## Edits -/

/-- Other nodes have got the place of a region; without one nothing has changed. -/
def Changes (p : Palette C) (t : Tree) : Option Subtree → Tree → Prop
  | none, u => u = t
  | some r, u => ∃ ms, t.Exchanges p r ms u

/-- What becomes of a tree when a subtree is edited, and where the edit ends. -/
def Edits (p : Palette C) (t : Tree) (s : Subtree) (kind : MutationEdit) (out : Tree × Nat) :
    Prop :=
  match region? p t s kind with
  | none => out = (t, s.stop)
  | some r => ∃ ms, t.Exchanges p r ms out.1 ∧ out.2 = r.start + ms.length ∧
      (kind = .jump → ms = slice t.nodes s.start s.stop)

theorem Edits.proper {kind : MutationEdit} {out : Tree × Nat} {i : Nat} (ht : t.Proper p type)
    (hs : t.subtree? p i = some s) (h : Edits p t s kind out) : out.1.Proper p type := by
  unfold Edits at h
  split at h
  · rw [h]
    exact ht
  · next r hr =>
    obtain ⟨ms, hexchange, -⟩ := h
    exact hexchange.proper ht (region?_encloses hs hr).1

theorem regrow_yields (hp : p.IsBuilt) (m : Mutation) (hs : t.Contains p s) :
    Attempt.Yields (m.regrow p s.returns) (Proper p s.returns) fun _ => False :=
  (Generator.extend_appends hp _ _ (Proper.returns_lt hp hs) .empty).mono
    (fun _ hu => AppendsTypes.proper hu) fun _ h => h

/-- A subtree gives way to a tree of its type. -/
theorem replaceSubtree_yields (ht : t.Proper p type) (hs : t.Contains p s) {other : Tree}
    (ho : other.Proper p s.returns) :
    Attempt.Yields (liftM (t.replaceSubtree s other)) (fun u => ∃ ms, t.Exchanges p s ms u)
      fun _ => False :=
  Attempt.Yields.lift fun _ hu => ⟨_, ht.exchange hs ho hu⟩

/-- The operator of a node is a candidate for the node. -/
theorem exists_candidate {i : Nat} (hs : t.subtree? p i = some s) : ∃ id,
    (t.arityAt p s.start = 0 → id ∈ p.terminals s.returns) ∧
      (t.arityAt p s.start ≠ 0 → id ∈ p.nonTerminals s.returns) := by
  obtain ⟨r, e, hr, he, rfl⟩ := subtree?_eq_some hs
  have harity : t.arityAt p i = e.arguments.length := by
    rw [arityAt, hr, Option.map_some, Option.getD_some, Palette.arity_eq he]
  refine ⟨r.operator, fun hzero => Palette.mem_terminals.2 ⟨e, he, rfl, ?_⟩,
    fun hne => Palette.mem_nonTerminals.2 ⟨e, he, rfl, ?_⟩⟩
  · rwa [harity, List.length_eq_zero_iff] at hzero
  · rwa [harity, ne_eq, List.length_eq_zero_iff] at hne

theorem adjust_yields (hp : p.IsBuilt) (m : Mutation) (ht : t.Proper p type) {i : Nat}
    (hsubtree : t.subtree? p i = some s) :
    Attempt.Yields (m.adjust p t s) (fun u => ∃ ms, t.Exchanges p s ms u) fun _ => False := by
  have hs : t.Contains p s := ⟨i, hsubtree⟩
  obtain ⟨own, hterminal, hnonTerminal⟩ := exists_candidate hsubtree
  refine Attempt.Yields.ite (fun harity => ?_) fun harity => ?_
  · refine Attempt.Yields.bind (Attempt.Yields.draw (Draw.element_yields _)) fun found hfound => ?_
    cases found with
    | some id =>
      obtain ⟨e, he, hreturns, harguments⟩ := Palette.mem_terminals.1 hfound
      refine (Attempt.Yields.draw (ht.modify hs harity he hreturns harguments)).mono
        (fun u hu => ?_) fun _ h => h
      obtain ⟨n, -, hexchange⟩ := hu
      exact ⟨[n], hexchange⟩
    | none => exact absurd (hterminal harity) (hfound ▸ List.not_mem_nil)
  · refine Attempt.Yields.bind (Attempt.Yields.draw (Draw.element_yields _)) fun found hfound => ?_
    cases found with
    | some id =>
      obtain ⟨e, he, hreturns, -⟩ := Palette.mem_nonTerminals.1 hfound
      refine Attempt.Yields.bind (Attempt.Yields.draw (push_yields .empty id)) fun head hhead => ?_
      refine Attempt.Yields.bind (P := fun children => ∀ c ∈ children, t.Contains p c)
        (Attempt.Yields.lift fun children hchildren c hc =>
          ⟨c.start, subtree?_of_mem_children hchildren hc⟩) fun children hchildren => ?_
      rw [Palette.argumentTypes_eq he]
      refine Attempt.Yields.bind (Refill.arguments_yields hp _ _ ht (hp.arguments_lt he) hchildren
        hhead.1) fun rebuilt hrebuilt => ?_
      exact replaceSubtree_yields ht hs (hreturns ▸ (hhead.node_of_push he hrebuilt).proper)
    | none => exact absurd (hnonTerminal harity) (hfound ▸ List.not_mem_nil)

/-- The arguments of a wrapper, one of which is the subtree. -/
theorem wrap_yields (hp : p.IsBuilt) (m : Mutation) (ht : t.Proper p type) (hs : t.Contains p s)
    {slot i : Nat} {types : List TypeId} (htypes : ∀ a ∈ types, a < p.types.count)
    (hslot : ∀ k a, types[k]? = some a → i + k = slot → a = s.returns) (hout : out.Sound p) :
    Attempt.Yields (m.wrap p t s slot i types out) (out.AppendsTypes p types) fun _ => False := by
  induction types generalizing i out with
  | nil => exact Attempt.Yields.pure (.refl hout .nil)
  | cons a types ih =>
    obtain ⟨ha, hrest⟩ := List.forall_mem_cons.1 htypes
    unfold wrap
    have hnext : ∀ {v}, out.AppendsTypes p [a] v →
        Attempt.Yields (m.wrap p t s slot (i + 1) types v) (out.AppendsTypes p (a :: types))
          fun _ => False := by
      intro v hv
      refine (ih hrest (fun k b hk hi => ?_) hv.1).mono (fun u hu => hv.cons hu) fun _ h => h
      exact hslot (k + 1) b hk (by omega)
    refine Attempt.Yields.ite (fun hi => ?_) fun _ => ?_
    · refine Attempt.Yields.bind (Attempt.Yields.lift fun u hu => ?_) fun v hv => hnext hv
      rw [hslot 0 a rfl hi]
      exact copySubtree_appends ht hs hout hu
    · exact Attempt.Yields.bind (Generator.extend_appends hp _ _ ha hout) fun v hv => hnext hv

/-- A slot that is drawn for a subtree takes its type. -/
theorem slot_yields {types : List TypeId} {a : TypeId} (htakes : types.contains a = true) :
    Yields (Draw.element ((List.range types.length).filter fun i => types[i]? = some a))
      fun slot => types[slot.getD 0]? = some a := by
  refine Yields.mono (Draw.element_yields _) fun slot hslot => ?_
  cases slot with
  | some i =>
    obtain ⟨-, hi⟩ := List.mem_filter.1 hslot
    exact of_decide_eq_true hi
  | none =>
    obtain ⟨i, hi⟩ := List.mem_iff_getElem?.1 (List.contains_iff_mem.1 htakes)
    have hlt := (List.getElem?_eq_some_iff.1 hi).1
    have hno := List.filter_eq_nil_iff.1 hslot i (List.mem_range.2 hlt)
    exact absurd (decide_eq_true hi) hno

theorem eq_of_slot {types : List TypeId} {a : TypeId} {slot : Nat} (h : types[slot]? = some a)
    (k : Nat) (b : TypeId) (hk : types[k]? = some b) (hslot : 0 + k = slot) : b = a := by
  rw [← hslot, Nat.zero_add, hk] at h
  injection h

theorem sub_yields (hp : p.IsBuilt) (m : Mutation) (ht : t.Proper p type) (hs : t.Contains p s) :
    Attempt.Yields (m.sub p t s) (Changes p t (region? p t s .sub)) fun _ => False := by
  refine Attempt.Yields.bind (Attempt.Yields.draw (Draw.element_yields (wrappers p s.returns)))
    fun found hfound => ?_
  cases found with
  | none =>
    have hregion : region? p t s .sub = none := if_pos (List.isEmpty_iff.2 hfound)
    rw [hregion]
    exact Attempt.Yields.pure rfl
  | some id =>
    have hregion : region? p t s .sub = some s :=
      if_neg fun hnone => List.ne_nil_of_mem hfound (List.isEmpty_iff.1 hnone)
    obtain ⟨hid, htakes⟩ := List.mem_filter.1 hfound
    obtain ⟨e, he, hreturns, -⟩ := Palette.mem_nonTerminals.1 hid
    rw [hregion]
    dsimp only
    rw [Palette.argumentTypes_eq he] at htakes ⊢
    refine Attempt.Yields.bind (Attempt.Yields.draw (slot_yields htakes)) fun slot hat => ?_
    refine Attempt.Yields.bind (Attempt.Yields.draw (push_yields .empty id)) fun head hhead => ?_
    refine Attempt.Yields.bind (wrap_yields hp m ht hs (hp.arguments_lt he) (eq_of_slot hat)
      hhead.1) fun wrapped hwrapped => ?_
    exact replaceSubtree_yields ht hs (hreturns ▸ (hhead.node_of_push he hwrapped).proper)

/-- A jump puts the subtree itself in the place of the ancestor. -/
theorem jump_edits (ht : t.Proper p type) {i : Nat} (hsubtree : t.subtree? p i = some s)
    {out : Tree × Nat} (h : jump p t s = .ok out) : Edits p t s .jump out := by
  unfold jump at h
  unfold Edits
  rw [region?]
  split at h
  · next target htarget =>
    obtain ⟨htarget', hreturns, -⟩ := ancestor?_encloses htarget
    obtain ⟨extracted, hextracted, h⟩ := exists_of_bind_eq_ok h
    obtain ⟨u, hu, h⟩ := exists_of_bind_eq_ok h
    injection h with h
    subst h
    have hexchange := ht.exchange htarget'
      (hreturns ▸ ht.extractSubtree ⟨i, hsubtree⟩ hextracted) hu
    rw [htarget]
    exact ⟨_, hexchange, hexchange.endpoint ht htarget',
      fun _ => ht.nodes_extractSubtree ⟨i, hsubtree⟩ hextracted⟩
  · next htarget =>
    injection h with h
    rw [htarget]
    exact h.symm

theorem mem_sources {o : Subtree} : o ∈ sources p t s ↔
    t.Contains p o ∧ o.returns = s.returns ∧ (o.stop ≤ s.start ∨ s.stop ≤ o.start) := by
  rw [sources, List.mem_filter, List.mem_filterMap, Bool.and_eq_true, Bool.or_eq_true,
    decide_eq_true_eq, decide_eq_true_eq, decide_eq_true_eq]
  refine and_congr_left fun _ => ⟨?_, ?_⟩
  · rintro ⟨i, -, hi⟩
    exact ⟨i, hi⟩
  · rintro ⟨i, hi⟩
    exact ⟨i, List.mem_range.2 (subtree?_lt_size hi), hi⟩

theorem copy_yields (ht : t.Proper p type) (hs : t.Contains p s) :
    Yields (copy p t s) (Changes p t (region? p t s .copy)) := by
  refine Yields.bind (Draw.mapM_demand_yields _ _) fun all hall => ?_
  subst hall
  refine Yields.bind (Draw.element_yields (sources p t s)) fun found hfound => ?_
  cases found with
  | none =>
    have hregion : region? p t s .copy = none := if_pos (List.isEmpty_iff.2 hfound)
    rw [hregion]
    exact Yields.pure rfl
  | some source =>
    have hregion : region? p t s .copy = some s :=
      if_neg fun hnone => List.ne_nil_of_mem hfound (List.isEmpty_iff.1 hnone)
    obtain ⟨hsource, hreturns, -⟩ := mem_sources.1 hfound
    rw [hregion]
    refine Yields.bind (Yields.lift fun other ho => ht.extractSubtree hsource ho) fun other ho => ?_
    exact Yields.lift fun u hu => ⟨_, ht.exchange hs (hreturns ▸ ho) hu⟩

/-- What is not a jump ends where the subtree at its index does. -/
theorem Changes.edits {kind : MutationEdit} {i : Nat} {u : Tree} (ht : t.Proper p type)
    (hs : t.subtree? p i = some s) (hkind : kind ≠ .jump)
    (h : Changes p t (region? p t s kind) u) : Edits p t s kind (u, u.endpoint p i) := by
  unfold Edits
  cases hregion : region? p t s kind with
  | none =>
    rw [hregion] at h
    obtain rfl : u = t := h
    rw [subtree?_stop hs]
  | some r =>
    obtain rfl := eq_of_region? hkind hregion
    rw [hregion] at h
    obtain ⟨ms, hexchange⟩ := h
    have hend := hexchange.endpoint ht ⟨i, hs⟩
    rw [subtree?_start hs] at hend
    exact ⟨ms, hexchange, by rw [subtree?_start hs]; exact hend, fun hjump => absurd hjump hkind⟩

theorem edit_edits (hp : p.IsBuilt) (m : Mutation) (ht : t.Proper p type) (i : Nat)
    (kind : MutationEdit) :
    Attempt.Yields (m.edit p t i kind)
      (fun out => ∃ s, t.subtree? p i = some s ∧ Edits p t s kind out) fun _ => False := by
  refine Attempt.Yields.bind (Attempt.Yields.lift fun s hs => eq_of_demand hs) fun s hsubtree => ?_
  have hs : t.Contains p s := ⟨i, hsubtree⟩
  have hchanged : ∀ {kind : MutationEdit} {u : Tree}, kind ≠ .jump →
      Changes p t (region? p t s kind) u →
        ∃ s, t.subtree? p i = some s ∧ Edits p t s kind (u, u.endpoint p i) :=
    fun hkind hu => ⟨s, hsubtree, hu.edits ht hsubtree hkind⟩
  cases kind with
  | expression =>
    refine Attempt.Yields.bind (regrow_yields hp m hs) fun other ho => ?_
    refine Attempt.Yields.bind (replaceSubtree_yields ht hs ho) fun u hu => ?_
    exact Attempt.Yields.pure (hchanged nofun hu)
  | adjust =>
    refine Attempt.Yields.bind (adjust_yields hp m ht hsubtree) fun u hu => ?_
    exact Attempt.Yields.pure (hchanged nofun hu)
  | sub =>
    refine Attempt.Yields.bind (sub_yields hp m ht hs) fun u hu => ?_
    exact Attempt.Yields.pure (hchanged nofun hu)
  | jump =>
    exact Attempt.Yields.lift fun out hout => ⟨s, hsubtree, jump_edits ht hsubtree hout⟩
  | copy =>
    refine Attempt.Yields.bind (Attempt.Yields.draw (copy_yields ht hs)) fun u hu => ?_
    exact Attempt.Yields.pure (hchanged nofun hu)

/-! ## Mutants -/

theorem edit_yields (hp : p.IsBuilt) (m : Mutation) (ht : t.Proper p type) (i : Nat)
    (kind : MutationEdit) :
    Attempt.Yields (m.edit p t i kind) (fun out => out.1.Proper p type) fun _ => False :=
  (edit_edits hp m ht i kind).mono (fun _ h => h.elim fun _ hs => hs.2.proper ht hs.1) fun _ h => h

theorem applyPoint_yields (hp : p.IsBuilt) (m : Mutation) (ht : t.Proper p type) :
    Attempt.Yields (m.applyPoint p t) (Proper p type) fun _ => False := by
  refine Attempt.Yields.bind (Attempt.Yields.draw (Yields.trivial _)) fun i _ => ?_
  refine Attempt.Yields.bind (Attempt.Yields.lift fun s hs => contains_of_subtree hs) fun s hs => ?_
  refine Attempt.Yields.bind (regrow_yields hp m hs) fun other ho => ?_
  exact Attempt.Yields.lift fun _ hu => ht.replaceSubtree hs ho hu

theorem scan_yields (hp : p.IsBuilt) (m : Mutation) (chance : Double) (weights : Option Weights)
    (rounds i : Nat) (ht : t.Proper p type) :
    Attempt.Yields (m.scan p chance weights rounds i t) (Proper p type) fun _ => False := by
  induction rounds generalizing i t with
  | zero => exact Attempt.Yields.pure ht
  | succ rounds ih =>
    refine Attempt.Yields.ite (fun _ => Attempt.Yields.pure ht) fun _ => ?_
    refine Attempt.Yields.bind (Attempt.Yields.draw (Yields.trivial _)) fun due _ => ?_
    refine Attempt.Yields.ite (fun _ => ?_) fun _ => ih _ ht
    refine Attempt.Yields.bind (Attempt.Yields.draw (Yields.trivial _)) fun kind _ => ?_
    exact Attempt.Yields.bind (edit_yields hp m ht i kind) fun out hout => ih _ hout

theorem apply_yields (hp : p.IsBuilt) (m : Mutation) (ht : t.Proper p type) :
    Attempt.Yields (m.apply p t) (Proper p type) fun _ => False := by
  refine Attempt.Yields.ite (fun _ => Attempt.Yields.pure ht) fun _ => ?_
  cases hkind : m.kind with
  | point => exact applyPoint_yields hp m ht
  | advanced =>
    refine Attempt.Yields.bind (Attempt.Yields.lift fun _ _ => trivial) fun weights _ => ?_
    exact scan_yields hp m _ weights _ _ ht

end Mutation

end GeneticProgramming
