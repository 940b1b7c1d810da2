import GeneticProgramming.Proofs.Tree.Ancestry
import GeneticProgramming.Proofs.Variation.Refilling

/-!
# What edits leave alone

An edit of an advanced mutation is local: it takes one subtree out of a tree and puts other nodes of
the same type there, and all nodes before and behind it stay, in their order, with their literals.
`Mutation.Makes` says of each edit which subtree this is and what is put there, or that there is
nothing to put there and the tree stays as it is.  The main statement is `Mutation.edit_local`.
-/

namespace GeneticProgramming

open Relation

variable {C : Type} {p : Palette C}

namespace Mutation

open GeneticProgramming.Tree

variable {m : Mutation} {t u out : Tree} {type a : TypeId} {s r o : Subtree} {i j rounds : Nat}

/-! ## Ancestors -/

/-- A subtree that another one is a proper part of. -/
def Encloses (o s : Subtree) : Prop := o.start < s.start ∧ s.stop ≤ o.stop

/-- Two subtrees that do not overlap. -/
def Apart (o s : Subtree) : Prop := o.stop ≤ s.start ∨ s.stop ≤ o.start

/-- The least of the subtrees of the same type that enclose one. -/
structure Nearest (p : Palette C) (t : Tree) (s r : Subtree) : Prop where
  contains : t.Contains p r
  returns : r.returns = s.returns
  encloses : Encloses r s
  least : ∀ o, t.Contains p o → o.returns = s.returns → Encloses o s →
    o.start ≤ r.start ∧ r.stop ≤ o.stop

/-- An ancestor of the type is found, and no other one lies nearer. -/
theorem exists_ancestor? (ht : t.Proper p type) (hi : i < t.size) (hrounds : i ≤ rounds)
    (hj : TransGen (t.IsChild p) i j) (ho : t.subtree? p j = some o) (hreturns : o.returns = a) :
    ∃ r, ancestor? p t a rounds i = some r ∧ ReflTransGen (t.IsChild p) r.start j := by
  induction rounds generalizing i with
  | zero =>
    obtain ⟨parent, hparent, -⟩ := TransGen.head'_iff.1 hj
    exact absurd (parent_encloses hparent).1 (by omega)
  | succ rounds ih =>
    obtain ⟨parent, hparent, hrest⟩ := TransGen.head'_iff.1 hj
    have hlt := (parent_encloses hparent).1
    obtain ⟨s, hs⟩ := exists_subtree ht.spells (Nat.lt_trans hlt hi)
    have hat := eq_of_demand hs
    have hjoin : ((t.parents p)[i]?).join = some parent := Option.join_eq_some_iff.2 hparent
    have hstep : ancestor? p t a (rounds + 1) i =
        if s.returns = a then some s else ancestor? p t a rounds parent := by
      rw [ancestor?, hjoin, Option.bind_eq_bind, Option.bind_some, hat, Option.bind_eq_bind,
        Option.bind_some]
    rw [hstep]
    by_cases hsame : s.returns = a
    · exact ⟨s, if_pos hsame, by rwa [subtree?_start hat]⟩
    · rw [if_neg hsame]
      rcases reflTransGen_iff_eq_or_transGen.1 hrest with rfl | hrest
      · rw [hat] at ho
        injection ho with ho
        exact absurd (ho ▸ hreturns) hsame
      · exact ih (by omega) (by omega) hrest

/-- What encloses a subtree begins at an ancestor of its root. -/
theorem transGen_of_encloses (ht : t.Proper p type)
    (hs : t.subtree? p i = some s) (ho : t.subtree? p j = some o) (h : Encloses o s) :
    TransGen (t.IsChild p) i j := by
  obtain ⟨term, hlisting⟩ := exists_isListing ht.spells
  obtain ⟨hlt, hstop⟩ := h
  rw [subtree?_start hs, subtree?_start ho] at hlt
  rw [subtree?_stop hs, subtree?_stop ho] at hstop
  have hsub : t.extent p i ⊆ t.extent p j := Set.Ico_subset_Ico hlt.le hstop
  have hchain := (extent_subset_iff_ancestor hlisting (subtree?_lt_size ho)
    (subtree?_lt_size hs)).1 hsub
  rcases reflTransGen_iff_eq_or_transGen.1 hchain with rfl | hchain
  · exact absurd hlt (Nat.lt_irrefl _)
  · exact hchain

/-- A jump finds the nearest one, if there is any. -/
theorem exists_nearest (ht : t.Proper p type) (hs : t.subtree? p i = some s) (ho : t.Contains p o)
    (hreturns : o.returns = s.returns) (h : Encloses o s) :
    ∃ r, ancestor? p t s.returns t.size s.start = some r ∧ o.start ≤ r.start ∧ r.stop ≤ o.stop := by
  obtain ⟨j, hj⟩ := ho
  have hi := subtree?_lt_size hs
  have hchain := transGen_of_encloses ht hs hj h
  obtain ⟨r, hr, hrchain⟩ := exists_ancestor? ht hi (Nat.le_of_lt hi) hchain hj hreturns
  obtain ⟨⟨k, hk⟩, -⟩ := ancestor?_encloses hr
  obtain ⟨term, hlisting⟩ := exists_isListing ht.spells
  rw [subtree?_start hk] at hrchain
  have hsub := (extent_subset_iff_ancestor hlisting (subtree?_lt_size hj)
    (subtree?_lt_size hk)).2 hrchain
  rw [extent, extent, Set.Ico_subset_Ico_iff (lt_endpoint (subtree?_lt_size hk))] at hsub
  refine ⟨r, by rwa [subtree?_start hs], ?_⟩
  rwa [subtree?_start hj, subtree?_stop hj, subtree?_start hk, subtree?_stop hk]

theorem nearest_of_ancestor? (ht : t.Proper p type) (hs : t.subtree? p i = some s)
    (h : ancestor? p t s.returns t.size s.start = some r) : Nearest p t s r := by
  obtain ⟨hcontains, hreturns, hstart, hstop⟩ := ancestor?_encloses h
  rw [subtree?_start hs, ← subtree?_stop hs] at hstop
  refine ⟨hcontains, hreturns, ⟨hstart, hstop⟩, fun o ho hsame hencloses => ?_⟩
  obtain ⟨r', hr', hle⟩ := exists_nearest ht hs ho hsame hencloses
  rw [h] at hr'
  injection hr' with hr'
  exact hr' ▸ hle

/-! ## What is put there -/

/-- What an edit makes of a tree when a subtree of it is edited. -/
inductive Makes (p : Palette C) (m : Mutation) (t : Tree) (s : Subtree) :
    MutationEdit → Tree → Prop where
  | regrown {other u : Tree} {r r' : Random} :
      (m.regrow p s.returns).run r = .ok (.ok other, r') → t.Exchanges p s other.nodes u →
      Makes p m t s .expression u
  /-- Another terminal. -/
  | replaced {id : OperatorId} {e : Entry C} {n : Node} {u : Tree} : t.arityAt p s.start = 0 →
      p.entry? id = some e → e.returns = s.returns → e.arguments = [] →
      n.record = recordOf e id → t.Exchanges p s [n] u → Makes p m t s .adjust u
  /-- Another operator, above the arguments that it can take. -/
  | refilled {id : OperatorId} {e : Entry C} {rebuilt u : Tree} {r r' : Random} :
      t.arityAt p s.start ≠ 0 → p.entry? id = some e → e.returns = s.returns →
      e.arguments ≠ [] →
      Refill.Fills p m.generator m.replacement.widened t e.arguments
        (Refill.matching (t.arguments p s.start) e.arguments) (Tree.empty.grown e id none) r
        rebuilt r' →
      t.Exchanges p s rebuilt.nodes u → Makes p m t s .adjust u
  /-- An operator that has the subtree as one of its arguments. -/
  | wrapped {id : OperatorId} {e : Entry C} {before after : List TypeId} {wrapped u : Tree}
      {r r' : Random} : p.entry? id = some e → e.returns = s.returns →
      e.arguments = before ++ s.returns :: after →
      Refill.Fills p m.generator m.replacement.widened t e.arguments
        (before.map (fun _ => none) ++ some s :: after.map fun _ => none)
        (Tree.empty.grown e id none) r wrapped r' →
      t.Exchanges p s wrapped.nodes u → Makes p m t s .sub u
  /-- No operator takes and returns the type. -/
  | unwrapped : (∀ id e, p.entry? id = some e → e.returns = s.returns → s.returns ∉ e.arguments) →
      Makes p m t s .sub t
  /-- The subtree itself, in the place of the nearest one around it. -/
  | jumped {r : Subtree} {u : Tree} : Nearest p t s r →
      t.Exchanges p r (slice t.nodes s.start s.stop) u → Makes p m t s .jump u
  | outermost : (∀ o, t.Contains p o → o.returns = s.returns → ¬ Encloses o s) →
      Makes p m t s .jump t
  | copied {o : Subtree} {u : Tree} : t.Contains p o → o.returns = s.returns → Apart o s →
      t.Exchanges p s (slice t.nodes o.start o.stop) u → Makes p m t s .copy u
  | alone : (∀ o, t.Contains p o → o.returns = s.returns → ¬ Apart o s) → Makes p m t s .copy t

/-- A literal takes no arguments. -/
theorem isLiteral_eq_false (hp : p.IsBuilt) {id : OperatorId} {e : Entry C}
    (he : p.entry? id = some e) (harguments : e.arguments ≠ []) :
    e.operator.isLiteral = false := by
  by_contra hliteral
  rw [Bool.not_eq_false] at hliteral
  have hlen := hp.length_arguments he
  rw [Operator.arguments_of_isLiteral hliteral] at hlen
  exact harguments (List.length_eq_zero_iff.1 hlen)

/-- An operator that takes arguments is put above them as it is. -/
theorem root_yields (hp : p.IsBuilt) {id : OperatorId} {e : Entry C} (he : p.entry? id = some e)
    (harguments : e.arguments ≠ []) : Yields (Tree.empty.push p id) fun head =>
      head = Tree.empty.grown e id none ∧ Tree.empty.Appends p (IsRecordOf p id) head := by
  refine Yields.and ?_ (push_yields .empty id)
  rw [push_eq_pure he (isLiteral_eq_false hp he harguments)]
  exact Yields.pure rfl

theorem adjust_makes (hp : p.IsBuilt) (m : Mutation) (ht : t.Proper p type)
    (hat : t.subtree? p i = some s) :
    Attempt.Yields (m.adjust p t s) (Makes p m t s .adjust) fun _ => False := by
  have hs : t.Contains p s := ⟨i, hat⟩
  obtain ⟨own, hterminal, hnonTerminal⟩ := exists_candidate hat
  refine Attempt.Yields.ite (fun harity => ?_) fun harity => ?_
  · refine Attempt.Yields.bind (Attempt.Yields.draw (Draw.element_yields _)) fun found hfound => ?_
    cases found with
    | none => exact absurd (hterminal harity) (hfound ▸ List.not_mem_nil)
    | some id =>
      obtain ⟨e, he, hreturns, harguments⟩ := Palette.mem_terminals.1 hfound
      refine (Attempt.Yields.draw (ht.modify hs harity he hreturns harguments)).mono
        (fun u hu => ?_) fun _ h => h
      obtain ⟨n, hrecord, hexchange⟩ := hu
      exact .replaced harity he hreturns harguments hrecord hexchange
  · refine Attempt.Yields.bind (Attempt.Yields.draw (Draw.element_yields _)) fun found hfound => ?_
    cases found with
    | none => exact absurd (hnonTerminal harity) (hfound ▸ List.not_mem_nil)
    | some id =>
      obtain ⟨e, he, hreturns, harguments⟩ := Palette.mem_nonTerminals.1 hfound
      refine Attempt.Yields.bind (Attempt.Yields.draw (root_yields hp he harguments))
        fun head hhead => ?_
      obtain ⟨rfl, hhead⟩ := hhead
      refine Attempt.Yields.bind (Attempt.Yields.lift fun _ h => h) fun children hchildren => ?_
      obtain rfl : t.arguments p s.start = children := by
        rw [children_eq ht.spells (subtree?_start hat ▸ subtree?_lt_size hat)] at hchildren
        injection hchildren
      have hcontained : ∀ c ∈ t.arguments p s.start, t.Contains p c :=
        fun _ => contains_of_mem_arguments
      rw [Palette.argumentTypes_eq he]
      have htypes := Refill.arguments_yields hp m.generator m.replacement.widened ht
        (hp.arguments_lt he) hcontained hhead.1
      have hfills := Refill.Outcome.yields (Refill.arguments_outcome hp m.generator
        m.replacement.widened ht.sound ht.check e.arguments hcontained hhead.1)
      refine Attempt.Yields.bind (htypes.and hfills) fun rebuilt hrebuilt => ?_
      obtain ⟨htypes, r, r', hfills⟩ := hrebuilt
      refine Attempt.Yields.lift fun u hu => ?_
      exact .refilled harity he hreturns harguments hfills
        (ht.exchange hs (hreturns ▸ (hhead.node_of_push he htypes).proper) hu)

/-! ## Wrapping -/

section

variable {types : List TypeId} {slot : Nat}

theorem exists_split (h : types[slot]? = some a) :
    ∃ before after, types = before ++ a :: after ∧ before.length = slot := by
  obtain ⟨hlt, hget⟩ := List.getElem?_eq_some_iff.1 h
  refine ⟨types.take slot, types.drop (slot + 1), ?_, List.length_take_of_le (Nat.le_of_lt hlt)⟩
  rw [← hget, ← List.drop_eq_getElem_cons hlt, List.take_append_drop]

/-- Past the subtree all arguments of a wrapper are grown. -/
theorem wrap_outcome_of_lt (hp : p.IsBuilt) (m : Mutation) (hslot : slot < i)
    (hout : out.Sound p) (r : Random) :
    Refill.Outcome p m.generator m.replacement.widened t types (types.map fun _ => none) out r
      ((m.wrap p t s slot i types out).run r) := by
  induction types generalizing i out r with
  | nil => exact .filled .done
  | cons a types ih =>
    rw [wrap, if_neg (Nat.ne_of_gt hslot)]
    exact .extend_bind hp a hout fun mid r' hmid => ih (Nat.lt_succ_of_lt hslot) hmid r'

/-- A wrapper has the subtree as one argument, and the others are grown. -/
theorem wrap_outcome (hp : p.IsBuilt) (m : Mutation) (ht : t.Proper p type) (hs : t.Contains p s)
    (before after : List TypeId) (hslot : i + before.length = slot) (hout : out.Sound p)
    (r : Random) : Refill.Outcome p m.generator m.replacement.widened t (before ++ s.returns :: after)
      (before.map (fun _ => none) ++ some s :: after.map fun _ => none) out r
        ((m.wrap p t s slot i (before ++ s.returns :: after) out).run r) := by
  induction before generalizing i out r with
  | nil =>
    obtain rfl : i = slot := hslot
    rw [List.nil_append, wrap, if_pos rfl]
    exact .copy_bind ht hs hout fun mid hmid =>
      wrap_outcome_of_lt hp m (Nat.lt_succ_self i) hmid r
  | cons a before ih =>
    rw [List.length_cons] at hslot
    rw [List.cons_append, wrap, if_neg (by omega)]
    exact .extend_bind hp a hout fun mid r' hmid => ih (by omega) hmid r'

end

theorem sub_makes (hp : p.IsBuilt) (m : Mutation) (ht : t.Proper p type) (hs : t.Contains p s) :
    Attempt.Yields (m.sub p t s) (Makes p m t s .sub) fun _ => False := by
  refine Attempt.Yields.bind (Attempt.Yields.draw (Draw.element_yields (wrappers p s.returns)))
    fun found hfound => ?_
  cases found with
  | none =>
    refine Attempt.Yields.pure (.unwrapped fun id e he hreturns hmem => ?_)
    have hid : id ∈ wrappers p s.returns := by
      refine List.mem_filter.2 ⟨Palette.mem_nonTerminals.2 ⟨e, he, hreturns, ?_⟩, ?_⟩
      · exact List.ne_nil_of_mem hmem
      · rwa [Palette.argumentTypes_eq he, List.contains_iff_mem]
    rw [hfound] at hid
    exact absurd hid List.not_mem_nil
  | some id =>
    obtain ⟨hid, htakes⟩ := List.mem_filter.1 hfound
    obtain ⟨e, he, hreturns, harguments⟩ := Palette.mem_nonTerminals.1 hid
    dsimp only
    rw [Palette.argumentTypes_eq he] at htakes ⊢
    refine Attempt.Yields.bind (Attempt.Yields.draw (slot_yields htakes)) fun slot hat => ?_
    refine Attempt.Yields.bind (Attempt.Yields.draw (root_yields hp he harguments))
      fun head hhead => ?_
    obtain ⟨rfl, hhead⟩ := hhead
    obtain ⟨before, after, hsplit, hlen⟩ := exists_split hat
    have htypes := wrap_yields hp m ht hs (hp.arguments_lt he) (eq_of_slot hat) hhead.1
    have hfills := Refill.Outcome.yields
      (wrap_outcome hp m ht hs before after ((Nat.zero_add _).trans hlen) hhead.1)
    rw [← hsplit] at hfills
    refine Attempt.Yields.bind (htypes.and hfills) fun wrapped hwrapped => ?_
    obtain ⟨htypes, r, r', hfills⟩ := hwrapped
    refine Attempt.Yields.lift fun u hu => ?_
    exact .wrapped he hreturns hsplit hfills
      (ht.exchange hs (hreturns ▸ (hhead.node_of_push he htypes).proper) hu)

/-! ## Edits -/

theorem jump_makes (ht : t.Proper p type) (hat : t.subtree? p i = some s) {out : Tree × Nat}
    (h : jump p t s = .ok out) : Makes p m t s .jump out.1 := by
  have hedits := jump_edits ht hat h
  unfold Edits at hedits
  cases hregion : region? p t s .jump with
  | none =>
    rw [hregion] at hedits
    obtain rfl : out = (t, s.stop) := hedits
    refine .outermost fun o ho hreturns hencloses => ?_
    obtain ⟨r, hr, -⟩ := exists_nearest ht hat ho hreturns hencloses
    exact nomatch hr.symm.trans hregion
  | some r =>
    rw [hregion] at hedits
    obtain ⟨ms, hexchange, -, hms⟩ := hedits
    exact .jumped (nearest_of_ancestor? ht hat hregion) (hms rfl ▸ hexchange)

theorem copy_makes (ht : t.Proper p type) (hs : t.Contains p s) :
    Yields (copy p t s) (Makes p m t s .copy) := by
  refine Yields.bind (Draw.mapM_demand_yields _ _) fun all hall => ?_
  subst hall
  refine Yields.bind (Draw.element_yields (sources p t s)) fun found hfound => ?_
  cases found with
  | none =>
    refine Yields.pure (.alone fun o ho hreturns hapart => ?_)
    have hmem := mem_sources.2 ⟨ho, hreturns, hapart⟩
    rw [hfound] at hmem
    exact absurd hmem List.not_mem_nil
  | some source =>
    obtain ⟨hsource, hreturns, hapart⟩ := mem_sources.1 hfound
    refine Yields.bind (Yields.lift fun other ho => ho) fun other ho => ?_
    refine Yields.lift fun u hu => .copied hsource hreturns hapart ?_
    rw [← ht.nodes_extractSubtree hsource ho]
    exact ht.exchange hs (hreturns ▸ ht.extractSubtree hsource ho) hu

theorem edit_makes (hp : p.IsBuilt) (m : Mutation) (ht : t.Proper p type)
    (hat : t.subtree? p i = some s) (kind : MutationEdit) :
    Attempt.Yields (m.edit p t i kind) (fun out => Makes p m t s kind out.1) fun _ => False := by
  have hs : t.Contains p s := ⟨i, hat⟩
  have hsubtree : t.subtree p i = .ok s := by rw [subtree, hat, demand_some]
  refine Attempt.Yields.bind (Attempt.Yields.lift fun _ h => h) fun s' hs' => ?_
  obtain rfl : s = s' := by
    rw [hsubtree] at hs'
    injection hs'
  cases kind with
  | expression =>
    refine Attempt.Yields.bind ((regrow_yields hp m hs).and (Attempt.Yields.ran _))
      fun other hother => ?_
    obtain ⟨hproper, r, r', hrun⟩ := hother
    refine Attempt.Yields.bind (Attempt.Yields.lift fun u hu => ht.exchange hs hproper hu)
      fun u hu => ?_
    exact Attempt.Yields.pure (.regrown hrun hu)
  | adjust =>
    exact Attempt.Yields.bind (adjust_makes hp m ht hat) fun u hu => Attempt.Yields.pure hu
  | sub => exact Attempt.Yields.bind (sub_makes hp m ht hs) fun u hu => Attempt.Yields.pure hu
  | jump => exact Attempt.Yields.lift fun out hout => jump_makes ht hat hout
  | copy =>
    exact Attempt.Yields.bind (Attempt.Yields.draw (copy_makes ht hs)) fun u hu =>
      Attempt.Yields.pure hu

/-- From any stream an edit of a node of a well-formed tree takes one subtree out of it, the one at
the node or, in a jump, the nearest one of its type around it.  All nodes before and behind that
subtree stay, with their literals; what is put in its place returns its type, and is what the edit
is to put there.  Where there is nothing of the kind, the tree stays as it is.  The edit is never
refused, and ends in a fault only if the draw of a literal does. -/
theorem edit_local (hp : p.IsBuilt) (m : Mutation) (ht : t.Sound p) (hcheck : t.check p = .ok ())
    (hi : i < t.size) (kind : MutationEdit) : ∃ s, t.subtree? p i = some s ∧ ∀ g,
      (∃ out g', (m.edit p t i kind).run g = .ok (.ok out, g') ∧ Makes p m t s kind out.1) ∨
        ∃ f, (m.edit p t i kind).run g = .error f ∧ (m.generator.Sane → p.LiteralFault f) := by
  obtain ⟨type, hproper⟩ := exists_proper_of_check ht hcheck (Nat.zero_lt_of_lt hi)
  obtain ⟨s, hs⟩ := exists_subtree hproper.spells hi
  have hfaults (g : Random) (f : Fault) (hrun : (m.edit p t i kind).run g = .error f)
      (hg : m.generator.Sane) : p.LiteralFault f := edit_faults hp hg hproper hi kind g f hrun
  exact ⟨s, eq_of_demand hs, (edit_makes hp m hproper (eq_of_demand hs) kind).cases hfaults⟩

/-! ### An argument of a choice -/

theorem edit_local_chosen : choices.IsBuilt ∧ chosen.Sound choices ∧
    chosen.check choices = .ok () ∧ 2 < chosen.size ∧
    chosen.subtree? choices 2 = some ⟨2, 3, 1⟩ ∧ ∀ kind g,
      (∃ out g', (thrice.edit choices chosen 2 kind).run g = .ok (.ok out, g') ∧
          Makes choices thrice chosen ⟨2, 3, 1⟩ kind out.1) ∨
        ∃ f, (thrice.edit choices chosen 2 kind).run g = .error f ∧ choices.LiteralFault f := by
  have hcheck : chosen.check choices = .ok () := rfl
  have hat : chosen.subtree? choices 2 = some ⟨2, 3, 1⟩ := rfl
  have hsize : 2 < chosen.size := by decide
  refine ⟨isBuilt_choices, made_chosen.sound, hcheck, hsize, hat, fun kind g => ?_⟩
  obtain ⟨s, hs, hmakes⟩ :=
    edit_local isBuilt_choices thrice made_chosen.sound hcheck hsize kind
  rw [hat] at hs
  injection hs with hs
  subst hs
  refine (hmakes g).imp_right ?_
  rintro ⟨f, hrun, hf⟩
  exact ⟨f, hrun, hf sane_thrice.generator⟩

end Mutation

end GeneticProgramming
