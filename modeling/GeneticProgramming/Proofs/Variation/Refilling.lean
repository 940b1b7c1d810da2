import GeneticProgramming.Proofs.Variation.Appending
import GeneticProgramming.Proofs.Variation.Conserving

/-!
# Refilling arguments

A node that moves to another place keeps what was there: each of its arguments is the next child of
its type that is left, and only if none is left a tree that is grown.  So the arguments of a type
and the children of that type are matched in their order, as `Refill.matching` says, and as many
children are reused as there can be.  If the node takes the types of the children in some order, it
has each child just once and nothing is grown.  The main statement is `Refill.reuses_children`.
-/

namespace GeneticProgramming

variable {C : Type} {p : Palette C}

namespace Refill

open GeneticProgramming.Tree

/-! ## Matching -/

/-- The children of a type, in their order. -/
def ofType (a : TypeId) (children : List Subtree) : List Subtree :=
  children.filter (·.returns = a)

/-- The child that each argument reuses, if any.  The argument at an index has as many arguments of
its type before it as its child has children of that type. -/
def matching (children : List Subtree) (types : List TypeId) : List (Option Subtree) :=
  types.zipIdx.map fun (a, k) => (ofType a children)[(types.take k).count a]?

section

variable {a : TypeId} {children rest : List Subtree} {c : Subtree}

theorem ofType_cons_self (h : c.returns = a) (children : List Subtree) :
    ofType a (c :: children) = c :: ofType a children :=
  List.filter_cons_of_pos (decide_eq_true h)

theorem ofType_cons_of_ne (h : c.returns ≠ a) (children : List Subtree) :
    ofType a (c :: children) = ofType a children :=
  List.filter_cons_of_neg (by rwa [decide_eq_true_eq])

theorem takeFirst_perm (h : takeFirst a children = some (c, rest)) :
    children.Perm (c :: rest) := by
  induction children generalizing c rest with
  | nil => contradiction
  | cons first children ih =>
    unfold takeFirst at h
    split at h
    · injection h with h
      injection h with hc hrest
      subst hc hrest
      exact .refl _
    · obtain ⟨⟨found, others⟩, hfound, h⟩ := Option.map_eq_some_iff.1 h
      injection h with hc hrest
      subst hc hrest
      exact ((ih hfound).cons first).trans (.swap _ _ _)

/-- Only the first child of the type goes. -/
theorem ofType_takeFirst (h : takeFirst a children = some (c, rest)) (b : TypeId) :
    ofType b children = if b = a then c :: ofType b rest else ofType b rest := by
  induction children generalizing c rest with
  | nil => contradiction
  | cons first children ih =>
    unfold takeFirst at h
    split at h
    · next hfirst =>
      injection h with h
      injection h with hc hrest
      subst hc hrest
      split
      · next hb => exact ofType_cons_self (hb ▸ hfirst) _
      · next hb => exact ofType_cons_of_ne (hfirst ▸ Ne.symm hb) _
    · next hfirst =>
      obtain ⟨⟨found, others⟩, hfound, h⟩ := Option.map_eq_some_iff.1 h
      injection h with hc hrest
      subst hc hrest
      have hchildren := ih hfound
      by_cases hb : first.returns = b
      · have hne : b ≠ a := fun hba => hfirst (hb.trans hba)
        rw [if_neg hne] at hchildren ⊢
        rw [ofType_cons_self hb, ofType_cons_self hb, hchildren]
      · rw [ofType_cons_of_ne hb, ofType_cons_of_ne hb, hchildren]

theorem ofType_eq_nil (h : takeFirst a children = none) : ofType a children = [] := by
  induction children with
  | nil => rfl
  | cons first children ih =>
    unfold takeFirst at h
    split at h
    · contradiction
    · next hfirst =>
      rw [ofType_cons_of_ne hfirst]
      exact ih (Option.map_eq_none_iff.1 h)

theorem getElem?_matching (children : List Subtree) (types : List TypeId) (k : Nat) :
    (matching children types)[k]? =
      types[k]?.map fun a => (ofType a children)[(types.take k).count a]? := by
  rw [matching, List.getElem?_map, List.getElem?_zipIdx, Option.map_map, Nat.zero_add]
  rfl

/-- Past the first argument, what is left of the children is matched. -/
theorem matching_cons (a : TypeId) (types : List TypeId) (children : List Subtree) :
    matching children (a :: types) = match takeFirst a children with
      | some (c, rest) => some c :: matching rest types
      | none => none :: matching children types := by
  refine List.ext_getElem? fun k => ?_
  cases hfirst : takeFirst a children with
  | none =>
    have hnone := ofType_eq_nil hfirst
    cases k with
    | zero => simp [getElem?_matching, hnone]
    | succ k =>
      simp only [getElem?_matching, List.getElem?_cons_succ, List.take_succ_cons]
      refine congrArg (Option.map · _) (funext fun b => ?_)
      by_cases hb : b = a
      · subst hb
        simp [hnone]
      · rw [List.count_cons_of_ne (Ne.symm hb)]
  | some found =>
    obtain ⟨c, rest⟩ := found
    have hrest := ofType_takeFirst hfirst
    cases k with
    | zero => simp [getElem?_matching, hrest]
    | succ k =>
      simp only [getElem?_matching, List.getElem?_cons_succ, List.take_succ_cons]
      refine congrArg (Option.map · _) (funext fun b => ?_)
      rw [hrest]
      by_cases hb : b = a
      · subst hb
        rw [if_pos rfl, List.count_cons_self, List.getElem?_cons_succ]
      · rw [if_neg hb, List.count_cons_of_ne (Ne.symm hb)]

end

/-- Of each type the first children are reused, as many as there are arguments. -/
theorem ofType_reduceOption_matching (children : List Subtree) (types : List TypeId) (a : TypeId) :
    ofType a (matching children types).reduceOption =
      (ofType a children).take (types.count a) := by
  induction types generalizing children with
  | nil => rfl
  | cons b types ih =>
    rw [matching_cons]
    cases hfirst : takeFirst b children with
    | none =>
      dsimp only
      rw [List.reduceOption_cons_of_none, ih]
      by_cases hb : a = b
      · subst hb
        rw [ofType_eq_nil hfirst, List.take_nil, List.take_nil]
      · rw [List.count_cons_of_ne (Ne.symm hb)]
    | some found =>
      obtain ⟨c, rest⟩ := found
      have hreturns := (takeFirst_eq_some hfirst).2.1
      dsimp only
      rw [List.reduceOption_cons_of_some, ofType_takeFirst hfirst]
      by_cases hb : a = b
      · subst hb
        rw [ofType_cons_self hreturns, ih, if_pos rfl, List.count_cons_self, List.take_succ_cons]
      · rw [ofType_cons_of_ne (hreturns ▸ Ne.symm hb), ih, if_neg hb,
          List.count_cons_of_ne (Ne.symm hb)]

/-- No child is reused twice. -/
theorem matching_subperm (children : List Subtree) (types : List TypeId) :
    (matching children types).reduceOption.Subperm children := by
  induction types generalizing children with
  | nil => exact List.nil_subperm
  | cons a types ih =>
    rw [matching_cons]
    cases hfirst : takeFirst a children with
    | none => exact ih children
    | some found =>
      have hrest := (List.subperm_cons found.1).2 (ih found.2)
      exact hrest.trans (takeFirst_perm hfirst).symm.subperm

/-- If the arguments take the types of the children in some order, each child is reused once. -/
theorem exists_matching {children : List Subtree} {types : List TypeId}
    (h : types.Perm (children.map Subtree.returns)) :
    ∃ cs : List Subtree, matching children types = cs.map some ∧ cs.Perm children ∧
      cs.map Subtree.returns = types := by
  induction types generalizing children with
  | nil =>
    obtain rfl := List.map_eq_nil_iff.1 h.nil_eq.symm
    exact ⟨[], rfl, .refl _, rfl⟩
  | cons a types ih =>
    rw [matching_cons]
    cases hfirst : takeFirst a children with
    | none =>
      obtain ⟨c, hc, hreturns⟩ := List.mem_map.1 (h.mem_iff.1 List.mem_cons_self)
      have hmem : c ∈ ofType a children := List.mem_filter.2 ⟨hc, decide_eq_true hreturns⟩
      rw [ofType_eq_nil hfirst] at hmem
      exact absurd hmem List.not_mem_nil
    | some found =>
      obtain ⟨c, rest⟩ := found
      have hperm := takeFirst_perm hfirst
      obtain ⟨-, rfl, -⟩ := takeFirst_eq_some hfirst
      obtain ⟨cs, hmatching, hcs, hreturns⟩ := ih (h.trans (hperm.map _)).cons_inv
      refine ⟨c :: cs, ?_, (hcs.cons c).trans hperm.symm, ?_⟩
      · rw [List.map_cons, ← hmatching]
      · rw [List.map_cons, hreturns]

/-- Children of one type stay in their order. -/
theorem ofType_eq_of_matching {children cs : List Subtree} {types : List TypeId}
    (h : matching children types = cs.map some) (hperm : cs.Perm children) (a : TypeId) :
    ofType a cs = ofType a children := by
  have htake := ofType_reduceOption_matching children types a
  have hcs : (cs.map some).reduceOption = cs := by simp [List.reduceOption, List.filterMap_map]
  rw [h, hcs] at htake
  have hprefix : ofType a cs <+: ofType a children := htake ▸ List.take_prefix _ _
  exact hprefix.eq_of_length (hperm.filter _).length_eq

/-! ## Filling -/

section

variable (p : Palette C) (g : Generator) (w : DepthWindow) (donor : Tree)

/-- A tree gains one complete tree after another, of given types, while a stream is drawn from: for
each a subtree is given of which it is a copy, or none and it is grown. -/
inductive Fills :
    List TypeId → List (Option Subtree) → Tree → Random → Tree → Random → Prop where
  | done {out : Tree} {r : Random} : Fills [] [] out r out r
  | copied {c : Subtree} {types : List TypeId} {plan : List (Option Subtree)} {out mid u : Tree}
      {r r' : Random} : out.Gains p c.returns mid →
      mid.nodes = out.nodes ++ slice donor.nodes c.start c.stop → Fills types plan mid r u r' →
      Fills (c.returns :: types) (some c :: plan) out r u r'
  | grown {a : TypeId} {types : List TypeId} {plan : List (Option Subtree)} {out mid u : Tree}
      {r r' r'' : Random} : (g.extend p w a out).run r = .ok (.ok mid, r') →
      out.Gains p a mid → Fills types plan mid r' u r'' →
      Fills (a :: types) (none :: plan) out r u r''

/-- The ways in which filling ends, from a stream.  It is refused or ends in a fault only if a tree
is grown. -/
inductive Outcome (types : List TypeId) (plan : List (Option Subtree)) (out : Tree) (r : Random) :
    Except Fault (Except GenerationError Tree × Random) → Prop where
  | filled {u : Tree} {r' : Random} : Fills p g w donor types plan out r u r' →
      Outcome types plan out r (.ok (.ok u, r'))
  /-- There is no operator of a type. -/
  | refused {a : TypeId} {r' : Random} : (a, none) ∈ types.zip plan → p.types.count ≤ a →
      Outcome types plan out r (.ok (.error (.noValidType (some a)), r'))
  | fault {f : Fault} : none ∈ plan → (g.Sane → p.LiteralFault f) →
      Outcome types plan out r (.error f)

end

variable {g : Generator} {w : DepthWindow} {donor out : Tree} {type : TypeId}

namespace Outcome

variable {types : List TypeId} {plan : List (Option Subtree)} {k : Tree → Attempt Tree} {r : Random}

/-- The first argument is copied. -/
theorem copy_bind {c : Subtree} (hdonor : donor.Proper p type) (hc : donor.Contains p c)
    (hout : out.Sound p)
    (h : ∀ mid, mid.Sound p → Outcome p g w donor types plan mid r ((k mid).run r)) :
    Outcome p g w donor (c.returns :: types) (some c :: plan) out r
      ((liftM (donor.copySubtree c out) >>= k : Attempt Tree).run r) := by
  obtain ⟨mid, hcopy, hgains, hnodes⟩ := hdonor.exists_gains hc hout
  have hmid := h mid hgains.sound
  rw [Attempt.run_bind (Attempt.run_lift hcopy)]
  generalize (k mid).run r = x at hmid
  cases hmid with
  | filled hfills => exact .filled (.copied hgains hnodes hfills)
  | refused hmem ha => exact .refused (List.mem_cons_of_mem _ hmem) ha
  | fault hmem hf => exact .fault (List.mem_cons_of_mem _ hmem) hf

/-- The first argument is grown. -/
theorem extend_bind (hp : p.IsBuilt) (a : TypeId) (hout : out.Sound p)
    (h : ∀ mid r', mid.Sound p → Outcome p g w donor types plan mid r' ((k mid).run r')) :
    Outcome p g w donor (a :: types) (none :: plan) out r
      ((g.extend p w a out >>= k : Attempt Tree).run r) := by
  obtain ⟨mid, r', hrun, hgains⟩ | ⟨r', hrun, ha⟩ | ⟨f, hrun, hf⟩ :=
    Generator.extend_cases hp g w a hout r
  · have hmid := h mid r' hgains.sound
    rw [Attempt.run_bind hrun]
    generalize (k mid).run r' = x at hmid
    cases hmid with
    | filled hfills => exact .filled (.grown hrun hgains hfills)
    | refused hmem ha => exact .refused (List.mem_cons_of_mem _ hmem) ha
    | fault hmem hf => exact .fault (List.mem_cons_of_mem _ hmem) hf
  · rw [Attempt.run_bind_error hrun]
    exact .refused List.mem_cons_self ha
  · rw [Attempt.run_bind_fault hrun]
    exact .fault List.mem_cons_self hf

theorem yields {x : Attempt Tree}
    (h : ∀ r, Outcome p g w donor types plan out r (x.run r)) :
    Attempt.Yields x fun u => ∃ r r', Fills p g w donor types plan out r u r' := by
  intro r result r' hrun
  have houtcome := h r
  rw [hrun] at houtcome
  cases houtcome with
  | filled hfills => exact ⟨r, r', hfills⟩
  | refused => exact True.intro

end Outcome

/-- Arguments are filled as their types and the children match. -/
theorem arguments_outcome (hp : p.IsBuilt) (g : Generator) (w : DepthWindow)
    (hdonor : donor.Sound p) (hcheck : donor.check p = .ok ()) (types : List TypeId)
    {children : List Subtree} (hchildren : ∀ c ∈ children, donor.Contains p c) (hout : out.Sound p)
    (r : Random) : Outcome p g w donor types (matching children types) out r
      ((arguments p g w donor types children out).run r) := by
  induction types generalizing children out r with
  | nil => exact .filled .done
  | cons a types ih =>
    rw [matching_cons, arguments]
    cases hfirst : takeFirst a children with
    | some found =>
      obtain ⟨c, rest⟩ := found
      obtain ⟨hmem, rfl, hrest⟩ := takeFirst_eq_some hfirst
      have hc := hchildren c hmem
      obtain ⟨type, hproper⟩ := exists_proper_of_check hdonor hcheck hc.size_pos
      exact .copy_bind hproper hc hout fun mid hmid =>
        ih (fun x hx => hchildren x (hrest x hx)) hmid r
    | none => exact .extend_bind hp a hout fun mid r' hmid => ih hchildren hmid r'

/-! ## Nothing but copies -/

/-- The nodes of some subtrees, one after another. -/
def listAll (t : Tree) (cs : List Subtree) : List Node :=
  cs.flatMap fun c => slice t.nodes c.start c.stop

/-- Copies need nothing of the stream. -/
theorem Fills.eq_of_copies {types : List TypeId} {cs : List Subtree} {u : Tree} {r r' : Random}
    (h : Fills p g w donor types (cs.map some) out r u r') :
    r' = r ∧ u.nodes = out.nodes ++ listAll donor cs := by
  induction cs generalizing types out with
  | nil =>
    cases h with
    | done => exact ⟨rfl, (List.append_nil _).symm⟩
  | cons c cs ih =>
    cases h with
    | copied _ hnodes h =>
      obtain ⟨hr, hu⟩ := ih h
      exact ⟨hr, by rw [hu, hnodes, List.append_assoc, listAll, listAll, List.flatMap_cons]⟩

theorem Outcome.exists_of_copies {types : List TypeId} {cs : List Subtree} {r : Random}
    {x : Except Fault (Except GenerationError Tree × Random)}
    (h : Outcome p g w donor types (cs.map some) out r x) :
    ∃ u, x = .ok (.ok u, r) ∧ u.nodes = out.nodes ++ listAll donor cs := by
  cases h with
  | filled h =>
    obtain ⟨rfl, hu⟩ := h.eq_of_copies
    exact ⟨_, rfl, hu⟩
  | refused hmem => exact absurd (List.of_mem_zip hmem).2 (by simp)
  | fault hmem => exact absurd hmem (by simp)

/-- The node at an index goes on a tree as it is, and nothing is drawn. -/
theorem exists_head (hp : p.IsBuilt) {source : Tree} (hsource : source.Proper p type) {i : Nat}
    (hi : i < source.size) (hout : out.Sound p) (r : Random) :
    ∃ u, head p source i out r = .ok (u, r) ∧
      u.nodes = out.nodes ++ slice source.nodes i (i + 1) := by
  obtain ⟨s, hs⟩ := exists_subtree hsource.spells hi
  have hat := eq_of_demand hs
  obtain ⟨q, e, hq, he, -⟩ := subtree?_eq_some hat
  have hhead : head p source i out =
      if q.isLiteral then liftM (source.copySubtree s out) else out.push p q.operator := by
    unfold head
    rw [hq, demand_some, hs]
    rfl
  rw [hhead]
  cases hliteral : q.isLiteral with
  | true =>
    obtain ⟨u, hu, -, hnodes⟩ := hsource.exists_gains (contains_of_subtree hs) hout
    rw [subtree?_start hat, stop_of_arityAt hat (arityAt_of_isLiteral hp hsource hq hliteral)]
      at hnodes
    refine ⟨u, ?_, hnodes⟩
    rw [if_pos rfl, hu]
    rfl
  | false =>
    obtain ⟨d, hd, hrecord⟩ := hsource.sound.1.entry (List.mem_of_getElem? hq)
    rw [he] at hd
    injection hd with hd
    subst hd
    have hfixed : e.operator.isLiteral = false := by rwa [hrecord] at hliteral
    have hwords : q.words = 0 := by
      rw [hrecord, words_recordOf, hfixed]
      rfl
    rw [hsource.sound.1.lists.records, List.getElem?_map] at hq
    obtain ⟨n, hn, rfl⟩ := Option.map_eq_some_iff.1 hq
    have hbare := (hsource.sound.1.lists.fits n (List.mem_of_getElem? hn)).eq_bare hwords
    refine ⟨out.grown e n.record.operator none, ?_, ?_⟩
    · rw [push_eq_pure he hfixed]
      rfl
    · rw [hout.1.lists.nodes_grown hfixed, slice_succ hn, hbare, ← hrecord]

end Refill

namespace Crossover

open GeneticProgramming.Tree

variable {c : Crossover} {t u v : Tree} {type other : TypeId} {a b : Subtree}

/-- A tree in which another node has the place of one, above the same arguments: each of them is
there just once, those of a type in their order. -/
structure Regroups (p : Palette C) (t : Tree) (a : Subtree) (u : Tree) (b : Subtree) (v : Tree) :
    Prop where
  sound : v.Sound p
  check : v.check p = .ok ()
  nodes : ∃ r cs, u.records[b.start]? = some r ∧ cs.Perm (t.arguments p a.start) ∧
    cs.map Subtree.returns = p.argumentTypes r.operator ∧
    (∀ type, Refill.ofType type cs = Refill.ofType type (t.arguments p a.start)) ∧
    v.nodes = t.nodes.take a.start ++
      (slice u.nodes b.start (b.start + 1) ++ Refill.listAll t cs) ++ t.nodes.drop a.stop

/-- A node is put above arguments of its types, and nothing is grown. -/
theorem rebuild_run (hp : p.IsBuilt) (c : Crossover) (ht : t.Proper p type) (ha : t.Contains p a)
    (hu : u.Proper p other) (h : SameArguments p t a u b) (r : Random) :
    ∃ out cs, (c.rebuild p t a u b).run r = .ok (.ok out, r) ∧ out.Proper p a.returns ∧
      cs.Perm (u.arguments p b.start) ∧
      (∃ q, t.records[a.start]? = some q ∧ cs.map Subtree.returns = p.argumentTypes q.operator) ∧
      (∀ type, Refill.ofType type cs = Refill.ofType type (u.arguments p b.start)) ∧
      out.nodes = slice t.nodes a.start (a.start + 1) ++ Refill.listAll u cs := by
  obtain ⟨q, q', hq, hq', htypes⟩ := h
  obtain ⟨hlt, -⟩ := List.getElem?_eq_some_iff.1 hq
  obtain ⟨hlt', -⟩ := List.getElem?_eq_some_iff.1 hq'
  obtain ⟨head, hhead, hnodes⟩ := Refill.exists_head hp ht hlt .empty r
  obtain ⟨-, -, -, -, hsound, -⟩ := Refill.head_yields hp ht .empty r head r hhead
  have hreturns := map_returns_eq hu.spells hq'
  obtain ⟨cs, hmatching, hcs, hcsreturns⟩ := Refill.exists_matching (hreturns ▸ htypes)
  have hchildren : ∀ x ∈ u.arguments p b.start, u.Contains p x :=
    fun _ => contains_of_mem_arguments
  have houtcome := Refill.arguments_outcome hp c.generator c.replacement.widened hu.sound hu.check
    (p.argumentTypes q.operator) hchildren hsound r
  rw [hmatching] at houtcome
  obtain ⟨out, hrun, hout⟩ := houtcome.exists_of_copies
  have hrebuild : (c.rebuild p t a u b).run r = .ok (.ok out, r) := by
    have hrecord : demand t.records[a.start]? = .ok q := by rw [hq, demand_some]
    rw [rebuild, Attempt.run_bind (Attempt.run_draw hhead),
      Attempt.run_bind (Attempt.run_lift hrecord),
      Attempt.run_bind (Attempt.run_lift (children_eq hu.spells hlt')), hrun]
  refine ⟨out, cs, hrebuild, ?_, hcs, ⟨q, hq, hcsreturns⟩,
    fun type => Refill.ofType_eq_of_matching hmatching hcs type, ?_⟩
  · exact rebuild_yields hp c ht ha hu r (.ok out) r hrebuild
  · rw [hout, hnodes]
    rfl

/-- The rebuilt subtree goes where the arguments are from. -/
theorem exists_regroups (hp : p.IsBuilt) (c : Crossover) (ht : t.Proper p type)
    (ha : t.Contains p a) (hu : u.Proper p other) (hb : u.Contains p b)
    (hreturns : a.returns = b.returns) (h : SameArguments p t a u b) (r : Random) :
    ∃ rebuilt v, (c.rebuild p u b t a).run r = .ok (.ok rebuilt, r) ∧
      t.duplicate.replaceSubtree a rebuilt = .ok v ∧ Regroups p t a u b v := by
  obtain ⟨rebuilt, cs, hrun, hproper, hcs, hnode, hordered, hnodes⟩ :=
    rebuild_run hp c hu hb ht h.symm r
  rw [← hreturns] at hproper
  obtain ⟨v, hv⟩ := ht.duplicate.exists_replaceSubtree ha hproper.sound
  have hexchange := ht.duplicate.exchange ha hproper hv
  obtain ⟨head, hhead, hcsreturns⟩ := hnode
  refine ⟨rebuilt, v, hrun, hv, hexchange.sound, (hexchange.proper ht.duplicate ha).check,
    head, cs, hhead, hcs, hcsreturns, hordered, ?_⟩
  rw [hexchange.nodes, ht.sound.1.lists.duplicate.nodes_eq, hnodes]

end Crossover

namespace Refill

open GeneticProgramming.Tree

/-- From any stream the arguments of a node are filled with complete trees of their types in turn,
each a copy of the child that it matches, or grown if there is none: of each type as many children
are reused as there are both arguments and children, the first ones in their order, and no child is
reused twice.  So where two nodes whose arguments crossover exchanges take the same types, nothing
is grown, and each child of either one is kept just once. -/
theorem reuses_children (hp : p.IsBuilt) :
    (∀ (g : Generator) w types children r (donor out : Tree), donor.Sound p →
      donor.check p = .ok () → (∀ c ∈ children, donor.Contains p c) → out.Sound p →
      Outcome p g w donor types (matching children types) out r
          ((arguments p g w donor types children out).run r) ∧
        (matching children types).reduceOption.Subperm children ∧
        ∀ a, ofType a (matching children types).reduceOption =
            (ofType a children).take (types.count a) ∧
          (ofType a (matching children types).reduceOption).length =
            min (types.count a) (ofType a children).length) ∧
    ∀ (c : Crossover) t u a b r r', c.kind = .advanced → t.Sound p → t.check p = .ok () →
      u.Sound p → u.check p = .ok () → c.leastSize ≤ t.size → c.leastSize ≤ u.size →
      (c.findPoints p t u).run r = .ok (.ok (a, b), r') → Crossover.SameArguments p t a u b →
      ∃ v w, (c.apply p t u).run r = .ok (.ok (v, w), r') ∧ Crossover.Regroups p t a u b v ∧
        Crossover.Regroups p u b t a w := by
  constructor
  · intro g w types children r donor out hdonor hcheck hchildren hout
    refine ⟨arguments_outcome hp g w hdonor hcheck types hchildren hout r,
      matching_subperm children types, fun a => ?_⟩
    have htake := ofType_reduceOption_matching children types a
    exact ⟨htake, by rw [htake, List.length_take]⟩
  · intro c t u a b r r' hkind ht htcheck hu hucheck htleast huleast hpoints hsame
    obtain ⟨type, ht⟩ := Crossover.exists_proper ht htcheck htleast
    obtain ⟨other, hu⟩ := Crossover.exists_proper hu hucheck huleast
    obtain ⟨ha, hb, hreturns⟩ := Crossover.findPoints_yields c t u r (.ok (a, b)) r' hpoints
    obtain ⟨left, v, hleft, hv, hvregroups⟩ :=
      Crossover.exists_regroups hp c ht ha hu hb hreturns hsame r'
    obtain ⟨right, w, hright, hw, hwregroups⟩ :=
      Crossover.exists_regroups hp c hu hb ht ha hreturns.symm hsame.symm r'
    refine ⟨v, w, ?_, hvregroups, hwregroups⟩
    rw [Crossover.apply_eq, Crossover.checkSize_eq_ok htleast, Crossover.checkSize_eq_ok huleast]
    change (c.findPoints p t u >>= fun ab => c.exchange p t u ab.1 ab.2 : Attempt _).run r = _
    rw [Attempt.run_bind hpoints, Crossover.exchange]
    simp only [hkind]
    rw [Attempt.run_bind hleft, Attempt.run_bind hright, Attempt.run_bind (Attempt.run_lift hv),
      Attempt.run_bind (Attempt.run_lift hw)]
    rfl

/-! ### Arguments in another order -/

open Crossover (refilling)
open Mutation (bit octet choose chosen)

/-- Chooses by its second argument. -/
def between : Operator Unit :=
  ⟨some "between", .compute [.uint8, .bool, .uint8] .uint8 fun (x, c, y, _) => if c then x else y⟩

def orders : Palette Unit :=
  ⟨⟨[.bool, .uint8]⟩,
    [⟨bit, 0, []⟩, ⟨octet, 1, []⟩, ⟨choose, 1, [0, 1, 1]⟩, ⟨between, 1, [1, 0, 1]⟩], [0, 0], none⟩

/-- The listing of `(between 7 false 9)`. -/
def placed : Tree where
  records := [⟨3, 8, ⟨false, false⟩⟩, ⟨1, 8, ⟨true, false⟩⟩, ⟨0, 8, ⟨true, false⟩⟩,
    ⟨1, 8, ⟨true, false⟩⟩]
  values := ⟨[⟨[.word 9, .word 0, .word 7], [], 509⟩], none⟩

theorem isBuilt_orders : orders.IsBuilt := ⟨[bit, octet, choose, between], none, rfl⟩

section

variable {t : Tree}

theorem sound_bit (h : t.Sound orders) (x : Bool) :
    (t.grown ⟨bit, 0, []⟩ 0 (some ⟨.bool, x⟩)).Sound orders := by
  refine h.grown rfl ?_
  exact ⟨rfl, rfl⟩

theorem sound_octet (h : t.Sound orders) (x : UInt8) :
    (t.grown ⟨octet, 1, []⟩ 1 (some ⟨.uint8, x⟩)).Sound orders := by
  refine h.grown rfl ?_
  exact ⟨rfl, rfl⟩

end

theorem sound_chosen : chosen.Sound orders := by
  have hroot : (Tree.empty.grown ⟨choose, 1, [0, 1, 1]⟩ 2 none).Sound orders := by
    refine Sound.empty.grown rfl ?_
    rfl
  exact sound_octet (sound_octet (sound_bit hroot true) 3) 5

theorem sound_placed : placed.Sound orders := by
  have hroot : (Tree.empty.grown ⟨between, 1, [1, 0, 1]⟩ 3 none).Sound orders := by
    refine Sound.empty.grown rfl ?_
    rfl
  exact sound_octet (sound_bit (sound_octet hroot 7) false) 9

/-- The arguments of `chosen`. -/
def parts : List Subtree := [⟨1, 2, 0⟩, ⟨2, 3, 1⟩, ⟨3, 4, 1⟩]

theorem contains_parts : ∀ c ∈ parts, chosen.Contains orders c := by
  intro c hc
  refine ⟨c.start, ?_⟩
  simp only [parts, List.mem_cons, List.not_mem_nil, or_false] at hc
  rcases hc with rfl | rfl | rfl <;> rfl

theorem reuses_children_placed : orders.IsBuilt ∧ chosen.Sound orders ∧
    chosen.check orders = .ok () ∧ (∀ c ∈ parts, chosen.Contains orders c) ∧
    placed.Sound orders ∧ placed.check orders = .ok () ∧
    (∀ r, Outcome orders .full ⟨0, 2⟩ chosen [1, 0, 1, 1]
      [some ⟨2, 3, 1⟩, some ⟨1, 2, 0⟩, some ⟨3, 4, 1⟩, none] placed r
        ((arguments orders .full ⟨0, 2⟩ chosen [1, 0, 1, 1] parts placed).run r)) ∧
    refilling.kind = .advanced ∧ refilling.leastSize ≤ chosen.size ∧
    refilling.leastSize ≤ placed.size ∧
    (refilling.findPoints orders chosen placed).run default =
      .ok (.ok (⟨0, 4, 1⟩, ⟨0, 4, 1⟩), default) ∧
    Crossover.SameArguments orders chosen ⟨0, 4, 1⟩ placed ⟨0, 4, 1⟩ ∧
    ∃ v w, (refilling.apply orders chosen placed).run default = .ok (.ok (v, w), default) ∧
      Crossover.Regroups orders chosen ⟨0, 4, 1⟩ placed ⟨0, 4, 1⟩ v ∧
      Crossover.Regroups orders placed ⟨0, 4, 1⟩ chosen ⟨0, 4, 1⟩ w := by
  have hchosen : chosen.check orders = .ok () := rfl
  have hplaced : placed.check orders = .ok () := rfl
  have hpoints : (refilling.findPoints orders chosen placed).run default =
    .ok (.ok (⟨0, 4, 1⟩, ⟨0, 4, 1⟩), default) := rfl
  have hsame : Crossover.SameArguments orders chosen ⟨0, 4, 1⟩ placed ⟨0, 4, 1⟩ :=
    ⟨⟨2, 8, ⟨false, false⟩⟩, ⟨3, 8, ⟨false, false⟩⟩, rfl, rfl, by decide⟩
  obtain ⟨hfills, hregroups⟩ := reuses_children isBuilt_orders
  refine ⟨isBuilt_orders, sound_chosen, hchosen, contains_parts, sound_placed, hplaced,
    fun r => ?_, rfl, by decide, by decide, hpoints, hsame, ?_⟩
  · exact (hfills .full ⟨0, 2⟩ [1, 0, 1, 1] parts r chosen placed sound_chosen hchosen
      contains_parts sound_placed).1
  · exact hregroups refilling chosen placed ⟨0, 4, 1⟩ ⟨0, 4, 1⟩ default default rfl sound_chosen
      hchosen sound_placed hplaced (by decide) (by decide) hpoints hsame

end Refill

end GeneticProgramming
