import GeneticProgramming.Proofs.Tree.Access
import GeneticProgramming.Proofs.Variation.Growing
import GeneticProgramming.Variation.Crossover

/-!
# Variation keeps types

Variation puts material of some type in the place of a subtree of that type, copied from a parent or
grown: `Tree.Exchanges` says which nodes give way to which.  Such an exchange makes a sound,
well-typed tree of the same type, and so crossover of any kind does: `Crossover.apply_yields`.
-/

namespace GeneticProgramming

variable {C : Type} {p : Palette C}

namespace Tree

variable {t other out u : Tree} {type : TypeId} {s : Subtree}

/-- A sound tree that returns a type. -/
structure Proper (p : Palette C) (type : TypeId) (t : Tree) : Prop where
  sound : t.Sound p
  spells : Spells p [type] t.records

/-- A tree with a node is of a type if it passes the check. -/
theorem exists_proper_of_check (ht : t.Sound p) (hcheck : t.check p = .ok ()) (hsize : 0 < t.size) :
    ∃ type, t.Proper p type := by
  obtain ⟨-, hempty | ⟨type, hspells⟩⟩ := check_eq_ok_iff.1 hcheck
  · exact absurd hempty (List.length_pos_iff.1 hsize)
  · exact ⟨type, ht, hspells⟩

/-- A subtree at an index of a tree. -/
def Contains (p : Palette C) (t : Tree) (s : Subtree) : Prop := ∃ i, t.subtree? p i = some s

theorem contains_of_subtree {i : Nat} (h : t.subtree p i = .ok s) : t.Contains p s :=
  ⟨i, eq_of_demand h⟩

theorem contains_of_mem_arguments {i : Nat} {c : Subtree} (hc : c ∈ t.arguments p i) :
    t.Contains p c :=
  ⟨c.start, subtree?_of_mem_siblings hc⟩

theorem Contains.size_pos (h : t.Contains p s) : 0 < t.size := by
  obtain ⟨i, hi⟩ := h
  exact Nat.zero_lt_of_lt (subtree?_lt_size hi)

/-- Some types are spelled out behind a tree. -/
abbrev AppendsTypes (p : Palette C) (types : List TypeId) (t u : Tree) : Prop :=
  t.Appends p (Spells p types) u

theorem AppendsTypes.cons {types : List TypeId} (h : t.AppendsTypes p [type] u)
    (h' : u.AppendsTypes p types out) : t.AppendsTypes p (type :: types) out :=
  h.trans h' fun _ _ hrs hss => hrs.append hss

theorem AppendsTypes.proper (h : Tree.empty.AppendsTypes p [type] u) : u.Proper p type := by
  obtain ⟨hsound, rs, hrs, hspells⟩ := h
  have hrecords : u.records = rs := hrs
  exact ⟨hsound, hrecords ▸ hspells⟩

/-- A node above arguments of its types is a tree. -/
theorem AppendsTypes.node {e : Entry C} {r : Record} (he : p.entry? r.operator = some e)
    (h : t.Appends p (· = [r]) u) (h' : u.AppendsTypes p e.arguments out) :
    t.AppendsTypes p [e.returns] out :=
  h.trans h' fun rs ss hrs hss => hrs ▸ .cons he (by rwa [List.append_nil])

/-- A subtree without arguments is one record. -/
theorem stop_of_arityAt {i : Nat} (hs : t.subtree? p i = some s) (harity : t.arityAt p i = 0) :
    s.stop = i + 1 := by
  obtain ⟨r, e, hr, -, rfl⟩ := subtree?_eq_some hs
  rw [arityAt, hr] at harity
  have hzero : p.arity r.operator = 0 := harity
  obtain ⟨hlt, hget⟩ := List.getElem?_eq_some_iff.1 hr
  rw [endpoint, List.drop_eq_getElem_cons hlt, hget, span, hzero, span_zero]

theorem Appends.node_of_push {id : OperatorId} {e : Entry C} (he : p.entry? id = some e)
    (h : t.Appends p (IsRecordOf p id) u) (h' : u.AppendsTypes p e.arguments out) :
    t.AppendsTypes p [e.returns] out := by
  refine AppendsTypes.node (r := recordOf e id) he (h.mono fun rs hrs => ?_) h'
  obtain ⟨d, hd, hrs⟩ := hrs
  rw [he] at hd
  injection hd with hd
  rw [hrs, hd]

theorem records_of_splice {start stop : Nat} {records : List Record} {cells : List Cell}
    (h : t.splice start stop records cells = .ok u) :
    u.records = t.records.take start ++ records ++ t.records.drop stop := by
  obtain ⟨_, -, h⟩ := exists_of_bind_eq_ok h
  obtain ⟨values, -, h⟩ := exists_of_bind_eq_ok h
  injection h with h
  rw [← h]

theorem copySubtree_appends (h : t.Proper p type) (hs : t.Contains p s) (hout : out.Sound p)
    (hu : t.copySubtree s out = .ok u) : out.AppendsTypes p [s.returns] u := by
  refine ⟨h.sound.copySubtree hout hu, t.recordsIn s.start s.stop, ?_, ?_⟩
  · obtain ⟨cells, -, hu⟩ := exists_of_bind_eq_ok hu
    injection hu with hu
    rw [← hu]
  · obtain ⟨i, hi⟩ := hs
    exact (spells_of_subtree? h.spells hi).2.2.1

namespace Proper

/-- A subtree has a node, and lies within the tree. -/
theorem bounds (h : t.Proper p type) (hs : t.Contains p s) :
    s.start < s.stop ∧ s.stop ≤ t.size := by
  obtain ⟨i, hi⟩ := hs
  obtain ⟨hlt, hstop, -⟩ := spells_of_subtree? h.spells hi
  exact ⟨hlt, hstop⟩

theorem length_slice (h : t.Proper p type) (hs : t.Contains p s) :
    (slice t.nodes s.start s.stop).length = s.length := by
  obtain ⟨hlt, hstop⟩ := h.bounds hs
  rw [h.sound.1.lists.size_eq] at hstop
  rw [List.length_drop, List.length_take_of_le hstop, Subtree.length]

end Proper

/-! ### Exchanges -/

/-- A sound tree in which other nodes have the place of a subtree, and return what it returned. -/
structure Exchanges (p : Palette C) (t : Tree) (s : Subtree) (ms : List Node) (u : Tree) :
    Prop where
  sound : u.Sound p
  nodes : u.nodes = t.nodes.take s.start ++ ms ++ t.nodes.drop s.stop
  spells : Spells p [s.returns] (ms.map Node.record)

namespace Exchanges

variable {ms : List Node} (h : t.Exchanges p s ms u)
include h

theorem length_pos : 0 < ms.length :=
  List.length_pos_iff.2 fun hnone => h.spells.ne_nil (by rw [hnone, List.map_nil])

variable (ht : t.Proper p type)
include ht

theorem records :
    u.records = t.records.take s.start ++ ms.map Node.record ++ t.records.drop s.stop := by
  rw [h.sound.1.lists.records, h.nodes, ht.sound.1.lists.records, List.map_append,
    List.map_append, List.map_take, List.map_drop]

variable (hs : t.Contains p s)
include hs

theorem proper : u.Proper p type := by
  refine ⟨h.sound, ?_⟩
  obtain ⟨i, hi⟩ := hs
  rw [h.records ht]
  exact (spells_of_subtree? ht.spells hi).2.2.2 _ h.spells

/-- The nodes that were behind the subtree are behind the other nodes. -/
theorem drop_nodes (k : Nat) :
    u.nodes.drop (s.start + ms.length + k) = t.nodes.drop (s.stop + k) := by
  have hlen : (t.nodes.take s.start ++ ms).length = s.start + ms.length := by
    obtain ⟨hlt, hstop⟩ := ht.bounds hs
    rw [ht.sound.1.lists.size_eq] at hstop
    rw [List.length_append, List.length_take]
    omega
  rw [h.nodes, ← List.drop_drop, List.drop_left' hlen, List.drop_drop]

/-- The other nodes are a subtree. -/
theorem endpoint : u.endpoint p s.start = s.start + ms.length := by
  obtain ⟨hlt, hstop⟩ := ht.bounds hs
  have hlen : (t.records.take s.start).length = s.start :=
    List.length_take_of_le (Nat.le_of_lt (Nat.lt_of_lt_of_le hlt hstop))
  have hspan := h.spells.span_eq (t.records.drop s.stop)
  rw [List.length_map] at hspan
  rw [Tree.endpoint, h.records ht, List.append_assoc, List.drop_left' hlen]
  exact congrArg (s.start + ·) hspan

end Exchanges

namespace Proper

theorem duplicate (h : t.Proper p type) : t.duplicate.Proper p type :=
  ⟨h.sound.duplicate, h.spells⟩

theorem check (h : t.Proper p type) : t.check p = .ok () :=
  check_eq_ok_iff.2 ⟨h.sound.1.lists.literalWords_eq, .inr ⟨type, h.spells⟩⟩

theorem isEmpty (h : t.Proper p type) : t.isEmpty = false :=
  List.isEmpty_eq_false_iff.2 h.spells.ne_nil

theorem size_pos (h : t.Proper p type) : 0 < t.size := List.length_pos_iff.2 h.spells.ne_nil

theorem returns_lt (hp : p.IsBuilt) (hs : t.Contains p s) : s.returns < p.types.count := by
  obtain ⟨i, hi⟩ := hs
  obtain ⟨r, e, -, he, rfl⟩ := subtree?_eq_some hi
  exact hp.returns_lt he

theorem extractSubtree (h : t.Proper p type) (hs : t.Contains p s)
    (hu : t.extractSubtree s = .ok u) : u.Proper p s.returns :=
  (copySubtree_appends h hs .empty hu).proper

/-- A subtree is taken out with its nodes. -/
theorem nodes_extractSubtree (h : t.Proper p type) (hs : t.Contains p s)
    (hu : t.extractSubtree s = .ok u) : u.nodes = slice t.nodes s.start s.stop := by
  obtain ⟨hlt, hstop⟩ := h.bounds hs
  obtain ⟨u', hu', hafter⟩ :=
    h.sound.1.lists.exists_copySubtree lists_empty (Nat.le_of_lt hlt) hstop
  rw [Tree.extractSubtree, hu'] at hu
  injection hu with hu
  rw [← hu, hafter.1.nodes_eq, List.nil_append]

/-- A subtree gives way to another tree of its type. -/
theorem exchange (h : t.Proper p type) (hs : t.Contains p s) (ho : other.Proper p s.returns)
    (hu : t.replaceSubtree s other = .ok u) : t.Exchanges p s other.nodes u := by
  obtain ⟨hlt, hstop⟩ := h.bounds hs
  obtain ⟨u', hu', hafter⟩ := h.sound.1.lists.exists_replaceSubtree ho.sound.1.lists
    (Nat.le_of_lt hlt) hstop
  rw [hu] at hu'
  injection hu' with hu'
  subst hu'
  exact ⟨h.sound.replaceByRange ho.sound hu, hafter.1.nodes_eq, ho.sound.1.lists.records ▸ ho.spells⟩

theorem replaceSubtree (h : t.Proper p type) (hs : t.Contains p s) (ho : other.Proper p s.returns)
    (hu : t.replaceSubtree s other = .ok u) : u.Proper p type :=
  (h.exchange hs ho hu).proper h hs

theorem swapSubtrees {otherType : TypeId} {a b : Subtree} {uv : Tree × Tree}
    (h : t.Proper p type) (ha : t.Contains p a) (ho : other.Proper p otherType)
    (hb : other.Contains p b) (hab : a.returns = b.returns)
    (hu : t.swapSubtrees a other b = .ok uv) : uv.1.Proper p type ∧ uv.2.Proper p otherType := by
  obtain ⟨hleft, hright⟩ := h.sound.swapSubtrees ho.sound hu
  obtain ⟨i, hi⟩ := ha
  obtain ⟨j, hj⟩ := hb
  obtain ⟨-, -, hhere, hput⟩ := spells_of_subtree? h.spells hi
  obtain ⟨-, -, hthere, hput'⟩ := spells_of_subtree? ho.spells hj
  obtain ⟨here, -, hu⟩ := exists_of_bind_eq_ok hu
  obtain ⟨there, -, hu⟩ := exists_of_bind_eq_ok hu
  obtain ⟨left, hl, hu⟩ := exists_of_bind_eq_ok hu
  obtain ⟨right, hr, hu⟩ := exists_of_bind_eq_ok hu
  injection hu with hu
  subst hu
  refine ⟨⟨hleft, ?_⟩, hright, ?_⟩
  · rw [records_of_splice hl]
    exact hput _ (hab ▸ hthere)
  · rw [records_of_splice hr]
    exact hput' _ (hab ▸ hhere)

/-- Another operator of the same types may be put in the place of a node without arguments. -/
theorem modify {id : OperatorId} {e : Entry C} (h : t.Proper p type) (hs : t.Contains p s)
    (harity : t.arityAt p s.start = 0) (he : p.entry? id = some e)
    (hreturns : e.returns = s.returns) (harguments : e.arguments = []) :
    Yields (t.modify p s.start id) fun u =>
      ∃ n : Node, n.record = recordOf e id ∧ t.Exchanges p s [n] u := by
  obtain ⟨i, hi⟩ := hs
  have hstop : s.stop = s.start + 1 := by
    rw [subtree?_start hi] at harity ⊢
    exact stop_of_arityAt hi harity
  have hone : Spells p [s.returns] [recordOf e id] := by
    rw [← hreturns]
    exact .cons he (by rw [harguments]; exact .nil)
  have hnodes : Yields (t.modify p s.start id) fun u => ∃ n : Node, n.record = recordOf e id ∧
      u.nodes = t.nodes.take s.start ++ [n] ++ t.nodes.drop s.stop := by
    refine Yields.bind (Yields.lift fun d hd => eq_of_demand hd) fun d hd => ?_
    rw [he] at hd
    injection hd with hd
    subst hd
    refine Yields.bind (Palette.produce_yields he) fun v hv => Yields.lift fun u hu => ?_
    obtain ⟨out, hout, hafter⟩ := (h.sound.1.lists.modify_agree hv id s.start).of_ok hu
    exact ⟨_, rfl, hafter.1.nodes_eq.trans (hstop ▸ eq_of_replaceRange hout)⟩
  refine (Yields.and (h.sound.modify s.start id) hnodes).mono fun u hu => ?_
  obtain ⟨hsound, n, hrecord, hu⟩ := hu
  exact ⟨n, hrecord, hsound, hu, by rwa [List.map_singleton, hrecord]⟩

end Proper

end Tree

/-! ## Refilling arguments -/

theorem Generator.extend_appends (hp : p.IsBuilt) (g : Generator) (w : DepthWindow)
    {type : TypeId} (htype : type < p.types.count) {t : Tree} (ht : t.Sound p) :
    Attempt.Yields (g.extend p w type t) (t.AppendsTypes p [type]) fun _ => False :=
  (extend_yields hp g w htype ht).mono (fun _ hu => hu.mono fun _ hrs => hrs.spells)
    fun _ h => h

namespace Refill

open GeneticProgramming.Tree

theorem takeFirst_eq_some {type : TypeId} {children rest : List Subtree} {c : Subtree}
    (h : takeFirst type children = some (c, rest)) :
    c ∈ children ∧ c.returns = type ∧ ∀ x ∈ rest, x ∈ children := by
  induction children generalizing c rest with
  | nil => contradiction
  | cons first children ih =>
    unfold takeFirst at h
    split at h
    · next hreturns =>
      injection h with h
      injection h with hc hrest
      subst hc hrest
      exact ⟨List.mem_cons_self, hreturns, fun x hx => List.mem_cons_of_mem _ hx⟩
    · obtain ⟨⟨found, others⟩, hfound, h⟩ := Option.map_eq_some_iff.1 h
      injection h with hc hrest
      subst hc hrest
      obtain ⟨hmem, hreturns, hothers⟩ := ih hfound
      refine ⟨List.mem_cons_of_mem _ hmem, hreturns, fun x hx => ?_⟩
      rcases List.mem_cons.1 hx with rfl | hx
      · exact List.mem_cons_self
      · exact List.mem_cons_of_mem _ (hothers x hx)

variable {donor out : Tree} {type : TypeId}

theorem arguments_yields (hp : p.IsBuilt) (g : Generator) (w : DepthWindow)
    (hdonor : donor.Proper p type) {types : List TypeId} (htypes : ∀ a ∈ types, a < p.types.count)
    {children : List Subtree} (hchildren : ∀ c ∈ children, donor.Contains p c)
    (hout : out.Sound p) :
    Attempt.Yields (arguments p g w donor types children out) (out.AppendsTypes p types)
      fun _ => False := by
  induction types generalizing children out with
  | nil => exact Attempt.Yields.pure (.refl hout .nil)
  | cons a types ih =>
    obtain ⟨ha, hrest'⟩ := List.forall_mem_cons.1 htypes
    unfold arguments
    split
    · next child rest hfirst =>
      obtain ⟨hmem, rfl, hrest⟩ := takeFirst_eq_some hfirst
      refine Attempt.Yields.bind (Attempt.Yields.lift fun u hu =>
        copySubtree_appends hdonor (hchildren child hmem) hout hu) fun u hu => ?_
      exact (ih hrest' (fun c hc => hchildren c (hrest c hc)) hu.1).mono
        (fun v hv => hu.cons hv) fun _ h => h
    · refine Attempt.Yields.bind (Generator.extend_appends hp g w ha hout) fun u hu => ?_
      exact (ih hrest' hchildren hu.1).mono (fun v hv => hu.cons hv) fun _ h => h

theorem arityAt_of_isLiteral (hp : p.IsBuilt) {source : Tree} (hsource : source.Proper p type)
    {i : Nat} {r : Record} (hr : source.records[i]? = some r) (hliteral : r.isLiteral = true) :
    source.arityAt p i = 0 := by
  obtain ⟨e, he, hrecord⟩ := hsource.sound.1.entry (List.mem_of_getElem? hr)
  rw [hrecord] at hliteral
  have hnone : e.operator.arguments = [] := Operator.arguments_of_isLiteral hliteral
  have hlen := hp.length_arguments he
  rw [arityAt, hr, Option.map_some, Option.getD_some, Palette.arity_eq he, hlen, hnone]
  rfl

/-- The node at an index goes on a tree as a node of the same operator. -/
theorem head_yields (hp : p.IsBuilt) {source : Tree} (hsource : source.Proper p type) {i : Nat}
    (hout : out.Sound p) : Yields (head p source i out) fun u => ∃ r r',
      source.records[i]? = some r ∧ r'.operator = r.operator ∧ out.Appends p (· = [r']) u := by
  refine Yields.bind (Yields.lift fun r hr => eq_of_demand hr) fun r hr => ?_
  refine Yields.ite (fun hliteral => ?_) fun _ => ?_
  · refine Yields.bind (Yields.lift fun s hs => eq_of_demand hs) fun s hs => ?_
    refine Yields.lift fun u hu => ⟨r, r, hr, rfl, hsource.sound.copySubtree hout hu, [r], ?_, rfl⟩
    have hstop := stop_of_arityAt hs (arityAt_of_isLiteral hp hsource hr hliteral)
    obtain ⟨cells, -, hu⟩ := exists_of_bind_eq_ok hu
    injection hu with hu
    obtain ⟨hlt, hget⟩ := List.getElem?_eq_some_iff.1 hr
    rw [← hu, recordsIn, subtree?_start hs, hstop, List.take_add_one, hr]
    simp [List.drop_left' (List.length_take_of_le (Nat.le_of_lt hlt))]
  · refine Yields.mono (push_yields hout r.operator) fun u hu => ?_
    obtain ⟨hsound, rs, hrs, e, -, rfl⟩ := hu
    exact ⟨r, recordOf e r.operator, hr, rfl, hsound, _, hrs, rfl⟩

end Refill

/-! ## Crossover -/

namespace Crossover

open GeneticProgramming.Tree

variable {t u : Tree} {type other : TypeId} {a b : Subtree}

theorem returns_eq_of_compatible {c : Crossover} (h : c.compatible p t a u b = true) :
    a.returns = b.returns := by
  rw [compatible, Bool.and_eq_true, decide_eq_true_eq] at h
  exact h.1

theorem findPartner_yields (c : Crossover) (a : Subtree) (tries : Nat) :
    Attempt.Yields (c.findPartner p t a u tries) fun b =>
      u.Contains p b ∧ a.returns = b.returns := by
  induction tries with
  | zero => exact Attempt.Yields.throw trivial
  | succ tries ih =>
    refine Attempt.Yields.bind (Attempt.Yields.draw (Yields.trivial _)) fun i _ => ?_
    refine Attempt.Yields.bind (Attempt.Yields.lift fun b hb => contains_of_subtree hb)
      fun b hb => ?_
    exact Attempt.Yields.ite (fun hcompatible =>
      Attempt.Yields.pure ⟨hb, returns_eq_of_compatible hcompatible⟩) fun _ => ih

theorem findPoints_yields (c : Crossover) (t u : Tree) :
    Attempt.Yields (c.findPoints p t u) fun ab =>
      t.Contains p ab.1 ∧ u.Contains p ab.2 ∧ ab.1.returns = ab.2.returns := by
  refine Attempt.Yields.bind (Attempt.Yields.draw (Yields.trivial _)) fun i _ => ?_
  refine Attempt.Yields.bind (Attempt.Yields.lift fun a ha => contains_of_subtree ha) fun a ha => ?_
  refine Attempt.Yields.bind (findPartner_yields c a _) fun b hb => ?_
  exact Attempt.Yields.pure ⟨ha, hb.1, hb.2⟩

/-- A node above arguments for it is a tree of the type of the node. -/
theorem rebuild_yields (hp : p.IsBuilt) (c : Crossover) (ht : t.Proper p type)
    (ha : t.Contains p a) (hu : u.Proper p other) :
    Attempt.Yields (c.rebuild p t a u b) (Proper p a.returns) fun _ => False := by
  have hhead := Refill.head_yields hp ht (i := a.start) .empty
  refine Attempt.Yields.bind (Attempt.Yields.draw hhead) fun out hout => ?_
  obtain ⟨r, r', hr, hoperator, hout⟩ := hout
  refine Attempt.Yields.bind (Attempt.Yields.lift fun q hq => eq_of_demand hq) fun q hq => ?_
  rw [hr] at hq
  injection hq with hq
  subst hq
  refine Attempt.Yields.bind (P := fun children => ∀ c ∈ children, u.Contains p c)
    (Attempt.Yields.lift fun children hchildren c hc =>
      ⟨c.start, subtree?_of_mem_children hchildren hc⟩) fun children hchildren => ?_
  obtain ⟨i, hi⟩ := ha
  obtain ⟨q, e, hq, he, rfl⟩ := subtree?_eq_some hi
  rw [hr] at hq
  injection hq with hq
  subst hq
  rw [Palette.argumentTypes_eq he]
  refine (Refill.arguments_yields hp _ _ hu (hp.arguments_lt he) hchildren hout.1).mono
    (fun v hv => ?_) fun _ h => h
  have hnode := AppendsTypes.node (by rwa [hoperator]) hout hv
  exact hnode.proper

/-- The children that two matching points make. -/
def exchange (p : Palette C) (c : Crossover) (t u : Tree) (a b : Subtree) :
    Attempt (Tree × Tree) :=
  match c.kind with
  | .advanced => do
    let left ← c.rebuild p u b t a
    let right ← c.rebuild p t a u b
    return (← t.duplicate.replaceSubtree a left, ← u.duplicate.replaceSubtree b right)
  | _ => t.duplicate.swapSubtrees a u.duplicate b

theorem apply_eq (p : Palette C) (c : Crossover) (t u : Tree) : c.apply p t u = (do
    c.checkSize t
    c.checkSize u
    let (a, b) ← c.findPoints p t u
    c.exchange p t u a b) :=
  rfl

/-- The exchange of points of one type ends in no error. -/
theorem exchange_yields (hp : p.IsBuilt) (c : Crossover) (ht : t.Proper p type)
    (hu : u.Proper p other) (ha : t.Contains p a) (hb : u.Contains p b)
    (hreturns : a.returns = b.returns) :
    Attempt.Yields (c.exchange p t u a b)
      (fun out => out.1.Proper p type ∧ out.2.Proper p other) fun _ => False := by
  unfold exchange
  split
  · refine Attempt.Yields.bind (rebuild_yields hp c hu hb ht) fun left hleft => ?_
    refine Attempt.Yields.bind (rebuild_yields hp c ht ha hu) fun right hright => ?_
    rw [← hreturns] at hleft
    rw [hreturns] at hright
    refine Attempt.Yields.bind (Attempt.Yields.lift fun v hv =>
      ht.duplicate.replaceSubtree ha hleft hv) fun v hv => ?_
    refine Attempt.Yields.bind (Attempt.Yields.lift fun w hw =>
      hu.duplicate.replaceSubtree hb hright hw) fun w hw => ?_
    exact Attempt.Yields.pure ⟨hv, hw⟩
  · exact Attempt.Yields.lift fun out hout =>
      ht.duplicate.swapSubtrees ha hu.duplicate hb hreturns hout

theorem apply_yields (hp : p.IsBuilt) (c : Crossover) (ht : t.Proper p type)
    (hu : u.Proper p other) :
    Attempt.Yields (c.apply p t u) fun out => out.1.Proper p type ∧ out.2.Proper p other := by
  rw [apply_eq]
  refine Attempt.Yields.bind (Attempt.Yields.except (fun _ _ => trivial) fun _ _ => trivial)
    fun _ _ => ?_
  refine Attempt.Yields.bind (Attempt.Yields.except (fun _ _ => trivial) fun _ _ => trivial)
    fun _ _ => ?_
  refine Attempt.Yields.bind (findPoints_yields c t u) fun ab hab => ?_
  obtain ⟨ha, hb, hreturns⟩ := hab
  exact (exchange_yields hp c ht hu ha hb hreturns).mono (fun _ h => h) fun _ _ => trivial

end Crossover

end GeneticProgramming
