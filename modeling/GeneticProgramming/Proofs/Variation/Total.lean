import GeneticProgramming.Proofs.Faults
import GeneticProgramming.Proofs.Tree.Made
import GeneticProgramming.Proofs.Variation.Edits

/-!
# Mutation never fails

On a built palette there is always something to grow, to draw from and to edit.  So each step of a
mutation delivers, from any stream: its lemma ends in `faults` and says that no fault but that of a
literal's own draw comes up, while its `yields` lemma says that no error does.  The main statement,
`Mutation.apply_total`, puts both together and says that a mutant is as well-formed as the tree was,
at the end of a mutation and at every edit of its scan.
-/

namespace GeneticProgramming

variable {C : Type} {p : Palette C}

/-- A fault that the draw of a literal ends in, from some stream. -/
def Palette.LiteralFault (p : Palette C) (f : Fault) : Prop := ∃ id g, p.produce id g = .error f

namespace Tree

variable {t out : Tree} {type : TypeId} {s : Subtree} {i : Nat}

theorem push_faults (t : Tree) {id : OperatorId} {e : Entry C} (he : p.entry? id = some e) :
    Draw.FaultsOnly (t.push p id) p.LiteralFault := by
  rw [push_eq, he]
  exact .andThen (.lift rfl) fun _ => .andThen (fun g f hf => ⟨id, g, hf⟩) fun _ => .pure _

namespace Proper

theorem exists_copySubtree (h : t.Proper p type) (hs : t.Contains p s) (hout : out.Sound p) :
    ∃ u, t.copySubtree s out = .ok u := by
  obtain ⟨hlt, hstop⟩ := h.bounds hs
  obtain ⟨u, hu, -⟩ :=
    h.sound.1.lists.exists_copySubtree hout.1.lists (Nat.le_of_lt hlt) hstop
  exact ⟨u, hu⟩

theorem exists_replaceSubtree (h : t.Proper p type) (hs : t.Contains p s) (hout : out.Sound p) :
    ∃ u, t.replaceSubtree s out = .ok u := by
  obtain ⟨hlt, hstop⟩ := h.bounds hs
  obtain ⟨u, hu, -⟩ :=
    h.sound.1.lists.exists_replaceSubtree hout.1.lists (Nat.le_of_lt hlt) hstop
  exact ⟨u, hu⟩

theorem modify_faults (h : t.Proper p type) (hi : i < t.size) {id : OperatorId} {e : Entry C}
    (he : p.entry? id = some e) : Draw.FaultsOnly (t.modify p i id) p.LiteralFault := by
  unfold Tree.modify
  have hentry : demand (p.entry? id) = .ok e := by rw [he, demand_some]
  refine .known hentry ?_
  refine .bind (fun g f hf => ⟨id, g, hf⟩) (Palette.produce_yields he) fun v hv => ?_
  have hlist : i + 1 ≤ t.nodes.length := h.sound.1.lists.size_eq ▸ hi
  obtain ⟨u, hu, -⟩ :=
    (h.sound.1.lists.modify_agree hv id i).exists_ok (replaceRange_eq (Nat.le_succ i) hlist)
  exact .lift hu

end Proper

end Tree

/-! ## Growing -/

namespace Generator

variable {type : TypeId} {depth n : Nat} {w : DepthWindow}

/-- A generator whose chance of a terminal is a number. -/
def Sane : Generator → Prop
  | .grow terminalChance => terminalChance.isNaN = false
  | .full => True

theorem closing_faults (p : Palette C) (type : TypeId) (F : Fault → Prop) :
    Attempt.FaultsOnly (closing p type) F := by
  refine .andThen (.draw (Draw.element_faults _)) fun found => ?_
  cases found with
  | some id => exact .pure id
  | none => exact .throw _

theorem terminal_faults (p : Palette C) (type : TypeId) (F : Fault → Prop) :
    Attempt.FaultsOnly (terminal p type) F := by
  refine .andThen (.draw (Draw.element_faults _)) fun found => ?_
  cases found with
  | some id => exact .pure id
  | none => exact closing_faults p type F

theorem nonTerminal_faults (p : Palette C) (w : DepthWindow) (type : TypeId) (depth : Nat)
    (F : Fault → Prop) : Attempt.FaultsOnly (nonTerminal p w type depth) F := by
  refine .andThen (.draw (Draw.element_faults _)) fun found => ?_
  cases found with
  | some id => exact .pure id
  | none => exact terminal_faults p type F

theorem wantsTerminal_faults {g : Generator} (hg : g.Sane) (w : DepthWindow) (depth : Nat)
    (F : Fault → Prop) : Draw.FaultsOnly (g.wantsTerminal w depth) F := by
  refine .ite (fun _ => .pure true) fun _ => .ite (fun _ => .pure false) fun _ => ?_
  cases g with
  | grow terminalChance => exact Draw.chance_faults hg
  | full => exact .pure false

theorem operator_faults {g : Generator} (hg : g.Sane) (p : Palette C) (w : DepthWindow)
    (type : TypeId) (depth : Nat) (F : Fault → Prop) :
    Attempt.FaultsOnly (g.operator p w type depth) F := by
  refine .andThen (.draw (wantsTerminal_faults hg w depth F)) fun wanted => ?_
  exact .ite (fun _ => terminal_faults p type F) fun _ => nonTerminal_faults p w type depth F

theorem appendTree_faults (hp : p.IsBuilt) {g : Generator} (hg : g.Sane) (hmost : w.most ≤ n)
    (levels : Nat) (htype : type < p.types.count) (hground : depth + p.ground type ≤ n) (t : Tree) :
    Attempt.FaultsOnly ((g.appendTree p w levels type depth).kept t) p.LiteralFault := by
  induction levels generalizing type depth t with
  | zero => exact .throw _
  | succ levels ih =>
    rw [kept_appendTree]
    refine .bind (operator_faults hg p w type depth _)
      (operator_yields hp g htype hground hmost) fun id hid => ?_
    obtain ⟨e, he, -, harguments⟩ := hid
    refine .andThen (.draw (Tree.push_faults t he)) fun u => ?_
    rw [Palette.argumentTypes_eq he]
    exact .foldlM e.arguments
      (fun a ha v => ih (hp.arguments_lt he a ha) (harguments a ha) v) u

theorem extend_faults (hp : p.IsBuilt) {g : Generator} (hg : g.Sane) (w : DepthWindow)
    (htype : type < p.types.count) (t : Tree) :
    Attempt.FaultsOnly (g.extend p w type t) p.LiteralFault := by
  have hground : 0 + p.ground type ≤ max w.most (p.ground type) := by omega
  exact appendTree_faults hp hg (Nat.le_max_left _ _) _ htype hground t

end Generator

/-! ## Points -/

namespace PointSelector

open GeneticProgramming.Tree

variable {t : Tree} {type : TypeId}

/-- A selector whose chances are computed from numbers. -/
structure Sane (s : PointSelector) : Prop where
  terminalChance : s.terminalChance.isNaN = false
  depthMultiplier : s.depthMultiplier.isNaN = false

theorem even_yields (s : PointSelector) (p : Palette C) (t : Tree) :
    Yields (s.even p t) (· < t.size) := by
  refine Yields.bind (Yields.trivial _) fun wanted _ => ?_
  refine Yields.bind (Draw.element_yields _) fun found hfound => ?_
  cases found with
  | some i => exact Yields.pure (List.mem_range.1 (List.mem_filter.1 hfound).1)
  | none => exact Draw.below_yields t.size

theorem mem_arguments {node : Nat} {child : Subtree} (hchild : child ∈ t.arguments p node) :
    child.start < t.size :=
  subtree?_lt_size (subtree?_of_mem_siblings hchild)

theorem walk_yields (s : PointSelector) (ht : t.Proper p type) {rounds node depth : Nat}
    (hnode : node < t.size) : Yields (s.walk p t rounds node depth) (· < t.size) := by
  induction rounds generalizing node depth with
  | zero => exact Yields.pure hnode
  | succ rounds ih =>
    unfold walk
    refine Yields.bind (Yields.ok (children_eq ht.spells hnode)) ?_
    rintro _ rfl
    refine Yields.ite (fun _ => Yields.pure hnode) fun _ => ?_
    refine Yields.bind (Yields.trivial _) fun stops _ => ?_
    refine Yields.ite (fun _ => Yields.pure hnode) fun _ => ?_
    refine Yields.bind (Yields.trivial _) fun place _ => ?_
    refine Yields.bind (Yields.lift fun child hchild => eq_of_demand hchild) fun child hchild => ?_
    exact ih (mem_arguments (List.mem_of_getElem? hchild))

/-- A selector whose chances are computed from numbers, as far as they are looked at. -/
def Usable (s : PointSelector) : Prop :=
  if s.traverse then s.depthMultiplier.isNaN = false else s.terminalChance.isNaN = false

theorem Sane.usable {s : PointSelector} (hs : s.Sane) : s.Usable := by
  unfold Usable
  split
  · exact hs.depthMultiplier
  · exact hs.terminalChance

theorem exitChance_faults {s : PointSelector} (hs : s.depthMultiplier.isNaN = false) {depth : Nat}
    (hdepth : depth + 1 < 2 ^ 64) (F : Fault → Prop) :
    Draw.FaultsOnly (Draw.chance (s.exitChance depth)) F :=
  Draw.chance_faults (Double.isNaN_mul hs (Double.isNormal_ofNat (Nat.succ_pos depth) hdepth))

theorem walk_faults {s : PointSelector} (hs : s.depthMultiplier.isNaN = false) (ht : t.Proper p type)
    {rounds node depth : Nat} (hnode : node < t.size) (hdepth : depth + rounds < 2 ^ 64)
    (F : Fault → Prop) : Draw.FaultsOnly (s.walk p t rounds node depth) F := by
  induction rounds generalizing node depth with
  | zero => exact .pure node
  | succ rounds ih =>
    unfold walk
    have hchildren := children_eq ht.spells hnode
    refine .known hchildren ?_
    refine .ite (fun _ => .pure node) fun hsome => ?_
    refine .andThen (exitChance_faults hs (by omega) F) fun stops => ?_
    refine .ite (fun _ => .pure node) fun _ => ?_
    rw [List.isEmpty_iff] at hsome
    refine .bind (Draw.below_faults (List.length_pos_iff.2 hsome)) (Draw.below_yields _)
      fun place hplace => ?_
    have hchild : demand (t.arguments p node)[place]? = .ok (t.arguments p node)[place] := by
      rw [List.getElem?_eq_getElem hplace, demand_some]
    refine .known hchild ?_
    exact ih (mem_arguments (List.getElem_mem hplace)) (by omega)

theorem select_yields (s : PointSelector) (ht : t.Proper p type) :
    Yields (s.select p t) (· < t.size) := by
  refine Yields.ite (fun _ => Yields.pure ht.size_pos) fun _ => ?_
  exact Yields.ite (fun _ => walk_yields s ht ht.size_pos) fun _ => even_yields s p t

theorem select_faults {s : PointSelector} (hs : s.Usable) (ht : t.Proper p type)
    (hsize : t.size < 2 ^ 64) (F : Fault → Prop) : Draw.FaultsOnly (s.select p t) F := by
  unfold Usable at hs
  refine .ite (fun _ => .pure 0) fun hsome => .ite (fun htraverse => ?_) fun heven => ?_
  · rw [if_pos htraverse] at hs
    exact walk_faults hs ht (by omega) (by omega) F
  · rw [if_neg heven] at hs
    refine .andThen (Draw.chance_faults hs) fun wanted => ?_
    refine .andThen (Draw.element_faults _) fun found => ?_
    cases found with
    | some i => exact .pure i
    | none => exact Draw.below_faults (by omega)

end PointSelector

/-! ## Refilling arguments -/

namespace Refill

open GeneticProgramming.Tree

variable {donor out : Tree} {type : TypeId}

theorem arguments_faults (hp : p.IsBuilt) {g : Generator} (hg : g.Sane) (w : DepthWindow)
    (hdonor : donor.Proper p type) {types : List TypeId} (htypes : ∀ a ∈ types, a < p.types.count)
    {children : List Subtree} (hchildren : ∀ c ∈ children, donor.Contains p c)
    (hout : out.Sound p) :
    Attempt.FaultsOnly (arguments p g w donor types children out) p.LiteralFault := by
  induction types generalizing children out with
  | nil => exact .pure out
  | cons a types ih =>
    obtain ⟨ha, hrest'⟩ := List.forall_mem_cons.1 htypes
    unfold arguments
    split
    · next child rest hfirst =>
      obtain ⟨hmem, rfl, hrest⟩ := takeFirst_eq_some hfirst
      obtain ⟨u, hu⟩ := hdonor.exists_copySubtree (hchildren child hmem) hout
      refine .known hu ?_
      exact ih hrest' (fun c hc => hchildren c (hrest c hc)) (hdonor.sound.copySubtree hout hu)
    · refine .bind (Generator.extend_faults hp hg w ha out)
        (Generator.extend_appends hp g w ha hout) fun u hu => ?_
      exact ih hrest' hchildren hu.1

end Refill

/-! ## Mutation -/

/-- The sum of the weights of the edits. -/
def MutationChances.total (c : MutationChances) : Double :=
  c.expression + c.adjust + c.sub + c.jump + c.copy

namespace Mutation

open GeneticProgramming.Tree

variable {m : Mutation} {t out : Tree} {type : TypeId} {s : Subtree}

/-- A mutation whose chances are numbers, and whose weights have a finite sum. -/
structure Sane (m : Mutation) : Prop where
  points : m.points.Sane
  generator : m.generator.Sane
  perTreeChance : m.perTreeChance.isNaN = false
  chances : m.chances.total.isFinite = true

variable (hp : p.IsBuilt) (hg : m.generator.Sane)
include hp hg

theorem regrow_faults (hs : t.Contains p s) :
    Attempt.FaultsOnly (m.regrow p s.returns) p.LiteralFault :=
  Generator.extend_faults hp hg _ (Proper.returns_lt hp hs) .empty

omit hp hg in
theorem replaceSubtree_faults (ht : t.Proper p type) (hs : t.Contains p s) (hout : out.Sound p)
    (F : Fault → Prop) : Attempt.FaultsOnly (liftM (t.replaceSubtree s out)) F := by
  obtain ⟨u, hu⟩ := ht.exists_replaceSubtree hs hout
  exact .lift hu

theorem applyPoint_faults (hs : m.points.Usable) (ht : t.Proper p type) (hsize : t.size < 2 ^ 64) :
    Attempt.FaultsOnly (m.applyPoint p t) p.LiteralFault := by
  refine .drawn (PointSelector.select_faults hs ht hsize _)
    (PointSelector.select_yields m.points ht) fun i hi => ?_
  obtain ⟨s, hs⟩ := exists_subtree ht.spells hi
  refine .known hs ?_
  have hcontains := contains_of_subtree hs
  refine .bind (regrow_faults hp hg hcontains) (regrow_yields hp m hcontains) fun other ho => ?_
  exact replaceSubtree_faults ht hcontains ho.sound _

theorem adjust_faults (ht : t.Proper p type) (hs : t.Contains p s) :
    Attempt.FaultsOnly (m.adjust p t s) p.LiteralFault := by
  obtain ⟨hlt, hstop⟩ := ht.bounds hs
  have hi : s.start < t.size := Nat.lt_of_lt_of_le hlt hstop
  refine .ite (fun _ => ?_) fun _ => ?_
  · refine .drawn (Draw.element_faults _) (Draw.element_yields _) fun found hfound => ?_
    cases found with
    | some id =>
      obtain ⟨e, he, -⟩ := Palette.mem_terminals.1 hfound
      exact .draw (ht.modify_faults hi he)
    | none => exact .pure t
  · refine .drawn (Draw.element_faults _) (Draw.element_yields _) fun found hfound => ?_
    cases found with
    | some id =>
      obtain ⟨e, he, -⟩ := Palette.mem_nonTerminals.1 hfound
      refine .drawn (push_faults .empty he) (push_yields .empty id) fun head hhead => ?_
      have hchildren := children_eq ht.spells hi
      refine .known hchildren ?_
      have hcontained : ∀ c ∈ t.arguments p s.start, t.Contains p c :=
        fun _ => contains_of_mem_arguments
      rw [Palette.argumentTypes_eq he]
      refine .bind (Refill.arguments_faults hp hg _ ht (hp.arguments_lt he) hcontained
        hhead.1) (Refill.arguments_yields hp _ _ ht (hp.arguments_lt he) hcontained hhead.1)
        fun rebuilt hrebuilt => ?_
      exact replaceSubtree_faults ht hs hrebuilt.1 _
    | none => exact .pure t

theorem wrap_faults (ht : t.Proper p type) (hs : t.Contains p s) {slot i : Nat}
    {types : List TypeId} (htypes : ∀ a ∈ types, a < p.types.count) (hout : out.Sound p) :
    Attempt.FaultsOnly (m.wrap p t s slot i types out) p.LiteralFault := by
  induction types generalizing i out with
  | nil => exact .pure out
  | cons a types ih =>
    obtain ⟨ha, hrest⟩ := List.forall_mem_cons.1 htypes
    unfold wrap
    refine .ite (fun _ => ?_) fun _ => ?_
    · obtain ⟨u, hu⟩ := ht.exists_copySubtree hs hout
      refine .known hu ?_
      exact ih hrest (ht.sound.copySubtree hout hu)
    · refine .bind (Generator.extend_faults hp hg _ ha out)
        (Generator.extend_appends hp _ _ ha hout) fun u hu => ?_
      exact ih hrest hu.1

theorem sub_faults (ht : t.Proper p type) (hs : t.Contains p s) :
    Attempt.FaultsOnly (m.sub p t s) p.LiteralFault := by
  refine .drawn (Draw.element_faults _) (Draw.element_yields _) fun found hfound => ?_
  cases found with
  | none => exact .pure t
  | some id =>
    obtain ⟨hid, htakes⟩ := List.mem_filter.1 hfound
    obtain ⟨e, he, -⟩ := Palette.mem_nonTerminals.1 hid
    dsimp only
    rw [Palette.argumentTypes_eq he] at htakes ⊢
    refine .drawn (Draw.element_faults _) (slot_yields htakes) fun slot hat => ?_
    refine .drawn (push_faults .empty he) (push_yields .empty id) fun head hhead => ?_
    refine .bind (wrap_faults hp hg ht hs (hp.arguments_lt he) hhead.1)
      (wrap_yields hp m ht hs (hp.arguments_lt he) (eq_of_slot hat) hhead.1)
      fun wrapped hwrapped => ?_
    exact replaceSubtree_faults ht hs hwrapped.1 _

omit hp hg

theorem exists_jump (ht : t.Proper p type) (hs : t.Contains p s) :
    ∃ out, jump p t s = .ok out := by
  unfold jump
  cases htarget : ancestor? p t s.returns t.size s.start with
  | none => exact ⟨_, rfl⟩
  | some target =>
    obtain ⟨extracted, hextracted⟩ := ht.exists_copySubtree hs .empty
    have hproper := ht.extractSubtree hs hextracted
    obtain ⟨u, hu⟩ := ht.exists_replaceSubtree (ancestor?_encloses htarget).1 hproper.sound
    refine ⟨(u, u.endpoint p target.start), ?_⟩
    simp only [extractSubtree, hextracted, hu, bind, Except.bind, pure, Except.pure]

theorem copy_faults (ht : t.Proper p type) (hs : t.Contains p s) (F : Fault → Prop) :
    Draw.FaultsOnly (copy p t s) F := by
  refine .bind (.mapM _ fun i hi => ?_) (Yields.mapM (P := t.Contains p) _ fun i _ =>
    Yields.lift fun s hs => contains_of_subtree hs) fun all hall => ?_
  · obtain ⟨s, hs⟩ := exists_subtree ht.spells (List.mem_range.1 hi)
    exact .lift hs
  · refine .bind (Draw.element_faults _) (Draw.element_yields _) fun found hfound => ?_
    cases found with
    | none => exact .pure t
    | some source =>
      have hsource := hall source (List.mem_filter.1 hfound).1
      obtain ⟨other, hother⟩ := ht.exists_copySubtree hsource .empty
      refine .known hother ?_
      obtain ⟨u, hu⟩ := ht.exists_replaceSubtree hs (ht.extractSubtree hsource hother).sound
      exact .lift hu

include hp hg

theorem edit_faults (ht : t.Proper p type) {i : Nat} (hi : i < t.size) (kind : MutationEdit) :
    Attempt.FaultsOnly (m.edit p t i kind) p.LiteralFault := by
  obtain ⟨s, hsubtree⟩ := exists_subtree ht.spells hi
  have hs := contains_of_subtree hsubtree
  refine .known hsubtree ?_
  cases kind with
  | expression =>
    refine .bind (regrow_faults hp hg hs) (regrow_yields hp m hs) fun other ho => ?_
    exact .andThen (replaceSubtree_faults ht hs ho.sound _) fun u => .pure _
  | adjust => exact .andThen (adjust_faults hp hg ht hs) fun u => .pure _
  | sub => exact .andThen (sub_faults hp hg ht hs) fun u => .pure _
  | jump =>
    obtain ⟨out, hout⟩ := exists_jump ht hs
    exact .lift hout
  | copy => exact .andThen (.draw (copy_faults ht hs _)) fun u => .pure _

omit hp hg in
theorem drawEdit_faults (weights : Option Weights) (F : Fault → Prop) :
    Draw.FaultsOnly (drawEdit weights) F := by
  cases weights with
  | none => exact .pure _
  | some w => exact .andThen w.index_faults fun _ => .pure _

theorem scan_faults {chance : Double} (hchance : chance.isNaN = false) (weights : Option Weights)
    (rounds i : Nat) (ht : t.Proper p type) :
    Attempt.FaultsOnly (m.scan p chance.clampUnit weights rounds i t) p.LiteralFault := by
  induction rounds generalizing i t with
  | zero => exact .pure t
  | succ rounds ih =>
    refine .ite (fun _ => .pure t) fun hi => ?_
    refine .andThen (.draw (Draw.chance_faults hchance)) fun due => ?_
    refine .ite (fun _ => ?_) fun _ => ih _ ht
    refine .andThen (.draw (drawEdit_faults weights _)) fun kind => ?_
    exact .bind (edit_faults hp hg ht (Nat.lt_of_not_le hi) kind) (edit_yields hp m ht i kind)
      fun out hout => ih _ hout

omit hp hg

/-! ## Mutants -/

/-- The tree that an advanced mutation has made after so many draws, or when its scan has ended. -/
def advance (p : Palette C) (m : Mutation) (draws : Nat) (t : Tree) : Attempt Tree := do
  let weights ← Weights.ofList m.chances.weights
  m.scan p (m.nodeChance t) weights draws 0 t

/-- The weights of a sane mutation can be drawn from, or nothing is drawn from them. -/
theorem exists_weights (hm : m.Sane) : ∃ w, Weights.ofList m.chances.weights = .ok w :=
  Weights.exists_ofList fun _ => hm.chances

/-- A scan has ended after as many draws as the tree has nodes. -/
theorem applyAdvanced_eq (p : Palette C) (m : Mutation) (t : Tree) :
    m.applyAdvanced p t = m.advance p t.size t := rfl

theorem advance_of_isEmpty (hm : m.Sane) (hempty : t.isEmpty = true) (draws : Nat) :
    m.advance p draws t = pure t := by
  obtain ⟨weights, hweights⟩ := exists_weights hm
  rw [Tree.isEmpty, List.isEmpty_iff] at hempty
  unfold advance
  rw [hweights]
  cases draws with
  | zero => rfl
  | succ draws =>
    have hsize : t.size ≤ 0 := by simp [Tree.size, hempty]
    change (if t.size ≤ 0 then _ else _) = _
    rw [if_pos hsize]

theorem advance_yields (hp : p.IsBuilt) (m : Mutation) (ht : t.Proper p type) (draws : Nat) :
    Attempt.Yields (m.advance p draws t) (Proper p type) fun _ => False :=
  Attempt.Yields.bind (Attempt.Yields.lift fun _ _ => trivial) fun weights _ =>
    scan_yields hp m _ weights _ _ ht

/-- A mutation whose scans go by numbers, and by weights of a finite sum unless they are refused. -/
structure CanScan (m : Mutation) : Prop where
  generator : m.generator.Sane
  perTreeChance : m.perTreeChance.isNaN = false
  chances : (∀ w ∈ m.chances.weights, Double.zero.le w = true) → m.chances.total.isFinite = true

theorem Sane.canScan (hm : m.Sane) : m.CanScan := ⟨hm.generator, hm.perTreeChance, fun _ => hm.chances⟩

theorem CanScan.advance_faults (hm : m.CanScan) (hp : p.IsBuilt) (ht : t.Proper p type)
    (hsize : t.size < 2 ^ 64) (draws : Nat) :
    Attempt.FaultsOnly (m.advance p draws t) p.LiteralFault := by
  obtain ⟨weights, hweights⟩ := Weights.exists_ofList hm.chances
  refine .known hweights ?_
  have hchance : (m.perTreeChance / Double.ofNat t.size).isNaN = false :=
    Double.isNaN_div hm.perTreeChance (Double.isNormal_ofNat ht.size_pos hsize)
  exact scan_faults hp hm.generator hchance weights _ _ ht

theorem advance_faults (hp : p.IsBuilt) (hm : m.Sane) (ht : t.Proper p type)
    (hsize : t.size < 2 ^ 64) (draws : Nat) :
    Attempt.FaultsOnly (m.advance p draws t) p.LiteralFault :=
  hm.canScan.advance_faults hp ht hsize draws

/-- A mutation whose chances are numbers, as far as those of its kind are looked at. -/
def Usable (m : Mutation) : Prop :=
  match m.kind with
  | .point => m.generator.Sane ∧ m.points.Usable
  | .advanced => m.CanScan

theorem Sane.usable (hm : m.Sane) : m.Usable := by
  unfold Usable
  cases m.kind with
  | point => exact ⟨hm.generator, hm.points.usable⟩
  | advanced => exact hm.canScan

theorem Usable.apply_faults (hm : m.Usable) (hp : p.IsBuilt) (ht : t.Proper p type)
    (hsize : t.size < 2 ^ 64) : Attempt.FaultsOnly (m.apply p t) p.LiteralFault := by
  unfold Usable at hm
  refine .ite (fun _ => .pure t) fun _ => ?_
  cases hkind : m.kind with
  | point =>
    rw [hkind] at hm
    exact applyPoint_faults hp hm.1 hm.2 ht hsize
  | advanced =>
    rw [hkind] at hm
    exact hm.advance_faults hp ht hsize t.size

theorem apply_faults (hp : p.IsBuilt) (hm : m.Sane) (ht : t.Proper p type)
    (hsize : t.size < 2 ^ 64) : Attempt.FaultsOnly (m.apply p t) p.LiteralFault :=
  hm.usable.apply_faults hp ht hsize

/-- A mutant passes its check and returns what the tree returned; only an empty tree has an empty
one. -/
structure IsMutant (p : Palette C) (t u : Tree) : Prop where
  sound : u.Sound p
  check : u.check p = .ok ()
  rootType? : u.rootType? p = t.rootType? p
  isEmpty : u.isEmpty = t.isEmpty

/-- From any stream a mutant is made, unless the draw of a literal ends in a fault. -/
def Delivers (p : Palette C) (t : Tree) (x : Attempt Tree) : Prop := ∀ g,
  (∃ u g', x.run g = .ok (.ok u, g') ∧ IsMutant p t u) ∨ ∃ f, x.run g = .error f ∧ p.LiteralFault f

theorem isMutant_of_proper {u : Tree} (ht : t.Proper p type) (hu : u.Proper p type) :
    IsMutant p t u where
  sound := hu.sound
  check := hu.check
  rootType? := by rw [rootType?_eq hu.spells, rootType?_eq ht.spells]
  isEmpty := by rw [hu.isEmpty, ht.isEmpty]

theorem Delivers.of_yields {x : Attempt Tree} (ht : t.Proper p type)
    (hx : Attempt.Yields x (Proper p type) fun _ => False)
    (hfaults : Attempt.FaultsOnly x p.LiteralFault) : Delivers p t x := by
  intro g
  refine (hx.cases hfaults g).imp_left ?_
  rintro ⟨u, g', hrun, hu⟩
  exact ⟨u, g', hrun, isMutant_of_proper ht hu⟩

/-- A mutation of a tree of any size that a machine can hold delivers a mutant, and so does the scan
of an advanced mutation that is left after any number of draws.  A stream is read up to
`Draw.attempts`. -/
theorem apply_total (hp : p.IsBuilt) (hm : m.Sane) (ht : t.Made p) (hcheck : t.check p = .ok ())
    (hsize : t.size < 2 ^ 64) :
    Delivers p t (m.apply p t) ∧ ∀ draws, Delivers p t (m.advance p draws t) := by
  obtain ⟨-, hempty | ⟨type, hspells⟩⟩ := check_eq_ok_iff.1 hcheck
  · have hisEmpty : t.isEmpty = true := List.isEmpty_iff.2 hempty
    have hsame : Delivers p t (pure t) := fun g => .inl ⟨t, g, rfl, ht.sound, hcheck, rfl, rfl⟩
    refine ⟨?_, fun draws => ?_⟩
    · rw [apply, if_pos hisEmpty]
      exact hsame
    · rw [advance_of_isEmpty hm hisEmpty]
      exact hsame
  · have hproper : t.Proper p type := ⟨ht.sound, hspells⟩
    exact ⟨.of_yields hproper (apply_yields hp m hproper) (apply_faults hp hm hproper hsize),
      fun draws => .of_yields hproper (advance_yields hp m hproper draws)
        (advance_faults hp hm hproper hsize draws)⟩

/-! ### Bits that choose bytes -/

def bit : Operator Unit := ⟨none, .literal .bool (return (← Draw.word) < 0x8000000000000000)⟩

def octet : Operator Unit := ⟨none, .literal .uint8 (return (← Draw.word).toUInt8)⟩

def choose : Operator Unit :=
  ⟨some "choose", .compute [.bool, .uint8, .uint8] .uint8 fun (c, x, y, _) => if c then x else y⟩

def choices : Palette Unit :=
  ⟨⟨[.bool, .uint8]⟩, [⟨bit, 0, []⟩, ⟨octet, 1, []⟩, ⟨choose, 1, [0, 1, 1]⟩], [0, 0], none⟩

/-- Three of its edits are made in a scan on average. -/
def thrice : Mutation where
  kind := .advanced
  replacement := ⟨0, 2⟩
  generator := .grow ⟨0x3FE0000000000000⟩
  points := ⟨.zero, true, .one⟩
  perTreeChance := ⟨0x4008000000000000⟩
  chances := ⟨.one, .one, .one, .one, .one⟩

/-- The listing of `(choose true 3 5)`. -/
def chosen : Tree where
  records := [⟨2, 8, ⟨false, false⟩⟩, ⟨0, 8, ⟨true, false⟩⟩, ⟨1, 8, ⟨true, false⟩⟩,
    ⟨1, 8, ⟨true, false⟩⟩]
  values := ⟨[⟨[.word 5, .word 3, .word 1], [], 509⟩], none⟩

theorem isBuilt_choices : choices.IsBuilt := ⟨[bit, octet, choose], none, rfl⟩

theorem sane_thrice : thrice.Sane where
  points := ⟨rfl, rfl⟩
  generator := rfl
  perTreeChance := rfl
  chances := by decide +kernel

theorem made_chosen : chosen.Made choices := by
  have hhead : Tree.empty.push choices 2 default =
      .ok (⟨[⟨2, 8, ⟨false, false⟩⟩], .empty⟩, default) := rfl
  have hbit : Tree.pushLiteral choices ⟨[⟨2, 8, ⟨false, false⟩⟩], .empty⟩ 0 ⟨.bool, true⟩ =
      .ok (.ok ⟨[⟨2, 8, ⟨false, false⟩⟩, ⟨0, 8, ⟨true, false⟩⟩],
        ⟨[⟨[.word 1], [], 511⟩], none⟩⟩) := rfl
  have hfirst : Tree.pushLiteral choices ⟨[⟨2, 8, ⟨false, false⟩⟩, ⟨0, 8, ⟨true, false⟩⟩],
      ⟨[⟨[.word 1], [], 511⟩], none⟩⟩ 1 ⟨.uint8, (3 : UInt8)⟩ =
        .ok (.ok ⟨[⟨2, 8, ⟨false, false⟩⟩, ⟨0, 8, ⟨true, false⟩⟩, ⟨1, 8, ⟨true, false⟩⟩],
          ⟨[⟨[.word 3, .word 1], [], 510⟩], none⟩⟩) := rfl
  have hsecond : Tree.pushLiteral choices ⟨[⟨2, 8, ⟨false, false⟩⟩, ⟨0, 8, ⟨true, false⟩⟩,
      ⟨1, 8, ⟨true, false⟩⟩], ⟨[⟨[.word 3, .word 1], [], 510⟩], none⟩⟩ 1
        ⟨.uint8, (5 : UInt8)⟩ = .ok (.ok chosen) := rfl
  exact .pushLiteral (.pushLiteral (.pushLiteral (.push .empty hhead) hbit) hfirst) hsecond

theorem apply_total_thrice : choices.IsBuilt ∧ thrice.Sane ∧ chosen.Made choices ∧
    chosen.check choices = .ok () ∧ chosen.size < 2 ^ 64 ∧
    Delivers choices chosen (thrice.apply choices chosen) ∧
      ∀ draws, Delivers choices chosen (thrice.advance choices draws chosen) :=
  ⟨isBuilt_choices, sane_thrice, made_chosen, rfl, by decide,
    apply_total isBuilt_choices sane_thrice made_chosen rfl (by decide)⟩

end Mutation

end GeneticProgramming
