import GeneticProgramming.Proofs.Tree.Made
import GeneticProgramming.Proofs.Variation.Edits

/-!
# What a scan visits

`Mutation.history` is an advanced mutation that keeps the rounds of its scan.  The nodes ahead of a
scan are always the last nodes of the tree at its start, so each round is about one node of that
tree, at `Round.place`.  A round goes on behind the node or behind its edit, and passes the nodes
between; the main statement, `Mutation.history_visits`, says that each node is drawn once or passed.

Not all that is passed has been replaced.  An edit that finds nothing to do passes the subtree that
it leaves alone, and a scan never goes back to an index where it has been: if a jump leaves fewer
nodes than lay before the one that is drawn, those that followed the ancestor are skipped.
-/

namespace GeneticProgramming

variable {C : Type} {p : Palette C}

namespace Mutation

open GeneticProgramming.Tree

/-! ## Rounds -/

/-- One draw of a scan. -/
structure Round where
  tree : Tree
  /-- The node that is put to the draw. -/
  node : Nat
  /-- The edit of the node, if it is due for one. -/
  edit : Option MutationEdit
  after : Tree
  /-- Where the scan goes on. -/
  next : Nat
deriving DecidableEq

/-- A scan that keeps its rounds. -/
def rounds (p : Palette C) (m : Mutation) (chance : Double) (weights : Option Weights) :
    Nat → Nat → Tree → Attempt (List Round × Tree)
  | 0, _, t => return ([], t)
  | draws + 1, i, t => do
    if t.size ≤ i then return ([], t)
    if ← Draw.chance chance then
      let kind ← drawEdit weights
      let (u, stop) ← m.edit p t i kind
      let (rs, v) ← rounds p m chance weights draws (max stop (i + 1)) u
      return (⟨t, i, kind, u, max stop (i + 1)⟩ :: rs, v)
    else
      let (rs, v) ← rounds p m chance weights draws (i + 1) t
      return (⟨t, i, none, t, i + 1⟩ :: rs, v)

theorem map_rounds (m : Mutation) (chance : Double) (weights : Option Weights) (draws i : Nat)
    (t : Tree) :
    Prod.snd <$> m.rounds p chance weights draws i t = m.scan p chance weights draws i t := by
  induction draws generalizing i t with
  | zero => rfl
  | succ draws ih =>
    rw [rounds, scan]
    split
    · rfl
    · simp only [map_bind]
      congr 1
      funext due
      cases due with
      | false =>
        simp only [Bool.false_eq_true, if_false, ← ih, map_eq_pure_bind, bind_assoc, pure_bind]
      | true =>
        simp only [if_true, ← ih, map_eq_pure_bind, bind_assoc, pure_bind]

/-- An advanced mutation that keeps the rounds of its scan. -/
def history (p : Palette C) (m : Mutation) (t : Tree) : Attempt (List Round × Tree) := do
  let weights ← Weights.ofList m.chances.weights
  m.rounds p (m.nodeChance t) weights t.size 0 t

theorem map_history (m : Mutation) (t : Tree) :
    Prod.snd <$> m.history p t = m.applyAdvanced p t := by
  rw [history, applyAdvanced, map_bind]
  congr 1
  funext weights
  exact map_rounds m _ weights _ _ t

namespace Round

/-- A round leaves its tree alone and goes on at the next node, or edits it and goes on where the
edit ends, but not before the next index. -/
def Plays (p : Palette C) (r : Round) : Prop :=
  match r.edit with
  | none => r.after = r.tree ∧ r.next = r.node + 1
  | some kind => ∃ s stop, r.tree.subtree? p r.node = some s ∧
      Edits p r.tree s kind (r.after, stop) ∧ r.next = max stop (r.node + 1)

/-- The edit of a round, the subtree that it is about and the region that it finds. -/
structure IsEdit (p : Palette C) (r : Round) (kind : MutationEdit) (s : Subtree)
    (region : Option Subtree) : Prop where
  edit : r.edit = some kind
  subtree : r.tree.subtree? p r.node = some s
  region : region? p r.tree s kind = region

/-- The node so many places behind the one that is drawn lies in the region that is replaced. -/
def Touches (p : Palette C) (r : Round) (d : Nat) : Prop :=
  ∃ kind s region, r.IsEdit p kind s (some region) ∧ r.node + d < region.stop

/-- The node lies in the subtree, which is left alone because there is nothing to replace it by. -/
def Idles (p : Palette C) (r : Round) (d : Nat) : Prop :=
  ∃ kind s, r.IsEdit p kind s none ∧ r.node + d < s.stop

/-- The node follows the ancestor that gives way to the subtree in a jump, and moves to a place no
further than that of the node that is drawn. -/
def Skips (p : Palette C) (r : Round) (d : Nat) : Prop :=
  ∃ s region, r.IsEdit p .jump s (some region) ∧ region.stop ≤ r.node + d ∧
    region.start + s.length + (r.node + d - region.stop) ≤ r.node

/-- The scan goes on behind the node. -/
def Passes (p : Palette C) (r : Round) (d : Nat) : Prop :=
  r.Touches p d ∨ r.Idles p d ∨ r.Skips p d

variable {r : Round} {type : TypeId} {kind : MutationEdit} {s : Subtree}

theorem IsEdit.unique {kind' : MutationEdit} {s' : Subtree} {region region' : Option Subtree}
    (h : r.IsEdit p kind s region) (h' : r.IsEdit p kind' s' region') :
    kind' = kind ∧ s' = s ∧ region' = region := by
  obtain ⟨hkind, hs, hregion⟩ := h
  obtain ⟨hkind', hs', hregion'⟩ := h'
  rw [hkind] at hkind'
  injection hkind' with hkind'
  rw [hs] at hs'
  injection hs' with hs'
  subst hkind' hs'
  exact ⟨rfl, rfl, hregion'.symm.trans hregion⟩

theorem passes_of_idle (h : r.IsEdit p kind s none) (d : Nat) :
    r.Passes p d ↔ r.node + d < s.stop := by
  refine ⟨fun hpass => ?_, fun hd => .inr (.inl ⟨kind, s, h, hd⟩)⟩
  rcases hpass with ⟨_, _, _, h', -⟩ | ⟨_, _, h', hd⟩ | ⟨_, _, h', -⟩
  · exact absurd (h.unique h').2.2 nofun
  · exact (h.unique h').2.1 ▸ hd
  · exact absurd (h.unique h').2.2 nofun

theorem passes_of_region {region : Subtree} (h : r.IsEdit p kind s (some region)) (d : Nat) :
    r.Passes p d ↔ r.node + d < region.stop ∨ kind = .jump ∧ region.stop ≤ r.node + d ∧
      region.start + s.length + (r.node + d - region.stop) ≤ r.node := by
  constructor
  · rintro (⟨_, _, _, h', hd⟩ | ⟨_, _, h', -⟩ | ⟨_, _, h', hd⟩)
    · obtain ⟨-, -, hregion⟩ := h.unique h'
      injection hregion with hregion
      exact .inl (hregion ▸ hd)
    · exact absurd (h.unique h').2.2 nofun
    · obtain ⟨hkind, rfl, hregion⟩ := h.unique h'
      injection hregion with hregion
      exact .inr ⟨hkind.symm, hregion ▸ hd⟩
  · rintro (hd | ⟨rfl, hd⟩)
    · exact .inl ⟨kind, s, region, h, hd⟩
    · exact .inr (.inr ⟨s, region, h, hd⟩)

/-- A round goes on so many nodes behind the one that is drawn, and passes those between. -/
structure Strides (p : Palette C) (r : Round) (stride : Nat) : Prop where
  pos : 0 < stride
  ahead : r.after.nodes.drop r.next = r.tree.nodes.drop (r.node + stride)
  passes : ∀ d, 0 < d → (d < stride ↔ r.Passes p d)

theorem strides_of_left (hedit : r.edit = none) (hafter : r.after = r.tree)
    (hnext : r.next = r.node + 1) : r.Strides p 1 := by
  refine ⟨Nat.one_pos, by rw [hafter, hnext], fun d hd => iff_of_false (by omega) ?_⟩
  rintro (⟨_, _, _, h, -⟩ | ⟨_, _, h, -⟩ | ⟨_, _, h, -⟩)
  all_goals exact absurd (hedit.symm.trans h.edit) nofun

variable (ht : r.tree.Proper p type)
include ht

theorem strides_of_idle (h : r.IsEdit p kind s none) (hafter : r.after = r.tree)
    (hnext : r.next = max s.stop (r.node + 1)) : r.Strides p (s.stop - r.node) := by
  obtain ⟨hlt, -⟩ := ht.bounds ⟨_, h.subtree⟩
  rw [subtree?_start h.subtree] at hlt
  refine ⟨by omega, ?_, fun d hd => ?_⟩
  · have hplace : r.node + (s.stop - r.node) = max s.stop (r.node + 1) := by omega
    rw [hafter, hnext, hplace]
  · rw [passes_of_idle h]
    omega

/-- Behind a region the scan goes on further if nodes from there have moved to the drawn node or
before it. -/
theorem strides_of_region {region : Subtree} (h : r.IsEdit p kind s (some region))
    {ms : List Node} (hexchange : r.tree.Exchanges p region ms r.after)
    (hjump : kind = .jump → ms = slice r.tree.nodes s.start s.stop)
    (hnext : r.next = max (region.start + ms.length) (r.node + 1)) :
    r.Strides p (region.stop + (r.node + 1 - (region.start + ms.length)) - r.node) := by
  obtain ⟨hlt, -⟩ := ht.bounds ⟨_, h.subtree⟩
  rw [subtree?_start h.subtree] at hlt
  obtain ⟨hcontains, -, hstart, hend⟩ := region?_encloses h.subtree h.region
  have hpos := hexchange.length_pos
  generalize hmoved : r.node + 1 - (region.start + ms.length) = moved
  refine ⟨by omega, ?_, fun d hd => ?_⟩
  · have hplace : r.node + (region.stop + moved - r.node) = region.stop + moved := by omega
    have hgoes : r.next = region.start + ms.length + moved := by omega
    rw [hgoes, hplace, hexchange.drop_nodes ht hcontains]
  · rw [passes_of_region h]
    by_cases hkind : kind = .jump
    · have hlen : ms.length = s.length := by
        rw [hjump hkind]
        exact ht.length_slice ⟨_, h.subtree⟩
      simp only [hkind, true_and, ← hlen]
      omega
    · have hbegin : region.start = r.node := by
        rw [eq_of_region? hkind h.region, subtree?_start h.subtree]
      simp only [hkind, false_and, or_false]
      omega

theorem Plays.exists_stride (h : r.Plays p) : ∃ stride, r.Strides p stride := by
  unfold Plays at h
  split at h
  case h_1 hedit => exact ⟨1, strides_of_left hedit h.1 h.2⟩
  case h_2 kind hedit =>
    obtain ⟨s, stop, hs, hedits, hnext⟩ := h
    unfold Edits at hedits
    split at hedits
    · next hregion =>
      injection hedits with hafter hstop
      exact ⟨_, strides_of_idle ht ⟨hedit, hs, hregion⟩ hafter (hstop ▸ hnext)⟩
    · next region hregion =>
      obtain ⟨ms, hexchange, hstop, hjump⟩ := hedits
      exact ⟨_, strides_of_region ht ⟨hedit, hs, hregion⟩ hexchange hjump (hstop ▸ hnext)⟩

omit ht

/-- The place that the drawn node had in the tree at the start of the scan, if as many nodes are
behind it now as then. -/
def place (t : Tree) (r : Round) : Nat := t.size - (r.tree.size - r.node)

end Round

/-! ## Accounts -/

/-- Rounds that come upon each node from a place on, or pass it. -/
def Visits (p : Palette C) (t : Tree) : Nat → List Round → Prop
  | k, [] => t.size ≤ k
  | k, r :: rs => k < t.size ∧ r.tree.nodes.drop r.node = t.nodes.drop k ∧
      ∃ stride, r.Strides p stride ∧ Visits p t (k + stride) rs

variable {t u : Tree} {type : TypeId} {i k : Nat} {rs : List Round}

theorem size_sub_eq (h : t.nodes.drop i = u.nodes.drop k) : t.size - i = u.size - k := by
  rw [← length_nodes, ← length_nodes, ← List.length_drop, ← List.length_drop, h]

namespace Visits

/-- After a round the nodes ahead are still the last nodes of the tree at the start. -/
theorem exists_next {r : Round} (ht : r.tree.Proper p type) (hr : r.Plays p)
    (hnode : r.node < r.tree.size) (hahead : r.tree.nodes.drop r.node = t.nodes.drop k) :
    ∃ k', r.after.nodes.drop r.next = t.nodes.drop k' ∧
      r.after.size - r.next < r.tree.size - r.node ∧
        ∀ rs, Visits p t k' rs → Visits p t k (r :: rs) := by
  obtain ⟨stride, hstride⟩ := hr.exists_stride ht
  have hsize := size_sub_eq hahead
  have hnext := size_sub_eq hstride.ahead
  have hpos := hstride.pos
  refine ⟨k + stride, ?_, by omega, fun rs hrs => ⟨by omega, hahead, stride, hstride, hrs⟩⟩
  rw [hstride.ahead, ← List.drop_drop, hahead, List.drop_drop]

theorem place_head {r : Round} (h : Visits p t k (r :: rs)) : r.place t = k := by
  obtain ⟨hk, hahead, -⟩ := h
  rw [Round.place, size_sub_eq hahead]
  omega

theorem mem (h : Visits p t k rs) {r : Round} (hr : r ∈ rs) :
    k ≤ r.place t ∧ r.place t < t.size ∧ r.tree.nodes.drop r.node = t.nodes.drop (r.place t) := by
  induction rs generalizing k with
  | nil => exact absurd hr List.not_mem_nil
  | cons first rs ih =>
    rcases List.mem_cons.1 hr with rfl | hr
    · rw [h.place_head]
      exact ⟨Nat.le_refl k, h.1, h.2.1⟩
    · obtain ⟨-, -, stride, -, hrest⟩ := h
      obtain ⟨hle, hmem⟩ := ih hrest hr
      exact ⟨by omega, hmem⟩

/-- No node is drawn twice. -/
theorem pairwise (h : Visits p t k rs) : (rs.map (Round.place t)).Pairwise (· < ·) := by
  induction rs generalizing k with
  | nil => exact .nil
  | cons r rs ih =>
    have hplace := h.place_head
    obtain ⟨-, -, stride, hstride, hrest⟩ := h
    refine List.Pairwise.cons (fun j hj => ?_) (ih hrest)
    obtain ⟨r', hr', rfl⟩ := List.mem_map.1 hj
    have hle := (hrest.mem hr').1
    have hpos := hstride.pos
    omega

/-- A node is drawn or passed, but not both. -/
theorem drawn_iff (h : Visits p t k rs) {j : Nat} (hj : k ≤ j) (hsize : j < t.size) :
    (∃ r ∈ rs, r.place t = j) ↔
      ¬ ∃ r ∈ rs, ∃ d, 0 < d ∧ r.place t + d = j ∧ r.Passes p d := by
  induction rs generalizing k with
  | nil => exact absurd h (Nat.not_le_of_lt (Nat.lt_of_le_of_lt hj hsize))
  | cons r rs ih =>
    have hplace := h.place_head
    obtain ⟨-, -, stride, ⟨hpos, -, hpasses⟩, hrest⟩ := h
    simp only [List.exists_mem_cons_iff, hplace]
    by_cases hnear : j < k + stride
    · have hlater : ∀ r' ∈ rs, j < r'.place t := fun r' hr' =>
        Nat.lt_of_lt_of_le hnear (hrest.mem hr').1
      have hnot : ¬ ∃ r' ∈ rs, r'.place t = j := fun ⟨r', hr', heq⟩ =>
        absurd (hlater r' hr') (by omega)
      have hnot' : ¬ ∃ r' ∈ rs, ∃ d, 0 < d ∧ r'.place t + d = j ∧ r'.Passes p d :=
        fun ⟨r', hr', d, hd, heq, _⟩ => absurd (hlater r' hr') (by omega)
      simp only [hnot, hnot', or_false]
      constructor
      · rintro rfl ⟨d, hd, heq, -⟩
        omega
      · intro hno
        by_contra hne
        exact hno ⟨j - k, by omega, by omega, (hpasses _ (by omega)).1 (by omega)⟩
    · have hfar : ¬ ∃ d, 0 < d ∧ k + d = j ∧ r.Passes p d := by
        rintro ⟨d, hd, heq, hpass⟩
        have := (hpasses d hd).2 hpass
        omega
      have hne : ¬ k = j := by omega
      simp only [hfar, hne, false_or]
      exact ih hrest (by omega)

end Visits

theorem rounds_visits (hp : p.IsBuilt) (m : Mutation) (chance : Double) (weights : Option Weights)
    {draws : Nat} {s : Tree} (hs : s.Proper p type) (hahead : s.nodes.drop i = t.nodes.drop k)
    (hdraws : s.size - i ≤ draws) :
    Attempt.Yields (m.rounds p chance weights draws i s) (fun out => Visits p t k out.1)
      fun _ => False := by
  have hend : s.size ≤ i → Visits p t k [] := fun hi => by
    have hsize := size_sub_eq hahead
    change t.size ≤ k
    omega
  induction draws generalizing i k s with
  | zero => exact Attempt.Yields.pure (hend (by omega))
  | succ draws ih =>
    refine Attempt.Yields.ite (fun hi => Attempt.Yields.pure (hend hi)) fun hi => ?_
    rw [Nat.not_le] at hi
    -- whatever the round comes to, the scan goes on with fewer nodes ahead
    have hround : ∀ {r : Round}, r.tree = s → r.node = i → r.Plays p → r.after.Proper p type →
        Attempt.Yields (m.rounds p chance weights draws r.next r.after)
          (fun out => Visits p t k (r :: out.1)) fun _ => False := by
      rintro r rfl rfl hr hafter
      obtain ⟨k', hnext, hless, hcons⟩ := Visits.exists_next hs hr hi hahead
      refine (ih hafter hnext (by omega) fun hi => ?_).mono (fun out hout => hcons _ hout)
        fun _ h => h
      have hsize := size_sub_eq hnext
      change t.size ≤ k'
      omega
    refine Attempt.Yields.bind (Attempt.Yields.draw (Yields.trivial _)) fun due _ => ?_
    refine Attempt.Yields.ite (fun _ => ?_) fun _ => ?_
    · refine Attempt.Yields.bind (Attempt.Yields.draw (Yields.trivial _)) fun kind _ => ?_
      refine Attempt.Yields.bind (edit_edits hp m hs i kind) fun out hout => ?_
      obtain ⟨found, hfound, hedits⟩ := hout
      have hplays : (⟨s, i, kind, out.1, max out.2 (i + 1)⟩ : Round).Plays p :=
        ⟨found, out.2, hfound, hedits, rfl⟩
      refine Attempt.Yields.bind (hround rfl rfl hplays (hedits.proper hs hfound)) fun rest hrest =>
        ?_
      exact Attempt.Yields.pure hrest
    · have hplays : (⟨s, i, none, s, i + 1⟩ : Round).Plays p := ⟨rfl, rfl⟩
      refine Attempt.Yields.bind (hround rfl rfl hplays hs) fun rest hrest => ?_
      exact Attempt.Yields.pure hrest

/-- Each node of a tree is put to just one draw of a scan, or to none if a round passes it: the
edit of the round replaces what the node is in, or finds nothing to replace it by, or it is a jump
that leaves so few nodes that the nodes behind them come to lie where the scan has been. -/
theorem history_visits (hp : p.IsBuilt) (m : Mutation) (ht : t.Made p)
    (hcheck : t.check p = .ok ()) :
    Attempt.Yields (m.history p t) (fun out =>
      (∀ r ∈ out.1, r.place t < t.size ∧
        r.tree.nodes.drop r.node = t.nodes.drop (r.place t)) ∧
      (out.1.map (Round.place t)).Pairwise (· < ·) ∧
      ∀ j < t.size, (∃ r ∈ out.1, r.place t = j) ↔
        ¬ ∃ r ∈ out.1, ∃ d, 0 < d ∧ r.place t + d = j ∧ r.Passes p d) fun _ => False := by
  refine Attempt.Yields.bind (Attempt.Yields.lift fun _ _ => trivial) fun weights _ => ?_
  have hvisits : Attempt.Yields (m.rounds p (m.nodeChance t) weights t.size 0 t)
      (fun out => Visits p t 0 out.1) fun _ => False := by
    obtain ⟨-, hempty | ⟨type, hspells⟩⟩ := check_eq_ok_iff.1 hcheck
    · have hsize : t.size = 0 := by rw [Tree.size, hempty, List.length_nil]
      rw [hsize]
      exact Attempt.Yields.pure (Nat.le_of_eq hsize)
    · have hproper : t.Proper p type := ⟨ht.sound, hspells⟩
      exact rounds_visits hp m _ weights hproper rfl (Nat.sub_le _ _)
  refine hvisits.mono (fun out h => ⟨fun r hr => (h.mem hr).2, h.pairwise, fun j hj => ?_⟩)
    fun _ h => h
  exact h.drawn_iff (Nat.zero_le j) hj

/-! ### A literal that is skipped -/

def plus : Operator Unit :=
  ⟨some "add", .compute [.uint8, .uint8] .uint8 fun (x, y, _) => x + y⟩

def minus : Operator Unit := ⟨some "neg", .compute [.uint8] .uint8 fun (x, _) => 0 - x⟩

def unknown : Operator Unit := ⟨some "x", .compute [] .uint8 fun _ => 1⟩

def two : Operator Unit := ⟨none, .literal .uint8 (pure 2)⟩

def arithmetic : Palette Unit :=
  ⟨⟨[.uint8]⟩, [⟨plus, 0, [0, 0]⟩, ⟨minus, 0, [0]⟩, ⟨unknown, 0, []⟩, ⟨two, 0, []⟩], [0], none⟩

/-- The listing of `(add (neg x) 2)`. -/
def negated : Tree where
  records := [⟨0, 8, ⟨false, false⟩⟩, ⟨1, 8, ⟨false, false⟩⟩, ⟨2, 8, ⟨false, false⟩⟩,
    ⟨3, 8, ⟨true, false⟩⟩]
  values := ⟨[⟨[.word 2], [], 511⟩], none⟩

/-- Two jumps are made in a scan on average. -/
def jumps : Mutation where
  kind := .advanced
  replacement := ⟨0, 2⟩
  generator := .full
  points := ⟨.zero, true, .one⟩
  perTreeChance := ⟨0x4000000000000000⟩
  chances := ⟨.zero, .zero, .zero, .one, .zero⟩

/-- The listing of `(add x 2)`. -/
def unwrapped : Tree where
  records := [⟨0, 8, ⟨false, false⟩⟩, ⟨2, 8, ⟨false, false⟩⟩, ⟨3, 8, ⟨true, false⟩⟩]
  values := ⟨[⟨[.word 2], [], 511⟩], none⟩

/-- A scan that jumps from `x` to the place of `(neg x)`. -/
def skipping : List Round :=
  [⟨negated, 0, none, negated, 1⟩, ⟨negated, 1, none, negated, 2⟩,
    ⟨negated, 2, some .jump, unwrapped, 3⟩]

theorem isBuilt_arithmetic : arithmetic.IsBuilt := ⟨[plus, minus, unknown, two], none, rfl⟩

theorem made_negated : negated.Made arithmetic := by
  have hplus : Tree.empty.push arithmetic 0 default =
      .ok (⟨[⟨0, 8, ⟨false, false⟩⟩], .empty⟩, default) := rfl
  have hminus : Tree.push arithmetic ⟨[⟨0, 8, ⟨false, false⟩⟩], .empty⟩ 1 default =
      .ok (⟨[⟨0, 8, ⟨false, false⟩⟩, ⟨1, 8, ⟨false, false⟩⟩], .empty⟩, default) := rfl
  have hunknown : Tree.push arithmetic
      ⟨[⟨0, 8, ⟨false, false⟩⟩, ⟨1, 8, ⟨false, false⟩⟩], .empty⟩ 2 default =
        .ok (⟨[⟨0, 8, ⟨false, false⟩⟩, ⟨1, 8, ⟨false, false⟩⟩, ⟨2, 8, ⟨false, false⟩⟩], .empty⟩,
          default) := rfl
  have htwo : Tree.push arithmetic
      ⟨[⟨0, 8, ⟨false, false⟩⟩, ⟨1, 8, ⟨false, false⟩⟩, ⟨2, 8, ⟨false, false⟩⟩], .empty⟩ 3 default =
        .ok (negated, default) := rfl
  exact .push (.push (.push (.push .empty hplus) hminus) hunknown) htwo

/-- The literal behind `(neg x)` moves to the place of `x` and is never put to a draw, though no
edit has touched it. -/
theorem history_skips :
    (∃ g, (jumps.history arithmetic negated).run (Random.ofSeed 6) =
      .ok (.ok (skipping, unwrapped), g)) ∧
    (∀ r ∈ skipping, r.tree = negated ∧ r.node ≠ 3 ∧
      ∀ kind s region, r.IsEdit arithmetic kind s (some region) → region.stop ≤ 3) ∧
    (∃ r ∈ skipping, r.Skips arithmetic 1) ∧ unwrapped.nodes.drop 2 = negated.nodes.drop 3 := by
  have hjump : (⟨negated, 2, some .jump, unwrapped, 3⟩ : Round).IsEdit arithmetic .jump ⟨2, 3, 0⟩
      (some ⟨1, 3, 0⟩) := ⟨rfl, rfl, rfl⟩
  refine ⟨⟨_, (by decide +kernel : _ = Except.ok (Except.ok (skipping, unwrapped),
    ⟨12902366531655771495, 7679761041370215471, 17265686976041995788, 13623517851725897443⟩))⟩,
      ?_, ?_, rfl⟩
  · intro r hr
    simp only [skipping, List.mem_cons, List.not_mem_nil, or_false] at hr
    rcases hr with rfl | rfl | rfl
    · exact ⟨rfl, by decide, fun _ _ _ h => absurd h.edit nofun⟩
    · exact ⟨rfl, by decide, fun _ _ _ h => absurd h.edit nofun⟩
    · refine ⟨rfl, by decide, fun kind s region h => ?_⟩
      obtain ⟨-, -, hregion⟩ := hjump.unique h
      injection hregion with hregion
      rw [hregion]
  · exact ⟨_, List.mem_of_mem_getLast? rfl, _, _, hjump, by decide, by decide⟩

theorem history_visits_negated : arithmetic.IsBuilt ∧ negated.Made arithmetic ∧
    negated.check arithmetic = .ok () ∧
    Attempt.Yields (jumps.history arithmetic negated) (fun out =>
      (∀ r ∈ out.1, r.place negated < negated.size ∧
        r.tree.nodes.drop r.node = negated.nodes.drop (r.place negated)) ∧
      (out.1.map (Round.place negated)).Pairwise (· < ·) ∧
      ∀ j < negated.size, (∃ r ∈ out.1, r.place negated = j) ↔
        ¬ ∃ r ∈ out.1, ∃ d, 0 < d ∧ r.place negated + d = j ∧ r.Passes arithmetic d)
      fun _ => False :=
  ⟨isBuilt_arithmetic, made_negated, rfl,
    history_visits isBuilt_arithmetic jumps made_negated rfl⟩

end Mutation

end GeneticProgramming
