import GeneticProgramming.Proofs.Tree.Access
import GeneticProgramming.Proofs.Tree.Parents
import GeneticProgramming.Proofs.Tree.Verdict
import Mathlib.Logic.Relation
import Mathlib.Order.Interval.Set.Basic

/-!
# What the walks of a tree agree on

Ends and arguments are found by counting what is owed, parents and depths in one pass with a chain
of open ancestors.  Both are read off from the term that a tree lists: `Term.Lies` says where in its
listing a term within it begins, how deep it lies and below which node.  The main statement is
`Tree.walks_agree`.
-/

namespace GeneticProgramming

open Relation

variable {C : Type} {p : Palette C}

namespace Term

/-! ## Parents and depths -/

mutual

/-- Parent and depth of each node of a term that is listed from an index on. -/
def frames : Option Nat → Nat → Nat → Term → List (Option Nat × Nat)
  | parent, depth, i, .node _ ts => (parent, depth) :: framesAll i (depth + 1) (i + 1) ts

/-- Parent and depth of each node of the terms below a node. -/
def framesAll : Nat → Nat → Nat → List Term → List (Option Nat × Nat)
  | _, _, _, [] => []
  | parent, depth, i, t :: ts =>
    frames (some parent) depth i t ++ framesAll parent depth (i + t.nodes.length) ts

end

variable {u v : Term} {ts us : List Term} {parent : Option Nat} {depth i a : Nat}

theorem length_framesAll : (framesAll a depth i ts).length = (recordsAll ts).length := by
  induction ts using forest_induction generalizing a depth i with
  | nil => rfl
  | cons n us ts ihus ihts =>
    rw [framesAll, frames, recordsAll_cons, List.length_append, List.length_cons, List.length_cons,
      List.length_append, ihus, ihts]
    omega

theorem framesAll_append : framesAll a depth i (ts ++ us) =
    framesAll a depth i ts ++ framesAll a depth (i + (recordsAll ts).length) us := by
  induction ts generalizing i with
  | nil => rfl
  | cons t ts ih =>
    rw [List.cons_append, framesAll, framesAll, ih, List.append_assoc, length_recordsAll_cons,
      Nat.add_assoc]

/-- The depths below a node stay within a bound if so many levels do. -/
theorem forall_mem_framesAll_iff {m : Nat} (h : depth ≤ m) :
    (∀ x ∈ framesAll a (depth + 1) i ts, x.2 ≤ m) ↔ depth + depthAll ts ≤ m := by
  induction ts using forest_induction generalizing a depth i with
  | nil => simpa [framesAll, depthAll] using h
  | cons n us ts ihus ihts =>
    rw [framesAll, frames, List.forall_mem_append, List.forall_mem_cons, ihts h, depthAll,
      Term.depth]
    by_cases hdepth : depth + 1 ≤ m
    · rw [ihus hdepth]
      omega
    · omega

/-! ## Places -/

/-- A term lies within another one: below the node at an index, at a depth, and listed from an index
on. -/
inductive Lies (u : Term) : Option Nat → Nat → Nat → Term → Prop where
  | root : Lies u none 0 0 u
  | argument {parent : Option Nat} {depth i : Nat} {n : Node} {before after : List Term}
      {v : Term} : Lies u parent depth i (.node n (before ++ v :: after)) →
        Lies u (some i) (depth + 1) (i + 1 + (recordsAll before).length) v

/-- The node at an index of a listing belongs to an argument of another one. -/
def IsBelow (u : Term) (c a : Nat) : Prop := ∃ depth v, u.Lies (some a) depth c v

namespace Lies

theorem full (h : u.Lies parent depth i v) (hu : u.IsFull p) : v.IsFull p := by
  induction h with
  | root => exact hu
  | argument _ ih => exact (areFull_append.1 ih.2).2.1

theorem drop (h : u.Lies parent depth i v) :
    ∃ rest, (recordsAll [u]).drop i = recordsAll [v] ++ rest := by
  induction h with
  | root => exact ⟨[], by rw [List.drop_zero, List.append_nil]⟩
  | @argument parent depth i n before after v _ ih =>
    obtain ⟨rest, hrest⟩ := ih
    refine ⟨recordsAll after ++ rest, ?_⟩
    have hafter : recordsAll (v :: after) = recordsAll [v] ++ recordsAll after :=
      recordsAll_append [v] after
    rw [← List.drop_drop, ← List.drop_drop, hrest, recordsAll_cons, recordsAll_nil, List.append_nil,
      recordsAll_append, hafter, List.cons_append, List.drop_succ_cons, List.drop_zero,
      List.append_assoc, List.drop_left' rfl, List.append_assoc]

/-- Parent and depth are found at the place of a term. -/
theorem frames_drop (h : u.Lies parent depth i v) :
    ∃ rest, (u.frames none 0 0).drop i = v.frames parent depth i ++ rest := by
  induction h with
  | root => exact ⟨[], by rw [List.drop_zero, List.append_nil]⟩
  | @argument parent depth i n before after v _ ih =>
    obtain ⟨rest, hrest⟩ := ih
    refine ⟨framesAll i (depth + 1)
      (i + 1 + (recordsAll before).length + v.nodes.length) after ++ rest, ?_⟩
    rw [← List.drop_drop, ← List.drop_drop, hrest, frames, framesAll_append, framesAll,
      List.cons_append, List.drop_succ_cons, List.drop_zero, List.append_assoc,
      List.drop_left' length_framesAll, List.append_assoc]

theorem getElem?_frames (h : u.Lies parent depth i v) :
    (u.frames none 0 0)[i]? = some (parent, depth) := by
  obtain ⟨rest, hrest⟩ := h.frames_drop
  obtain ⟨n, us⟩ := v
  have hhead := congrArg List.head? hrest
  rwa [List.head?_drop, frames] at hhead

/-- At each index that a term takes a term lies within it. -/
theorem exists_within {j : Nat} (h : u.Lies parent depth i v) (hle : i ≤ j)
    (hlt : j < i + v.nodes.length) :
    ∃ parent' depth' w, u.Lies parent' depth' j w ∧ ReflTransGen u.IsBelow j i := by
  -- the terms are any of the arguments of some node
  suffices harguments : ∀ ts parent depth i n before after,
      u.Lies parent depth i (.node n (before ++ ts ++ after)) →
      ∀ j, i + 1 + (recordsAll before).length ≤ j →
        j < i + 1 + (recordsAll before).length + (recordsAll ts).length →
        ∃ parent' depth' w, u.Lies parent' depth' j w ∧ ReflTransGen u.IsBelow j i by
    obtain ⟨n, us⟩ := v
    rcases Nat.eq_or_lt_of_le hle with rfl | hbelow
    · exact ⟨parent, depth, _, h, .refl⟩
    · rw [length_nodes_node] at hlt
      refine harguments us parent depth i n [] [] (by simpa using h) j hbelow ?_
      rw [recordsAll_nil, List.length_nil]
      omega
  intro ts
  induction ts using forest_induction with
  | nil =>
    intro parent depth i n before after _ j hle hlt
    exact absurd hlt (Nat.not_lt.2 hle)
  | cons m us ts ihus ihts =>
    intro parent depth i n before after h j hle hlt
    rw [List.append_assoc] at h
    have hfirst := argument h
    have hbelow : u.IsBelow (i + 1 + (recordsAll before).length) i := ⟨_, _, hfirst⟩
    rw [recordsAll_cons, List.length_cons, List.length_append] at hlt
    rcases Nat.eq_or_lt_of_le hle with rfl | hle
    · exact ⟨_, _, _, hfirst, .single hbelow⟩
    · by_cases hus : j < i + 1 + (recordsAll before).length + 1 + (recordsAll us).length
      · obtain ⟨parent', depth', w, hw, hchain⟩ :=
          ihus _ _ _ m [] [] (by simpa using hfirst) j hle hus
        exact ⟨parent', depth', w, hw, hchain.tail hbelow⟩
      · refine ihts parent depth i n (before ++ [.node m us]) after (by simpa using h) j ?_ ?_
        · simp
          omega
        · simp
          omega

end Lies

/-! ## Extents -/

variable {s : Subtree}

theorem exists_of_mem_extents (h : s ∈ extents p i ts) :
    ∃ before v after, ts = before ++ v :: after ∧ s.start = i + (recordsAll before).length := by
  induction ts generalizing i with
  | nil => exact absurd h List.not_mem_nil
  | cons t ts ih =>
    unfold extents at h
    split at h
    · rcases List.mem_cons.1 h with rfl | h
      · exact ⟨[], t, ts, rfl, rfl⟩
      · obtain ⟨before, v, after, rfl, hstart⟩ := ih h
        refine ⟨t :: before, v, after, rfl, ?_⟩
        rw [hstart, length_recordsAll_cons, Nat.add_assoc]
    · exact absurd h List.not_mem_nil

variable {before after : List Term}

theorem exists_mem_extents (h : ∀ w ∈ before ++ v :: after, (w.returns? p).isSome) :
    ∃ s ∈ extents p i (before ++ v :: after), s.start = i + (recordsAll before).length := by
  induction before generalizing i with
  | nil =>
    obtain ⟨type, htype⟩ := Option.isSome_iff_exists.1 (h v List.mem_cons_self)
    rw [List.nil_append, extents, htype]
    exact ⟨_, List.mem_cons_self, rfl⟩
  | cons t before ih =>
    obtain ⟨ht, hrest⟩ := List.forall_mem_cons.1 h
    obtain ⟨type, htype⟩ := Option.isSome_iff_exists.1 ht
    obtain ⟨s, hs, hstart⟩ := ih (i := i + t.nodes.length) hrest
    rw [List.cons_append, extents, htype]
    refine ⟨s, List.mem_cons_of_mem _ hs, ?_⟩
    rw [hstart, length_recordsAll_cons, Nat.add_assoc]

end Term

namespace Tree

/-- Subtrees that follow each other without gaps up to an index; none of them is empty. -/
def Tiles : Nat → Nat → List Subtree → Prop
  | i, stop, [] => i = stop
  | i, stop, s :: ss => s.start = i ∧ s.start < s.stop ∧ Tiles s.stop stop ss

end Tree

theorem Term.tiles_extents {ts : List Term} (i : Nat) (h : ∀ w ∈ ts, (w.returns? p).isSome) :
    Tree.Tiles i (i + (recordsAll ts).length) (extents p i ts) := by
  induction ts generalizing i with
  | nil => rfl
  | cons t ts ih =>
    obtain ⟨ht, hrest⟩ := List.forall_mem_cons.1 h
    obtain ⟨type, htype⟩ := Option.isSome_iff_exists.1 ht
    rw [extents, htype, length_recordsAll_cons, ← Nat.add_assoc]
    exact ⟨rfl, Nat.lt_add_of_pos_right t.length_nodes_pos, ih _ hrest⟩

namespace Tree

open Term

variable {t : Tree} {i j c a depth : Nat} {parent : Option Nat} {u v : Term} {ts : List Term}
  {rest : List Record} {s : Subtree}

/-! ## The pass over open ancestors -/

theorem length_frames (i : Nat) (ancestors : List Open) (rs : List Record) :
    (frames p i ancestors rs).length = rs.length := by
  induction rs generalizing i ancestors with
  | nil => rfl
  | cons r rs ih => rw [frames, List.length_cons, List.length_cons, ih]

/-- An ancestor that has all its arguments makes no difference. -/
theorem frames_complete (i a : Nat) (ancestors : List Open) (rs : List Record) :
    frames p i (⟨a, 0⟩ :: ancestors) rs = frames p i ancestors rs := by
  cases rs with
  | nil => rfl
  | cons r rs => rfl

/-- Nor does it matter whether a node without arguments is opened. -/
theorem frames_opened (i a arity : Nat) (ancestors : List Open) (rs : List Record) :
    frames p i (if arity = 0 then ancestors else ⟨a, arity⟩ :: ancestors) rs =
      frames p i (⟨a, arity⟩ :: ancestors) rs := by
  split
  · next h => rw [h, frames_complete]
  · rfl

/-- Over some arguments of the nearest ancestor the pass finds what the terms tell. -/
theorem frames_recordsAll (h : AreFull p ts) (i a more : Nat) (ancestors : List Open)
    (rest : List Record) :
    frames p i (⟨a, ts.length + more⟩ :: ancestors) (recordsAll ts ++ rest) =
      framesAll a (ancestors.length + 1) i ts ++
        frames p (i + (recordsAll ts).length) (⟨a, more⟩ :: ancestors) rest := by
  induction ts using forest_induction generalizing i a more ancestors rest with
  | nil => simp [framesAll]
  | cons n us ts ihus ihts =>
    obtain ⟨⟨harity, hus⟩, hts⟩ := h
    have harguments := ihus hus (i + 1) i 0 (⟨a, ts.length + more⟩ :: ancestors)
      (recordsAll ts ++ rest)
    simp only [Nat.add_zero, frames_complete, ihts hts] at harguments
    have hmissing : (⟨a, ts.length + 1 + more⟩ :: ancestors : List Open).dropWhile
        (·.missing = 0) = ⟨a, ts.length + 1 + more⟩ :: ancestors :=
      List.dropWhile_cons_of_neg (by simp)
    have hnext : i + (Term.node n us).nodes.length = i + 1 + (recordsAll us).length := by
      rw [length_nodes_node, Nat.add_comm _ 1, Nat.add_assoc]
    rw [length_recordsAll_cons, ← Nat.add_assoc, framesAll, Term.frames, hnext, recordsAll_cons,
      List.length_cons, List.cons_append,
      List.append_assoc, frames, hmissing]
    dsimp only
    rw [frames_opened, ← harity, Nat.add_right_comm ts.length 1 more, Nat.add_sub_cancel,
      harguments, List.cons_append, List.cons_append, List.append_assoc]
    rfl

theorem frames_of_isListing (h : t.IsListing p u) :
    frames p 0 [] t.records = u.frames none 0 0 := by
  obtain ⟨n, us⟩ := u
  have harguments := frames_recordsAll h.full.2 1 0 0 [] []
  rw [Nat.add_zero, h.full.1, List.append_nil] at harguments
  rw [h.records_eq, recordsAll_cons, recordsAll_nil, List.append_nil, frames, List.dropWhile_nil]
  dsimp only
  rw [frames_opened, harguments]
  simp [Term.frames, frames]

/-! ## Places of nodes -/

section Listing

variable (h : t.IsListing p u)
include h

theorem drop_of_lies (hv : u.Lies parent depth i v) :
    ∃ rest, t.records.drop i = recordsAll [v] ++ rest := by
  rw [h.records_eq]
  exact hv.drop

theorem endpoint_of_lies (hv : u.Lies parent depth i v) :
    t.endpoint p i = i + v.nodes.length := by
  obtain ⟨rest, hdrop⟩ := drop_of_lies h hv
  exact endpoint_of_drop (hv.full h.full) hdrop

theorem parent_of_lies (hv : u.Lies parent depth i v) : (t.parents p)[i]? = some parent := by
  rw [parents, frames_of_isListing h, List.getElem?_map, hv.getElem?_frames]
  rfl

theorem depth_of_lies (hv : u.Lies parent depth i v) : (t.depths p)[i]? = some depth := by
  rw [depths, frames_of_isListing h, List.getElem?_map, hv.getElem?_frames]
  rfl

theorem exists_lies (hi : i < t.size) : ∃ parent depth v, u.Lies parent depth i v := by
  have hlen : i < 0 + u.nodes.length := by
    rw [Nat.zero_add, h.nodes, t.length_nodes]
    exact hi
  obtain ⟨parent, depth, v, hv, -⟩ := Lies.root.exists_within (Nat.zero_le i) hlen
  exact ⟨parent, depth, v, hv⟩

/-- The depth of a tree is that of the term. -/
theorem depth_of_isListing : t.depth p = u.depth := by
  refine eq_of_forall_ge_iff fun m => ?_
  obtain ⟨n, us⟩ := u
  have hbound : (∀ x ∈ framesAll 0 (0 + 1) (0 + 1) us, x.2 ≤ m) ↔ 0 + depthAll us ≤ m :=
    forall_mem_framesAll_iff (Nat.zero_le m)
  rw [depth, foldl_max_le_iff, depths, frames_of_isListing h, List.forall_mem_map, Term.frames,
    List.forall_mem_cons, hbound, Term.depth]
  simp

variable (hknown : ∀ r ∈ t.records, (p.entry? r.operator).isSome)

omit hknown in
theorem arguments_of_lies {n : Node} (hv : u.Lies parent depth i (.node n ts)) :
    t.arguments p i = extents p (i + 1) ts := by
  obtain ⟨rest, hdrop⟩ := drop_of_lies h hv
  exact arguments_of_drop (hv.full h.full) hdrop

include hknown

theorem returns_of_lies {n : Node} (hv : u.Lies parent depth i (.node n ts)) :
    ∀ w ∈ ts, (w.returns? p).isSome := by
  intro w hw
  obtain ⟨rest, hdrop⟩ := drop_of_lies h hv
  have hmem : w.head.record ∈ t.records.drop i := by
    rw [hdrop, recordsAll_cons]
    simp [mem_recordsAll_of_mem hw]
  obtain ⟨e, he⟩ := Option.isSome_iff_exists.1 (hknown _ (List.mem_of_mem_drop hmem))
  rw [returns?, Palette.returns?_eq he, Option.isSome_some]

theorem tiles_arguments (hi : i < t.size) :
    Tiles (i + 1) (t.endpoint p i) (t.arguments p i) := by
  obtain ⟨parent, depth, ⟨n, ts⟩, hv⟩ := exists_lies h hi
  have htiles := tiles_extents (i + 1) (returns_of_lies h hknown hv)
  rw [Nat.add_right_comm, Nat.add_assoc, ← length_nodes_node n] at htiles
  rwa [endpoint_of_lies h hv, arguments_of_lies h hv]

/-- The arguments of a node are those whose parent it is. -/
theorem parent_eq_some_iff (hi : i < t.size) :
    (t.parents p)[c]? = some (some i) ↔ ∃ s ∈ t.arguments p i, s.start = c := by
  constructor
  · intro hc
    obtain ⟨hlt, -⟩ := List.getElem?_eq_some_iff.1 hc
    rw [parents, List.length_map, length_frames] at hlt
    obtain ⟨parent, depth, v, hv⟩ := exists_lies h hlt
    rw [parent_of_lies h hv] at hc
    injection hc with hc
    subst hc
    cases hv with
    | argument hnode =>
      rw [arguments_of_lies h hnode]
      exact exists_mem_extents (returns_of_lies h hknown hnode)
  · rintro ⟨s, hs, rfl⟩
    obtain ⟨parent, depth, ⟨n, ts⟩, hv⟩ := exists_lies h hi
    rw [arguments_of_lies h hv] at hs
    obtain ⟨before, v, after, rfl, hstart⟩ := exists_of_mem_extents hs
    rw [hstart]
    exact parent_of_lies h (.argument hv)

omit hknown

/-- The arguments of a node lie one level deeper. -/
theorem depth_of_mem_arguments (hi : i < t.size) : ∃ depth, (t.depths p)[i]? = some depth ∧
    ∀ s ∈ t.arguments p i, (t.depths p)[s.start]? = some (depth + 1) := by
  obtain ⟨parent, depth, ⟨n, ts⟩, hv⟩ := exists_lies h hi
  refine ⟨depth, depth_of_lies h hv, fun s hs => ?_⟩
  rw [arguments_of_lies h hv] at hs
  obtain ⟨before, v, after, rfl, hstart⟩ := exists_of_mem_extents hs
  rw [hstart]
  exact depth_of_lies h (.argument hv)

end Listing

/-! ## Ranges -/

/-- The second one of two nodes is the parent of the first one. -/
def IsChild (p : Palette C) (t : Tree) (c a : Nat) : Prop := (t.parents p)[c]? = some (some a)

/-- The indices of the subtree at an index. -/
def extent (p : Palette C) (t : Tree) (i : Nat) : Set Nat := Set.Ico i (t.endpoint p i)

theorem lt_endpoint (hi : i < t.size) : i < t.endpoint p i := by
  rw [endpoint, List.drop_eq_getElem_cons hi, span]
  omega

theorem extent_subset_iff (hj : j < t.size) :
    t.extent p j ⊆ t.extent p i ↔ j ∈ t.extent p i := by
  rw [extent, extent, Set.Ico_subset_Ico_iff (lt_endpoint hj), Set.mem_Ico]
  constructor
  · rintro ⟨hle, hend⟩
    exact ⟨hle, lt_of_lt_of_le (lt_endpoint hj) hend⟩
  · rintro ⟨hle, hlt⟩
    exact ⟨hle, endpoint_le hle hlt⟩

/-- The subtree at the later one of two nodes lies in the other one or behind it. -/
theorem disjoint_or_subset (hle : i ≤ j) (hj : j < t.size) :
    t.extent p i ∩ t.extent p j = ∅ ∨ t.extent p j ⊆ t.extent p i := by
  rcases Nat.lt_or_ge j (t.endpoint p i) with hlt | hge
  · exact .inr ((extent_subset_iff hj).2 ⟨hle, hlt⟩)
  · refine .inl (Set.eq_empty_of_forall_notMem fun k hk => ?_)
    exact absurd (lt_of_lt_of_le hk.1.2 (hge.trans hk.2.1)) (Nat.lt_irrefl k)

theorem IsChild.extent_subset (hc : t.IsChild p c a) : t.extent p c ⊆ t.extent p a := by
  obtain ⟨hlt, hend⟩ := parent_encloses hc
  exact Set.Ico_subset_Ico hlt.le (endpoint_le hlt.le hend)

theorem isBelow_le_isChild (h : t.IsListing p u) : u.IsBelow ≤ t.IsChild p :=
  fun _ _ ⟨_, _, hbelow⟩ => parent_of_lies h hbelow

/-- A subtree lies in those of its ancestors and in no other one. -/
theorem extent_subset_iff_ancestor (h : t.IsListing p u) (hi : i < t.size) (hj : j < t.size) :
    t.extent p j ⊆ t.extent p i ↔ ReflTransGen (t.IsChild p) j i := by
  constructor
  · intro hsub
    obtain ⟨hle, hlt⟩ := (extent_subset_iff hj).1 hsub
    obtain ⟨parent, depth, v, hv⟩ := exists_lies h hi
    rw [endpoint_of_lies h hv] at hlt
    obtain ⟨-, -, -, -, hchain⟩ := hv.exists_within hle hlt
    exact ReflTransGen.mono (isBelow_le_isChild h) j i hchain
  · intro hchain
    clear hi
    induction hchain with
    | refl => exact subset_rfl
    | tail _ hparent ih => exact ih.trans hparent.extent_subset

/-! ## Agreement -/

theorem lists_term_of_check (h : t.check p = .ok ()) (hsome : t.records ≠ []) :
    (∃ type, Spells p [type] t.records) ∧ ∃ u, t.IsListing p u := by
  obtain ⟨-, hempty | ⟨type, hspells⟩⟩ := check_eq_ok_iff.1 h
  · exact absurd hempty hsome
  · exact ⟨⟨type, hspells⟩, exists_isListing hspells⟩

/-- In a tree that passes the check the arguments of each node follow it without gaps, it is the
parent of them alone, and they lie one level deeper; two subtrees are apart unless one lies in the
other, which is so along chains of parents; and the depth is that of the term. -/
theorem walks_agree (h : t.check p = .ok ()) :
    (t.parents p).length = t.size ∧ (t.depths p).length = t.size ∧
    (∀ i < t.size, ∃ cs, t.children p i = .ok cs ∧ cs.length = t.arityAt p i ∧
      Tiles (i + 1) (t.endpoint p i) cs ∧ (∀ s ∈ cs, t.subtree p s.start = .ok s) ∧
      (∀ c, t.IsChild p c i ↔ ∃ s ∈ cs, s.start = c) ∧
      ∃ depth, (t.depths p)[i]? = some depth ∧
        ∀ s ∈ cs, (t.depths p)[s.start]? = some (depth + 1)) ∧
    (∀ i < t.size, ∀ j < t.size,
      (t.extent p i ∩ t.extent p j = ∅ ∨ t.extent p i ⊆ t.extent p j ∨
        t.extent p j ⊆ t.extent p i) ∧
      (t.extent p j ⊆ t.extent p i ↔ ReflTransGen (t.IsChild p) j i)) ∧
    (t.records = [] → t.depth p = 0) ∧ (t.records ≠ [] → ∃ u, t.IsListing p u) ∧
    ∀ u, t.IsListing p u → t.depth p = u.depth := by
  have hsome : ∀ i < t.size, t.records ≠ [] := fun i hi =>
    List.ne_nil_of_length_pos (Nat.zero_lt_of_lt hi)
  refine ⟨?_, ?_, fun i hi => ?_, fun i hi j hj => ⟨?_, ?_⟩, fun hempty => ?_,
    fun hne => (lists_term_of_check h hne).2, fun u hu => depth_of_isListing hu⟩
  · rw [parents, List.length_map, length_frames, size]
  · rw [depths, List.length_map, length_frames, size]
  · obtain ⟨⟨type, hspells⟩, u, hu⟩ := lists_term_of_check h (hsome i hi)
    have hchildren := children_eq hspells hi
    refine ⟨_, hchildren, length_arguments hspells hi, tiles_arguments hu hspells.known hi,
      fun s hs => ?_, fun c => parent_eq_some_iff hu hspells.known hi, depth_of_mem_arguments hu hi⟩
    rw [subtree, subtree?_of_mem_children hchildren hs, demand_some]
  · rcases Nat.le_total i j with hle | hle
    · exact (disjoint_or_subset hle hj).imp_right .inr
    · rw [Set.inter_comm]
      exact (disjoint_or_subset hle hi).imp_right .inl
  · obtain ⟨-, u, hu⟩ := lists_term_of_check h (hsome i hi)
    exact extent_subset_iff_ancestor hu hi hj
  · rw [depth, depths, hempty]
    rfl

/-- The listing of `(provided true (provided true 7))`. -/
def nested : Tree where
  records := [⟨2, 8, ⟨false, false⟩⟩, ⟨0, 8, ⟨true, false⟩⟩, ⟨2, 8, ⟨false, false⟩⟩,
    ⟨0, 8, ⟨true, false⟩⟩, ⟨1, 8, ⟨true, false⟩⟩]
  values := ⟨[⟨[.word 1, .word 1, .word 7], [], 509⟩], none⟩

theorem walks_agree_nested : nested.check conditional = .ok () ∧
    (∃ cs, nested.children conditional 0 = .ok cs ∧ cs.length = 2 ∧ Tiles 1 5 cs) ∧
    (nested.extent conditional 1 ∩ nested.extent conditional 2 = ∅ ∨
      nested.extent conditional 1 ⊆ nested.extent conditional 2 ∨
      nested.extent conditional 2 ⊆ nested.extent conditional 1) ∧
    (nested.extent conditional 4 ⊆ nested.extent conditional 0 ↔
      ReflTransGen (nested.IsChild conditional) 4 0) ∧
    ∃ u, nested.IsListing conditional u ∧ nested.depth conditional = u.depth := by
  have hcheck : nested.check conditional = .ok () := rfl
  obtain ⟨-, -, hnodes, hextents, -, hlisted, hdepth⟩ := walks_agree hcheck
  obtain ⟨cs, hchildren, hlen, htiles, -⟩ := hnodes 0 (by decide)
  obtain ⟨u, hu⟩ := hlisted (by decide)
  exact ⟨hcheck, ⟨cs, hchildren, hlen, htiles⟩, (hextents 1 (by decide) 2 (by decide)).1,
    (hextents 0 (by decide) 4 (by decide)).2, u, hu, hdepth u hu⟩

/-- Each of the five nodes below its ancestors. -/
example : nested.parents conditional = [none, some 0, some 0, some 2, some 2] ∧
    nested.depths conditional = [0, 1, 1, 2, 2] := ⟨rfl, rfl⟩

end Tree

end GeneticProgramming
