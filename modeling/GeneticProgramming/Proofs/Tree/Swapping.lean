import GeneticProgramming.Proofs.Tree.Ancestry

/-!
# Swapping subtrees back

Around a subtree the nodes of a tree fall into those before it, its own and those behind it
(`Tree.Around`).  A swap exchanges the middle parts of two trees, of whatever types, and each walk
finds the part that came in again, from the same index on.  So a second swap exchanges what the
first one did: `Tree.swapSubtrees_swapSubtrees`.
-/

namespace GeneticProgramming

variable {C : Type} {p : Palette C}

namespace Tree

variable {t u : Tree} {i : Nat} {s s' : Subtree}
  {front inner inner' back front' back' : List Node}

/-- A tree lists the nodes of a complete term between others, and a subtree tells where. -/
structure Around (p : Palette C) (t : Tree) (s : Subtree) (front inner back : List Node) :
    Prop where
  lists : t.Lists (front ++ inner ++ back)
  spells : Spells p [s.returns] (inner.map Node.record)
  start : s.start = front.length
  stop : s.stop = front.length + inner.length

theorem around_of_subtree (h : t.check p = .ok ()) (hs : t.subtree p i = .ok s) :
    t.Around p s (t.nodes.take s.start) (slice t.nodes s.start s.stop) (t.nodes.drop s.stop) := by
  have hsubtree := eq_of_demand hs
  obtain ⟨r, -, hr, -⟩ := subtree?_eq_some hsubtree
  obtain ⟨hwords, hempty | ⟨type, hspells⟩⟩ := check_eq_ok_iff.1 h
  · rw [hempty] at hr
    contradiction
  obtain ⟨hlt, hstop, hinner, -⟩ := spells_of_subtree? hspells hsubtree
  have hlists := lists_nodes hwords
  rw [hlists.size_eq] at hstop
  have hfront : (t.nodes.take s.start).length = s.start :=
    List.length_take_of_le (hlt.le.trans hstop)
  refine ⟨?_, ?_, hfront.symm, ?_⟩
  · rwa [take_append_slice_append_drop t.nodes hlt.le]
  · rwa [← hlists.recordsIn_eq]
  · rw [hfront, List.length_drop, List.length_take_of_le hstop]
    omega

theorem exists_around (h : t.check p = .ok ()) (hi : i < t.size) :
    ∃ s front inner back, t.Around p s front inner back ∧ front.length = i := by
  obtain ⟨-, hempty | ⟨type, hspells⟩⟩ := check_eq_ok_iff.1 h
  · rw [size, hempty] at hi
    exact absurd hi (Nat.not_lt_zero i)
  obtain ⟨s, hs⟩ := exists_subtree hspells hi
  have haround := around_of_subtree h hs
  refine ⟨s, _, _, _, haround, ?_⟩
  rw [← haround.start, subtree?_start (eq_of_demand hs)]

theorem exchangeRanges_append (front inner back front' inner' back' : List Node)
    (hstart : s.start = front.length) (hstop : s.stop = front.length + inner.length)
    (hstart' : s'.start = front'.length) (hstop' : s'.stop = front'.length + inner'.length) :
    exchangeRanges (front ++ inner ++ back) (front' ++ inner' ++ back') s s' =
      .ok (front ++ inner' ++ back, front' ++ inner ++ back') := by
  rw [← List.length_append] at hstop hstop'
  rw [exchangeRanges_eq (by simp [hstart, hstop]) (by simp [hstop]) (by simp [hstart', hstop'])
    (by simp [hstop']), hstart, hstop, hstart', hstop', List.drop_left, List.drop_left, slice,
    List.take_left, List.drop_left, slice, List.take_left, List.drop_left, List.append_assoc front,
    List.take_left, List.append_assoc front', List.take_left]

namespace Around

theorem length_eq (h : t.Around p s front inner back) : s.length = inner.length := by
  rw [Subtree.length, h.start, h.stop, Nat.add_sub_cancel_left]

/-- The walk finds the subtree. -/
theorem subtree_eq (h : t.Around p s front inner back) : t.subtree p front.length = .ok s := by
  obtain ⟨⟨hrecords, -, -⟩, hspells, hstart, hstop⟩ := h
  obtain ⟨start, stop, returns⟩ := s
  dsimp only at hspells hstart hstop
  have hdrop : t.records.drop front.length = inner.map Node.record ++ back.map Node.record := by
    rw [hrecords, List.append_assoc, List.map_append, List.drop_left' (List.length_map _),
      List.map_append]
  have hlen : (inner.map Node.record).length = inner.length := List.length_map _
  generalize inner.map Node.record = rs at hspells hdrop hlen
  cases hspells with
  | cons he hrest =>
    rw [List.append_nil] at hrest
    rw [subtree, subtree?_eq he hrest hdrop, demand_some, hlen, hstart, hstop]

/-- A swap exchanges what two trees list between the rest. -/
theorem swapSubtrees (h : t.Around p s front inner back) (h' : u.Around p s' front' inner' back') :
    ∃ t' u', t.swapSubtrees s u s' = .ok (t', u') ∧
      t'.Around p ⟨front.length, front.length + inner'.length, s'.returns⟩ front inner' back ∧
      u'.Around p ⟨front'.length, front'.length + inner.length, s.returns⟩ front' inner back' := by
  have hexchange := exchangeRanges_append front inner back front' inner' back' h.start h.stop
    h'.start h'.stop
  obtain ⟨⟨t', u'⟩, hswap, ⟨ht', -⟩, hu', -⟩ :=
    (h.lists.swapSubtrees_agree h'.lists s s').exists_ok hexchange
  exact ⟨t', u', hswap, ⟨ht', h'.spells, rfl, rfl⟩, hu', h.spells, rfl, rfl⟩

end Around

/-- In trees that pass the check the subtrees at any two indices can be swapped.  Each has the size
that the other one had, and when those that are now at the two indices are swapped in turn, the
records and the literals are again the earlier ones. -/
theorem swapSubtrees_swapSubtrees {j : Nat} (ht : t.check p = .ok ()) (hu : u.check p = .ok ())
    (hi : i < t.size) (hj : j < u.size) : ∃ a b t' u' a' b' t'' u'',
      t.subtree p i = .ok a ∧ u.subtree p j = .ok b ∧ t.swapSubtrees a u b = .ok (t', u') ∧
      t'.subtree p i = .ok a' ∧ u'.subtree p j = .ok b' ∧
      a'.length = b.length ∧ b'.length = a.length ∧
      t'.swapSubtrees a' u' b' = .ok (t'', u'') ∧
      t''.records = t.records ∧ t''.values.contents = t.values.contents ∧
      u''.records = u.records ∧ u''.values.contents = u.values.contents := by
  obtain ⟨a, front, inner, back, ha, rfl⟩ := exists_around ht hi
  obtain ⟨b, front', inner', back', hb, rfl⟩ := exists_around hu hj
  obtain ⟨t', u', hswap, ha', hb'⟩ := ha.swapSubtrees hb
  obtain ⟨t'', u'', hagain, ha'', hb''⟩ := ha'.swapSubtrees hb'
  refine ⟨a, b, t', u', _, _, t'', u'', ha.subtree_eq, hb.subtree_eq, hswap, ha'.subtree_eq,
    hb'.subtree_eq, ?_, ?_, hagain, ?_, ?_, ?_, ?_⟩
  · rw [ha'.length_eq, hb.length_eq]
  · rw [hb'.length_eq, ha.length_eq]
  · rw [ha''.lists.records, ha.lists.records]
  · rw [ha''.lists.contents, ha.lists.contents]
  · rw [hb''.lists.records, hb.lists.records]
  · rw [hb''.lists.contents, hb.lists.contents]

/-- The condition on top and the number below are of different types and sizes. -/
theorem swapSubtrees_swapSubtrees_nested : nested.check conditional = .ok () ∧
    ∃ a b t' u' a' b' t'' u'',
      nested.subtree conditional 1 = .ok a ∧ nested.subtree conditional 2 = .ok b ∧
      nested.swapSubtrees a nested b = .ok (t', u') ∧
      t'.subtree conditional 1 = .ok a' ∧ u'.subtree conditional 2 = .ok b' ∧
      a'.length = b.length ∧ b'.length = a.length ∧
      t'.swapSubtrees a' u' b' = .ok (t'', u'') ∧
      t''.records = nested.records ∧ t''.values.contents = nested.values.contents ∧
      u''.records = nested.records ∧ u''.values.contents = nested.values.contents := by
  have hcheck : nested.check conditional = .ok () := rfl
  exact ⟨hcheck, swapSubtrees_swapSubtrees hcheck hcheck (by decide) (by decide)⟩

example : nested.subtree conditional 1 = .ok ⟨1, 2, 0⟩ ∧
    nested.subtree conditional 2 = .ok ⟨2, 5, 1⟩ := ⟨rfl, rfl⟩

end Tree

end GeneticProgramming
