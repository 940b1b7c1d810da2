import GeneticProgramming.Proofs.Tree.Genuine

/-!
# Trees that can be made

`Tree.Made` are the trees that a palette's users can get hold of: grown node by node, edited,
cloned, and read from streams, in any order.  All of them are sound.
-/

namespace GeneticProgramming

/-! ## Reading -/

namespace Reader

theorem split_eq_some {n : Nat} {bs front rest : Bytes} (h : split n bs = some (front, rest)) :
    bs = front ++ rest ∧ front.length = n := by
  induction n generalizing bs front with
  | zero =>
    injection h with h
    injection h with hf hr
    subst hf hr
    exact ⟨rfl, rfl⟩
  | succ n ih =>
    cases bs with
    | nil => contradiction
    | cons b bs =>
      obtain ⟨⟨f, r⟩, hsplit, hcons⟩ := Option.map_eq_some_iff.1 h
      injection hcons with hf hr
      subst hf hr
      obtain ⟨rfl, rfl⟩ := ih hsplit
      exact ⟨rfl, rfl⟩

theorem take_yields (n : Nat) : Yields (take n) fun bs => bs.length = n := by
  intro s bs rest h
  unfold take at h
  split at h
  · next r hr =>
    injection h with h
    subst h
    exact (split_eq_some hr).2
  · contradiction

end Reader

namespace Tree

variable {C : Type} {p : Palette C}

theorem readRecord_yields (p : Palette C) (index : Nat) : Yields (readRecord p index) fun r =>
    ∃ e, p.entry? r.operator = some e ∧ r = recordOf e r.operator ∧ e.flags.shared = false := by
  unfold readRecord
  refine Yields.bind (Yields.trivial _) fun size _ => ?_
  refine Yields.bind (Yields.trivial _) fun id _ => ?_
  refine Yields.bind (Yields.trivial _) fun byte _ => ?_
  split
  · exact Yields.throw _
  · next e he =>
    have hentry : p.entry? id = some e := by
      split at he
      · exact he
      · contradiction
    refine Yields.past fun hsize => Yields.past fun hshared => Yields.past fun hflags => ?_
    simp only [ne_eq, Decidable.not_not, Bool.or_eq_true, not_or, Bool.not_eq_true] at *
    refine Yields.pure ⟨e, hentry, ?_, hshared.2⟩
    rw [hsize, hflags]
    rfl

theorem readRecords_yields (p : Palette C) (index n : Nat) :
    Yields (readRecords p index n) fun rs => ∀ r ∈ rs,
      ∃ e, p.entry? r.operator = some e ∧ r = recordOf e r.operator ∧ e.flags.shared = false := by
  induction n generalizing index with
  | zero => exact Yields.pure (fun r hr => absurd hr List.not_mem_nil)
  | succ n ih =>
    refine Yields.bind (readRecord_yields p index) fun r hr => ?_
    refine Yields.bind (ih (index + 1)) fun rs hrs => ?_
    exact Yields.pure (List.forall_mem_cons.2 ⟨hr, hrs⟩)

theorem mem_of_mem_literal_share {rs : List Record} {cells : List Cell} {n : Node}
    (hn : n ∈ share rs cells) : n.record ∈ rs ∧ ∀ c ∈ n.literal, c ∈ cells := by
  induction rs generalizing cells with
  | nil => exact absurd hn List.not_mem_nil
  | cons r rs ih =>
    rcases List.mem_cons.1 hn with rfl | hn
    · exact ⟨List.mem_cons_self, fun c hc => List.mem_of_mem_take hc⟩
    · exact ⟨List.mem_cons_of_mem r (ih hn).1, fun c hc => List.mem_of_mem_drop ((ih hn).2 c hc)⟩

/-- Records of the palette without references, and data for their literals, make a sound tree. -/
theorem sound_of_data {rs : List Record} {cells : List Cell} (hrs : ∀ r ∈ rs,
      ∃ e, p.entry? r.operator = some e ∧ r = recordOf e r.operator ∧ e.flags.shared = false)
    (hcells : ∀ c ∈ cells, c.isShared = false) (hlen : literalWords rs = cells.length) :
    Sound p ⟨rs, Stack.empty.pushRun cells⟩ := by
  have hfits : ∀ n ∈ share rs cells, n.Fits := fits_of_mem_share (Nat.le_of_eq hlen)
  have hpush := lists_empty.pushRun hfits
  have hflat : (Node.literals (share rs cells)).flatten = cells := by
    rw [flatten_literals_share, hlen, List.take_length]
  rw [map_record_share, hflat] at hpush
  refine Sound.empty.of_listsAfter hpush fun n hn => ?_
  obtain ⟨hmem, hliteral⟩ := mem_of_mem_literal_share hn
  obtain ⟨e, he, hrecord, hshared⟩ := hrs n.record hmem
  refine ⟨e, he, hrecord, fun c hc => ?_⟩
  rw [hcells c (hliteral c hc)]
  -- a node with cells is a literal, and its type is not shared
  have hliteral : e.operator.isLiteral = true := by
    by_contra hno
    have hwords : n.literal.length = 0 := by
      have hn : n.literal.length = n.record.words := hfits n hn
      rw [hn, hrecord, words_recordOf, if_neg hno]
    rw [List.length_eq_zero_iff.1 hwords] at hc
    exact absurd hc List.not_mem_nil
  simpa [Entry.flags, hliteral] using hshared

/-- What is read from a stream is a sound, well-formed tree without references. -/
theorem read_yields (p : Palette C) : Yields (read p) fun t =>
    t.Sound p ∧ t.check p = .ok () ∧ ∀ r ∈ t.records, r.flags.shared = false := by
  unfold read
  refine Yields.bind (Yields.trivial _) fun count _ => ?_
  refine Yields.bind (readRecords_yields p 0 count) fun rs hrs => ?_
  refine Yields.bind (Yields.trivial _) fun found _ => Yields.past fun _ => ?_
  refine Yields.bind (Reader.take_yields _) fun bytes hbytes => ?_
  dsimp only
  split
  · next hcheck =>
    have hlen : literalWords rs = (Cell.ofBytes bytes).length := by
      rw [Cell.length_ofBytes, hbytes]
      omega
    refine Yields.pure ⟨sound_of_data hrs (Cell.isShared_of_mem_ofBytes bytes) hlen, hcheck, ?_⟩
    intro r hr
    obtain ⟨e, -, hrecord, hshared⟩ := hrs r hr
    rw [hrecord]
    exact hshared
  · exact Yields.throw _

/-! ## Making -/

/-- Trees that are made in any number of steps.  An edit of two trees makes both anew. -/
inductive Made (p : Palette C) : Tree → Prop where
  | empty : Made p .empty
  | push {t u id g g'} : Made p t → t.push p id g = .ok (u, g') → Made p u
  | pushLiteral {t u id v} : Made p t → t.pushLiteral p id v = .ok (.ok u) → Made p u
  | clear {t} : Made p t → Made p t.clear
  | duplicate {t} : Made p t → Made p t.duplicate
  | copySubtree {t other u s} : Made p t → Made p other → t.copySubtree s other = .ok u → Made p u
  | deleteSubtree {t u s} : Made p t → t.deleteSubtree s = .ok u → Made p u
  | insertTree {t other u i} : Made p t → Made p other → t.insertTree i other = .ok u → Made p u
  | replaceByRange {t other u s first last} : Made p t → Made p other →
      t.replaceByRange s other first last = .ok u → Made p u
  | swapLeft {t other u v a b} : Made p t → Made p other →
      t.swapSubtrees a other b = .ok (u, v) → Made p u
  | swapRight {t other u v a b} : Made p t → Made p other →
      t.swapSubtrees a other b = .ok (u, v) → Made p v
  | modify {t u i id g g'} : Made p t → t.modify p i id g = .ok (u, g') → Made p u
  | read {t bytes rest} : Tree.read p bytes = .ok (t, rest) → Made p t

theorem Made.sound {t : Tree} (h : t.Made p) : t.Sound p := by
  induction h with
  | empty => exact .empty
  | push _ hu ih => exact ih.push _ _ _ _ hu
  | pushLiteral _ hu ih => exact ih.pushLiteral hu
  | clear _ _ => exact .clear _
  | duplicate _ ih => exact ih.duplicate
  | copySubtree _ _ hu ih iho => exact ih.copySubtree iho hu
  | deleteSubtree _ hu ih => exact ih.deleteSubtree hu
  | insertTree _ _ hu ih iho => exact ih.insertTree iho hu
  | replaceByRange _ _ hu ih iho => exact ih.replaceByRange iho hu
  | swapLeft _ _ hu ih iho => exact (ih.swapSubtrees iho hu).1
  | swapRight _ _ hu ih iho => exact (ih.swapSubtrees iho hu).2
  | modify _ hu ih => exact ih.modify _ _ _ _ _ hu
  | read hu => exact (read_yields p _ _ _ hu).1

end Tree

end GeneticProgramming
