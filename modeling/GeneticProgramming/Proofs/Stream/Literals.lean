import GeneticProgramming.Proofs.Stream.Taking
import GeneticProgramming.Proofs.Value.Forms

/-!
# Literals from any bytes

A reader of trees compares the number of literal bytes with the records and looks no further.  So a
literal that was read stores a value of its type only if its truth values are bits, and any bytes in
the place of the literals are read as well: `Tree.read_literals`.
-/

namespace GeneticProgramming

open Reader

variable {C : Type} {p : Palette C}

/-! ## Payloads -/

namespace Tree

variable {t u : Tree} {rs : List Record} {payload : Bytes}

theorem words_ofBytes (hlen : payload.length = 8 * literalWords rs) :
    (Stack.empty.pushRun (Cell.ofBytes payload)).words = literalWords rs := by
  have hcontents := Stack.contents_pushRun Stack.empty (Cell.ofBytes payload)
  have hnone : Stack.empty.contents = [] := rfl
  rw [← Stack.length_contents, hcontents, hnone, List.nil_append, Cell.length_ofBytes, hlen]
  omega

/-- Other bytes in the place of the literals are read as well. -/
theorem read_takes_payload (p : Palette C) : Takes (read p) fun bs t => ∃ header,
    bs = header ++ t.literalBytes ∧ ∀ payload, payload.length = t.literalBytes.length →
      ∃ u, Reads (read p) (header ++ payload) u ∧ u.records = t.records ∧
        u.literalBytes = payload := by
  refine Takes.bind nat_isLocal fun front count hcount => ?_
  refine Takes.bind (readRecords_isLocal p 0 count) fun front' rs hrs => ?_
  refine Takes.bind nat_isLocal fun front'' found hfound => Takes.past fun hsize => ?_
  rw [not_not] at hsize
  subst hsize
  refine Takes.bind (take_takes _) fun bytes _ hbytes => ?_
  obtain ⟨rfl, hbytes⟩ := hbytes
  dsimp only
  split
  · next hcheck =>
    refine Takes.pure ⟨front ++ (front' ++ front''), ?_, fun payload hpayload => ?_⟩
    · rw [literalBytes_ofBytes rs ⟨_, hbytes⟩]
      simp only [List.append_assoc, List.append_nil]
    · rw [literalBytes_ofBytes rs ⟨_, hbytes⟩, hbytes] at hpayload
      -- the check sees the same records and as many words
      have hcheck' : check p ⟨rs, Stack.empty.pushRun (Cell.ofBytes payload)⟩ = .ok () := by
        refine check_of_words hcheck rfl ?_
        rw [words_ofBytes hpayload, words_ofBytes hbytes]
      refine ⟨⟨rs, Stack.empty.pushRun (Cell.ofBytes payload)⟩, ?_, rfl,
        literalBytes_ofBytes rs ⟨_, hpayload⟩⟩
      simpa only [List.append_assoc] using reads_of_parts hcount hrs hfound hpayload hcheck'
  · exact Takes.throw _

/-! ## Literals -/

/-- Each literal stores a value of its type if its truth values are bits, and else does not. -/
def StoresBits (p : Palette C) (t : Tree) : Prop :=
  ∀ n ∈ t.nodes, ∀ e, p.entry? n.record.operator = some e → e.operator.isLiteral = true →
    (e.operator.returns.IsStored n.literal ↔ e.operator.returns.IsClean n.literal)

theorem Sound.storesBits (h : t.Sound p) (hplain : t.IsPlain) : t.StoresBits p := by
  intro n hn e he hliteral
  obtain ⟨d, hd, hrecord, -⟩ := (h.1.genuine n hn).entry
  obtain rfl := Option.some.inj (hd.symm.trans he)
  have hmem : n.record ∈ t.records := h.1.lists.records ▸ List.mem_map_of_mem hn
  have hflag := hplain n.record hmem
  have hlen : n.literal.length = n.record.words := h.1.lists.fits n hn
  rw [hrecord] at hflag hlen
  rw [words_recordOf, if_pos hliteral] at hlen
  have hshared : (d.operator.isLiteral && d.operator.returns.isShared) = false := hflag
  rw [hliteral, Bool.true_and] at hshared
  exact ValueType.isStored_iff hshared hlen

theorem read_storesBits (p : Palette C) : Yields (read p) (StoresBits p) :=
  (read_yields p).mono fun _ ht => ht.1.storesBits ht.2.2

end Tree

/-! ## Generations -/

theorem Reader.times_yields {α : Type} {r : Reader α} {P : α → Prop} (hr : Yields r P) (n : Nat) :
    Yields (times r n) fun xs => ∀ x ∈ xs, P x := by
  induction n with
  | zero => exact Yields.pure fun x hx => absurd hx List.not_mem_nil
  | succ n ih =>
    refine Yields.bind hr fun x hx => Yields.bind ih fun xs hxs => ?_
    exact Yields.pure (List.forall_mem_cons.2 ⟨hx, hxs⟩)

/-- What holds of each tree that is read holds of those of a generation. -/
theorem Population.read_yields {Q : Tree → Prop} (h : Yields (Tree.read p) Q) :
    Yields (Population.read p) fun pop => ∀ i ∈ pop, Q i.tree := by
  refine Yields.bind (Yields.trivial _) fun count _ => Reader.times_yields ?_ count
  refine Yields.bind (Yields.trivial _) fun fitness _ => ?_
  exact Yields.bind h fun t ht => Yields.pure ht

theorem SavedState.read_yields {Q : Tree → Prop} (h : Yields (Tree.read p) Q) :
    Yields (SavedState.read p) fun s => ∀ i ∈ s.population, Q i.tree := by
  refine Yields.bind (Yields.trivial _) fun _ _ => Yields.bind (Yields.trivial _) fun history _ => ?_
  refine Yields.bind (Yields.trivial _) fun stats _ => ?_
  exact Yields.bind (Population.read_yields h) fun pop hpop => Yields.pure hpop

theorem Population.read_storesBits (p : Palette C) :
    Yields (Population.read p) fun pop => ∀ i ∈ pop, i.tree.StoresBits p :=
  read_yields (Tree.read_storesBits p)

theorem SavedState.read_storesBits (p : Palette C) :
    Yields (SavedState.read p) fun s => ∀ i ∈ s.population, i.tree.StoresBits p :=
  read_yields (Tree.read_storesBits p)

namespace Tree

/-- Of any bytes that are read as a tree, a generation or a state, those of each literal are a
value's if they are clean, and else no value's; and they were accepted whatever they are. -/
theorem read_literals (p : Palette C) (bytes : Bytes) :
    (∀ t rest, read p bytes = .ok (t, rest) → t.StoresBits p ∧
      ∃ header, bytes = header ++ t.literalBytes ++ rest ∧
        ∀ payload, payload.length = t.literalBytes.length →
          ∃ u, Reads (read p) (header ++ payload) u ∧ u.records = t.records ∧
            u.literalBytes = payload) ∧
    (∀ pop rest, Population.read p bytes = .ok (pop, rest) → ∀ i ∈ pop, i.tree.StoresBits p) ∧
    ∀ s rest, SavedState.read p bytes = .ok (s, rest) → ∀ i ∈ s.population, i.tree.StoresBits p := by
  refine ⟨fun t rest hread => ?_, ?_, ?_⟩
  · obtain ⟨front, rfl, header, rfl, hpayload⟩ := read_takes_payload p bytes t rest hread
    exact ⟨read_storesBits p _ t rest hread, header, rfl, hpayload⟩
  · exact Population.read_storesBits p bytes
  · exact SavedState.read_storesBits p bytes

/-! ### A truth value of two -/

def truth : Operator Unit := ⟨none, .literal .bool (return (← Draw.word) < 0x8000000000000000)⟩

def truths : Palette Unit := ⟨⟨[.bool]⟩, [⟨truth, 0, []⟩], [0], none⟩

/-- A truth value with a byte that none has. -/
def two : Tree := ⟨[⟨0, 8, ⟨true, false⟩⟩], Stack.empty.pushRun [.word 2]⟩

def twoBytes : Bytes :=
  [1, 0, 0, 0, 0, 0, 0, 0] ++ ([8, 0] ++ [0, 0, 0, 0, 0, 0, 0, 0] ++ [1]) ++
    [8, 0, 0, 0, 0, 0, 0, 0] ++ [2, 0, 0, 0, 0, 0, 0, 0]

theorem isBuilt_truths : truths.IsBuilt := ⟨[truth], none, rfl⟩

theorem portable_truths : truths.Portable := ⟨by decide, by decide, by decide⟩

theorem two_reads : Reads (read truths) twoBytes two := by
  have hrecords : ∀ r ∈ two.records, ∃ e, truths.entry? r.operator = some e ∧
      r = recordOf e r.operator ∧ e.flags.shared = false := by
    intro r hr
    obtain rfl := List.mem_singleton.1 hr
    exact ⟨_, rfl, rfl, rfl⟩
  have hstorable : two.Storable truths :=
    storable_of_data hrecords (by decide) rfl ⟨by decide, by decide⟩
  have hbytes : two.toBytes = twoBytes := by decide +kernel
  have hpacked : two.packed = two := rfl
  have hreads := hstorable.reads isBuilt_truths portable_truths
  rwa [hbytes, hpacked] at hreads

/-- The truth value is read, and it is not clean. -/
theorem read_literals_two : read truths twoBytes = .ok (two, []) ∧ two.StoresBits truths ∧
    ¬ ValueType.bool.IsClean [.word 2] := by
  have hread : read truths (twoBytes ++ []) = .ok (two, []) := two_reads []
  rw [List.append_nil] at hread
  refine ⟨hread, ((read_literals truths twoBytes).1 two [] hread).1, fun hclean => ?_⟩
  have hbyte := hclean .bool rfl rfl 2 (by decide)
  exact absurd hbyte (by decide)

/-- Not all literals of the trees that are read store values. -/
theorem read_unstored : ¬ ∀ bytes t rest, read truths bytes = .ok (t, rest) →
    ∀ n ∈ t.nodes, ∀ e, truths.entry? n.record.operator = some e → e.operator.isLiteral = true →
      e.operator.returns.IsStored n.literal := by
  intro hall
  have hread : read truths (twoBytes ++ []) = .ok (two, []) := two_reads []
  have hstored : ValueType.bool.IsStored [.word 2] :=
    hall _ two [] hread ⟨⟨0, 8, ⟨true, false⟩⟩, [.word 2]⟩ (by decide) _ rfl rfl
  obtain ⟨x, hx⟩ := hstored
  cases x <;> exact absurd hx (by decide)

end Tree

end GeneticProgramming
