import GeneticProgramming.Proofs.Stream.RoundTrip

/-!
# Streams are read exactly

Whatever follows them, the bytes of a state are read as that state and no others are taken; so are
those of a population, of a tree and of statistics: `SavedState.write_restores`.  A stream tells
the records and the literal bytes of a tree, but not how these lie on pages, so trees are compared
by their images.
-/

namespace GeneticProgramming

open Reader

/-- An output is whole, and a reader finds in its bytes a value with a property; whatever follows
the bytes is left. -/
structure Output.Restores {α : Type} (o : Output) (r : Reader α) (P : α → Prop) : Prop where
  whole : o.failure = none
  found : ∀ rest, ∃ a, r (o.bytes ++ rest) = .ok (a, rest) ∧ P a

theorem Reader.Reads.restores {α : Type} {r : Reader α} {bytes : Bytes} {a : α} {P : α → Prop}
    (h : Reads r bytes a) (ha : P a) : (Output.ofBytes bytes).Restores r P := by
  constructor
  · rfl
  · intro rest
    exact ⟨a, h rest, ha⟩

/-- The records and the literal bytes of a tree. -/
def Tree.image (t : Tree) : List Record × Bytes := (t.records, t.literalBytes)

@[simp] theorem Tree.image_packed (t : Tree) : t.packed.image = t.image := by
  simp only [image, literalBytes, records_packed, contents_packed]

/-- The scores of an individual with the image of its tree. -/
def Individual.image (i : Individual) : Fitness × List Record × Bytes := (i.fitness, i.tree.image)

theorem Population.map_image_packed (pop : Population) :
    (pop.map Individual.packed).map Individual.image = pop.map Individual.image := by
  rw [List.map_map]
  apply List.map_congr_left
  intro i _
  exact congrArg (i.fitness, ·) i.tree.image_packed

namespace SavedState

variable {C : Type} {p : Palette C}

/-- Writing succeeds, and reading takes exactly what was written, whatever comes after it: the same
history and statistics, and individuals with the same scores, records and literal bytes. -/
theorem write_restores (hp : p.IsBuilt) (hport : p.Portable) :
    (∀ s : SavedState, (∀ i ∈ s.population, i.tree.Storable p) → s.Fits →
      (s.write p).Restores (read p) fun s' => s'.history = s.history ∧ s'.stats = s.stats ∧
        s'.population.map Individual.image = s.population.map Individual.image) ∧
    (∀ pop : Population, (∀ i ∈ pop, i.tree.Storable p) → pop.length < 2 ^ 64 →
      pop.write.Restores (Population.read p) fun pop' =>
        pop'.map Individual.image = pop.map Individual.image) ∧
    (∀ t : Tree, t.Storable p → t.write.Restores (Tree.read p) fun u => u.image = t.image) ∧
    ∀ s : Statistics, s.normalized.length < 2 ^ 64 →
      (Output.ofBytes s.toBytes).Restores Statistics.read fun s' => s' = s := by
  refine ⟨?state, ?population, ?tree, ?statistics⟩
  case state =>
    intro s hs hfits
    rw [write_eq fun i hi => (hs i hi).plain]
    exact (reads hp hport hs hfits).restores ⟨rfl, rfl, s.population.map_image_packed⟩
  case population =>
    intro pop hpop hlen
    rw [Population.write_eq fun i hi => (hpop i hi).plain]
    exact (Population.reads hp hport hpop hlen).restores pop.map_image_packed
  case tree =>
    intro t ht
    rw [Tree.write_eq ht.plain]
    exact (Tree.tree_reads hp hport ht.records ht.check ht.plain ht.fits).restores t.image_packed
  case statistics =>
    intro s hs
    exact (Statistics.reads hs).restores rfl

/-! ### Two letters -/

def letter : Operator Unit := ⟨none, .literal .uint8 (pure 97)⟩

def shift : Operator Unit := ⟨some "shift", .compute [.uint8, .uint8] .uint8 fun (a, b, _) => a + b⟩

def letters : Palette Unit :=
  ⟨⟨[.uint8]⟩, [⟨letter, 0, []⟩, ⟨shift, 0, [0, 0]⟩], [0], none⟩

/-- A letter shifted by another one, behind which an older word shows. -/
def shifted : Tree :=
  ⟨[⟨1, 8, ⟨false, false⟩⟩, ⟨0, 8, ⟨true, false⟩⟩, ⟨0, 8, ⟨true, false⟩⟩],
    Stack.empty.pushRun [.word 97, .word 0x1F03]⟩

/-- A generation of the tree and of none, the first one with a score that is no number. -/
def spelled : SavedState :=
  ⟨[.zero], .ofScores [.one], [⟨shifted, .unscored⟩, ⟨.empty, ⟨.one, .negZero, .infinity, -1⟩⟩]⟩

theorem isBuilt_letters : letters.IsBuilt := ⟨[letter, shift], none, rfl⟩

theorem portable_letters : letters.Portable := ⟨by decide, by decide, by decide⟩

theorem storable_shifted : shifted.Storable letters := by
  have hrecords : ∀ r ∈ shifted.records, ∃ e, letters.entry? r.operator = some e ∧
      r = Tree.recordOf e r.operator ∧ e.flags.shared = false := by
    intro r hr
    simp only [shifted, List.mem_cons, List.not_mem_nil, or_false] at hr
    rcases hr with rfl | rfl | rfl
    all_goals exact ⟨_, rfl, rfl, rfl⟩
  exact Tree.storable_of_data hrecords (by decide) rfl ⟨by decide, by decide⟩

theorem storable_empty : Tree.empty.Storable letters :=
  ⟨Tree.Sound.empty.1, rfl, fun r hr => absurd hr List.not_mem_nil, by decide, by decide⟩

theorem write_restores_letters : letters.IsBuilt ∧ letters.Portable ∧
    (∀ i ∈ spelled.population, i.tree.Storable letters) ∧ spelled.Fits ∧
    (spelled.write letters).Restores (read letters) fun s' =>
      s'.history = spelled.history ∧ s'.stats = spelled.stats ∧
        s'.population.map Individual.image = spelled.population.map Individual.image := by
  have htrees : ∀ i ∈ spelled.population, i.tree.Storable letters := by
    intro i hi
    simp only [spelled, List.mem_cons, List.not_mem_nil, or_false] at hi
    rcases hi with rfl | rfl
    · exact storable_shifted
    · exact storable_empty
  have hfits : spelled.Fits := by
    refine ⟨by decide, fun x hx => ?_, by decide⟩
    simp only [spelled, List.mem_cons, List.not_mem_nil, or_false] at hx
    rcases hx with rfl | rfl
    all_goals decide
  exact ⟨isBuilt_letters, portable_letters, htrees, hfits,
    (write_restores isBuilt_letters portable_letters).1 spelled htrees hfits⟩

end SavedState

end GeneticProgramming
