import GeneticProgramming.Proofs.Run.Alike
import GeneticProgramming.Proofs.Stream.RoundTrip

/-!
# Resumed runs

A state that is saved right after a generation was reported, and loaded into a fresh run, is alike
to the run that it was saved from.  What the state does not hold is made anew from it: the
generation is told by the length of the history, preparations of selectors are forgotten before
they are used, and random streams belong to slots.  So the resumed run ends as the uninterrupted
one: `Run.finish_resumed`.
-/

namespace GeneticProgramming

open GeneticProgramming.Tree

variable {C : Type} {p : Palette C}

/-! ## Files -/

namespace Files

variable {files : Files} {path name : String}

theorem enter_put {l next : Location} {step : String} (h : files.enter l step = .ok next)
    (bytes : Bytes) : (files.put name bytes).enter l step = .ok next := by
  unfold enter at h ⊢
  have hsame : (files.put name bytes).isDirectory (l.step step) = files.isDirectory (l.step step) :=
    rfl
  dsimp only at h ⊢
  rw [hsame]
  split at h
  · next hdirectory => rw [if_pos hdirectory]; exact h
  · obtain ⟨_, -, h⟩ := exists_of_bind_eq_ok h
    split at h <;> contradiction

/-- A path that leads somewhere leads there after a file was put, since it leads through directories
only. -/
theorem locate_put {l : Location} (h : files.locate path = .ok l) {bytes : Bytes} :
    (files.put name bytes).locate path = .ok l := by
  have hfold : ∀ {names : List String} {first last : Location},
      names.foldlM files.enter first = .ok last →
        names.foldlM (files.put name bytes).enter first = .ok last := by
    intro names first last h
    induction names generalizing first with
    | nil => exact h
    | cons step names ih =>
      rw [List.foldlM_cons] at h ⊢
      obtain ⟨next, hnext, h⟩ := exists_of_bind_eq_ok h
      rw [enter_put hnext]
      exact ih h
  unfold locate at h ⊢
  obtain ⟨hempty, h⟩ := past_of_eq_ok h
  obtain ⟨hzero, h⟩ := past_of_eq_ok h
  obtain ⟨hlong, h⟩ := past_of_eq_ok h
  obtain ⟨directory, hdirectory, h⟩ := exists_of_bind_eq_ok h
  rw [if_neg hempty, if_neg hzero, if_neg hlong]
  dsimp only
  rw [hfold hdirectory]
  exact h

/-- A file that could be written to holds what was written last. -/
theorem read_overwrite (h : files.target path = .ok name) (hname : name ≠ nullDevice)
    (bytes : Bytes) : ∃ written, files.overwrite path bytes = .ok written ∧
      written.read path = .ok bytes := by
  refine ⟨files.put name bytes, ?_, ?_⟩
  · unfold overwrite
    rw [h]
    exact congrArg Except.ok (if_neg hname)
  · unfold target at h
    obtain ⟨l, hlocate, h⟩ := exists_of_bind_eq_ok h
    obtain ⟨hplace, h⟩ := past_of_eq_ok h
    obtain ⟨_, hcheck, h⟩ := exists_of_bind_eq_ok h
    injection h with h
    subst h
    rw [Bool.or_eq_true, not_or, Bool.not_eq_true, Bool.not_eq_true] at hplace
    have hdirectory : (files.put l.path bytes).isDirectory l = false := hplace.2
    have hcontent : (files.put l.path bytes).content? l = some bytes := by
      rw [content?, if_neg hname, get?_put_self]
    unfold read
    simp only [locate_put hlocate, hdirectory, hcheck, hcontent, hplace.1, bind, Except.bind, pure,
      Except.pure, Bool.false_eq_true, if_false]

end Files

/-- A sync that overwrites its file leaves there what it flushed last. -/
theorem Sync.read_flush {y : Sync} {files : Files} {name : String} (hmode : y.mode = .overwrite)
    (hname : files.target y.path = .ok name) (hnull : name ≠ Files.nullDevice) (bytes : Bytes) :
    (y.flush (.ofBytes bytes) files).read y.path = .ok bytes := by
  obtain ⟨written, hwritten, hread⟩ := Files.read_overwrite hname hnull bytes
  rw [Sync.flush, hmode]
  dsimp only [Output.ofBytes]
  rw [hwritten]
  exact hread

/-! ## Packed trees -/

namespace Tree

variable {t : Tree}

theorem packed_alike (t : Tree) : t.packed.Alike t := ⟨rfl, contents_packed t⟩

theorem packed_individuals_alike (pop : Population) : pop.Alike (pop.map Individual.packed) :=
  List.forall₂_map_right_iff.2 (List.forall₂_same.2 fun x _ => ⟨(packed_alike x.tree).symm, rfl⟩)

/-- A palette without shared literals makes none. -/
theorem Over.isPlain (h : t.Over p) (hp : ∀ e ∈ p.entries, e.flags.shared = false) :
    t.IsPlain := by
  intro r hr
  obtain ⟨e, he, hrecord⟩ := h.entry hr
  rw [hrecord]
  exact hp e (List.mem_of_getElem? he)

theorem Storable.sound_packed (hp : p.IsBuilt) (hport : p.Portable) (h : t.Storable p) :
    t.packed.Sound p :=
  (read_yields p _ _ _ (h.reads hp hport [])).1

theorem Proper.storable {type : TypeId} (h : t.Proper p type) (hplain : t.IsPlain)
    (hfits : t.Fits) : t.Storable p :=
  ⟨h.sound.1, h.check, hplain, hfits⟩

theorem Proper.packed {type : TypeId} (hp : p.IsBuilt) (hport : p.Portable) (h : t.Proper p type)
    (hplain : t.IsPlain) (hfits : t.Fits) : t.packed.Proper p type :=
  ⟨(h.storable hplain hfits).sound_packed hp hport, h.spells⟩

end Tree

namespace Run

variable {r r' start : Run C} {c : Configuration} {root : TypeId}

/-- A run that is about to breed has a whole population. -/
theorem Invariant.whole_of_selectAndVary (h : Invariant p c root r)
    (hphase : r.phase = .selectAndVary) : Whole p c root r.population := by
  refine h.whole ?_ ?_
  all_goals
    rw [hphase]
    nofun

/-! ## Ending alike -/

/-- Two runs are over for the same reason, with the same history, after the same generation, and
with alike populations. -/
structure EndsAlike (s s' : Stepped C) : Prop where
  ended : s.IsOver
  ended' : s'.IsOver
  failure : s.failure = s'.failure
  history : s.run.history = s'.run.history
  generation : s.run.generation = s'.run.generation
  population : s.run.population.Alike s'.run.population

theorem Alike.finish {objective : Objective C} (hp : p.IsBuilt) (hvalid : c.Valid)
    (hknown : root < p.types.count) (hpure : objective.IsPure p) (h : r.Alike r')
    (hr : Invariant p c root r) (hr' : Invariant p c root r') (files files' : Files) :
    Agree EndsAlike (r.finish objective files) (r'.finish objective files') := by
  have hsteps :
      4 * r.configuration.maxGenerations + 8 = 4 * r'.configuration.maxGenerations + 8 := by
    rw [h.configuration]
  have hruns := h.runFor hp hvalid hknown hpure hr hr'
    (4 * r.configuration.maxGenerations + 8) files files'
  rcases hruns with ⟨s, s', hs, hs', hrun, hfailure⟩ | ⟨e, hs, hs'⟩
  · rw [hsteps] at hs'
    exact .inl ⟨s, s', hs, hs', finish_isOver hs, finish_isOver hs', hfailure, hrun.history,
      hrun.generation, hrun.population⟩
  · rw [hsteps] at hs'
    exact .inr ⟨e, hs, hs'⟩

/-! ## Loading what was saved -/

/-- What is loaded into a fresh run is alike to the run that it was saved from. -/
theorem resume_alike {variation : Weights} (hr : Invariant p c root r) (hvalid : c.Valid)
    (hledger : Ledger (fresh p c root variation) r) (hphase : r.phase = .selectAndVary)
    (hsolved : r.solved = false) (hstop : r.stopRequested = false) (sync : Option Sync) :
    r.Alike (resume { fresh p c root variation with sync }
      { r.saved with population := r.population.map Individual.packed }) := by
  have hwhole := hr.whole_of_selectAndVary hphase
  have hpopulation := packed_individuals_alike r.population
  have hcount := hledger.reported
  rw [hphase] at hcount
  refine ⟨hr.palette, hr.configuration, hr.root, hledger.variation, hledger.selectors, hpopulation,
    fun hswap => ?_, rfl, rfl, ?_, ?_, hsolved, hstop⟩
  · rw [hphase] at hswap
    contradiction
  · change r.generation = r.history.length - 1
    rw [hcount, Nat.add_sub_cancel]
  · have hempty : (r.population.map Individual.packed).isEmpty = false := by
      rw [List.isEmpty_map, List.isEmpty_eq_false_iff]
      exact hwhole.ne_nil hvalid
    change r.phase = if (r.population.map Individual.packed).isEmpty then _ else _
    rw [hempty, hphase]
    rfl

theorem resume_invariant (hp : p.IsBuilt) (hport : p.Portable) (variation : Weights)
    {pop : Population} (hpop : Whole p c root pop) (hplain : ∀ x ∈ pop, x.tree.IsPlain)
    (hfits : ∀ x ∈ pop, x.tree.Fits) (sync : Option Sync) (history : List Statistics)
    (stats : Statistics) : Invariant p c root (resume { fresh p c root variation with sync }
      ⟨history, stats, pop.map Individual.packed⟩) := by
  refine .of_whole rfl rfl rfl ⟨by rw [← hpop.size]; exact List.length_map _, fun x hx => ?_⟩ ?_
  · obtain ⟨y, hy, rfl⟩ := List.mem_map.1 hx
    obtain ⟨hproper, hdepth⟩ := hpop.allowed y hy
    exact ⟨hproper.packed hp hport (hplain y hy) (hfits y hy), (packed_alike y.tree).depth ▸ hdepth⟩
  · change (if _ then _ else _) ≠ _
    split <;> nofun

/-- The bytes of a state are loaded by any run of its palette. -/
theorem loadState_toBytes (hp : p.IsBuilt) (hport : p.Portable) {s : SavedState}
    (hstorable : ∀ x ∈ s.population, x.tree.Storable p) (hwide : s.Fits) (hpalette : r.palette = p) :
    r.loadState (s.toBytes p) =
      .ok (r.resume { s with population := s.population.map Individual.packed }) := by
  have hread := SavedState.reads hp hport hstorable hwide []
  rw [List.append_nil] at hread
  unfold loadState
  rw [hpalette, StateT.run, hread]
  rfl

/-- A run that goes on after a report writes a state that any run of its palette can load. -/
theorem loadState_writeState (hp : p.IsBuilt) (hport : p.Portable) (hr : Invariant p c root r)
    (hledger : Ledger start r) (hphase : r.phase = .selectAndVary)
    (hsize : c.populationSize < 2 ^ 64) (hlast : r.generation + 1 < 2 ^ 64)
    (hplain : ∀ x ∈ r.population, x.tree.IsPlain) (hfits : ∀ x ∈ r.population, x.tree.Fits) :
    ∃ bytes, r.writeState = .ofBytes bytes ∧ ∀ r' : Run C, r'.palette = p →
      r'.loadState bytes = .ok
        (r'.resume { r.saved with population := r.population.map Individual.packed }) := by
  have hwhole := hr.whole_of_selectAndVary hphase
  have hcount := hledger.reported
  rw [hphase] at hcount
  have hstorable : ∀ x ∈ r.saved.population, x.tree.Storable p := fun x hx =>
    (hwhole.allowed x hx).proper.storable (hplain x hx) (hfits x hx)
  have hwide : r.saved.Fits := by
    refine ⟨?_, fun x hx => Nat.lt_of_le_of_lt (hledger.shares x hx) ?_, ?_⟩
    · exact Nat.lt_of_le_of_lt (Nat.le_of_eq hcount) hlast
    · rw [hr.configuration]
      exact hsize
    · exact Nat.lt_of_le_of_lt (Nat.le_of_eq hwhole.size) hsize
  refine ⟨r.saved.toBytes p, ?_, fun r' => loadState_toBytes hp hport hstorable hwide⟩
  rw [writeState, hr.palette]
  exact SavedState.write_eq hplain

/-- A sync that is due writes the state of the run that has reported. -/
theorem flush_reported {y : Sync} {bytes : Bytes} (hsync : r.sync = some y)
    (htarget : y.target = .state) (hdue : y.due r.generation = true)
    (hwrite : r.reported.writeState = .ofBytes bytes) (files : Files) :
    r.reported.flush files = y.flush (.ofBytes bytes) files := by
  have hsync : r.reported.sync = some y := hsync
  have hdue : y.due r.reported.generation = true := hdue
  unfold flush
  rw [hsync]
  dsimp only
  rw [if_pos hdue, htarget, hwrite]

/-- A run that reported a generation and goes on ends as it would have without a halt. -/
theorem finish_reported {objective : Objective C} {steps : Nat} {files : Files} {s : Stepped C}
    (hrun : r.runFor objective steps files = .ok s) (hphase : s.run.phase = .report)
    (hreport : s.run.step objective s.files =
      .ok ⟨s.run.reported, s.run.reported.flush s.files, none⟩) :
    r.finish objective files =
      s.run.reported.finish objective (s.run.reported.flush s.files) := by
  have hnot : ¬ s.IsOver := by
    rintro (hfails | hends)
    · rw [failure_of_runFor hrun hphase] at hfails
      contradiction
    · rw [hphase] at hends
      contradiction
  have hon : ¬ Stepped.IsOver ⟨s.run.reported, s.run.reported.flush s.files, none⟩ := by
    rintro (h | h) <;> contradiction
  rw [finish_eq hrun hnot]
  exact finish_eq (m := 1) (runFor_of_step hreport hon 0) hon

/-- A run that is saved right after it reported a generation, whether by itself or by a sync, can be
loaded into any fresh run of its palette and configuration, and both end alike: they fail with the
same fault or error, or have the same history, the same last generation, and the same individuals in
the same places.  Sizes are machine words, and the trees that are saved hold no references; without
shared literals in the palette none does (`Tree.Over.isPlain`). -/
theorem finish_resumed {objective : Objective C} (hp : p.IsBuilt) (hport : p.Portable)
    (hsize : c.populationSize < 2 ^ 64) (hlast : c.maxGenerations < 2 ^ 64)
    (hpure : objective.IsPure p) (hnew : Run.new p c = .ok (.ok start)) {sync : Option Sync}
    {steps : Nat} {files : Files} {s : Stepped C}
    (hrun : runFor objective steps { start with sync } files = .ok s)
    (hphase : s.run.phase = .report) (hsolved : s.run.solved = false)
    (hgoes : s.run.generation < c.maxGenerations)
    (hplain : ∀ x ∈ s.run.population, x.tree.IsPlain)
    (hfits : ∀ x ∈ s.run.population, x.tree.Fits) :
    ∃ reported bytes, s.run.step objective s.files = .ok reported ∧ reported.failure = none ∧
      reported.run.generation = s.run.generation ∧
      reported.run.history = s.run.history ++ [s.run.stats] ∧
      reported.run.writeState = .ofBytes bytes ∧
      (∀ y, s.run.sync = some y → y.target = .state → y.due s.run.generation = true →
        reported.files = y.flush (.ofBytes bytes) s.files ∧
        ∀ name, y.mode = .overwrite → s.files.target y.path = .ok name →
          name ≠ Files.nullDevice → reported.files.read y.path = .ok bytes) ∧
      ∀ sync' files', ∃ loaded, loadState { start with sync := sync' } bytes = .ok loaded ∧
        Agree EndsAlike (finish { start with sync } objective files)
          (loaded.finish objective files') := by
  obtain ⟨hvalid, hknown, -⟩ := invariant_of_new hp hnew
  obtain ⟨-, root, variation, -, -, rfl⟩ := new_eq_ok hnew
  have hreached : Reached (fresh p c root variation) s.run := (Reached.sync sync .refl).runFor hrun
  have hinvariant : Invariant p c root s.run := hreached.invariant hp hnew
  have hledger : Ledger (fresh p c root variation) s.run :=
    hreached.ledger hp hnew (ledger_fresh p c root variation)
  have hstop : s.run.stopRequested = false := (keeps_of_runFor hrun).stopRequested
  have hunfinished : s.run.isFinished = false := by
    rw [isFinished, hsolved, hinvariant.configuration, decide_eq_false (Nat.not_le.2 hgoes)]
    rfl
  have hreport := step_report hphase hstop hunfinished objective s.files
  have hr : Invariant p c root s.run.reported := (hinvariant.step hp hvalid hknown hreport).1
  have hr' : Ledger (fresh p c root variation) s.run.reported :=
    hledger.step hinvariant.length_le hreport
  obtain ⟨bytes, hwrite, hload⟩ :=
    loadState_writeState hp hport hr hr' rfl hsize (Nat.lt_of_le_of_lt hgoes hlast) hplain hfits
  refine ⟨_, bytes, hreport, rfl, rfl, rfl, hwrite, fun y hy htarget hdue => ?_,
    fun sync' files' => ?_⟩
  · have hflush := flush_reported hy htarget hdue hwrite s.files
    refine ⟨hflush, fun name hmode hname hnull => ?_⟩
    rw [hflush]
    exact Sync.read_flush hmode hname hnull bytes
  · refine ⟨_, hload _ rfl, ?_⟩
    have hwhole : Whole p c root s.run.reported.population := hr.whole_of_selectAndVary rfl
    have halike := resume_alike hr hvalid hr' rfl hsolved hstop sync'
    have hloaded := resume_invariant hp hport variation hwhole hplain hfits sync'
      s.run.reported.history s.run.reported.stats
    rw [finish_reported hrun hphase hreport]
    exact halike.finish hp hvalid hknown hpure hr hloaded _ _

/-! ### A lone run that is saved -/

theorem portable_coins : coins.Portable := ⟨by decide, by decide, by decide⟩

theorem isPure_smallness : smallness.IsPure coins := by
  intro t u i _ _ h
  unfold smallness
  rw [h.size]

/-- Keeps the last reported state. -/
def keeping : Sync := ⟨.always, .overwrite, .state, "state"⟩

/-- Whether a run is about to report and sync a first generation of storable trees, none of which is
a solution. -/
def reportsFirst (s : Stepped Unit) : Bool :=
  s.run.phase = .report && !s.run.solved && s.run.generation = 0 && s.run.sync = some keeping &&
    s.run.population.all fun x => x.tree.records.all (!·.flags.shared) &&
      x.tree.size < 2 ^ 64 && x.tree.values.size < 2 ^ 64

theorem exists_reporting : ∃ start s, Run.new coins lone = .ok (.ok start) ∧
    runFor smallness 2 { start with sync := some keeping } .empty = .ok s ∧
      reportsFirst s = true :=
  exists_of_trial (f := fun start => runFor smallness 2 { start with sync := some keeping } .empty)
    (by decide +kernel)

theorem finish_resumed_coins : coins.IsBuilt ∧ coins.Portable ∧ lone.populationSize < 2 ^ 64 ∧
    lone.maxGenerations < 2 ^ 64 ∧ smallness.IsPure coins ∧
    ∃ start s, Run.new coins lone = .ok (.ok start) ∧
      runFor smallness 2 { start with sync := some keeping } .empty = .ok s ∧
      s.run.phase = .report ∧ s.run.solved = false ∧ s.run.generation < lone.maxGenerations ∧
      (∀ x ∈ s.run.population, x.tree.IsPlain) ∧ (∀ x ∈ s.run.population, x.tree.Fits) ∧
      ∃ reported bytes, s.run.step smallness s.files = .ok reported ∧
        reported.run.writeState = .ofBytes bytes ∧
        reported.files = keeping.flush (.ofBytes bytes) s.files ∧
        ∃ loaded, start.loadState bytes = .ok loaded ∧
          Agree EndsAlike (finish { start with sync := some keeping } smallness .empty)
            (loaded.finish smallness .empty) := by
  obtain ⟨start, s, hnew, hrun, hreports⟩ := exists_reporting
  simp only [reportsFirst, Bool.and_eq_true, decide_eq_true_eq, Bool.not_eq_true', List.all_eq_true]
    at hreports
  obtain ⟨⟨⟨⟨hphase, hsolved⟩, hgeneration⟩, hsync⟩, htrees⟩ := hreports
  have hgoes : s.run.generation < lone.maxGenerations := hgeneration ▸ by decide
  have hplain : ∀ x ∈ s.run.population, x.tree.IsPlain := fun x hx r hr => (htrees x hx).1.1 r hr
  have hfits : ∀ x ∈ s.run.population, x.tree.Fits := fun x hx =>
    ⟨(htrees x hx).1.2, (htrees x hx).2⟩
  obtain ⟨reported, bytes, hstep, -, -, -, hwrite, hflush, hload⟩ :=
    finish_resumed isBuilt_coins portable_coins (by decide) (by decide) isPure_smallness hnew hrun
      hphase hsolved hgoes hplain hfits
  obtain ⟨loaded, hloaded, hends⟩ := hload start.sync .empty
  exact ⟨isBuilt_coins, portable_coins, by decide, by decide, isPure_smallness, start, s, hnew,
    hrun, hphase, hsolved, hgoes, hplain, hfits, reported, bytes, hstep, hwrite,
    (hflush keeping hsync rfl rfl).1, loaded, hloaded, hends⟩

end Run

end GeneticProgramming
