import GeneticProgramming.Proofs.Run.Cut

/-!
# Flushes that fail

A sync opens its file before it knows whether all that it is to write can be written.  A generation
that holds a shared literal cannot, so its flush breaks off within it, and what is out by then stays
in the file: behind all that it held, if the sync appends, and in the place of it, if the sync
overwrites.  No run takes such a piece for a state or a generation.  What was appended to is still
loaded as before, but what was overwritten is lost: `Run.failed_flush`.
-/

namespace GeneticProgramming

open Reader

variable {C : Type} {p : Palette C}

/-! ## Streams with something behind them -/

namespace Reader.IsExact

variable {α : Type} {r : Reader α} {s front rest : Bytes} {a : α}

/-- What is found in a stream is found there whatever is put behind it. -/
theorem read_append (hr : IsExact r) (h : r s = .ok (a, rest)) (more : Bytes) :
    r (s ++ more) = .ok (a, rest ++ more) := by
  obtain ⟨found, rfl, hneeds⟩ := hr s a rest h
  rw [List.append_assoc]
  exact hneeds.reads (rest ++ more)

/-- A front part of what could have been read is refused. -/
theorem refuses (hr : IsExact r) (hread : Reads r (front ++ rest) a) (hrest : rest ≠ []) :
    r front = .error .shortRead := by
  have hshort : front.length < (front ++ rest).length := by
    rw [List.length_append]
    exact Nat.lt_add_of_pos_right (List.length_pos_iff.2 hrest)
  have hstarves := hr.starves hread front.length hshort
  rwa [List.take_left' rfl] at hstarves

end Reader.IsExact

/-! ## Output that breaks off -/

theorem Output.append_broken (bytes : Bytes) (o : Output) :
    Output.ofBytes bytes ++ o = ⟨bytes ++ o.bytes, o.failure⟩ := rfl

/-- Nothing of a tree with a shared literal is written. -/
theorem Tree.write_broken {t : Tree} (h : ¬ t.IsPlain) :
    ∃ id, t.write = .fail (.unserializableValue id) := by
  cases hfind : t.records.find? (·.flags.shared) with
  | some r =>
    refine ⟨r.operator, ?_⟩
    rw [write, hfind]
  | none =>
    refine absurd (fun r hr => ?_) h
    exact Bool.eq_false_iff.2 (List.find?_eq_none.1 hfind r hr)

/-- An individual without its tree. -/
def Individual.bare (i : Individual) : Individual := { i with tree := .empty }

namespace Population

variable {pop : Population}

/-- What is out of a population when its first shared literal is met: all individuals before the one
that has it, and the scores of this one. -/
def Breaks (pop : Population) (out : Bytes) : Prop :=
  ∃ before x behind, pop = before ++ x :: behind ∧ (∀ i ∈ before, i.tree.IsPlain) ∧
    ¬ x.tree.IsPlain ∧ out = before.flatMap Individual.toBytes ++ x.fitness.toBytes

theorem concat_broken (h : ¬ ∀ i ∈ pop, i.tree.IsPlain) : ∃ out id, pop.Breaks out ∧
    Output.concat (pop.map Individual.write) = ⟨out, some (.unserializableValue id)⟩ := by
  induction pop with
  | nil => exact absurd (fun i hi => absurd hi List.not_mem_nil) h
  | cons i pop ih =>
    change ∃ out id, _ ∧ Output.append i.write (Output.concat (pop.map Individual.write)) = _
    by_cases hi : i.tree.IsPlain
    · have hpop : ¬ ∀ j ∈ pop, j.tree.IsPlain := fun hall => h (List.forall_mem_cons.2 ⟨hi, hall⟩)
      obtain ⟨out, id, ⟨before, x, behind, rfl, hbefore, hx, rfl⟩, hout⟩ := ih hpop
      refine ⟨_, id, ⟨i :: before, x, behind, rfl, ?_, hx, rfl⟩, ?_⟩
      · exact List.forall_mem_cons.2 ⟨hi, hbefore⟩
      · rw [hout, Individual.write_eq hi, List.flatMap_cons, List.append_assoc]
        rfl
    · obtain ⟨id, hwrite⟩ := Tree.write_broken hi
      refine ⟨i.fitness.toBytes, id, ⟨[], i, pop, rfl, ?_, hi, rfl⟩, ?_⟩
      · exact fun j hj => absurd hj List.not_mem_nil
      · have hout : i.write = ⟨i.fitness.toBytes, some (.unserializableValue id)⟩ := by
          rw [Individual.write, hwrite, Output.append_broken, Output.fail, List.append_nil]
        rw [hout]
        rfl

/-- A population that differs from another one only behind what is out of that, and can be stored. -/
theorem Breaks.exists_storable {out : Bytes} (h : pop.Breaks out)
    (hstorable : ∀ i ∈ pop, i.tree.IsPlain → i.tree.Storable p) :
    ∃ (patched : Population) (rest : Bytes), patched.length = pop.length ∧
      (∀ i ∈ patched, i.tree.Storable p) ∧
      patched.flatMap Individual.toBytes = out ++ rest ∧ rest ≠ [] := by
  obtain ⟨before, x, behind, rfl, hbefore, -, rfl⟩ := h
  have hbare : ∀ i : Individual, i.bare.tree.Storable p := fun i => Tree.Storable.empty p
  refine ⟨before ++ x.bare :: behind.map Individual.bare,
    Tree.empty.toBytes ++ (behind.map Individual.bare).flatMap Individual.toBytes, ?_, ?_, ?_, ?_⟩
  · simp only [List.length_append, List.length_cons, List.length_map]
  · intro i hi
    rcases List.mem_append.1 hi with hi | hi
    · exact hstorable i (List.mem_append_left _ hi) (hbefore i hi)
    · rcases List.mem_cons.1 hi with rfl | hi
      · exact hbare x
      · obtain ⟨j, -, rfl⟩ := List.mem_map.1 hi
        exact hbare j
  · rw [List.flatMap_append, List.flatMap_cons, Individual.toBytes, Individual.bare]
    simp only [List.append_assoc]
  · exact List.append_ne_nil_of_left_ne_nil (by decide) _

end Population

/-! ## What a sync writes -/

namespace Sync

section Definitions

variable (y : Sync) (r : Run C)

/-- What a sync writes of a run. -/
def output : Output :=
  match y.target with
  | .generation => r.writeGeneration
  | .state => r.writeState

/-- Loads what a sync writes. -/
def load (bytes : Bytes) : Except StreamError (Run C) :=
  match y.target with
  | .generation => r.loadGeneration bytes
  | .state => r.loadState bytes

/-- What a file holds when some bytes were written to it. -/
def leave (held bytes : Bytes) : Bytes :=
  match y.mode with
  | .append => held ++ bytes
  | .overwrite => bytes

/-- What outputs make of the bytes of a file, one after another. -/
def leaveAll (held : Bytes) (outputs : List Output) : Bytes :=
  outputs.foldl (fun held output => y.leave held output.bytes) held

end Definitions

variable {y : Sync} {r target loaded : Run C} {held bytes : Bytes} {files : Files} {name : String}

theorem leaveAll_append (y : Sync) (held : Bytes) (before after : List Output) :
    y.leaveAll held (before ++ after) = y.leaveAll (y.leaveAll held before) after :=
  List.foldl_append

/-- What a run loads from a stream, it loads from it whatever is put behind it. -/
theorem load_append (h : y.load target bytes = .ok loaded) (more : Bytes) :
    y.load target (bytes ++ more) = .ok loaded := by
  unfold load at h ⊢
  cases htarget : y.target with
  | generation =>
    rw [htarget] at h
    obtain ⟨⟨population, rest⟩, hread, h⟩ := exists_of_bind_eq_ok h
    dsimp only
    rw [Run.loadGeneration, StateT.run, (Population.read_isExact _).read_append hread more]
    exact h
  | state =>
    rw [htarget] at h
    obtain ⟨⟨saved, rest⟩, hread, h⟩ := exists_of_bind_eq_ok h
    dsimp only
    rw [Run.loadState, StateT.run, (SavedState.read_isExact _).read_append hread more]
    exact h

/-- Without shared literals, all is written, and it is loaded by each run of the palette. -/
theorem output_whole (hp : p.IsBuilt) (hport : p.Portable) (hpalette : r.palette = p)
    (hstorable : ∀ x ∈ r.population, x.tree.Storable p) (hsizes : r.saved.Fits) (y : Sync) :
    ∃ bytes, y.output r = .ofBytes bytes ∧
      ∀ target : Run C, target.palette = p → ∃ loaded, y.load target bytes = .ok loaded := by
  have hplain : ∀ x ∈ r.population, x.tree.IsPlain := fun x hx => (hstorable x hx).plain
  unfold output load
  cases y.target with
  | generation =>
    refine ⟨_, Population.write_eq hplain, fun target htarget => ?_⟩
    exact ⟨_, Run.loadGeneration_toBytes hp hport hstorable hsizes.population htarget⟩
  | state =>
    refine ⟨r.saved.toBytes p, ?_, fun target htarget => ?_⟩
    · rw [← hpalette]
      exact SavedState.write_eq hplain
    · exact ⟨_, Run.loadState_toBytes hp hport hstorable hsizes htarget⟩

/-- With a shared literal, a part is written, and no run of the palette loads it. -/
theorem output_broken (hp : p.IsBuilt) (hport : p.Portable) (hpalette : r.palette = p)
    (hstorable : ∀ x ∈ r.population, x.tree.IsPlain → x.tree.Storable p)
    (hshared : ¬ ∀ x ∈ r.population, x.tree.IsPlain) (hsizes : r.saved.Fits) (y : Sync) :
    ∃ part id, y.output r = ⟨part, some (.unserializableValue id)⟩ ∧ part ≠ [] ∧
      ∀ target : Run C, target.palette = p → y.load target part = .error .shortRead := by
  obtain ⟨out, id, hbreaks, hconcat⟩ := Population.concat_broken hshared
  obtain ⟨patched, rest, hlen, hpatched, hbytes, hrest⟩ := hbreaks.exists_storable hstorable
  have hsome : Bytes.ofNat r.population.length ++ out ≠ [] := by
    refine List.append_ne_nil_of_left_ne_nil (List.ne_nil_of_length_pos ?_) _
    rw [Bytes.ofNat, Bytes.ofWord, Word.length_bytes]
    decide
  have hwrite : r.population.write =
      ⟨Bytes.ofNat r.population.length ++ out, some (.unserializableValue id)⟩ := by
    rw [Population.write, hconcat]
    rfl
  have hpart : Bytes.ofList Individual.toBytes patched =
      (Bytes.ofNat r.population.length ++ out) ++ rest := by
    rw [Bytes.ofList, hlen, hbytes, List.append_assoc]
  unfold output load
  cases y.target with
  | generation =>
    refine ⟨_, id, hwrite, hsome, fun target htarget => ?_⟩
    have hreads := Population.reads hp hport hpatched (hlen ▸ hsizes.population)
    rw [hpart] at hreads
    dsimp only
    rw [Run.loadGeneration, htarget, StateT.run, (Population.read_isExact p).refuses hreads hrest]
    rfl
  | state =>
    have hfits : (SavedState.mk r.history r.stats patched).Fits :=
      ⟨hsizes.history, hsizes.shares, hlen ▸ hsizes.population⟩
    have hreads := SavedState.reads hp hport hpatched hfits
    rw [SavedState.toBytes, hpart, ← List.append_assoc] at hreads
    refine ⟨p.schemaBytes ++ Bytes.ofList Statistics.toBytes r.history ++ r.stats.toBytes ++
      (Bytes.ofNat r.population.length ++ out), id, ?_,
      List.append_ne_nil_of_right_ne_nil _ hsome, fun target htarget => ?_⟩
    · dsimp only
      rw [Run.writeState, SavedState.write, Run.saved, hwrite, hpalette]
      rfl
    · dsimp only
      rw [Run.loadState, htarget, StateT.run, (SavedState.read_isExact p).refuses hreads hrest]
      rfl

end Sync

/-! ## What a flush leaves in its file -/

namespace Files

variable {files : Files} {path name : String}

/-- The bytes of a file, none where it is not there. -/
def bytesOf (files : Files) (name : String) : Bytes := (files.get? name).getD []

theorem target_put (h : files.target path = .ok name) (other : String) (bytes : Bytes) :
    (files.put other bytes).target path = .ok name := by
  unfold target at h ⊢
  obtain ⟨l, hlocate, h⟩ := exists_of_bind_eq_ok h
  rw [locate_put hlocate]
  exact h

theorem read_put (h : files.target path = .ok name) (hname : name ≠ nullDevice) (bytes : Bytes) :
    (files.put name bytes).read path = .ok bytes := by
  obtain ⟨written, hwritten, hread⟩ := read_overwrite h hname bytes
  rw [overwrite, h] at hwritten
  injection hwritten with hwritten
  rwa [← hwritten, if_neg hname] at hread

theorem bytesOf_put (files : Files) (name : String) (bytes : Bytes) :
    (files.put name bytes).bytesOf name = bytes := by
  rw [bytesOf, get?_put_self]
  rfl

end Files

theorem Sync.flush_eq {y : Sync} {files : Files} {name : String}
    (h : files.target y.path = .ok name) (hname : name ≠ Files.nullDevice) (output : Output) :
    y.flush output files = files.put name (y.leave (files.bytesOf name) output.bytes) := by
  have hput : ∀ bytes, files.overwrite y.path bytes = .ok (files.put name bytes) := by
    intro bytes
    rw [Files.overwrite, h]
    exact congrArg Except.ok (if_neg hname)
  unfold flush leave
  cases y.mode with
  | append =>
    dsimp only
    rw [Files.append, h]
    change ((files.overwrite y.path _).toOption).getD files = _
    rw [hput]
    rfl
  | overwrite =>
    dsimp only
    rw [hput]
    rfl

namespace Run

variable {r : Run C} {y : Sync} {objective : Objective C} {files files' : Files} {s : Stepped C}
  {name : String} {flushed : List (Run C)}

/-- Whether the next step of a run reports and flushes. -/
def flushes (r : Run C) (y : Sync) : Bool :=
  !r.stopRequested && r.phase = .report && y.due r.generation

theorem flush_eq (hsync : r.sync = some y) (hdue : y.due r.generation = true) (files : Files) :
    r.flush files = y.flush (y.output r) files := by
  unfold flush Sync.output
  rw [hsync]
  exact if_pos hdue

theorem flush_eq_self (hsync : r.sync = some y) (hdue : y.due r.generation = false) (files : Files) :
    r.flush files = files := by
  unfold flush
  rw [hsync]
  dsimp only
  rw [hdue]
  exact if_neg Bool.false_ne_true

/-- A report does not fail, whatever becomes of its flush. -/
theorem step_of_report (hstop : r.stopRequested = false) (hphase : r.phase = .report)
    (objective : Objective C) (files : Files) : ∃ s, r.step objective files = .ok s ∧
      s.failure = none ∧ s.files = r.reported.flush files := by
  rw [step_eq_perform hstop, perform, hphase]
  exact ⟨_, rfl, rfl, rfl⟩

/-- Nothing but a report touches files. -/
theorem files_of_perform (h : r.perform objective files = .ok s) (hphase : r.phase ≠ .report) :
    s.files = files := by
  have hstepped : ∀ phase result, (stepped r files phase result).files = files := by
    intro phase result
    cases result with
    | ok next => rfl
    | error e => rfl
  unfold perform at h
  cases hcurrent : r.phase with
  | initial =>
    rw [hcurrent] at h
    obtain ⟨result, -, h⟩ := exists_of_bind_eq_ok h
    injection h with h
    rw [← h, hstepped]
  | evaluate =>
    rw [hcurrent] at h
    obtain ⟨⟨scored, result⟩, -, h⟩ := exists_of_bind_eq_ok h
    cases result with
    | ok solved =>
      injection h with h
      rw [← h]
    | error e =>
      injection h with h
      rw [← h]
  | report => exact absurd hcurrent hphase
  | selectAndVary =>
    rw [hcurrent] at h
    obtain ⟨result, -, h⟩ := exists_of_bind_eq_ok h
    injection h with h
    rw [← h, hstepped]
  | swap =>
    rw [hcurrent] at h
    injection h with h
    rw [← h]
  | terminate =>
    rw [hcurrent] at h
    injection h with h
    rw [← h]

theorem files_of_quiet_step (hs : r.step objective files = .ok s) (hphase : r.phase ≠ .report) :
    s.files = files := by
  unfold step at hs
  dsimp only at hs
  split at hs
  · exact files_of_perform hs nofun
  · exact files_of_perform hs hphase

/-- The files that a step leaves. -/
theorem files_of_step (hsync : r.sync = some y) (hs : r.step objective files = .ok s) :
    s.files = if r.flushes y then y.flush (y.output r.reported) files else files := by
  by_cases hphase : r.phase = .report
  · cases hstop : r.stopRequested with
    | true =>
      rw [step, hstop] at hs
      have hkept : s.files = files := files_of_perform hs (by rintro ⟨⟩)
      rw [hkept, flushes, hstop]
      rfl
    | false =>
      obtain ⟨s', hs', -, hfiles⟩ := step_of_report hstop hphase objective files
      rw [hs] at hs'
      injection hs' with hs'
      rw [hs', hfiles, flushes, hstop, decide_eq_true hphase]
      cases hdue : y.due r.generation with
      | true => exact flush_eq (r := r.reported) hsync hdue files
      | false => exact flush_eq_self (r := r.reported) hsync hdue files
  · rw [files_of_quiet_step hs hphase, flushes, decide_eq_false hphase, Bool.and_false]
    rfl

/-! ## One flush -/

/-- A run whose numbers of reports, of individuals and of their nodes and bytes are machine words. -/
structure Sized (r : Run C) : Prop where
  sizes : r.saved.Fits
  trees : ∀ x ∈ r.population, x.tree.Fits

/-- What comes of a file when a flush breaks off behind a part of its output.  No run of the palette
loads the part.  Where it is appended, all that was loaded from the file still is; where it
overwrites the file, nothing is. -/
structure Damages (p : Palette C) (y : Sync) (held part : Bytes) : Prop where
  nonempty : part ≠ []
  refused : ∀ target : Run C, target.palette = p → y.load target part = .error .shortRead
  appended : y.mode = .append → y.leave held part = held ++ part ∧
    ∀ target loaded : Run C, y.load target held = .ok loaded →
      y.load target (y.leave held part) = .ok loaded
  overwritten : y.mode = .overwrite → y.leave held part = part ∧
    ∀ target : Run C, target.palette = p →
      y.load target (y.leave held part) = .error .shortRead

theorem damages {held part : Bytes} (hsome : part ≠ [])
    (hrefused : ∀ target : Run C, target.palette = p → y.load target part = .error .shortRead) :
    Damages p y held part := by
  refine ⟨hsome, hrefused, fun hmode => ?_, fun hmode => ?_⟩
  · have hleave : y.leave held part = held ++ part := by rw [Sync.leave, hmode]
    refine ⟨hleave, fun target loaded hload => ?_⟩
    rw [hleave]
    exact Sync.load_append hload part
  · have hleave : y.leave held part = part := by rw [Sync.leave, hmode]
    refine ⟨hleave, fun target hpalette => ?_⟩
    rw [hleave]
    exact hrefused target hpalette

section Flush

variable (hp : p.IsBuilt) (hport : p.Portable) (hname : files.target y.path = .ok name)
  (hnull : name ≠ Files.nullDevice) (hr : Handled p r) (hsync : r.sync = some y)
  (hflushes : r.flushes y = true) (hsized : r.reported.Sized)

include hname hnull hsync hflushes in
/-- A report that flushes does not fail, and its output goes into the file as far as it came. -/
theorem step_of_flushes (objective : Objective C) : ∃ s, r.step objective files = .ok s ∧
    s.failure = none ∧
    s.files = files.put name (y.leave (files.bytesOf name) (y.output r.reported).bytes) := by
  have hreport : r.stopRequested = false ∧ r.phase = .report := by
    simp only [flushes, Bool.and_eq_true, Bool.not_eq_true', decide_eq_true_eq] at hflushes
    exact hflushes.1
  obtain ⟨s, hs, hfailure, -⟩ := step_of_report hreport.1 hreport.2 objective files
  refine ⟨s, hs, hfailure, ?_⟩
  rw [files_of_step hsync hs, if_pos hflushes, Sync.flush_eq hname hnull]

include hp hport hname hnull hr hsync hflushes hsized in
theorem flush_whole (hplain : ∀ x ∈ r.population, x.tree.IsPlain) (objective : Objective C) :
    ∃ s bytes, r.step objective files = .ok s ∧ s.failure = none ∧
      y.output r.reported = .ofBytes bytes ∧
      s.files = files.put name (y.leave (files.bytesOf name) bytes) ∧
      ∀ target : Run C, target.palette = p → ∃ loaded, y.load target bytes = .ok loaded := by
  obtain ⟨bytes, houtput, hloads⟩ := Sync.output_whole (r := r.reported) hp hport
    (hr.carries hp).palette
    (fun x hx => hr.storable hp hx (hplain x hx) (hsized.trees x hx)) hsized.sizes y
  obtain ⟨s, hs, hfailure, hfiles⟩ := step_of_flushes hname hnull hsync hflushes objective
  rw [houtput] at hfiles
  exact ⟨s, bytes, hs, hfailure, houtput, hfiles, hloads⟩

include hp hport hname hnull hr hsync hflushes hsized in
theorem flush_broken (hshared : ¬ ∀ x ∈ r.population, x.tree.IsPlain) (objective : Objective C) :
    ∃ s part id, r.step objective files = .ok s ∧ s.failure = none ∧
      y.output r.reported = ⟨part, some (.unserializableValue id)⟩ ∧
      s.files = files.put name (y.leave (files.bytesOf name) part) ∧
      Damages p y (files.bytesOf name) part := by
  obtain ⟨part, id, houtput, hsome, hrefused⟩ := Sync.output_broken (r := r.reported) hp hport
    (hr.carries hp).palette (fun x hx hplain => hr.storable hp hx hplain (hsized.trees x hx))
    hshared hsized.sizes y
  obtain ⟨s, hs, hfailure, hfiles⟩ := step_of_flushes hname hnull hsync hflushes objective
  rw [houtput] at hfiles
  exact ⟨s, part, id, hs, hfailure, houtput, hfiles, damages hsome hrefused⟩

end Flush

/-! ## Many flushes -/

/-- Steps of runs that keep a sync, one behind another, with the runs among them that flush.  Between
two steps, anything may be done to a run that leaves the sync alone. -/
inductive Syncing (p : Palette C) (y : Sync) (files : Files) : List (Run C) → Files → Prop where
  | start : Syncing p y files [] files
  | step {flushed : List (Run C)} {files' : Files} {r : Run C} {objective : Objective C}
      {s : Stepped C} : Syncing p y files flushed files' → Handled p r → r.sync = some y →
      r.step objective files' = .ok s →
      Syncing p y files (if r.flushes y then flushed ++ [r] else flushed) s.files

namespace Syncing

theorem handled (h : Syncing p y files flushed files') : ∀ r ∈ flushed, Handled p r := by
  induction h with
  | start => exact fun r hr => absurd hr List.not_mem_nil
  | step _ hr _ _ ih =>
    split
    · intro r' hr'
      rcases List.mem_append.1 hr' with hr' | hr'
      · exact ih r' hr'
      · exact List.mem_singleton.1 hr' ▸ hr
    · exact ih

/-- The file holds what was flushed, as the sync puts it there, and nothing else. -/
theorem held (h : Syncing p y files flushed files') (hname : files.target y.path = .ok name)
    (hnull : name ≠ Files.nullDevice) : files'.target y.path = .ok name ∧
      files'.bytesOf name =
        y.leaveAll (files.bytesOf name) (flushed.map fun r => y.output r.reported) := by
  induction h with
  | start => exact ⟨hname, rfl⟩
  | step _ _ hsync hs ih =>
    obtain ⟨htarget, hheld⟩ := ih
    rw [files_of_step hsync hs]
    split
    · rw [Sync.flush_eq htarget hnull]
      refine ⟨Files.target_put htarget _ _, ?_⟩
      rw [Files.bytesOf_put, hheld, List.map_append, Sync.leaveAll_append]
      rfl
    · exact ⟨htarget, hheld⟩

/-- After a flush the file can be read. -/
theorem read_eq {before : List (Run C)} {last : Run C}
    (h : Syncing p y files (before ++ [last]) files') (hname : files.target y.path = .ok name)
    (hnull : name ≠ Files.nullDevice) : files'.read y.path = .ok (files'.bytesOf name) := by
  generalize hflushed : before ++ [last] = flushed at h
  induction h generalizing before last with
  | start => exact absurd hflushed (by simp)
  | step hbefore _ hsync hs ih =>
    have htarget := (hbefore.held hname hnull).1
    rw [files_of_step hsync hs]
    split at hflushed
    · next hflushes =>
      rw [if_pos hflushes, Sync.flush_eq htarget hnull, Files.bytesOf_put]
      exact Files.read_put htarget hnull _
    · next hidle =>
      rw [if_neg hidle]
      exact ih hflushed

end Syncing

/-- A run that flushed all of its generation has left it where it can be loaded, if the sync
overwrites. -/
theorem Syncing.loads_last (hp : p.IsBuilt) (hport : p.Portable) {before : List (Run C)}
    {last : Run C} (h : Syncing p y files (before ++ [last]) files')
    (hname : files.target y.path = .ok name) (hnull : name ≠ Files.nullDevice)
    (hsized : last.reported.Sized) (hplain : ∀ x ∈ last.population, x.tree.IsPlain)
    (hmode : y.mode = .overwrite) {target : Run C} (hpalette : target.palette = p) :
    ∃ loaded, y.load target (files'.bytesOf name) = .ok loaded := by
  have hlast := h.handled last (List.mem_append_right _ (List.mem_singleton_self last))
  obtain ⟨bytes, hwrite, hloads⟩ := Sync.output_whole (r := last.reported) hp hport
    (hlast.carries hp).palette
    (fun x hx => hlast.storable hp hx (hplain x hx) (hsized.trees x hx)) hsized.sizes y
  have hheld : files'.bytesOf name = bytes := by
    rw [(h.held hname hnull).2, List.map_append, Sync.leaveAll_append]
    change y.leave _ (y.output last.reported).bytes = bytes
    rw [Sync.leave, hmode, hwrite]
    rfl
  rw [hheld]
  exact hloads target hpalette

/-- When a generation has a shared literal, a sync that is due fails, and the run goes on; but what
was written before the literal was met is in the file, which held exactly what was flushed before.
So the file is damaged.  If the last flush before was whole, the file is not what that one left, and
with a sync that overwrites it was loaded then by each run of the palette. -/
theorem failed_flush (hp : p.IsBuilt) (hport : p.Portable)
    (hsyncing : Syncing p y files flushed files') (hname : files.target y.path = .ok name)
    (hnull : name ≠ Files.nullDevice) (hr : Handled p r) (hsync : r.sync = some y)
    (hflushes : r.flushes y = true) (hsized : r.reported.Sized)
    (hshared : ¬ ∀ x ∈ r.population, x.tree.IsPlain) (objective : Objective C) :
    ∃ s part id held, r.step objective files' = .ok s ∧ s.failure = none ∧
      y.output r.reported = ⟨part, some (.unserializableValue id)⟩ ∧
      held = y.leaveAll (files.bytesOf name) (flushed.map fun r => y.output r.reported) ∧
      s.files.read y.path = .ok (y.leave held part) ∧ Damages p y held part ∧
      ∀ before last, flushed = before ++ [last] → last.reported.Sized →
        (∀ x ∈ last.population, x.tree.IsPlain) →
        files'.read y.path = .ok held ∧ y.leave held part ≠ held ∧
          (y.mode = .overwrite → ∀ target : Run C, target.palette = p →
            ∃ loaded, y.load target held = .ok loaded) := by
  obtain ⟨htarget, hheld⟩ := hsyncing.held hname hnull
  obtain ⟨s, part, id, hs, hfailure, houtput, hfiles, hdamages⟩ :=
    flush_broken hp hport htarget hnull hr hsync hflushes hsized hshared objective
  refine ⟨s, part, id, files'.bytesOf name, hs, hfailure, houtput, hheld, ?_, hdamages, ?_⟩
  · rw [hfiles]
    exact Files.read_put htarget hnull _
  · rintro before last rfl hlast hplain
    have hload : y.mode = .overwrite → ∀ target : Run C, target.palette = p →
        ∃ loaded, y.load target (files'.bytesOf name) = .ok loaded :=
      fun hmode target htarget =>
        hsyncing.loads_last hp hport hname hnull hlast hplain hmode htarget
    refine ⟨hsyncing.read_eq hname hnull, fun hsame => ?_, hload⟩
    cases hmode : y.mode with
    | append =>
      rw [(hdamages.appended hmode).1] at hsame
      exact hdamages.nonempty (List.append_right_eq_self.1 hsame)
    | overwrite =>
      -- the run itself would have loaded the file before, and does not load it any more
      have hpalette := (hr.carries hp).palette
      obtain ⟨loaded, hbefore⟩ := hload hmode r hpalette
      have hafter := (hdamages.overwritten hmode).2 r hpalette
      rw [hsame, hbefore] at hafter
      contradiction

/-! ### A run that meets a shared literal -/

instance (t : Tree) : Decidable t.IsPlain :=
  inferInstanceAs (Decidable (∀ r ∈ t.records, r.flags.shared = false))

instance (r : Run C) : Decidable r.Sized :=
  decidable_of_iff (r.history.length < 2 ^ 64 ∧
      (∀ x ∈ r.stats :: r.history, x.normalized.length < 2 ^ 64) ∧ r.population.length < 2 ^ 64 ∧
      ∀ x ∈ r.population, x.tree.size < 2 ^ 64 ∧ x.tree.values.size < 2 ^ 64)
    ⟨fun ⟨hhistory, hshares, hsize, htrees⟩ => ⟨⟨hhistory, hshares, hsize⟩,
        fun x hx => ⟨(htrees x hx).1, (htrees x hx).2⟩⟩,
      fun ⟨⟨hhistory, hshares, hsize⟩, htrees⟩ => ⟨hhistory, hshares, hsize,
        fun x hx => ⟨(htrees x hx).size, (htrees x hx).bytes⟩⟩⟩

def note : Operator Unit := ⟨none, .literal .text (pure "note")⟩

def blank : Operator Unit := ⟨some "blank", .compute [.text] .bool fun (x, _) => x.isEmpty⟩

/-- Truth values, drawn or told by a shared text. -/
def notes : Palette Unit :=
  ⟨⟨[.bool, .text]⟩, [⟨coin, 0, []⟩, ⟨note, 1, []⟩, ⟨blank, 0, [1]⟩], [0, 0], some 0⟩

/-- The first tree is one drawn truth value. -/
def budding : Configuration := { lone with initialDepth := ⟨0, 0⟩, seed := 0 }

theorem isBuilt_notes : notes.IsBuilt := ⟨[coin, note, blank], some (.scalar .bool), rfl⟩

theorem portable_notes : notes.Portable := ⟨by decide, by decide, by decide⟩

/-- What follows in one step. -/
def next? (s : Stepped Unit) : Option (Stepped Unit) := (s.run.step smallness s.files).toOption

def Next (s t : Stepped Unit) : Prop := s.run.step smallness s.files = .ok t

/-- Whether a run is about to flush, and its sizes are machine words. -/
def isFlushing (r : Run Unit) : Bool :=
  r.sync = some keeping && r.flushes keeping && decide r.reported.Sized

/-- Whether a run does not report in its next step. -/
def isQuiet (s : Stepped Unit) : Bool := s.run.phase ≠ .report

theorem exists_damaging : ∃ start s, Run.new notes budding = .ok (.ok start) ∧
    runFor smallness 2 { start with sync := some keeping } .empty = .ok s ∧
    (s.run.isFlushing && decide (∀ x ∈ s.run.population, x.tree.IsPlain) &&
      decide (s.files = .empty) && (next? s).any fun first => isQuiet first &&
      (next? first).any fun chosen => isQuiet chosen && (next? chosen).any fun swapped =>
      isQuiet swapped && (next? swapped).any fun bred => bred.run.isFlushing &&
      decide (¬ ∀ x ∈ bred.run.population, x.tree.IsPlain)) = true :=
  exists_of_trial (f := fun start => runFor smallness 2 { start with sync := some keeping } .empty)
    (by decide +kernel)

theorem next_of_any {s : Stepped Unit} {test : Stepped Unit → Bool} (h : (next? s).any test = true) :
    ∃ t, Next s t ∧ test t = true := by
  obtain ⟨t, ht, htest⟩ := (Option.any_eq_true _ _).1 h
  exact ⟨t, eq_ok_of_toOption ht, htest⟩

theorem isFlushing_iff {r : Run Unit} : r.isFlushing = true ↔
    r.sync = some keeping ∧ r.flushes keeping = true ∧ r.reported.Sized := by
  simp only [isFlushing, Bool.and_eq_true, decide_eq_true_eq, and_assoc]

/-- The steps of a run that flushes its first generation, and breeds a shared literal for the next
one. -/
structure TwoFlushes (start : Run Unit) (s first chosen swapped bred : Stepped Unit) : Prop where
  new : Run.new notes budding = .ok (.ok start)
  scored : runFor smallness 2 { start with sync := some keeping } .empty = .ok s
  reports : Next s first
  varies : Next first chosen
  swaps : Next chosen swapped
  scores : Next swapped bred
  untouched : s.files = .empty
  kept : bred.files = first.files
  flushes : s.run.isFlushing = true ∧ bred.run.isFlushing = true
  plain : ∀ x ∈ s.run.population, x.tree.IsPlain
  shared : ¬ ∀ x ∈ bred.run.population, x.tree.IsPlain

namespace TwoFlushes

variable {start : Run Unit} {s first chosen swapped bred : Stepped Unit}

theorem exists_twoFlushes : ∃ start s first chosen swapped bred,
    TwoFlushes start s first chosen swapped bred := by
  obtain ⟨start, s, hnew, hrun, htest⟩ := exists_damaging
  simp only [Bool.and_eq_true, decide_eq_true_eq] at htest
  obtain ⟨⟨⟨hflushes, hplain⟩, huntouched⟩, htest⟩ := htest
  obtain ⟨first, hfirst, htest⟩ := next_of_any htest
  obtain ⟨hfirstQuiet, htest⟩ := Bool.and_eq_true_iff.1 htest
  obtain ⟨chosen, hchosen, htest⟩ := next_of_any htest
  obtain ⟨hchosenQuiet, htest⟩ := Bool.and_eq_true_iff.1 htest
  obtain ⟨swapped, hswapped, htest⟩ := next_of_any htest
  obtain ⟨hswappedQuiet, htest⟩ := Bool.and_eq_true_iff.1 htest
  obtain ⟨bred, hbred, htest⟩ := next_of_any htest
  obtain ⟨hbredFlushes, hshared⟩ := Bool.and_eq_true_iff.1 htest
  have hquiet : ∀ {s t : Stepped Unit}, isQuiet s = true → Next s t → t.files = s.files :=
    fun hs ht => files_of_quiet_step ht (of_decide_eq_true hs)
  refine ⟨start, s, first, chosen, swapped, bred, hnew, hrun, hfirst, hchosen, hswapped, hbred,
    huntouched, ?_, ⟨hflushes, hbredFlushes⟩, hplain, of_decide_eq_true hshared⟩
  rw [hquiet hswappedQuiet hbred, hquiet hchosenQuiet hswapped, hquiet hfirstQuiet hchosen]

variable (h : TwoFlushes start s first chosen swapped bred)

include h

theorem palette : start.palette = notes := (IsTyped.of_new isBuilt_notes h.new).palette

theorem handled : Handled notes s.run ∧ Handled notes bred.run := by
  have hs : Handled notes s.run := runFor_induction .step (.sync (some keeping) (.new h.new)) h.scored
  exact ⟨hs, (((hs.step h.reports).step h.varies).step h.swaps).step h.scores⟩

end TwoFlushes

theorem target_keeping : Files.empty.target keeping.path = .ok "state" := by cbv

/-- A drawn truth value is flushed, and then a shared text meets the sync. -/
theorem failed_flush_notes : notes.IsBuilt ∧ notes.Portable ∧ ∃ (start : Run Unit)
    (s first chosen swapped bred second : Stepped Unit) (part held : Bytes) (id : OperatorId),
    TwoFlushes start s first chosen swapped bred ∧ Syncing notes keeping .empty [s.run] bred.files ∧
    Files.empty.target keeping.path = .ok "state" ∧ "state" ≠ Files.nullDevice ∧
    Handled notes bred.run ∧ bred.run.sync = some keeping ∧ bred.run.flushes keeping = true ∧
    bred.run.reported.Sized ∧ (¬ ∀ x ∈ bred.run.population, x.tree.IsPlain) ∧ Next bred second ∧
    keeping.output bred.run.reported = ⟨part, some (.unserializableValue id)⟩ ∧
    second.files.read keeping.path = .ok (keeping.leave held part) ∧
    Damages notes keeping held part ∧ bred.files.read keeping.path = .ok held ∧
    keeping.leave held part ≠ held ∧ ∃ loaded, start.loadState held = .ok loaded := by
  obtain ⟨start, s, first, chosen, swapped, bred, h⟩ := TwoFlushes.exists_twoFlushes
  obtain ⟨hsync, hflushes, hsized⟩ := isFlushing_iff.1 h.flushes.1
  obtain ⟨hsync', hflushes', hsized'⟩ := isFlushing_iff.1 h.flushes.2
  have hsyncing : Syncing notes keeping .empty [s.run] bred.files := by
    have hfirst := Syncing.step .start h.handled.1 hsync h.reports
    rw [if_pos hflushes, h.untouched] at hfirst
    rw [h.kept]
    exact hfirst
  have hnull : "state" ≠ Files.nullDevice := by decide
  obtain ⟨second, part, id, held, hsecond, -, houtput, -, hread, hdamages, hlast⟩ :=
    failed_flush isBuilt_notes portable_notes hsyncing target_keeping hnull h.handled.2 hsync'
      hflushes' hsized' h.shared smallness
  obtain ⟨hheld, hne, hloads⟩ := hlast [] s.run rfl hsized h.plain
  exact ⟨isBuilt_notes, portable_notes, start, s, first, chosen, swapped, bred, second, part, held,
    id, h, hsyncing, target_keeping, hnull, h.handled.2, hsync', hflushes', hsized', h.shared,
    hsecond, houtput, hread, hdamages, hheld, hne, hloads rfl start h.palette⟩

/-- What the first flush left is loaded; the second one, which fails, leaves something else in its
place, which is not. -/
theorem overwritten_state_lost : ∃ (start : Run Unit)
    (s first chosen swapped bred second : Stepped Unit) (held part : Bytes) (id : OperatorId),
    Run.new notes budding = .ok (.ok start) ∧
    runFor smallness 2 { start with sync := some keeping } .empty = .ok s ∧
    Next s first ∧ Next first chosen ∧ Next chosen swapped ∧ Next swapped bred ∧ Next bred second ∧
    keeping.output s.run.reported = .ofBytes held ∧ first.files.read keeping.path = .ok held ∧
    (∃ loaded, start.loadState held = .ok loaded) ∧
    keeping.output bred.run.reported = ⟨part, some (.unserializableValue id)⟩ ∧
    second.failure = none ∧ second.files.read keeping.path = .ok part ∧
    start.loadState part = .error .shortRead ∧ part ≠ held := by
  obtain ⟨start, s, first, chosen, swapped, bred, h⟩ := TwoFlushes.exists_twoFlushes
  obtain ⟨hsync, hflushes, hsized⟩ := isFlushing_iff.1 h.flushes.1
  obtain ⟨hsync', hflushes', hsized'⟩ := isFlushing_iff.1 h.flushes.2
  have hnull : "state" ≠ Files.nullDevice := by decide
  have htarget : s.files.target keeping.path = .ok "state" := h.untouched ▸ target_keeping
  obtain ⟨first', held, hfirst, -, hheld, hfiles, hloads⟩ := flush_whole isBuilt_notes portable_notes
    htarget hnull h.handled.1 hsync hflushes hsized h.plain smallness
  obtain rfl : first' = first := Except.ok.inj (hfirst.symm.trans h.reports)
  have htarget' : bred.files.target keeping.path = .ok "state" := by
    rw [h.kept, hfiles]
    exact Files.target_put htarget _ _
  obtain ⟨second, part, id, hsecond, hfailure, hpart, hfiles', hdamages⟩ :=
    flush_broken isBuilt_notes portable_notes htarget' hnull h.handled.2 hsync' hflushes' hsized'
      h.shared smallness
  obtain ⟨loaded, hload⟩ := hloads start h.palette
  have hrefused := hdamages.refused start h.palette
  refine ⟨start, s, first', chosen, swapped, bred, second, held, part, id, h.new, h.scored,
    h.reports, h.varies, h.swaps, h.scores, hsecond, hheld, ?_, ⟨loaded, hload⟩, hpart, hfailure,
    ?_, hrefused, ?_⟩
  · rw [hfiles]
    exact Files.read_put htarget hnull _
  · rw [hfiles']
    exact Files.read_put htarget' hnull _
  · rintro rfl
    rw [hload] at hrefused
    contradiction

end Run

end GeneticProgramming
