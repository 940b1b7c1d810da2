import GeneticProgramming.Proofs.Run.Handling
import GeneticProgramming.Proofs.Stream.Truncation

/-!
# Loading from streams that are cut

A run that loads puts nothing into itself before all of its stream is read.  So a stream that breaks
off, wherever it does, is refused as too short, and the run is as it was: `Run.cut_refused`.
-/

namespace GeneticProgramming

namespace Run

variable {C : Type} {p : Palette C} {source target loaded : Run C} {bytes : Bytes}

/-! ## Calls that load -/

/-- What is done to a run.  What has been put into the run stays there, even if the call fails
then. -/
abbrev Call (C : Type) := ExceptT StreamError (StateM (Run C))

/-- Calls a run: the answer, and what has become of the run. -/
def call (r : Run C) (c : Call C Unit) : Except StreamError Unit × Run C := c.run.run r

namespace Call

/-- Reads a stream, and puts what was found into the run. -/
def load {α : Type} (read : Palette C → Reader α) (install : α → Call C Unit) (bytes : Bytes) :
    Call C Unit := do
  match (read (← get).palette).run bytes with
  | .ok (found, _) => install found
  | .error e => throw e

/-- Puts a state into a run, one field after the other. -/
def installState (saved : SavedState) : Call C Unit := do
  modify fun r => { r with generation := saved.history.length - 1 }
  modify fun r => { r with history := saved.history }
  modify fun r => { r with stats := saved.stats }
  modify fun r => { r with population := saved.population }
  modify fun r => { r with next := [] }
  modify fun r => { r with solved := false }
  modify fun r => { r with phase := if r.population.isEmpty then .initial else .selectAndVary }

def installGeneration (population : Population) : Call C Unit := do
  modify fun r => { r with population }
  modify fun r => { r with next := [] }
  modify fun r => { r with solved := false }
  modify fun r => { r with phase := .evaluate }

def loadState : Bytes → Call C Unit := load SavedState.read installState

def loadGeneration : Bytes → Call C Unit := load Population.read installGeneration

end Call

section Load

variable {α : Type} {read : Palette C → Reader α} {install : α → Call C Unit} {found : α}
  {rest : Bytes} {e : StreamError}

theorem call_load_of_ok (h : read target.palette bytes = .ok (found, rest)) :
    target.call (.load read install bytes) = target.call (install found) := by
  change target.call (match (read target.palette).run bytes with
    | .ok (found, _) => install found
    | .error e => throw e) = _
  rw [StateT.run, h]

/-- A stream that is refused leaves the run alone. -/
theorem call_load_of_error (h : read target.palette bytes = .error e) :
    target.call (.load read install bytes) = (.error e, target) := by
  change target.call (match (read target.palette).run bytes with
    | .ok (found, _) => install found
    | .error e => throw e) = _
  rw [StateT.run, h]
  rfl

end Load

/-- A load that is done in place is the one that is done at once. -/
theorem call_loadState (target : Run C) (bytes : Bytes) :
    target.call (.loadState bytes) = match target.loadState bytes with
      | .ok loaded => (.ok (), loaded)
      | .error e => (.error e, target) := by
  unfold loadState
  cases hread : SavedState.read target.palette bytes with
  | ok out =>
    rw [Call.loadState, call_load_of_ok hread, StateT.run, hread]
    rfl
  | error e =>
    rw [Call.loadState, call_load_of_error hread, StateT.run, hread]
    rfl

theorem call_loadGeneration (target : Run C) (bytes : Bytes) :
    target.call (.loadGeneration bytes) = match target.loadGeneration bytes with
      | .ok loaded => (.ok (), loaded)
      | .error e => (.error e, target) := by
  unfold loadGeneration
  cases hread : Population.read target.palette bytes with
  | ok out =>
    rw [Call.loadGeneration, call_load_of_ok hread, StateT.run, hread]
    rfl
  | error e =>
    rw [Call.loadGeneration, call_load_of_error hread, StateT.run, hread]
    rfl

/-! ## Cut streams -/

/-- What any run saves is loaded by each run of its palette; but cut anywhere before its end, the
stream is refused as too short, and the run that loads is as it was. -/
theorem cut_refused (hp : p.IsBuilt) (hport : p.Portable) (hsource : Handled p source)
    (hpalette : target.palette = p) :
    (∀ bytes, source.Saves bytes →
      (∃ loaded, target.call (.loadState bytes) = (.ok (), loaded)) ∧
      ∀ n < bytes.length,
        target.call (.loadState (bytes.take n)) = (.error .shortRead, target)) ∧
    ∀ bytes, source.SavesGeneration bytes →
      (∃ loaded, target.call (.loadGeneration bytes) = (.ok (), loaded)) ∧
      ∀ n < bytes.length,
        target.call (.loadGeneration (bytes.take n)) = (.error .shortRead, target) := by
  have hsourcePalette := (hsource.carries hp).palette
  constructor
  · intro bytes hsaves
    have hcall := call_loadState target bytes
    rw [hsource.loadState_eq hp hport hsaves hpalette] at hcall
    refine ⟨⟨_, hcall⟩, fun n hn => call_load_of_error ?_⟩
    have hreads : Reader.Reads (SavedState.read p) (source.saved.toBytes p) _ :=
      SavedState.reads hp hport
        (fun x hx => hsource.storable hp hx (hsaves.isPlain x hx) (hsaves.trees x hx)) hsaves.sizes
    rw [hsaves.bytes_eq, hsourcePalette] at hn ⊢
    rw [hpalette]
    exact (SavedState.read_isExact p).starves hreads n hn
  · intro bytes hsaves
    have hcall := call_loadGeneration target bytes
    rw [hsource.loadGeneration_eq hp hport hsaves hpalette] at hcall
    refine ⟨⟨_, hcall⟩, fun n hn => call_load_of_error ?_⟩
    have hreads := Population.reads hp hport
      (fun x hx => hsource.storable hp hx (hsaves.isPlain x hx) (hsaves.trees x hx)) hsaves.size
    rw [hsaves.bytes_eq] at hn ⊢
    rw [hpalette]
    exact (Population.read_isExact p).starves hreads n hn

/-- A run that stands behind its first report is loaded by a fresh one, but not without its last
byte. -/
theorem cut_refused_coins : coins.IsBuilt ∧ coins.Portable ∧ ∃ start source bytes,
    Run.new coins lone = .ok (.ok start) ∧ Handled coins source ∧ start.palette = coins ∧
    source.phase = .selectAndVary ∧ source.Saves bytes ∧ 0 < bytes.length ∧
    (∃ loaded, start.call (.loadState bytes) = (.ok (), loaded)) ∧
    start.call (.loadState (bytes.take (bytes.length - 1))) = (.error .shortRead, start) := by
  obtain ⟨start, s, hnew, hrun, htest⟩ := exists_selecting
  simp only [Bool.and_eq_true, decide_eq_true_eq] at htest
  obtain ⟨hphase, hsavable⟩ := htest
  have hsource : Handled coins s.run := runFor_induction .step (.new hnew) hrun
  have hpalette := (IsTyped.of_new isBuilt_coins hnew).palette
  have hsaves := saves_of_isSavable hsavable
  have hsome : 0 < s.run.writeState.bytes.length := by
    rw [hsaves.bytes_eq, SavedState.toBytes, Palette.schemaBytes, Bytes.ofList]
    simp only [List.length_append, Bytes.ofNat, Bytes.ofWord, Word.length_bytes]
    omega
  obtain ⟨hstate, -⟩ := cut_refused isBuilt_coins portable_coins hsource hpalette
  obtain ⟨hload, hcut⟩ := hstate _ hsaves
  exact ⟨isBuilt_coins, portable_coins, start, s.run, _, hnew, hsource, hpalette, hphase, hsaves,
    hsome, hload, hcut _ (Nat.sub_lt hsome Nat.one_pos)⟩

end Run

end GeneticProgramming
