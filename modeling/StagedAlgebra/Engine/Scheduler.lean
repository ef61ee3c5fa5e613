import StagedAlgebra.Stage

/-!
# Running the stages of a wave

The stages of a wave do not need each other's records. They are run in the order given, and the
first failure ends the wave. What the tasks share and change is passed on from one to the next.
-/

namespace StagedAlgebra

/-- How stages are run. -/
structure Scheduler where
  /-- How many stages may run at once. -/
  maxParallel : Nat
  /-- At least one may. -/
  maxParallel_pos : 0 < maxParallel

namespace Scheduler

/-- The scheduler with a limit; a limit of zero counts as one. -/
def ofLimit (limit : Nat) : Scheduler :=
  ⟨max limit 1, by omega⟩

/-- Starts a scheduler, or tells why it cannot be started. A scheduler that runs one stage after
another needs nothing that it could be refused. -/
def start (limit : Nat) : Except String Scheduler :=
  .ok (ofLimit limit)

/-- Runs the stages of a wave with a task. -/
def runWave (task : σ → Stage → Except ε β × σ) (state : σ) :
    List Stage → Except ε (List β) × σ
  | [] => (.ok [], state)
  | stage :: rest =>
    match task state stage with
    | (.error fault, state) => (.error fault, state)
    | (.ok report, state) =>
      let (outcome, state) := runWave task state rest
      (outcome.map (report :: ·), state)

/-- A wave that runs to its end has one report a stage. -/
theorem length_of_runWave {task : σ → Stage → Except ε β × σ} {state : σ} {stages : List Stage}
    {reports : List β} (h : (runWave task state stages).1 = .ok reports) :
    reports.length = stages.length := by
  induction stages generalizing state reports with
  | nil =>
    simp only [runWave, Except.ok.injEq] at h
    simp [← h]
  | cons stage rest ih =>
    simp only [runWave] at h
    split at h
    · cases h
    · rename_i report next _
      cases hr : (runWave task next rest).1 with
      | error fault => simp [hr, Except.map] at h
      | ok more =>
        simp only [hr, Except.map, Except.ok.injEq] at h
        simp [← h, ih hr]

end Scheduler

end StagedAlgebra
