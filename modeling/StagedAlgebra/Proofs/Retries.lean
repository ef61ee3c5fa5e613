import StagedAlgebra.Proofs.Schedules
import StagedAlgebra.Proofs.StoredOutputs

/-!
# Retries

A failure that is asked for at the start of a stage costs one attempt and nothing else. If no more
failures are asked for than there are retries, a run in memory brings out what it brings out
without them, and only the numbers of attempts tell the difference: the first stage with a label
uses up what is asked for there. If more are asked for, the first stage with such a label fails
with all of its attempts.

## Implementation notes

In memory the work of a stage either succeeds or changes nothing, and it does not see the fail
points. So a stage is one piece of work after as many failures as are asked for
(`runStage_of_armed_le`), and two runs that differ in their fail points alone go through the same
states (`runInOrder_of_calm_eq`).
-/

namespace StagedAlgebra

namespace FailPoints

/-- How many failures are asked for at the start of the stages with a label. -/
def armed (p : FailPoints) (label : String) : Nat :=
  (p.left.get? (startPoint label)).getD 0

theorem startPoint_inj {a b : String} : startPoint a = startPoint b ↔ a = b := by
  constructor
  · intro h
    have lists := congrArg String.toList h
    simpa [startPoint, String.toList_inj] using lists
  · rintro rfl
    rfl

theorem armed_arm (p : FailPoints) (label : String) (times : Nat) :
    (p.arm (startPoint label) times).armed = Function.update p.armed label times := by
  funext other
  by_cases same : other = label
  · subst same
    simp [armed, arm, Table.get?_insert]
  · have apart : startPoint label ≠ startPoint other := fun h => same (startPoint_inj.mp h).symm
    simp [armed, arm, Table.get?_insert, apart, Function.update_of_ne same]

/-- A start point either lets a run pass and changes nothing, or uses up one failure. -/
theorem hit_startPoint_cases (p : FailPoints) (label : String) :
    (p.armed label = 0 ∧ p.hit (startPoint label) = (false, p)) ∨
      ∃ left q, p.armed label = left + 1 ∧ p.hit (startPoint label) = (true, q) ∧
        q.armed = Function.update p.armed label left := by
  cases found : p.left.get? (startPoint label) with
  | none => exact .inl ⟨by simp [armed, found], by simp [hit, found]⟩
  | some count =>
      cases count with
      | zero => exact .inl ⟨by simp [armed, found], by simp [hit, found]⟩
      | succ left =>
          refine .inr ⟨left, p.arm (startPoint label) left, by simp [armed, found], ?_,
            armed_arm p label left⟩
          simp [hit, found]

end FailPoints

/-- What a report says about records. -/
def StageReport.counts (r : StageReport) : StepId × OperatorKind × Nat × Nat :=
  (r.step, r.kind, r.recordsIn, r.recordsOut)

/-- What a run brings out, apart from how often stages were tried: the records, their digest, and
how many records each stage took and made. -/
def RunOutput.result (o : RunOutput) :
    List Record × Digest × List (StepId × OperatorKind × Nat × Nat) :=
  (o.records, .ofRecords o.records, o.reports.map StageReport.counts)

/-- The first of the stages with a label is tried once more than failures are asked for there, the
others once. -/
def TriedAsArmed (p : FailPoints) (stages : List Stage) (reports : List StageReport) : Prop :=
  reports.length = stages.length ∧
    ∀ before s after, stages = before ++ s :: after → ∀ r, reports[before.length]? = some r →
      r.step = s.step ∧
        r.attempts = if s.label ∈ before.map (·.label) then 1 else p.armed s.label + 1

namespace Engine

variable {g : StageGraph} {e e' x y : Engine} {s : Stage} {stages : List Stage}

/-- An engine without fail points. -/
def calm (e : Engine) : Engine :=
  { e with failPoints := {} }

/-- The objects of an engine are in memory. -/
def InMemory (e : Engine) : Prop :=
  ∃ objects, e.storage = .memory objects

@[simp] theorem calm_calm (e : Engine) : e.calm.calm = e.calm := rfl

theorem eq_of_calm_eq (h : x.calm = y.calm) : y = { x with failPoints := y.failPoints } := by
  cases x
  cases y
  simp only [calm, mk.injEq, and_true] at h
  rw [h.1, h.2]

theorem inputRecords_failPoints (e : Engine) (p : FailPoints) (g : StageGraph)
    (steps : List StepId) :
    ({ e with failPoints := p } : Engine).inputRecords g steps = e.inputRecords g steps := by
  induction steps with
  | nil => rfl
  | cons step rest ih =>
      have first : ({ e with failPoints := p } : Engine).stepRecords g step =
          e.stepRecords g step := rfl
      simp only [inputRecords, first, ih]

theorem applyOperator_failPoints (e : Engine) (p : FailPoints) (g : StageGraph) (s : Stage)
    (op : Operator) :
    ({ e with failPoints := p } : Engine).applyOperator g s op = e.applyOperator g s op := by
  simp only [applyOperator, inputRecords_failPoints]

/-- Work neither sees nor changes fail points. -/
theorem doWork_failPoints (e : Engine) (p : FailPoints) (g : StageGraph) (s : Stage) :
    ({ e with failPoints := p } : Engine).doWork g s =
      ((e.doWork g s).1, { (e.doWork g s).2 with failPoints := p }) := by
  unfold doWork
  cases s.spec.work with
  | error fault => rfl
  | ok task =>
      cases task with
      | offer => rfl
      | apply op =>
          dsimp only
          rw [applyOperator_failPoints]
          cases e.applyOperator g s op with
          | error fault => rfl
          | ok both =>
              dsimp only
              cases e.storage.writeOutput e.settings.environment s.step both.2 with
              | mk outcome storage => cases outcome <;> rfl

theorem failPoints_doWork (e : Engine) (g : StageGraph) (s : Stage) :
    (e.doWork g s).2.failPoints = e.failPoints := by
  have points := doWork_failPoints e e.failPoints g s
  exact congrArg (·.2.failPoints) points

section Memory

variable {result : Except RunFault (Nat × Nat) × Engine}

/-- In memory nothing is refused, so work that fails changes nothing. -/
theorem WorkOutcome.eq_of_error (h : WorkOutcome e g s result) (memory : e.InMemory)
    {fault : RunFault} (failed : result.1 = .error fault) : result.2 = e := by
  obtain ⟨objects, stored⟩ := memory
  cases h with
  | unbuilt | stuck | offered => rfl
  | @refused op taken made _ storage _ _ written =>
      obtain ⟨objects', accepted, -⟩ :=
        Storage.exists_writeOutput objects e.settings.environment s.step made
      rw [stored, accepted] at written
      cases written
  | stored => cases failed

theorem WorkOutcome.inMemory (h : WorkOutcome e g s result) (memory : e.InMemory) :
    result.2.InMemory := by
  obtain ⟨objects, stored⟩ := memory
  cases h with
  | unbuilt | stuck | offered => exact ⟨objects, stored⟩
  | @refused op taken made _ storage _ _ written
  | @stored op taken made _ storage _ _ written =>
      obtain ⟨objects', accepted, -⟩ :=
        Storage.exists_writeOutput objects e.settings.environment s.step made
      rw [stored, accepted, Prod.mk.injEq] at written
      exact ⟨objects', written.2.symm⟩

end Memory

theorem InMemory.doWork (memory : e.InMemory) (g : StageGraph) (s : Stage) :
    (e.doWork g s).2.InMemory :=
  (e.workOutcome g s).inMemory memory

theorem InMemory.failPoints (memory : e.InMemory) (p : FailPoints) :
    ({ e with failPoints := p } : Engine).InMemory :=
  memory

theorem attempt_of_armed_eq_zero (h : e.failPoints.armed s.label = 0) :
    e.attempt g s = e.doWork g s := by
  obtain ⟨-, passes⟩ | ⟨left, q, some_left, -⟩ := e.failPoints.hit_startPoint_cases s.label
  · simp only [attempt, passes]
  · omega

theorem attempt_of_armed_eq_succ {left : Nat} (h : e.failPoints.armed s.label = left + 1) :
    ∃ q, q.armed = Function.update e.failPoints.armed s.label left ∧
      e.attempt g s = (.error (.stage s.step .injected), { e with failPoints := q }) := by
  obtain ⟨none_left, -⟩ | ⟨left', q, some_left, fails, after⟩ :=
    e.failPoints.hit_startPoint_cases s.label
  · omega
  · obtain rfl : left' = left := by omega
    exact ⟨q, after, by simp only [attempt, fails]⟩

/-- The report of a stage that took and made some records. -/
def reportOf (s : Stage) (attempts : Nat) (counts : Nat × Nat) : StageReport :=
  ⟨s.step, s.spec.kind, counts.1, counts.2, attempts⟩

/-- Without failures asked for, a stage that fails fails with each of its attempts. -/
theorem runStage_of_armed_eq_zero (memory : e.InMemory) (g : StageGraph)
    (h : e.failPoints.armed s.label = 0) (tried retries : Nat) :
    e.runStage g s tried retries =
      ((e.doWork g s).1.map (reportOf s (tried + 1)), (e.doWork g s).2) := by
  have work := e.workOutcome g s
  induction retries generalizing tried with
  | zero =>
      rw [runStage, attempt_of_armed_eq_zero h]
      cases e.doWork g s with
      | mk outcome e₁ => cases outcome <;> rfl
  | succ retries ih =>
      rw [runStage, attempt_of_armed_eq_zero h]
      cases ran : e.doWork g s with
      | mk outcome e₁ =>
          cases outcome with
          | ok counts => rfl
          | error fault =>
              rw [ran] at work
              obtain rfl : e₁ = e := work.eq_of_error memory rfl
              dsimp only
              rw [ih, ran]
              rfl

/-- A stage is done by one piece of work, after as many failures as are asked for. -/
theorem runStage_of_armed_le (memory : e.InMemory) (g : StageGraph) {retries : Nat}
    (h : e.failPoints.armed s.label ≤ retries) (tried : Nat) :
    ∃ q, q.armed = Function.update e.failPoints.armed s.label 0 ∧
      e.runStage g s tried retries =
        ((e.doWork g s).1.map (reportOf s (tried + e.failPoints.armed s.label + 1)),
          { (e.doWork g s).2 with failPoints := q }) := by
  induction retries generalizing e tried with
  | zero =>
      have zero : e.failPoints.armed s.label = 0 := by omega
      refine ⟨e.failPoints, by rw [← zero, Function.update_eq_self], ?_⟩
      rw [runStage_of_armed_eq_zero memory g zero, zero, ← failPoints_doWork e g s]
  | succ retries ih =>
      cases count : e.failPoints.armed s.label with
      | zero =>
          refine ⟨e.failPoints, by rw [← count, Function.update_eq_self], ?_⟩
          rw [runStage_of_armed_eq_zero memory g count, ← failPoints_doWork e g s]
      | succ left =>
          -- The failure uses up one attempt, and the rest of the stage sees one failure less.
          obtain ⟨q, spent, failed⟩ := attempt_of_armed_eq_succ (g := g) count
          have fewer : ({ e with failPoints := q } : Engine).failPoints.armed s.label = left := by
            simp [spent]
          obtain ⟨q', after, ran⟩ := ih (memory.failPoints q) (by omega) (tried + 1)
          refine ⟨q', by rw [after, spent, Function.update_idem], ?_⟩
          rw [fewer, doWork_failPoints] at ran
          simp only [runStage, failed, ran, Prod.mk.injEq, and_true]
          congr 2
          omega

/-- Every attempt at a stage fails if more failures are asked for than there are retries. -/
theorem attemptStates_of_lt_armed {retries : Nat} (h : retries < e.failPoints.armed s.label) :
    (e.attemptStates g s retries).length = retries + 1 ∧
      ∀ x ∈ e.attemptStates g s retries,
        (x.attempt g s).1 = .error (.stage s.step .injected) := by
  induction retries generalizing e with
  | zero =>
      obtain ⟨left, count⟩ := Nat.exists_eq_add_one_of_ne_zero (Nat.ne_zero_of_lt h)
      obtain ⟨q, -, failed⟩ := attempt_of_armed_eq_succ (g := g) count
      simp [attemptStates, failed]
  | succ retries ih =>
      obtain ⟨left, count⟩ := Nat.exists_eq_add_one_of_ne_zero (Nat.ne_zero_of_lt h)
      obtain ⟨q, spent, failed⟩ := attempt_of_armed_eq_succ (g := g) count
      have fewer : retries < ({ e with failPoints := q } : Engine).failPoints.armed s.label := by
        simp [spent]
        omega
      obtain ⟨length, all⟩ := ih fewer
      simp only [attemptStates, failed, List.length_cons, length, List.mem_cons, forall_eq_or_imp,
        true_and]
      exact all

theorem runStage_of_lt_armed {retries : Nat} (h : retries < e.failPoints.armed s.label)
    (tried : Nat) :
    (e.runStage g s tried retries).1 = .error (.stage s.step .injected) := by
  have attempts := (attemptStates_of_lt_armed (g := g) h).2
  cases ran : e.runStage g s tried retries with
  | mk outcome e₁ =>
      cases outcome with
      | ok report =>
          obtain ⟨x, hx, taken, made, last, -⟩ := runStage_eq_ok ran
          have failed := attempts x hx
          rw [last] at failed
          cases failed
      | error fault =>
          obtain ⟨x, hx, last⟩ := runStage_eq_error ran
          have failed := attempts x hx
          rw [last, Except.error.injEq] at failed
          rw [failed]

/-- No more failures are asked for at some stages than there are retries. -/
def Bearable (e : Engine) (stages : List Stage) : Prop :=
  ∀ s ∈ stages, e.failPoints.armed s.label ≤ e.settings.stageRetries

theorem Bearable.of_update (h : e.Bearable (s :: stages)) (settings : e'.settings = e.settings)
    (points : e'.failPoints.armed = Function.update e.failPoints.armed s.label 0) :
    e'.Bearable stages := by
  intro t ht
  rw [settings, points]
  by_cases same : t.label = s.label
  · simp [same]
  · rw [Function.update_of_ne same]
    exact h t (by simp [ht])

theorem bearable_calm (e : Engine) (stages : List Stage) : e.calm.Bearable stages :=
  fun _ _ => Nat.zero_le _

/-- A stage does the same whatever failures are asked for, if there are retries enough. -/
theorem runStage_of_calm_eq (alike : x.calm = y.calm) (memory : x.InMemory) (g : StageGraph)
    {retries : Nat} (hx : x.failPoints.armed s.label ≤ retries)
    (hy : y.failPoints.armed s.label ≤ retries) :
    ∃ (outcome : Except RunFault (Nat × Nat)) (x₁ y₁ : Engine),
      x.runStage g s 0 retries = (outcome.map (reportOf s (x.failPoints.armed s.label + 1)), x₁) ∧
      y.runStage g s 0 retries = (outcome.map (reportOf s (y.failPoints.armed s.label + 1)), y₁) ∧
      x₁.calm = y₁.calm ∧ x₁.InMemory ∧ x₁.settings = x.settings ∧
      x₁.failPoints.armed = Function.update x.failPoints.armed s.label 0 ∧
      y₁.failPoints.armed = Function.update y.failPoints.armed s.label 0 := by
  have other := eq_of_calm_eq alike
  have memory' : y.InMemory := by
    rw [other]
    exact memory
  obtain ⟨q, spent, ran⟩ := runStage_of_armed_le memory g hx 0
  obtain ⟨q', spent', ran'⟩ := runStage_of_armed_le memory' g hy 0
  have work : y.doWork g s =
      ((x.doWork g s).1, { (x.doWork g s).2 with failPoints := y.failPoints }) := by
    rw [← doWork_failPoints, ← other]
  rw [Nat.zero_add] at ran ran'
  rw [work] at ran'
  exact ⟨_, _, _, ran, ran', rfl, memory.doWork g s, settings_doWork x g s, spent, spent'⟩

/-- Runs that differ in their fail points alone go through the same states, if there are retries
enough in both. -/
theorem runInOrder_of_calm_eq (alike : x.calm = y.calm) (memory : x.InMemory) (g : StageGraph)
    (hx : x.Bearable stages) (hy : y.Bearable stages) :
    (x.runInOrder g stages).1.map (List.map StageReport.counts) =
        (y.runInOrder g stages).1.map (List.map StageReport.counts) ∧
      (x.runInOrder g stages).2.calm = (y.runInOrder g stages).2.calm := by
  induction stages generalizing x y with
  | nil => exact ⟨rfl, alike⟩
  | cons s rest ih =>
      have settings : y.settings = x.settings := (congrArg (·.settings) alike).symm
      have few := hy s (by simp)
      rw [settings] at few
      obtain ⟨outcome, x₁, y₁, ran, ran', alike', memory', same, spent, spent'⟩ :=
        runStage_of_calm_eq alike memory g (hx s (by simp)) few
      rw [← settings] at ran'
      cases outcome with
      | error fault =>
          rw [runInOrder_cons_of_error ran, runInOrder_cons_of_error ran']
          exact ⟨rfl, alike'⟩
      | ok counts =>
          have same' : y₁.settings = y.settings := by
            rw [settings, ← same]
            exact (congrArg (·.settings) alike').symm
          obtain ⟨outcomes, states⟩ :=
            ih alike' memory' (hx.of_update same spent) (hy.of_update same' spent')
          rw [runInOrder_cons_of_ok ran, runInOrder_cons_of_ok ran']
          refine ⟨?_, states⟩
          revert outcomes
          cases (x₁.runInOrder g rest).1 <;> cases (y₁.runInOrder g rest).1 <;>
            simp [Except.map, reportOf, StageReport.counts]

/-- A run that has got through some stages has used up what was asked for at their labels. -/
theorem Reaches.armed_eq (memory : e.InMemory) (h : e.Bearable stages)
    (reached : e.Reaches g stages e') :
    e'.InMemory ∧ ∀ label, e'.failPoints.armed label =
      if label ∈ stages.map (·.label) then 0 else e.failPoints.armed label := by
  refine Reaches.invariant
    (P := fun done x => x.InMemory ∧ ∀ label, x.failPoints.armed label =
      if label ∈ done.map (·.label) then 0 else e.failPoints.armed label)
    ⟨memory, by simp⟩ ?_ (List.append_nil stages).symm reached
  rintro before s after e₁ e₂ report order - ⟨inMemory, used⟩ ran
  have few : e₁.failPoints.armed s.label ≤ e.settings.stageRetries := by
    rw [used]
    split
    · exact Nat.zero_le _
    · exact h s (by simp [order])
  obtain ⟨q, spent, whole⟩ := runStage_of_armed_le inMemory g few 0
  rw [ran, Prod.mk.injEq] at whole
  rw [whole.2]
  refine ⟨inMemory.doWork g s, fun label => ?_⟩
  change q.armed label = _
  by_cases same : label = s.label
  · simp [spent, same]
  · simp [spent, same, used]

theorem triedAsArmed (memory : e.InMemory) (h : e.Bearable stages) {reports : List StageReport}
    (ran : e.runInOrder g stages = (.ok reports, e')) :
    TriedAsArmed e.failPoints stages reports := by
  refine ⟨length_of_runInOrder ran, ?_⟩
  induction stages using List.reverseRecOn generalizing reports e' with
  | nil => simp
  | append_singleton front s ih =>
      obtain ⟨e₁, earlier, report, first, last, rfl⟩ := runInOrder_concat_eq_ok ran
      have bearable : e.Bearable front := fun t ht => h t (by simp [ht])
      obtain ⟨inMemory, used⟩ := Reaches.armed_eq memory bearable ⟨earlier, first⟩
      have length := length_of_runInOrder first
      intro before t after order r found
      rcases List.eq_nil_or_concat after with rfl | ⟨more, final, rfl⟩
      · obtain ⟨rfl, ⟨⟩⟩ := List.append_inj' order rfl
        have few : e₁.failPoints.armed s.label ≤ e.settings.stageRetries := by
          rw [used]
          split
          · exact Nat.zero_le _
          · exact h s (by simp)
        obtain ⟨q, -, whole⟩ := runStage_of_armed_le inMemory g few 0
        rw [last, Prod.mk.injEq] at whole
        obtain ⟨counts, -, rfl⟩ := map_eq_ok_iff.mp whole.1.symm
        rw [← length, List.getElem?_concat_length, Option.some.injEq] at found
        rw [← found]
        refine ⟨rfl, ?_⟩
        simp only [reportOf, used]
        split <;> simp
      · rw [List.concat_eq_append, ← List.cons_append, ← List.append_assoc] at order
        obtain ⟨rfl, -⟩ := List.append_inj' order rfl
        refine ih bearable first before t more rfl r ?_
        rw [List.getElem?_append_left] at found
        · exact found
        · rw [length]
          simp

theorem runStages_of_calm_eq (valid : g.Valid) (alike : x.calm = y.calm) (memory : x.InMemory)
    (hx : x.Bearable g.schedule) (hy : y.Bearable g.schedule) :
    (x.runStages g).1.map RunOutput.result = (y.runStages g).1.map RunOutput.result ∧
      (x.runStages g).2.calm = (y.runStages g).2.calm := by
  obtain ⟨outcomes, states⟩ := runInOrder_of_calm_eq alike memory g hx hy
  cases ran : x.runInOrder g g.schedule with
  | mk outcome x₁ =>
      cases ran' : y.runInOrder g g.schedule with
      | mk outcome' y₁ =>
          rw [ran, ran'] at outcomes states
          cases outcome with
          | error fault =>
              cases outcome' with
              | ok reports => cases outcomes
              | error fault' =>
                  cases outcomes
                  rw [runStages_of_error valid ran, runStages_of_error valid ran']
                  exact ⟨rfl, states⟩
          | ok reports =>
              cases outcome' with
              | error fault => cases outcomes
              | ok reports' =>
                  rw [runStages_of_ok valid ran, runStages_of_ok valid ran']
                  refine ⟨?_, states⟩
                  have counts : reports.map StageReport.counts = reports'.map StageReport.counts :=
                    Except.ok.inj outcomes
                  have records : y₁.stepRecords g g.root = x₁.stepRecords g g.root := by
                    rw [eq_of_calm_eq (x := x₁) (y := y₁) states]
                    rfl
                  rw [records]
                  cases x₁.stepRecords g g.root with
                  | error fault => rfl
                  | ok root => simp only [Except.map, RunOutput.result, counts]

theorem run_of_calm_eq (valid : g.Valid) (alike : x.calm = y.calm) (memory : x.InMemory)
    (hx : x.Bearable g.schedule) (hy : y.Bearable g.schedule) :
    (x.run g).1.map RunOutput.result = (y.run g).1.map RunOutput.result ∧
      (x.run g).2.storage = (y.run g).2.storage := by
  obtain ⟨outcomes, states⟩ := runStages_of_calm_eq valid alike memory hx hy
  rw [run_eq, run_eq]
  refine ⟨outcomes, ?_⟩
  rw [eq_of_calm_eq states]
  dsimp only
  split <;> rfl

/-- Retries hide the failures that are asked for at the start of stages. If no more are asked for
than there are retries, a run in memory brings out and leaves behind what it does without them,
and the first of the stages with a label is tried once for each failure and once more. Otherwise a
run that gets to a stage with a label at which more are asked for fails there, with an attempt for
each retry and one more. -/
theorem run_bears_failures {root : StepId} {listed : List Stage}
    (accepted : StageGraph.ofStages root listed = .ok g) (memory : e.InMemory) :
    ((∀ s ∈ g.stages, e.failPoints.armed s.label ≤ e.settings.stageRetries) →
      (e.run g).1.map RunOutput.result = (e.calm.run g).1.map RunOutput.result ∧
      (e.run g).2.storage = (e.calm.run g).2.storage ∧
      (∀ done rest reports e', g.schedule = done ++ rest →
        e.runInOrder g done = (.ok reports, e') → TriedAsArmed e.failPoints done reports) ∧
      ∀ out, (e.run g).1 = .ok out → TriedAsArmed e.failPoints g.schedule out.reports) ∧
    ∀ before s after e₁, g.schedule = before ++ s :: after →
      (∀ t ∈ before, e.failPoints.armed t.label ≤ e.settings.stageRetries) →
      e.settings.stageRetries < e.failPoints.armed s.label → e.Reaches g before e₁ →
        (e.run g).1 = .error (.stage s.step .injected) ∧
        (e₁.attemptStates g s e.settings.stageRetries).length = e.settings.stageRetries + 1 ∧
        ∀ x ∈ e₁.attemptStates g s e.settings.stageRetries,
          (x.attempt g s).1 = .error (.stage s.step .injected) := by
  have valid := (StageGraph.valid_of_ofStages accepted).1
  constructor
  · intro few
    have bearable : e.Bearable g.schedule := fun s hs => few s (valid.mem_schedule_iff.mp hs)
    obtain ⟨outcomes, storages⟩ :=
      run_of_calm_eq valid (calm_calm e).symm memory bearable (bearable_calm e g.schedule)
    refine ⟨outcomes, storages, fun done rest reports e' order ran => ?_, fun out ran => ?_⟩
    · exact triedAsArmed memory (fun s hs => bearable s (by simp [order, hs])) ran
    · obtain ⟨e', whole, -⟩ := exists_runInOrder_of_run valid ran
      exact triedAsArmed memory bearable whole
  · intro before s after e₁ order few many reached
    have unused : e₁.failPoints.armed s.label = e.failPoints.armed s.label := by
      have used := (reached.armed_eq memory few).2 s.label
      rwa [if_neg] at used
      -- A stage with the same label before would be asked for as many failures.
      intro earlier
      obtain ⟨t, ht, same⟩ := List.mem_map.mp earlier
      have some_few := few t ht
      rw [same] at some_few
      omega
    rw [← unused] at many
    obtain ⟨length, all⟩ := attemptStates_of_lt_armed (g := g) many
    refine ⟨?_, length, all⟩
    cases ran : e₁.runStage g s 0 e.settings.stageRetries with
    | mk outcome e' =>
        have failed := runStage_of_lt_armed (g := g) many 0
        rw [ran] at failed
        subst failed
        have whole : e.runInOrder g g.schedule = (.error (.stage s.step .injected), e') := by
          rw [order]
          exact runInOrder_of_runStage_error reached ran
        rw [fst_run, runStages_of_error valid whole]

end Engine

/-- Pizzas under another name. -/
def sliceGraph : StageGraph :=
  ⟨⟨1⟩, [⟨⟨1⟩, .rename "Slice", "Slice", [⟨2⟩]⟩, ⟨⟨2⟩, .project [.bare "pizza"], "Eats", [⟨3⟩]⟩,
    ⟨⟨3⟩, .scan "Eats", "Eats", []⟩]⟩

theorem ofStages_sliceGraph : StageGraph.ofStages ⟨1⟩ sliceGraph.stages = .ok sliceGraph :=
  StageGraph.ofStages_of_faultless (by decide) (by decide) (.refl _)

/-- An engine with two retries, two failures at the stages of `Eats` and some at that of
`Slice`. -/
def flakyEngine (failures : Nat) : Engine where
  settings := { stageRetries := 2 }
  storage := .memory (Table.empty.insert "Eats.json"
    (encodeRecords [⟨"Eats", Table.ofList [("Eats.pizza", .text "ham")]⟩]))
  failPoints := (FailPoints.arm {} (startPoint "Eats") 2).arm (startPoint "Slice") failures

theorem Engine.run_bears_failures_slices :
    (∃ out, ((flakyEngine 1).run sliceGraph).1 = .ok out ∧
      out.records = [⟨"Slice", Table.ofList [("Slice.pizza", .text "ham")]⟩] ∧
      TriedAsArmed (flakyEngine 1).failPoints sliceGraph.schedule out.reports) ∧
    ((flakyEngine 3).run sliceGraph).1 = .error (.stage ⟨1⟩ .injected) := by
  constructor
  · have few : ∀ s ∈ sliceGraph.stages,
        (flakyEngine 1).failPoints.armed s.label ≤ (flakyEngine 1).settings.stageRetries := by
      decide
    have calm : ((flakyEngine 1).calm.run sliceGraph).1.map (·.records) =
        .ok [⟨"Slice", Table.ofList [("Slice.pizza", .text "ham")]⟩] := by
      decide +kernel
    obtain ⟨same, -, -, tried⟩ := (Engine.run_bears_failures ofStages_sliceGraph ⟨_, rfl⟩).1 few
    obtain ⟨undisturbed, ran, records⟩ := map_eq_ok_iff.mp calm
    rw [ran] at same
    obtain ⟨out, ran', results⟩ := map_eq_ok_iff.mp same
    exact ⟨out, ran', (congrArg Prod.fst results).trans records, tried out ran'⟩
  · exact ((Engine.run_bears_failures ofStages_sliceGraph ⟨_, rfl⟩).2
      [⟨⟨3⟩, .scan "Eats", "Eats", []⟩, ⟨⟨2⟩, .project [.bare "pizza"], "Eats", [⟨3⟩]⟩]
      ⟨⟨1⟩, .rename "Slice", "Slice", [⟨2⟩]⟩ [] _ (by decide +kernel) (by decide) (by decide)
      ⟨[⟨⟨3⟩, .scan, 0, 0, 3⟩, ⟨⟨2⟩, .project, 1, 1, 1⟩], Prod.ext (by decide +kernel) rfl⟩).1

end StagedAlgebra
