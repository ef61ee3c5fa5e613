import StagedAlgebra.Proofs.Retries
import StagedAlgebra.Proofs.StorageFrames

/-!
# What runs leave in memory

A run that does not keep the outputs of its stages leaves the objects that it found, less those at
and below the paths of these outputs, whether it succeeds or fails. A run that keeps them and
succeeds leaves one object for each of them, and nothing else is different, but that in the
distributed environment an output takes the place of all that was below its path.

## Implementation notes

Storing an output is one change to the table of objects (`Table.withOutput`), and cleaning up is
one filter of it (`StageGraph.cleared`). Whatever the stages of a graph have stored, the filter
removes, so only the frame of a run is needed for the first part; the second follows the stages
through the schedule.
-/

namespace StagedAlgebra

theorem Storage.removeOutput_memory (objects : Table ByteArray) (environment : Environment)
    (step : StepId) :
    (memory objects).removeOutput environment step =
      (.ok (), memory (objects.filter fun key _ =>
        !isAtOrBelow (outputPath environment step) key)) := by
  simp only [removeOutput, delete, trimEndOf_outputPath]

namespace StageGraph

/-- Whether a key is at or below the path of the output of a stage. -/
def holdsOutput (g : StageGraph) (environment : Environment) (key : String) : Bool :=
  (g.stages.filter Engine.storesOutput).any fun s =>
    isAtOrBelow (outputPath environment s.step) key

/-- Objects without those at and below the paths of the outputs of the stages. -/
def cleared (g : StageGraph) (environment : Environment) (objects : Table ByteArray) :
    Table ByteArray :=
  objects.filter fun key _ => !g.holdsOutput environment key

theorem get?_cleared (g : StageGraph) (environment : Environment) (objects : Table ByteArray)
    (key : String) :
    (g.cleared environment objects).get? key =
      if g.holdsOutput environment key = true then none else objects.get? key := by
  rw [cleared, Table.get?_filter_key _ fun key => !g.holdsOutput environment key]
  by_cases inside : g.holdsOutput environment key = true <;> simp [inside]

theorem isAtOrBelow_of_holdsOutput {g : StageGraph} {environment : Environment} {key : String}
    (h : g.holdsOutput environment key = false) {s : Stage} (hs : s ∈ g.stages)
    (stores : Engine.storesOutput s = true) :
    isAtOrBelow (outputPath environment s.step) key = false := by
  simp only [holdsOutput, List.any_filter, List.any_eq_false, Bool.and_eq_true, not_and,
    Bool.not_eq_true] at h
  exact h s hs stores

end StageGraph

/-- Removing outputs one after another removes what is at or below any of them. -/
theorem Storage.foldl_removeOutput (environment : Environment) (steps : List StepId)
    (objects : Table ByteArray) :
    steps.foldl (fun s step => (removeOutput s environment step).2) (memory objects) =
      memory (objects.filter fun key _ =>
        !steps.any fun step => isAtOrBelow (outputPath environment step) key) := by
  induction steps generalizing objects with
  | nil =>
      simp only [List.foldl_nil, List.any_nil, Bool.not_false, Table.filter_all]
  | cons step rest ih =>
      rw [List.foldl_cons, removeOutput_memory, ih, memory.injEq]
      apply Table.ext_get?
      intro key
      simp only [Table.get?_filter_key _ fun key =>
          !rest.any fun step => isAtOrBelow (outputPath environment step) key,
        Table.get?_filter_key _ fun key => !isAtOrBelow (outputPath environment step) key,
        Table.get?_filter_key _ fun key =>
          !(step :: rest).any fun step => isAtOrBelow (outputPath environment step) key]
      by_cases first : isAtOrBelow (outputPath environment step) key = true <;>
        by_cases later : (rest.any fun step => isAtOrBelow (outputPath environment step) key) = true
          <;> simp_all

namespace Engine

variable {g : StageGraph} {e e' x : Engine} {s : Stage} {objects objects' : Table ByteArray}

theorem storage_cleanUp (g : StageGraph) (h : e.storage = .memory objects) :
    (e.cleanUp g).storage = .memory (g.cleared e.settings.environment objects) := by
  simp only [cleanUp, h, Storage.foldl_removeOutput, List.any_map]
  rfl

/-- The objects of an engine are in memory, and are some given ones but for the outputs of the
stages of a graph. -/
def OnlyOutputs (g : StageGraph) (settings : Settings) (objects : Table ByteArray) (e : Engine) :
    Prop :=
  e.settings = settings ∧ ∃ objects', e.storage = .memory objects' ∧
    ∀ key, g.holdsOutput settings.environment key = false → objects'.get? key = objects.get? key

theorem onlyOutputs_withOutput {settings : Settings} (hs : s ∈ g.stages)
    (stores : storesOutput s = true) (h : OnlyOutputs g settings objects e)
    {made : List Record} {outcome : Except StorageFault String} {storage : Storage}
    (written : e.storage.writeOutput e.settings.environment s.step made = (outcome, storage)) :
    OnlyOutputs g settings objects { e with storage } := by
  obtain ⟨same, objects', memory, agree⟩ := h
  rw [memory, Storage.writeOutput_memory, same, Prod.mk.injEq] at written
  refine ⟨same, _, written.2.symm, fun key outside => ?_⟩
  have apart := StageGraph.isAtOrBelow_of_holdsOutput outside hs stores
  have other : key ≠ outputObject settings.environment s.step := by
    rintro rfl
    rw [isAtOrBelow_outputObject] at apart
    cases apart
  rw [Table.get?_withOutput, if_neg other, if_neg (by simp [givesWay, apart]), agree key outside]

theorem WorkOutcome.onlyOutputs {settings : Settings} (hs : s ∈ g.stages)
    (h : OnlyOutputs g settings objects e) {result : Except RunFault (Nat × Nat) × Engine}
    (work : WorkOutcome e g s result) : OnlyOutputs g settings objects result.2 := by
  cases work with
  | unbuilt | offered | stuck => exact h
  | refused work _ written | stored work _ written =>
      exact onlyOutputs_withOutput hs (storesOutput_of_work work) h written

theorem onlyOutputs_attempt {settings : Settings} (hs : s ∈ g.stages)
    (h : OnlyOutputs g settings objects e) : OnlyOutputs g settings objects (e.attempt g s).2 := by
  obtain ⟨failPoints, failed⟩ | ⟨-, works⟩ := e.attempt_cases g s
  · rw [failed]
    exact h
  · rw [works]
    exact (e.workOutcome g s).onlyOutputs hs h

/-- Whatever becomes of the stages, they change nothing but their outputs. -/
theorem onlyOutputs_runStages (valid : g.Valid) (memory : e.storage = .memory objects) :
    OnlyOutputs g e.settings objects (e.runStages g).2 := by
  rw [snd_runStages valid]
  apply runInOrder_invariant
  · intro s hs x h
    exact onlyOutputs_attempt (valid.mem_schedule_iff.mp hs) h
  · exact ⟨rfl, objects, memory, fun _ _ => rfl⟩

theorem storage_run_of_not_keep (valid : g.Valid) (memory : e.storage = .memory objects)
    (drops : e.settings.keepIntermediates = false) :
    (e.run g).2.storage = .memory (g.cleared e.settings.environment objects) := by
  obtain ⟨same, objects', stored, agree⟩ := onlyOutputs_runStages valid memory
  have cleaned : (e.run g).2 = (e.runStages g).2.cleanUp g := by
    simp [run_eq, same, drops]
  rw [cleaned, storage_cleanUp g stored, same, Storage.memory.injEq]
  apply Table.ext_get?
  intro key
  rw [StageGraph.get?_cleared, StageGraph.get?_cleared]
  split
  · rfl
  · exact agree key (by simp_all)

/-- Objects after some stages are done: each output is one object, made in a run, and the others
are what they were, or are gone where an output has taken their place. -/
structure Stored (e : Engine) (g : StageGraph) (objects : Table ByteArray) (done : List Stage)
    (objects' : Table ByteArray) : Prop where
  /-- Each output is there. -/
  output : ∀ s ∈ done, storesOutput s = true → ∃ made, e.Makes g s made ∧
    objects'.get? (outputObject e.settings.environment s.step) = some (encodeRecords made)
  /-- Nothing else is new. -/
  others : ∀ key,
    (∀ s ∈ done, storesOutput s = true → key ≠ outputObject e.settings.environment s.step) →
      objects'.get? key =
        if done.any fun s => storesOutput s && givesWay e.settings.environment s.step key
        then none else objects.get? key

theorem stored_nil : Stored e g objects [] objects :=
  ⟨by simp, by simp⟩

theorem Stored.skip {done : List Stage} (h : Stored e g objects done objects')
    (stores : storesOutput s = false) : Stored e g objects (done ++ [s]) objects' where
  output t ht other := by
    rcases List.mem_append.mp ht with ht | ht
    · exact h.output t ht other
    · rw [List.mem_singleton.mp ht, stores] at other
      cases other
  others key apart := by
    rw [h.others key fun t ht => apart t (List.mem_append_left _ ht)]
    simp [stores]

/-- The output of a further stage leaves those before alone. -/
theorem Stored.add {done : List Stage} (h : Stored e g objects done objects')
    (fresh : ∀ t ∈ done, t.step ≠ s.step) (stores : storesOutput s = true) {made : List Record}
    (makes : e.Makes g s made) :
    Stored e g objects (done ++ [s])
      (objects'.withOutput e.settings.environment s.step (encodeRecords made)) where
  output t ht other := by
    rcases List.mem_append.mp ht with ht | ht
    · obtain ⟨made', makes', stored⟩ := h.output t ht other
      have inside := isAtOrBelow_outputObject e.settings.environment t.step
      have outside : isAtOrBelow (outputPath e.settings.environment s.step)
          (outputObject e.settings.environment t.step) = false := by
        rw [← Bool.not_eq_true]
        exact fun below => fresh t ht (step_eq_of_isAtOrBelow inside below)
      have apart : outputObject e.settings.environment t.step ≠
          outputObject e.settings.environment s.step := by
        intro same
        rw [same, isAtOrBelow_outputObject] at outside
        cases outside
      refine ⟨made', makes', ?_⟩
      rw [Table.get?_withOutput, if_neg apart, if_neg (by simp [givesWay, outside]), stored]
    · rw [List.mem_singleton.mp ht]
      exact ⟨made, makes, by rw [Table.get?_withOutput, if_pos rfl]⟩
  others key apart := by
    have last := apart s (by simp) stores
    rw [Table.get?_withOutput, if_neg last,
      h.others key fun t ht => apart t (List.mem_append_left _ ht)]
    by_cases gone : givesWay e.settings.environment s.step key = true <;> simp [gone, stores]

/-- In memory a failed attempt leaves the objects as they are. -/
theorem storage_of_attempt_error (memory : e.InMemory) {fault : RunFault}
    (failed : (e.attempt g s).1 = .error fault) : (e.attempt g s).2.storage = e.storage := by
  obtain ⟨failPoints, injected⟩ | ⟨-, works⟩ := e.attempt_cases g s
  · rw [injected]
  · rw [works] at failed ⊢
    rw [(e.workOutcome g s).eq_of_error memory failed]

/-- Work that succeeds in memory stores an output, unless it offers a relation. -/
theorem WorkOutcome.storage_of_ok {result : Except RunFault (Nat × Nat) × Engine}
    (work : WorkOutcome e g s result) (memory : e.storage = .memory objects) {counts : Nat × Nat}
    (ok : result.1 = .ok counts) :
    (storesOutput s = false ∧ result.2.storage = .memory objects) ∨
      ∃ op taken made, s.spec.work = .ok (.apply op) ∧
        e.applyOperator g s op = .ok (taken, made) ∧ result.2.storage =
          .memory (objects.withOutput e.settings.environment s.step (encodeRecords made)) := by
  cases work with
  | unbuilt | stuck | refused => cases ok
  | offered scan => exact .inl ⟨storesOutput_of_scan scan, memory⟩
  | @stored op taken made _ storage work applied written =>
      rw [memory, Storage.writeOutput_memory, Prod.mk.injEq] at written
      exact .inr ⟨op, taken, made, work, applied, written.2.symm⟩

theorem exists_stored (valid : g.Valid) (memory : e.storage = .memory objects)
    {done rest : List Stage} (order : g.schedule = done ++ rest) (reached : e.Reaches g done e') :
    ∃ objects', e'.storage = .memory objects' ∧ Stored e g objects done objects' := by
  refine Reaches.invariant
    (P := fun done x => ∃ objects', x.storage = .memory objects' ∧ Stored e g objects done objects')
    ⟨objects, memory, stored_nil⟩ ?_ order reached
  rintro before s after e₁ e₂ report split earlier ⟨objects', memory', stored⟩ ran
  obtain ⟨x, hx, taken, count, last, -⟩ := runStage_eq_ok ran
  have same : x.storage = .memory objects' := by
    refine attemptStates_invariant (P := fun x => x.storage = .memory objects') ?_ memory' _ x hx
    intro y fault memory'' failed
    rw [storage_of_attempt_error ⟨objects', memory''⟩ failed, memory'']
  obtain ⟨failPoints, injected⟩ | ⟨passes, works⟩ := x.attempt_cases g s
  · rw [injected] at last
    cases last
  have work := x.workOutcome g s
  rw [← works, last] at work
  obtain ⟨skips, unchanged⟩ | ⟨op, taken, made, operator, applied, changed⟩ :=
    work.storage_of_ok same rfl
  · exact ⟨objects', unchanged, stored.skip skips⟩
  · have tries : e.Tries g s x := ⟨before, after, e₁, split, earlier, hx⟩
    rw [tries.settings_eq] at changed
    refine ⟨_, changed, stored.add (fun t ht => valid.step_ne_of_before split ht)
      (storesOutput_of_work operator) ?_⟩
    exact ⟨x, op, taken, tries, passes, operator, applied⟩

/-- A run cleans up after itself. Unless it keeps the outputs of its stages, it leaves in memory
what it found, less what is at or below their paths, whether it succeeds or not. If it keeps them
and succeeds, it leaves besides one object for each of them, which holds what the stage made; only
in the distributed environment do other objects below their paths give way. -/
theorem run_cleans_up {root : StepId} {listed : List Stage}
    (accepted : StageGraph.ofStages root listed = .ok g) (memory : e.storage = .memory objects) :
    (e.settings.keepIntermediates = false →
      (e.run g).2.storage = .memory (g.cleared e.settings.environment objects)) ∧
    (e.settings.keepIntermediates = true → ∀ out, (e.run g).1 = .ok out →
      ∃ objects', (e.run g).2.storage = .memory objects' ∧
        (∀ s ∈ g.stages, storesOutput s = true → ∃ made, e.Makes g s made ∧
          objects'.get? (outputObject e.settings.environment s.step) =
            some (encodeRecords made)) ∧
        ∀ key, (∀ s ∈ g.stages, storesOutput s = true →
            key ≠ outputObject e.settings.environment s.step) →
          objects'.get? key = if e.settings.environment = .distributed
            then (g.cleared e.settings.environment objects).get? key else objects.get? key) := by
  have valid := (StageGraph.valid_of_ofStages accepted).1
  refine ⟨storage_run_of_not_keep valid memory, fun keeps out ran => ?_⟩
  obtain ⟨e', whole, -⟩ := exists_runInOrder_of_run valid ran
  obtain ⟨objects', memory', stored⟩ :=
    exists_stored valid memory (List.append_nil g.schedule).symm ⟨out.reports, whole⟩
  have final : (e.run g).2 = e' := by
    have last := snd_runStages valid e
    rw [whole] at last
    have settings : e'.settings = e.settings := Reaches.settings_eq ⟨out.reports, whole⟩
    simp [run_eq, last, settings, keeps]
  refine ⟨objects', by rw [final, memory'], fun s hs => ?_, fun key apart => ?_⟩
  · exact stored.output s (valid.mem_schedule_iff.mpr hs)
  · rw [stored.others key fun s hs => apart s (valid.mem_schedule_iff.mp hs),
      valid.schedule_perm.any_eq]
    by_cases distributed : e.settings.environment = .distributed
    · rw [if_pos distributed, StageGraph.get?_cleared]
      simp [givesWay, distributed, StageGraph.holdsOutput, List.any_filter]
    · simp [givesWay, distributed]

end Engine

/-- A relation, and objects with names like those of outputs. -/
def crowdedObjects : Table ByteArray :=
  Table.ofList [("Eats.json", encodeRecords [⟨"Eats", Table.ofList [("Eats.pizza", .text "ham")]⟩]),
    ("tmp1.tmp/note", encodeRecords []), ("tmp1/part-00007", encodeRecords []),
    ("tmp10/part-00000", encodeRecords [])]

/-- An engine over these objects. -/
def crowdedEngine (environment : Environment) (keepIntermediates : Bool) : Engine where
  settings := { environment, keepIntermediates }
  storage := .memory crowdedObjects

theorem Engine.run_cleans_up_crowded :
    (∃ objects, ((crowdedEngine .distributed false).run sliceGraph).2.storage = .memory objects ∧
      objects.keys = ["Eats.json", "tmp1.tmp/note", "tmp10/part-00000"]) ∧
    ∃ objects, ((crowdedEngine .mock true).run sliceGraph).2.storage = .memory objects ∧
      (objects.get? "tmp1.tmp").isSome ∧
      objects.get? "tmp1.tmp/note" = some (encodeRecords []) := by
  constructor
  · refine ⟨_, (Engine.run_cleans_up ofStages_sliceGraph rfl).1 rfl, ?_⟩
    decide +kernel
  · have succeeds : ((crowdedEngine .mock true).run sliceGraph).1.map (·.records) =
        .ok [⟨"Slice", Table.ofList [("Slice.pizza", .text "ham")]⟩] := by
      decide +kernel
    obtain ⟨out, ran, -⟩ := map_eq_ok_iff.mp succeeds
    obtain ⟨objects, left, outputs, others⟩ :=
      (Engine.run_cleans_up ofStages_sliceGraph rfl).2 rfl out ran
    obtain ⟨made, -, stored⟩ :=
      outputs ⟨⟨1⟩, .rename "Slice", "Slice", [⟨2⟩]⟩ (by decide) (by decide)
    have output : outputObject .mock ⟨1⟩ = "tmp1.tmp" := by
      decide
    have apart : ∀ s ∈ sliceGraph.stages, storesOutput s = true →
        "tmp1.tmp/note" ≠ outputObject .mock s.step := by
      decide
    refine ⟨objects, left, ?_, ?_⟩
    · rw [← output]
      exact Option.isSome_of_eq_some stored
    · rw [others _ apart]
      decide +kernel

end StagedAlgebra
