import StagedAlgebra.Proofs.OutputRoom
import StagedAlgebra.Proofs.RecordFlow
import StagedAlgebra.Proofs.RowOrder

/-!
# Results do not depend on the order of rows

Two runs of a compiled plan over relations with the same records in different orders both succeed
or both fail. If they succeed, their results are the same records in different orders, and their
manifests carry one digest and one number of records.

## Implementation notes

The two runs go in step: attempt by attempt both succeed, with the same counts, or both fail, so
they need not be compared with direct execution, and numbers need not be read back from files.
`Mirrors` is what holds of the two states between attempts.

Beside the relations, storages in memory may hold whatever they like. What stands in the way of an
output in a file tree can make a run fail, so file trees must be of one shape or have room for the
outputs; then they may be compared with storages in memory too.
-/

namespace StagedAlgebra

/-- Two outcomes that are both successful, with related results, or both failures. -/
inductive Agree {α β ε : Type} (R : α → β → Prop) : Except ε α → Except ε β → Prop
  /-- Both are successful. -/
  | succeed {a b} (related : R a b) : Agree R (.ok a) (.ok b)
  /-- Both are failures. -/
  | fail {fault fault'} : Agree R (.error fault) (.error fault')

namespace Agree

variable {α β ε δ : Type} {R : α → β → Prop} {x : Except ε α} {y : Except ε β}

/-- Outcomes agree if each success of one is related to one of the other. -/
theorem of_forall (forth : ∀ a, x = .ok a → ∃ b, y = .ok b ∧ R a b)
    (back : ∀ b, y = .ok b → ∃ a, x = .ok a) : Agree R x y := by
  cases x with
  | ok a =>
      obtain ⟨b, rfl, related⟩ := forth a rfl
      exact .succeed related
  | error fault =>
      cases y with
      | ok b =>
          obtain ⟨a, ⟨⟩⟩ := back b rfl
      | error fault' => exact .fail

theorem map {α' β' : Type} {S : α' → β' → Prop} {f : α → α'} {k : β → β'} (h : Agree R x y)
    (related : ∀ a b, R a b → S (f a) (k b)) : Agree S (x.map f) (y.map k) := by
  cases h with
  | succeed r => exact .succeed (related _ _ r)
  | fail => exact .fail

theorem mapError {f f' : ε → δ} (h : Agree R x y) : Agree R (x.mapError f) (y.mapError f') := by
  cases h with
  | succeed r => exact .succeed r
  | fail => exact .fail

end Agree

/-- Records of a plan in two orders, under the label of the plan. -/
structure Plan.Rearranged (p : Plan) (records records' : List Record) : Prop where
  /-- They are the same. -/
  perm : records.Perm records'
  /-- Their labels are that of the plan, and fit on lines. -/
  labels : ∀ r ∈ records, r.label = p.label ∧ FitsLine r.label

namespace Plan

variable {p : Plan} {records records' : List Record}

theorem Rearranged.symm (h : p.Rearranged records records') : p.Rearranged records' records :=
  ⟨h.perm.symm, fun r hr => h.labels r (h.perm.mem_iff.mpr hr)⟩

theorem Rearranged.exists_decoded {read : List Record} {path : String}
    (h : p.Rearranged records records')
    (decoded : decodeRecords path (encodeRecords records) = .ok read) (path' : String) :
    ∃ read', decodeRecords path' (encodeRecords records') = .ok read' ∧
      p.Rearranged read read' := by
  have fits : ∀ r ∈ records, FitsLine r.label := fun r hr => (h.labels r hr).2
  obtain ⟨read', decoded', same⟩ := exists_decodeRecords_of_perm fits h.perm decoded path'
  refine ⟨read', decoded', same, fun s hs => ?_⟩
  obtain ⟨r, hr, label, -⟩ := exists_of_mem_decodeRecords fits decoded hs
  rw [label]
  exact h.labels r hr

/-- Files of records in two orders are read alike. -/
theorem Rearranged.decode (h : p.Rearranged records records') (path path' : String) :
    Agree p.Rearranged (decodeRecords path (encodeRecords records))
      (decodeRecords path' (encodeRecords records')) := by
  refine .of_forall (fun read decoded => h.exists_decoded decoded path') fun read decoded => ?_
  obtain ⟨read', decoded', -⟩ := h.symm.exists_decoded decoded path
  exact ⟨read', decoded'⟩

/-- Records taken from the inputs of a plan in two orders. -/
def Gathered (p : Plan) (taken taken' : List Record) : Prop :=
  taken.Perm taken' ∧ ∀ r ∈ taken, ∃ q ∈ p.inputs, r.label = q.label ∧ FitsLine r.label

theorem Gathered.symm {taken taken' : List Record} (h : p.Gathered taken taken') :
    p.Gathered taken' taken :=
  ⟨h.1.symm, fun r hr => h.2 r (h.1.mem_iff.mpr hr)⟩

theorem Gathered.exists_run {spec : StageSpec} {op : Operator} (hspec : p.spec? = some spec)
    (work : spec.work = .ok (.apply op)) (fits : p.AliasFitsAt) {taken taken' made : List Record}
    (h : p.Gathered taken taken') (ran : op.run taken = .ok made) :
    ∃ made', op.run taken' = .ok made' ∧ p.Rearranged made made' := by
  obtain ⟨same, sources⟩ := h
  -- A projection has one input, so what it takes flows under one label.
  have single : ∀ attributes, op = .project attributes → ∀ r ∈ taken, ∀ s ∈ taken,
      r.label = s.label := by
    rintro attributes rfl r hr s hs
    obtain ⟨q, hq, label, -⟩ := sources r hr
    obtain ⟨q', hq', label', -⟩ := sources s hs
    cases p with
    | scan relation | select c input | rename newLabel input =>
        cases hspec
        cases work
    | cross left right => cases hspec
    | join left c right =>
        cases hspec
        obtain ⟨j, -, made⟩ := map_eq_ok_iff.mp work
        cases made
    | project attributes' input =>
        rw [label, label', List.mem_singleton.mp hq, List.mem_singleton.mp hq']
  obtain ⟨made', ran', permuted⟩ := Operator.exists_run_of_perm same single ran
  have labels : ∀ r ∈ made, r.label = p.label := fun r hr =>
    (madeOf_of_run hspec work ran hr).label fun s hs => by
      obtain ⟨q, hq, label, -⟩ := sources s hs
      exact ⟨q, hq, label⟩
  have lines := fitsLine_of_run hspec work fits (fun r hr => by
    obtain ⟨q, -, -, line⟩ := sources r hr
    exact line) ran
  exact ⟨made', ran', permuted, fun r hr => ⟨labels r hr, lines r hr⟩⟩

/-- An operator makes the same of what it takes in two orders. -/
theorem Gathered.run {spec : StageSpec} {op : Operator} (hspec : p.spec? = some spec)
    (work : spec.work = .ok (.apply op)) (fits : p.AliasFitsAt) {taken taken' : List Record}
    (h : p.Gathered taken taken') : Agree p.Rearranged (op.run taken) (op.run taken') := by
  refine .of_forall (fun made ran => h.exists_run hspec work fits ran) fun made ran => ?_
  obtain ⟨made', ran', -⟩ := h.symm.exists_run hspec work fits ran
  exact ⟨made', ran'⟩

end Plan

namespace Engine

variable {p : Plan} {start : StepId} {g : StageGraph} {e e' x y : Engine} {s : Stage} {n : PlanNode}
variable {done : List StepId}

/-- The first stage that runs is a source. -/
theorem relations_ne_nil (compiled : p.compileFrom start = .ok g) : g.relations ≠ [] := by
  obtain ⟨s, scheduled, -⟩ := exists_scheduled compiled (p.self_mem_numbered start)
  cases order : g.schedule with
  | nil => simp [order] at scheduled
  | cons first rest =>
      obtain ⟨n, hn, stage, -, inputs⟩ :=
        exists_next compiled (show g.schedule = [] ++ first :: rest from order)
      have none : first.inputs = [] := by
        rw [PlanNode.inputs_of_stage? stage, List.map_eq_nil_iff, List.eq_nil_iff_forall_not_mem]
        intro m hm
        obtain ⟨t, ht, -⟩ := inputs m hm
        cases ht
      obtain ⟨relation, plan⟩ :=
        isScan_eq_true_iff.mp ((PlanNode.inputs_eq_nil_iff stage).mp none)
      exact List.ne_nil_of_mem (mem_relations_of_mem_numbered compiled hn plan)

/-- Two states, each of a run of its own from `e` or `e'`, in which some stages are done. -/
structure Mirrors (p : Plan) (start : StepId) (g : StageGraph) (e e' : Engine) (done : List StepId)
    (x y : Engine) : Prop where
  /-- The settings are those of the start. -/
  settings : x.settings = e.settings ∧ y.settings = e.settings
  /-- The same failures are asked for. -/
  failPoints : x.failPoints = y.failPoints
  /-- The storages behave alike. -/
  alike : x.storage.Alike g e.settings.environment y.storage
  /-- No relation is new. -/
  relations : ∀ relation content,
    (x.storage.HoldsRelation relation content → e.storage.HoldsRelation relation content) ∧
      (y.storage.HoldsRelation relation content → e'.storage.HoldsRelation relation content)
  /-- The outputs that are done hold the same records in two orders. -/
  outputs : ∀ n ∈ p.numbered start, n.step ∈ done → n.isScan = false →
    ∃ made made', n.plan.Rearranged made made' ∧
      x.storage.HoldsOutput e.settings.environment n.step (encodeRecords made) ∧
      y.storage.HoldsOutput e.settings.environment n.step (encodeRecords made')

/-- Results of two runs that both succeed, with one value, or both fail; with what holds of the
states after them. -/
inductive InStep {α : Type} (after failed : Engine → Engine → Prop) :
    Except RunFault α × Engine → Except RunFault α × Engine → Prop
  /-- Both succeed. -/
  | succeed {value x y} (state : after x y) : InStep after failed (.ok value, x) (.ok value, y)
  /-- Both fail. -/
  | fail {fault fault' x y} (state : failed x y) :
      InStep after failed (.error fault, x) (.error fault', y)

section Steps

variable (compiled : p.compileFrom start = .ok g)
variable (readable : ∀ relation ∈ g.relations, ∃ records records',
  e.storage.readRelation relation = .ok records ∧
    e'.storage.readRelation relation = .ok records' ∧
      (Plan.scan relation).Rearranged records records')

include compiled readable in
/-- The records of a step that is done are read alike. -/
theorem Mirrors.stepRecords (h : Mirrors p start g e e' done x y) {m : PlanNode}
    (hm : m ∈ p.numbered start) (ready : m.step ∈ done) :
    Agree m.plan.Rearranged (x.stepRecords g m.step) (y.stepRecords g m.step) := by
  obtain ⟨s, -, stage, known⟩ := exists_stage_of_mem_numbered compiled hm
  simp only [Engine.stepRecords, known]
  by_cases scan : m.isScan = true
  · obtain ⟨relation, plan⟩ := isScan_eq_true_iff.mp scan
    have member := mem_relations_of_mem_numbered compiled hm plan
    rw [(PlanNode.spec_eq_scan_iff stage).mpr plan, plan]
    apply Agree.mapError
    obtain ⟨content, content', held, held', read, read'⟩ | ⟨⟨fault, failed⟩, fault', failed'⟩ :=
      Storage.readRelation_of_isOk_read (h.alike.isOk_read member)
    · -- What the files hold now they held at the start, when they could be read.
      obtain ⟨records, records', found, found', rearranged⟩ := readable relation member
      rw [Storage.readRelation_of_holdsRelation (Storage.found_of_readRelation found)
        ((h.relations relation content).1 held)] at found
      rw [Storage.readRelation_of_holdsRelation (Storage.found_of_readRelation found')
        ((h.relations relation content').2 held')] at found'
      rw [read, read', found, found']
      exact .succeed rearranged
    · rw [failed, failed']
      exact .fail
  · have other : m.isScan = false := by simpa using scan
    obtain ⟨made, made', rearranged, held, held'⟩ := h.outputs m hm ready other
    have read : Agree m.plan.Rearranged
        (x.storage.readOutput e.settings.environment m.step)
        (y.storage.readOutput e.settings.environment m.step) := by
      have finds := h.alike.findsOutput (relations_ne_nil compiled) held held'
      obtain ⟨found, equal⟩ | ⟨missing, fault, failed⟩ := Storage.readOutput_of_holdsOutput held <;>
        obtain ⟨found', equal'⟩ | ⟨missing', fault', failed'⟩ :=
          Storage.readOutput_of_holdsOutput held'
      · rw [equal, equal']
        exact rearranged.decode _ _
      · rw [found, missing'] at finds
        cases finds
      · rw [missing, found'] at finds
        cases finds
      · rw [failed, failed']
        exact .fail
    rw [h.settings.1, h.settings.2]
    split
    · rename_i relation spec
      have plan := (PlanNode.spec_eq_scan_iff stage).mp spec
      exact absurd (isScan_eq_true_iff.mpr ⟨relation, plan⟩) scan
    · exact read.mapError

include compiled readable in
theorem Mirrors.inputRecords (h : Mirrors p start g e e' done x y) {ms : List PlanNode}
    (hms : ∀ m ∈ ms, m ∈ p.numbered start ∧ m.step ∈ done) :
    Agree (fun taken taken' : List Record => taken.Perm taken' ∧ ∀ r ∈ taken, ∃ q ∈ ms.map (·.plan),
        r.label = q.label ∧ FitsLine r.label)
      (x.inputRecords g (ms.map (·.step))) (y.inputRecords g (ms.map (·.step))) := by
  induction ms with
  | nil => exact .succeed ⟨.refl _, by simp⟩
  | cons m rest ih =>
      obtain ⟨hm, ready⟩ := hms m (by simp)
      have first := h.stepRecords compiled readable hm ready
      have others := ih fun m hm => hms m (by simp [hm])
      simp only [List.map_cons, Engine.inputRecords]
      cases left : x.stepRecords g m.step <;> cases right : y.stepRecords g m.step <;>
        rw [left, right] at first <;> cases first
      · exact .fail
      · rename_i rearranged
        refine others.map fun taken taken' more => ⟨rearranged.perm.append more.1, fun r hr => ?_⟩
        rcases List.mem_append.mp hr with hr | hr
        · exact ⟨m.plan, by simp, rearranged.labels r hr⟩
        · obtain ⟨q, hq, labels⟩ := more.2 r hr
          exact ⟨q, List.mem_cons_of_mem _ hq, labels⟩

include compiled in
/-- Storing the outputs of a stage that is not done is done in step. -/
theorem Mirrors.write (h : Mirrors p start g e e' done x y) (hn : n ∈ p.numbered start)
    (stage : n.stage? = some s) (stores : storesOutput s = true) (fresh : n.step ∉ done)
    {made made' : List Record}
    {outcome outcome' : Except StorageFault String} {storage storage' : Storage}
    (wrote : x.storage.writeOutput x.settings.environment s.step made = (outcome, storage))
    (wrote' : y.storage.writeOutput y.settings.environment s.step made' = (outcome', storage')) :
    outcome = outcome' ∧
      Mirrors p start g e e' done { x with storage } { y with storage := storage' } := by
  rw [h.settings.1] at wrote
  rw [h.settings.2] at wrote'
  obtain ⟨t, member, same, -⟩ := exists_stage_of_mem_numbered compiled hn
  obtain rfl : t = s := Option.some.inj (same.symm.trans stage)
  have alike := h.alike.writeOutput (relations_ne_nil compiled) member stores made made'
  rw [wrote, wrote'] at alike
  rw [step_of_stage? stage] at wrote wrote'
  refine ⟨alike.1, h.settings, h.failPoints, alike.2, fun relation content => ⟨?_, ?_⟩, ?_⟩
  · exact fun held =>
      (h.relations relation content).1 (Storage.holdsRelation_of_writeOutput wrote held)
  · exact fun held =>
      (h.relations relation content).2 (Storage.holdsRelation_of_writeOutput wrote' held)
  · intro m hm before other
    obtain ⟨records, records', rearranged, held, held'⟩ := h.outputs m hm before other
    have apart : m.step ≠ n.step := fun same => fresh (same ▸ before)
    exact ⟨records, records', rearranged, held.writeOutput apart wrote,
      held'.writeOutput apart wrote'⟩

include compiled in
/-- A stage is done when its outputs, if it has any, are stored. -/
theorem Mirrors.extend (h : Mirrors p start g e e' done x y) (hn : n ∈ p.numbered start)
    (outputs : n.isScan = false → ∃ made made', n.plan.Rearranged made made' ∧
      x.storage.HoldsOutput e.settings.environment n.step (encodeRecords made) ∧
      y.storage.HoldsOutput e.settings.environment n.step (encodeRecords made')) :
    Mirrors p start g e e' (done ++ [n.step]) x y :=
  { h with
    outputs := fun m hm before other => by
      rcases List.mem_append.mp before with before | before
      · exact h.outputs m hm before other
      · have same : m = n := List.inj_on_of_nodup_map (nodup_map_step_numbered compiled) hm hn
          (List.mem_singleton.mp before)
        rw [same] at other ⊢
        exact outputs other }

variable (fits : p.Everywhere Plan.AliasFitsAt)

include compiled readable fits in
/-- An operator is applied in step. -/
theorem Mirrors.applyOperator (h : Mirrors p start g e e' done x y) (hn : n ∈ p.numbered start)
    (stage : n.stage? = some s) (ready : ∀ m ∈ n.children, m.step ∈ done) {op : Operator}
    (work : s.spec.work = .ok (.apply op)) :
    Agree (fun a b : List Record × List Record => a.1.length = b.1.length ∧
        n.plan.Rearranged a.2 b.2 ∧ x.storage.Open ∧ y.storage.Open)
      (x.applyOperator g s op) (y.applyOperator g s op) := by
  have inputs := h.inputRecords compiled readable
    fun m hm => ⟨Plan.children_mem_numbered hn hm, ready m hm⟩
  rw [map_plan_children, ← PlanNode.inputs_of_stage? stage] at inputs
  have some_input := PlanNode.inputs_ne_nil_of_apply stage work
  obtain ⟨spec, hspec, rfl⟩ := Option.map_eq_some_iff.mp stage
  unfold Engine.applyOperator
  cases left : x.inputRecords g (n.children.map (·.step)) <;>
    cases right : y.inputRecords g (n.children.map (·.step)) <;>
      rw [left, right] at inputs <;> cases inputs
  · exact .fail
  · rename_i taken taken' gathered
    have made := Plan.Gathered.run hspec work (fits.of_mem_numbered hn).root gathered
    dsimp only
    cases ran : op.run taken <;> cases ran' : op.run taken' <;> rw [ran, ran'] at made <;>
      cases made
    · exact .fail
    · rename_i rearranged
      exact .succeed ⟨gathered.1.length_eq, rearranged, open_of_inputRecords some_input left,
        open_of_inputRecords some_input right⟩

include compiled readable fits in
/-- The work of a stage is done in step. -/
theorem Mirrors.doWork (h : Mirrors p start g e e' done x y) (hn : n ∈ p.numbered start)
    (stage : n.stage? = some s) (fresh : n.step ∉ done) (ready : ∀ m ∈ n.children, m.step ∈ done)
    (sources : n.isScan = true → x.storage = e.storage ∧ y.storage = e'.storage) :
    InStep (Mirrors p start g e e' (done ++ [n.step])) (Mirrors p start g e e' done)
      (x.doWork g s) (y.doWork g s) := by
  cases work : s.spec.work with
  | error fault =>
      simp only [Engine.doWork, work]
      exact .fail h
  | ok task =>
      cases task with
      | offer =>
          obtain ⟨relation, spec⟩ := StageSpec.eq_scan_of_offer work
          have plan := (PlanNode.spec_eq_scan_iff stage).mp spec
          have scan := isScan_eq_true_iff.mpr ⟨relation, plan⟩
          obtain ⟨records, records', found, found', -⟩ :=
            readable relation (mem_relations_of_mem_numbered compiled hn plan)
          obtain ⟨left, right⟩ := sources scan
          simp only [Engine.doWork, checkScan, spec, checkRelation, left, right,
            Storage.found_of_readRelation found, Storage.found_of_readRelation found', if_true]
          refine .succeed (h.extend compiled hn fun other => ?_)
          rw [scan] at other
          cases other
      | apply op =>
          have applied := h.applyOperator compiled readable fits hn stage ready work
          simp only [Engine.doWork, work]
          cases left : x.applyOperator g s op <;> cases right : y.applyOperator g s op <;>
            rw [left, right] at applied <;> cases applied
          · exact .fail h
          · rename_i both both' related
            obtain ⟨taken, made⟩ := both
            obtain ⟨taken', made'⟩ := both'
            obtain ⟨length, rearranged, opens, opens'⟩ := related
            dsimp only at length rearranged ⊢
            cases wrote : x.storage.writeOutput x.settings.environment s.step made with
            | mk outcome storage =>
                cases wrote' : y.storage.writeOutput y.settings.environment s.step made' with
                | mk outcome' storage' =>
                    obtain ⟨rfl, kept⟩ :=
                      h.write compiled hn stage (storesOutput_of_work work) fresh wrote wrote'
                    rw [h.settings.1, step_of_stage? stage] at wrote
                    rw [h.settings.2, step_of_stage? stage] at wrote'
                    cases outcome with
                    | error fault => exact .fail kept
                    | ok path =>
                        dsimp only
                        rw [length, rearranged.perm.length_eq]
                        exact .succeed (kept.extend compiled hn fun _ =>
                          ⟨made, made', rearranged,
                            Storage.holdsOutput_of_writeOutput opens wrote,
                            Storage.holdsOutput_of_writeOutput opens' wrote'⟩)

include compiled readable fits in
/-- Attempts at a stage are made in step. -/
theorem Mirrors.attempt (h : Mirrors p start g e e' done x y) (hn : n ∈ p.numbered start)
    (stage : n.stage? = some s) (fresh : n.step ∉ done) (ready : ∀ m ∈ n.children, m.step ∈ done)
    (sources : n.isScan = true → x.storage = e.storage ∧ y.storage = e'.storage) :
    InStep (Mirrors p start g e e' (done ++ [n.step])) (Mirrors p start g e e' done)
      (x.attempt g s) (y.attempt g s) := by
  unfold Engine.attempt
  rw [← h.failPoints]
  cases x.failPoints.hit (startPoint s.label) with
  | mk fails failPoints =>
      have same : Mirrors p start g e e' done { x with failPoints } { y with failPoints } :=
        { h with failPoints := rfl }
      cases fails with
      | true => exact .fail same
      | false => exact same.doWork compiled readable fits hn stage fresh ready sources

include compiled readable fits in
/-- A stage is run in step, with as many attempts. -/
theorem Mirrors.runStage (h : Mirrors p start g e e' done x y) (hn : n ∈ p.numbered start)
    (stage : n.stage? = some s) (fresh : n.step ∉ done) (ready : ∀ m ∈ n.children, m.step ∈ done)
    (sources : n.isScan = true → x.storage = e.storage ∧ y.storage = e'.storage)
    (tried retries : Nat) :
    InStep (Mirrors p start g e e' (done ++ [n.step])) (Mirrors p start g e e' done)
      (x.runStage g s tried retries) (y.runStage g s tried retries) := by
  induction retries generalizing x y tried with
  | zero =>
      have both := h.attempt compiled readable fits hn stage fresh ready sources
      simp only [Engine.runStage]
      cases left : x.attempt g s
      cases right : y.attempt g s
      rw [left, right] at both
      cases both with
      | succeed state => exact .succeed state
      | fail state => exact .fail state
  | succ retries ih =>
      have both := h.attempt compiled readable fits hn stage fresh ready sources
      simp only [Engine.runStage]
      cases left : x.attempt g s
      cases right : y.attempt g s
      rw [left, right] at both
      cases both with
      | succeed state => exact .succeed state
      | fail state =>
          refine ih state (fun scan => ?_) (tried + 1)
          -- An attempt at a scan changes no storage.
          obtain ⟨relation, plan⟩ := isScan_eq_true_iff.mp scan
          have spec := (PlanNode.spec_eq_scan_iff stage).mpr plan
          have unchanged := storage_attempt_of_scan spec x g
          have unchanged' := storage_attempt_of_scan spec y g
          rw [left] at unchanged
          rw [right] at unchanged'
          exact ⟨unchanged.trans (sources scan).1, unchanged'.trans (sources scan).2⟩

include compiled readable fits in
/-- Stages in the order of a schedule are run in step. -/
theorem Mirrors.runInOrder (begin : Mirrors p start g e e' [] e e')
    {before after : List Stage} (order : g.schedule = before ++ after) :
    InStep (Mirrors p start g e e' (before.map (·.step))) (fun _ _ => True)
      (e.runInOrder g before) (e'.runInOrder g before) := by
  induction before using List.reverseRecOn generalizing after with
  | nil => exact .succeed begin
  | append_singleton front s ih =>
      have split : g.schedule = front ++ s :: after := by simpa using order
      have earlier := ih split
      cases ran : e.runInOrder g front with
      | mk outcome x =>
          cases ran' : e'.runInOrder g front with
          | mk outcome' y =>
              rw [ran, ran'] at earlier
              cases earlier with
              | fail =>
                  rw [runInOrder_append_of_error ran, runInOrder_append_of_error ran']
                  exact .fail trivial
              | @succeed reports _ _ state =>
                  obtain ⟨n, hn, stage, fresh, inputs⟩ := exists_next compiled split
                  have ready : ∀ m ∈ n.children, m.step ∈ front.map (·.step) := fun m hm => by
                    obtain ⟨t, ht, found⟩ := inputs m hm
                    exact List.mem_map.mpr ⟨t, ht, step_of_stage? found⟩
                  -- Sources come first, so before a scan nothing has been written.
                  have sources : n.isScan = true → x.storage = e.storage ∧ y.storage = e'.storage :=
                    fun scan => by
                      have first := (compileFrom_eq_ok compiled).1.sources_first split
                        ((PlanNode.inputs_eq_nil_iff stage).mpr scan)
                      exact ⟨(found_at_start compiled split ⟨_, ran⟩).1 first,
                        (found_at_start compiled split ⟨_, ran'⟩).1 first⟩
                  have both := state.runStage compiled readable fits hn stage fresh ready sources 0
                    e.settings.stageRetries
                  rw [List.map_append, List.map_singleton, step_of_stage? stage]
                  have retries : e'.settings.stageRetries = e.settings.stageRetries := by
                    rw [begin.settings.2]
                  cases last : x.runStage g s 0 e.settings.stageRetries with
                  | mk result x' =>
                      cases last' : y.runStage g s 0 e.settings.stageRetries with
                      | mk result' y' =>
                          rw [last, last'] at both
                          rw [← retries] at last'
                          cases both with
                          | fail =>
                              rw [runInOrder_concat_of_error ⟨_, ran⟩ last,
                                runInOrder_concat_of_error ⟨_, ran'⟩ last']
                              exact .fail trivial
                          | succeed after =>
                              rw [runInOrder_concat_of_ok ran last,
                                runInOrder_concat_of_ok ran' last']
                              exact .succeed after

end Steps

/-- Results of two runs that differ in the order of records alone. -/
structure SameResult (g : StageGraph) (out out' : RunOutput) : Prop where
  /-- The records are the same. -/
  records : out.records.Perm out'.records
  /-- So are the reports. -/
  reports : out.reports = out'.reports
  /-- Their manifests carry one digest and one number of records. -/
  manifest : ∀ started finished started' finished' : Nat,
    (out.manifest g started finished).outputDigest =
        (out'.manifest g started' finished').outputDigest ∧
      (out.manifest g started finished).outputRecords =
        (out'.manifest g started' finished').outputRecords

theorem sameResult_of_perm {records records' : List Record} (same : records.Perm records')
    (g : StageGraph) (reports : List StageReport) :
    SameResult g ⟨records, reports⟩ ⟨records', reports⟩ where
  records := same
  reports := rfl
  manifest _ _ _ _ := ⟨congrArg some (Digest.ofRecords_perm same), same.length_eq⟩

/-- A run that succeeds has been able to read every relation at the start. -/
theorem readable_of_run (compiled : p.compileFrom start = .ok g) {out : RunOutput}
    (ran : (e.run g).1 = .ok out) {relation : String} (member : relation ∈ g.relations) :
    ∃ records, e.storage.readRelation relation = .ok records := by
  let good : Plan → List Record → Prop := fun q _ => ∀ relation, q = .scan relation →
    ∃ records, e.storage.readRelation relation = .ok records
  have carries : ∀ n ∈ p.numbered start, n.plan.Carries good := fun n _ =>
    { operate := fun spec op hspec work _ _ _ _ relation plan => by
        rw [plan] at hspec
        cases hspec
        cases work
      stored := fun _ found _ _ _ => found }
  have relations : ∀ n ∈ p.numbered start, ∀ relation, n.plan = .scan relation → ∀ records,
      e.storage.readRelation relation = .ok records → good n.plan records := by
    rintro n - relation plan records read other equal
    rw [plan] at equal
    cases equal
    exact ⟨records, read⟩
  obtain ⟨s, hs, scan⟩ := List.mem_filterMap.mp member
  obtain ⟨n, hn, stage⟩ := exists_node_of_stage compiled hs
  have plan : n.plan = .scan relation := by
    split at scan
    · rename_i other spec
      cases scan
      exact (PlanNode.spec_eq_scan_iff stage).mp spec
    · cases scan
  obtain ⟨_, found⟩ := exists_good_of_run compiled carries relations ran hn
  exact found relation plan

/-- Over relations that can all be read, two runs that go in step agree. -/
theorem agree_of_readable (compiled : p.compileFrom start = .ok g)
    (fits : p.Everywhere Plan.AliasFitsAt) (begin : Mirrors p start g e e' [] e e')
    (readable : ∀ relation ∈ g.relations, ∃ records records',
      e.storage.readRelation relation = .ok records ∧
        e'.storage.readRelation relation = .ok records' ∧
          (Plan.scan relation).Rearranged records records') :
    Agree (SameResult g) (e.run g).1 (e'.run g).1 := by
  obtain ⟨valid, root, -⟩ := compileFrom_eq_ok compiled
  have both := Mirrors.runInOrder compiled readable fits begin (List.append_nil g.schedule).symm
  rw [Engine.fst_run, Engine.fst_run]
  cases ran : e.runInOrder g g.schedule with
  | mk result x =>
      cases ran' : e'.runInOrder g g.schedule with
      | mk result' y =>
          rw [ran, ran'] at both
          cases both with
          | fail =>
              rw [runStages_of_error valid ran, runStages_of_error valid ran']
              exact .fail
          | @succeed reports _ _ state =>
              rw [runStages_of_ok valid ran, runStages_of_ok valid ran', root]
              obtain ⟨s, scheduled, stage⟩ := exists_scheduled compiled (p.self_mem_numbered start)
              have done : start ∈ g.schedule.map (·.step) :=
                List.mem_map.mpr ⟨s, scheduled, step_of_stage? stage⟩
              exact (state.stepRecords compiled readable (p.self_mem_numbered start) done).map
                fun records records' rearranged => sameResult_of_perm rearranged.perm g reports

/-- Two runs of a compiled plan over storages of one shape, such as any two in memory, or with room
for the outputs, in which the relations have the same records, labelled with them, in different
orders or cannot be read: both runs succeed, with the same result but for the order of records, or
both fail. -/
theorem run_ignores_order (compiled : p.compileFrom start = .ok g)
    (fits : p.Everywhere Plan.AliasFitsAt) (storage : Storage)
    (comparable : e.storage.Comparable g e.settings.environment storage)
    (relations : ∀ relation ∈ g.relations, Agree
      (fun records records' : List Record =>
        records.Perm records' ∧ ∀ r ∈ records, r.label = relation)
      (e.storage.readRelation relation) (storage.readRelation relation)) :
    Agree (SameResult g) (e.run g).1 ({ e with storage }.run g).1 := by
  by_cases readable : ∀ relation ∈ g.relations, ∃ records,
      e.storage.readRelation relation = .ok records
  · have both : ∀ relation ∈ g.relations, ∃ records records',
        e.storage.readRelation relation = .ok records ∧
          storage.readRelation relation = .ok records' ∧
            (Plan.scan relation).Rearranged records records' := by
      intro relation member
      obtain ⟨records, read⟩ := readable relation member
      have alike := relations relation member
      rw [read] at alike
      cases read' : storage.readRelation relation <;> rw [read'] at alike <;> cases alike
      rename_i records' same
      exact ⟨records, records', read, rfl, same.1, fun r hr =>
        ⟨same.2 r hr, Storage.fitsLine_of_readRelation read r hr⟩⟩
    refine agree_of_readable compiled fits ?_ both
    refine ⟨⟨rfl, rfl⟩, rfl, comparable.alike fun relation member => ?_, fun _ _ => ⟨id, id⟩,
      by simp⟩
    obtain ⟨records, records', read, read', -⟩ := both relation member
    obtain ⟨content, found, -⟩ := Storage.exists_read read
    obtain ⟨content', found', -⟩ := Storage.exists_read read'
    exact ⟨⟨content, found⟩, content', found'⟩
  · -- A relation that cannot be read makes both runs fail.
    simp only [not_forall] at readable
    obtain ⟨relation, member, unread⟩ := readable
    refine .of_forall (fun out ran => absurd (readable_of_run compiled ran member) unread)
      fun out ran => ?_
    obtain ⟨records', read'⟩ := readable_of_run compiled ran member
    have alike := relations relation member
    rw [show storage.readRelation relation = .ok records' from read'] at alike
    cases read : e.storage.readRelation relation with
    | ok records => exact absurd ⟨records, read⟩ unread
    | error fault =>
        rw [read] at alike
        cases alike

end Engine

/-- What is eaten. -/
def menuRecords : List Record :=
  [⟨"Eats", Table.ofList [("Eats.pizza", .text "tuna")]⟩,
    ⟨"Eats", Table.ofList [("Eats.pizza", .text "ham")]⟩,
    ⟨"Eats", Table.ofList [("Eats.pizza", .text "ham")]⟩]

/-- The pizzas. -/
def menuPlan : Plan :=
  .project [.bare "pizza"] (.scan "Eats")

/-- The stages of the plan. -/
def menuGraph : StageGraph :=
  ⟨⟨1⟩, [⟨⟨1⟩, .project [.bare "pizza"], "Eats", [⟨2⟩]⟩, ⟨⟨2⟩, .scan "Eats", "Eats", []⟩]⟩

/-- An engine over the records in memory. -/
def menuEngine : Engine where
  settings := { environment := .standalone }
  storage := .memory (Table.empty.insert "Eats.json" (encodeRecords menuRecords))

/-- A folder with the records in the other order. -/
def menuFolder : FileTree :=
  .folder [("data", .folder [("Eats.json", .file (encodeRecords menuRecords.reverse))])]

theorem roomBelow_menuFolder :
    Storage.RoomBelow menuGraph .standalone "data" menuFolder where
  short := by decide
  free _ s hs stores := by
    have only : s.step = ⟨1⟩ := by
      revert s
      decide
    have place : (outputPath .standalone ⟨1⟩ :: wayOf [] (rootNames "data")).reverse =
        ["data", "tmp1.tmp"] := by
      decide
    rw [only, FileTree.FolderAt, place]
    simp [menuFolder, FileTree.at?, FileTree.entryNamed?]
  apart := by decide

theorem Engine.run_ignores_order_menu : ∃ out out',
    (menuEngine.run menuGraph).1 = .ok out ∧ out.records.length = 2 ∧
      ({ menuEngine with storage := .disk "data" menuFolder }.run menuGraph).1 = .ok out' ∧
        SameResult menuGraph out out' := by
  have compiled : menuPlan.compileFrom StepId.root = .ok menuGraph := by
    apply compileFrom_of_lower rfl rfl
    exact StageGraph.ofStages_of_faultless (by decide) (by decide) (by decide)
  have memory : menuEngine.storage.readRelation "Eats" = .ok menuRecords :=
    Storage.readRelation_of_get? (by simp [Table.get?_insert, relationPath]) (by decide)
      (readsBack_of_no_float (by decide))
  have folder : (Storage.disk "data" menuFolder).readRelation "Eats" = .ok menuRecords.reverse := by
    have there : (Storage.disk "data" menuFolder).contains (relationPath "Eats") = true := by
      decide
    have held : (Storage.disk "data" menuFolder).HoldsRelation "Eats"
        (encodeRecords menuRecords.reverse) := by
      rfl
    rw [Storage.readRelation_of_holdsRelation there held]
    exact decodeRecords_encodeRecords _ (by decide) (readsBack_of_no_float (by decide))
  have apart : menuGraph.KeepsRelations .standalone := by
    decide
  have only : menuGraph.relations = ["Eats"] := by
    decide
  have both := Engine.run_ignores_order compiled (by decide) (e := menuEngine)
    (.disk "data" menuFolder) (.inr ⟨apart, roomBelow_menuFolder⟩) fun relation member => by
      rw [only, List.mem_singleton] at member
      rw [member, memory, folder]
      exact .succeed ⟨(List.reverse_perm _).symm, by decide⟩
  have two : (menuEngine.run menuGraph).1.map (·.records.length) = .ok 2 := by
    decide +kernel
  obtain ⟨out, ran, length⟩ := map_eq_ok_iff.mp two
  rw [ran] at both
  cases ran' : ({ menuEngine with storage := .disk "data" menuFolder }.run menuGraph).1 with
  | error fault =>
      rw [ran'] at both
      cases both
  | ok out' =>
      rw [ran'] at both
      cases both with
      | succeed same => exact ⟨out, out', ran, length, rfl, same⟩

end StagedAlgebra
