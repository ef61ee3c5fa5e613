import StagedAlgebra.Proofs.JoinConversion
import StagedAlgebra.Proofs.RecordFlow
import StagedAlgebra.Proofs.StablePlans

/-!
# What runs fail for

A run fails for what it meets: relations and outputs that cannot be read or stored, and records with
which an operator cannot go on. How its graph is made is no reason to fail. Every step that a run
looks up, in a wave, as an input or as the root, is a stage of the graph; a stage without operator
is a scan; and every join of an optimised plan can be built, because a selection only becomes part
of a join if it equates attributes (`Engine.runPlan_faults`).

Neither scheduling nor hashing adds a fault. The scheduler starts under every limit, and a wave
fails only as one of its stages does. Graphs and records can all be written, and a digest has its
thirty-two bytes whatever it is taken of.

## Implementation notes

`RunFault.ArisesIn` lists the faults that a run of a graph can have. It is shown of one attempt at a
stage, and a run that fails does so with an attempt or with reading the records of the root.
-/

namespace StagedAlgebra

namespace Condition

/-- Every conjunct of a condition equates two attributes. -/
def PairsAttributes (c : Condition) : Prop :=
  ∀ atom ∈ c.conjuncts, ∃ a b, atom = .equal (.attr a) (.attr b)

variable {b c : Condition}

theorem isSome_attributePair?_iff :
    c.attributePair?.isSome = true ↔ ∃ a b, c = .equal (.attr a) (.attr b) := by
  unfold attributePair?
  split
  · simp
  · rename_i other
    simpa using other

instance : DecidablePred PairsAttributes := fun c =>
  decidable_of_iff (∀ atom ∈ c.conjuncts, atom.attributePair?.isSome = true)
    (forall₂_congr fun _ _ => isSome_attributePair?_iff)

theorem PairsAttributes.both (hb : b.PairsAttributes) (hc : c.PairsAttributes) :
    (Condition.both b c).PairsAttributes := by
  intro atom member
  rw [conjuncts_both, List.mem_append] at member
  exact member.elim (hb atom) (hc atom)

/-- Selections that become part of a join equate attributes. -/
theorem pairsAttributes_of_isEquiJoin {left right : Plan}
    (h : Plan.isEquiJoin c left right = true) : c.PairsAttributes := by
  intro atom member
  obtain ⟨x, a, y, b, rfl, -⟩ := linksLabels_iff.mp (List.all_eq_true.mp h atom member)
  exact ⟨.qualified x a, .qualified y b, rfl⟩

theorem PairsAttributes.exists_ofCondition (h : c.PairsAttributes)
    (leftLabel rightLabel : String) :
    ∃ j, KeyJoin.ofCondition c leftLabel rightLabel = .ok j := by
  have all : ∃ pairs, c.conjuncts.mapM attributePair = .ok pairs := by
    refine exists_mapM_eq_ok fun atom member => ?_
    obtain ⟨a, b, rfl⟩ := h atom member
    exact ⟨(a, b), rfl⟩
  obtain ⟨pairs, all⟩ := all
  exact ⟨⟨leftLabel, rightLabel, pairs⟩, map_eq_ok_iff.mpr ⟨pairs, all, rfl⟩⟩

end Condition

namespace Plan

/-- A join at the root has a condition with a property. -/
def JoinsBy (P : Condition → Prop) : Plan → Prop
  | .join _ c _ => P c
  | _ => True

instance {P : Condition → Prop} [DecidablePred P] : DecidablePred (JoinsBy P)
  | .join _ c _ => inferInstanceAs (Decidable (P c))
  | .scan _ | .select .. | .project .. | .rename .. | .cross .. => inferInstanceAs (Decidable True)

variable {p : Plan} {P : Condition → Prop}

theorem ownProperty_joinsBy (P : Condition → Prop) : OwnProperty (fun _ => True) (JoinsBy P) :=
  ⟨Iff.rfl, id, id, id, id⟩

theorem joinsBy_splitSelections (h : p.Everywhere (JoinsBy P)) :
    p.splitSelections.Everywhere (JoinsBy P) := by
  induction p with
  | scan _ => trivial
  | select _ _ ih => exact (ownProperty_joinsBy P).stack (ih h.2) fun _ _ => trivial
  | project _ _ ih | rename _ _ ih => exact ⟨trivial, ih h.2⟩
  | cross _ _ ihl ihr | join _ _ _ ihl ihr => exact ⟨h.1, ihl h.2.1, ihr h.2.2⟩

theorem joinsBy_selectAll (chain : List Condition) (h : p.Everywhere (JoinsBy P)) :
    (selectAll chain p).Everywhere (JoinsBy P) := by
  cases chain with
  | nil => exact h
  | cons _ _ => exact ⟨trivial, h⟩

theorem joinsBy_mergeFrom (chain : List Condition) (h : p.Everywhere (JoinsBy P)) :
    (p.mergeFrom chain).Everywhere (JoinsBy P) := by
  induction p generalizing chain with
  | scan _ => exact joinsBy_selectAll chain trivial
  | select c _ ih => exact ih (chain ++ [c]) h.2
  | project _ _ ih | rename _ _ ih => exact joinsBy_selectAll chain ⟨trivial, ih [] h.2⟩
  | cross _ _ ihl ihr | join _ _ _ ihl ihr =>
      exact joinsBy_selectAll chain ⟨h.1, ihl [] h.2.1, ihr [] h.2.2⟩

theorem pairs_selectOrJoin (c : Condition)
    (h : p.Everywhere (JoinsBy Condition.PairsAttributes)) :
    (selectOrJoin c p).Everywhere (JoinsBy Condition.PairsAttributes) := by
  cases p with
  | scan _ | select _ _ | project _ _ | rename _ _ => exact ⟨trivial, h⟩
  | cross left right =>
      rw [selectOrJoin]
      split
      · rename_i equi
        exact ⟨Condition.pairsAttributes_of_isEquiJoin equi, h.2⟩
      · exact ⟨trivial, h⟩
  | join left b right =>
      rw [selectOrJoin]
      split
      · rename_i equi
        have own : b.PairsAttributes := h.1
        exact ⟨own.both (Condition.pairsAttributes_of_isEquiJoin equi), h.2⟩
      · exact ⟨trivial, h⟩

theorem pairs_introduceJoins (h : p.Everywhere (JoinsBy Condition.PairsAttributes)) :
    p.introduceJoins.Everywhere (JoinsBy Condition.PairsAttributes) := by
  induction p with
  | scan _ => trivial
  | select c _ ih => exact pairs_selectOrJoin c (ih h.2)
  | project _ _ ih | rename _ _ ih => exact ⟨trivial, ih h.2⟩
  | cross _ _ ihl ihr | join _ _ _ ihl ihr => exact ⟨h.1, ihl h.2.1, ihr h.2.2⟩

/-- The joins of an optimised plan equate attributes, if those of the plan do. -/
theorem pairs_optimize (d : Dictionary) (h : p.Everywhere (JoinsBy Condition.PairsAttributes)) :
    (p.optimize d).Everywhere (JoinsBy Condition.PairsAttributes) := by
  have split := joinsBy_splitSelections h
  have sunk : (p.splitSelections.sinkFrom d []).Everywhere _ :=
    (ownProperty_joinsBy _).sinkFrom d split (by simp)
  exact pairs_introduceJoins (joinsBy_mergeFrom [] sunk)

/-- The stage of an operator can be built, if it is not a join of anything but attributes. -/
theorem exists_work {spec : StageSpec} (h : p.JoinsBy Condition.PairsAttributes)
    (own : p.spec? = some spec) : ∃ work, spec.work = .ok work := by
  cases p with
  | cross _ _ => cases own
  | scan relation =>
      cases own
      exact ⟨.offer, rfl⟩
  | select _ _ | project _ _ | rename _ _ =>
      cases own
      exact ⟨.apply _, rfl⟩
  | join left c right =>
      cases own
      have pairs : c.PairsAttributes := h
      obtain ⟨j, made⟩ := pairs.exists_ofCondition left.label right.label
      exact ⟨.apply (.join j), map_eq_ok_iff.mpr ⟨j, made, rfl⟩⟩

theorem exists_work_of_compileFrom {start : StepId} {g : StageGraph}
    (compiled : p.compileFrom start = .ok g)
    (joins : p.Everywhere (JoinsBy Condition.PairsAttributes)) {s : Stage} (hs : s ∈ g.stages) :
    ∃ work, s.spec.work = .ok work := by
  obtain ⟨n, hn, stage⟩ := exists_node_of_stage compiled hs
  obtain ⟨spec, own, rfl⟩ := Option.map_eq_some_iff.mp stage
  exact exists_work (joins.of_mem_numbered hn).root own

end Plan

/-- The faults that a run of a graph can have. -/
inductive RunFault.ArisesIn (g : StageGraph) : RunFault → Prop
  /-- A stage of the graph cannot be built. -/
  | unbuilt {s : Stage} {fault : OperatorFault} (hs : s ∈ g.stages)
      (work : s.spec.work = .error fault) : ArisesIn g (.operator s.spec fault)
  /-- The operator of a stage of the graph cannot go on. -/
  | stuck {s : Stage} (hs : s ∈ g.stages) (fault : OperatorFault) :
      ArisesIn g (.stage s.step fault)
  /-- Objects cannot be read or written. -/
  | storage (fault : StorageFault) : ArisesIn g (.storage fault)

namespace Engine

variable {g : StageGraph} {e x : Engine} {s : Stage} {fault : RunFault}

theorem storage_of_stepRecords {step : StepId} (known : ∃ t, g.stage? step = some t)
    (h : e.stepRecords g step = .error fault) : ∃ reason, fault = .storage reason := by
  obtain ⟨unknown, -⟩ | storage := stepRecords_eq_error h
  · obtain ⟨t, found⟩ := known
    cases unknown.symm.trans found
  · exact storage

theorem arisesIn_of_applyOperator {op : Operator} (hs : s ∈ g.stages)
    (known : ∀ i ∈ s.inputs, ∃ t, g.stage? i = some t) (h : e.applyOperator g s op = .error fault) :
    fault.ArisesIn g := by
  unfold applyOperator at h
  split at h
  · rename_i read
    cases h
    obtain ⟨i, hi, read⟩ := exists_of_inputRecords_error read
    obtain ⟨reason, rfl⟩ := storage_of_stepRecords (known i hi) read
    exact .storage reason
  split at h
  · cases h
    exact .stuck hs _
  · cases h

/-- What one attempt at a stage of a valid graph can fail for. -/
theorem arisesIn_of_attempt (valid : g.Valid) (hs : s ∈ g.stages)
    (h : (e.attempt g s).1 = .error fault) : fault.ArisesIn g := by
  have known (i : StepId) (hi : i ∈ s.inputs) : ∃ t, g.stage? i = some t := by
    obtain ⟨-, t, ht, rfl⟩ := valid.stages.inputs s hs i hi
    exact ⟨t, valid.stages.stageAt?_of_mem ht⟩
  obtain ⟨failPoints, failed⟩ | ⟨-, works⟩ := e.attempt_cases g s
  · rw [failed] at h
    cases h
    exact .stuck hs _
  rw [works] at h
  have outcome := e.workOutcome g s
  generalize e.doWork g s = result at outcome h
  cases outcome with
  | unbuilt work =>
      cases h
      exact .unbuilt hs work
  | offered _ =>
      rw [map_eq_error_iff, checkRelation] at h
      split at h
      · cases h
      · cases h
        exact .storage _
  | stuck _ applied =>
      cases h
      exact arisesIn_of_applyOperator hs known applied
  | refused _ _ _ =>
      cases h
      exact .storage _
  | stored _ _ _ => cases h

/-- What a run of a valid graph can fail for: never a step that is no stage, never a stage without
operator that is no scan, and neither scheduling nor hashing. -/
theorem arisesIn_of_run (valid : g.Valid) (h : (e.run g).1 = .error fault) :
    fault.ArisesIn g := by
  obtain ⟨s, x, tried, failed⟩ | ⟨x, read⟩ := exists_tries_of_run_error valid h
  · obtain ⟨before, after, e₁, order, -, -⟩ := tried
    have hs : s ∈ g.stages := valid.mem_schedule_iff.mp (by simp [order])
    exact arisesIn_of_attempt valid hs failed
  · obtain ⟨reason, rfl⟩ := storage_of_stepRecords valid.root read
    exact .storage reason

end Engine

/-- A digest is complete: thirty-two bytes long. -/
def Digest.IsComplete (d : Digest) : Prop :=
  d.bytes.length = 32

theorem Digest.isComplete_ofText (s : String) : (ofText s).IsComplete := by
  simp only [IsComplete, ofText, ofBytes, Blake3.length_hash]

/-- A manifest names the graph and the records of a run by complete digests. -/
structure Manifest.Identifies (m : Manifest) : Prop where
  graph : m.planDigest.IsComplete
  records : ∃ digest, m.outputDigest = some digest ∧ digest.IsComplete

theorem RunOutput.identifies_manifest (o : RunOutput) (g : StageGraph) (started finished : Nat) :
    (o.manifest g started finished).Identifies where
  graph := Digest.isComplete_ofText g.toJson.compact
  records := ⟨.ofRecords o.records, rfl, Digest.isComplete_ofText (Digest.recordText o.records)⟩

/-- The digests of a manifest are those that the run took. -/
theorem RunOutput.hashed_manifest (o : RunOutput) (g : StageGraph) (started finished : Nat) :
    Digest.hashGraph g = .ok (o.manifest g started finished).planDigest ∧
      (Digest.hashRecords o.records).toOption = (o.manifest g started finished).outputDigest := by
  constructor
  · exact Digest.hashGraph_eq g
  · rw [Digest.hashRecords_eq]
    rfl

namespace Engine

variable {p : Plan} {d : Dictionary}

theorem runPlan_of_refused (e : Engine) {reason : CompileFault}
    (refused : (p.optimize d).compile = .error reason) :
    e.runPlan p d = (.error (.plan reason), e) := by
  simp only [runPlan, graphOf, refused, Except.mapError]

theorem runPlan_of_compiled (e : Engine) {g : StageGraph}
    (compiled : (p.optimize d).compile = .ok g) :
    graphOf p d = .ok g ∧ e.runPlan p d = e.run g := by
  simp only [runPlan, graphOf, compiled, Except.mapError, and_self]

/-- The stages of an optimised plan whose joins equate attributes can all be built, so a run of
them fails for other reasons. -/
theorem stage_or_storage_of_run (e : Engine) {g : StageGraph} {fault : RunFault}
    (compiled : (p.optimize d).compile = .ok g)
    (joins : p.Everywhere (Plan.JoinsBy Condition.PairsAttributes))
    (failed : (e.run g).1 = .error fault) :
    (∃ step reason, fault = .stage step reason) ∨ ∃ reason, fault = .storage reason := by
  have valid := (compileFrom_eq_ok compiled).1
  cases arisesIn_of_run valid failed with
  | stuck _ reason => exact .inl ⟨_, reason, rfl⟩
  | storage reason => exact .inr ⟨reason, rfl⟩
  | unbuilt hs unbuilt =>
      obtain ⟨work, built⟩ :=
        Plan.exists_work_of_compileFrom compiled (Plan.pairs_optimize d joins) hs
      cases built.symm.trans unbuilt

/-- Accepted plans and graphs do not fail for how they are made. The run of a plan whose joins
equate attributes fails because the plan cannot be compiled, because an operator cannot go on, or
because of the storage, and for no other reason; if it succeeds, its manifest has the digests that
the run took. The run of an accepted graph never misses a stage or an operator, and it can always be
scheduled and hashed. -/
theorem runPlan_faults (e : Engine) :
    (∀ (p : Plan) (d : Dictionary), p.Everywhere (Plan.JoinsBy Condition.PairsAttributes) →
      (∀ fault, (e.runPlan p d).1 = .error fault →
        (∃ reason, fault = .plan reason ∧ (p.optimize d).compile = .error reason) ∨
          (∃ step reason, fault = .stage step reason) ∨ ∃ reason, fault = .storage reason) ∧
      ∀ out, (e.runPlan p d).1 = .ok out → ∃ g, graphOf p d = .ok g ∧
        ∀ started finished, (out.manifest g started finished).Identifies ∧
          Digest.hashGraph g = .ok (out.manifest g started finished).planDigest ∧
          (Digest.hashRecords out.records).toOption =
            (out.manifest g started finished).outputDigest) ∧
    ∀ root listed g, StageGraph.ofStages root listed = .ok g →
      (∀ step, (e.run g).1 ≠ .error (.noStage step) ∧
        (e.run g).1 ≠ .error (.noOperator step)) ∧
      ∀ reason, (e.run g).1 ≠ .error (.scheduler reason) ∧
        (e.run g).1 ≠ .error (.hash reason) := by
  constructor
  · intro p d joins
    cases compiled : (p.optimize d).compile with
    | error reason =>
        rw [e.runPlan_of_refused compiled]
        constructor
        · rintro fault ⟨⟩
          exact .inl ⟨reason, rfl, rfl⟩
        · rintro out ⟨⟩
    | ok g =>
        obtain ⟨made, runs⟩ := e.runPlan_of_compiled compiled
        rw [runs]
        constructor
        · intro fault failed
          exact .inr (e.stage_or_storage_of_run compiled joins failed)
        · intro out _
          refine ⟨g, made, fun started finished => ?_⟩
          exact ⟨out.identifies_manifest g started finished,
            out.hashed_manifest g started finished⟩
  · intro root listed g accepted
    have valid := (StageGraph.valid_of_ofStages accepted).1
    constructor
    · intro step
      constructor <;> intro failed <;> cases arisesIn_of_run valid failed
    · intro reason
      constructor <;> intro failed <;> cases arisesIn_of_run valid failed

end Engine

/-- What guests eat, with a join and two selections that become another one. -/
def guestPlan : Plan :=
  .project [.bare "pizza"]
    (.select (.equal (.attr (.qualified "E" "name")) (.attr (.qualified "Person" "name")))
      (.select (.equal (.attr (.qualified "Guest" "name")) (.attr (.qualified "E" "name")))
        (.cross (.rename "E" (.scan "Eats"))
          (.join (.scan "Person")
            (.equal (.attr (.qualified "Person" "name")) (.attr (.qualified "Guest" "name")))
            (.scan "Guest")))))

/-- The stages of the optimised plan. -/
def guestGraph : StageGraph :=
  ⟨⟨1⟩, [⟨⟨1⟩, .project [.bare "pizza"], "E,Person,Guest", [⟨2⟩]⟩,
    ⟨⟨2⟩, .join
      (.both (.equal (.attr (.qualified "E" "name")) (.attr (.qualified "Person" "name")))
        (.equal (.attr (.qualified "Guest" "name")) (.attr (.qualified "E" "name"))))
      "E" "Person,Guest", "E,Person,Guest", [⟨3⟩, ⟨5⟩]⟩,
    ⟨⟨3⟩, .rename "E", "E", [⟨4⟩]⟩, ⟨⟨4⟩, .scan "Eats", "Eats", []⟩,
    ⟨⟨5⟩, .join (.equal (.attr (.qualified "Person" "name")) (.attr (.qualified "Guest" "name")))
      "Person" "Guest", "Person,Guest", [⟨6⟩, ⟨7⟩]⟩,
    ⟨⟨6⟩, .scan "Person", "Person", []⟩, ⟨⟨7⟩, .scan "Guest", "Guest", []⟩]⟩

/-- Both joins can be built, but no guests are stored. A graph that runs to its end is accepted in
whatever order its stages are listed. -/
theorem Engine.runPlan_faults_guests :
    guestPlan.Everywhere (Plan.JoinsBy Condition.PairsAttributes) ∧
      (leftoverEngine.runPlan guestPlan ⟨Table.empty⟩).1 =
        .error (.storage (.relationMissing "Guest.json")) ∧
      (∀ spec reason,
        (leftoverEngine.runPlan guestPlan ⟨Table.empty⟩).1 ≠ .error (.operator spec reason)) ∧
      StageGraph.ofStages ⟨1⟩ pizzaGraph.stages.reverse = .ok pizzaGraph ∧
      (∀ step, (leftoverEngine.run pizzaGraph).1 ≠ .error (.noStage step) ∧
        (leftoverEngine.run pizzaGraph).1 ≠ .error (.noOperator step)) ∧
      ∀ reason, (leftoverEngine.run pizzaGraph).1 ≠ .error (.scheduler reason) ∧
        (leftoverEngine.run pizzaGraph).1 ≠ .error (.hash reason) := by
  have joins : guestPlan.Everywhere (Plan.JoinsBy Condition.PairsAttributes) := by decide
  have compiled : (guestPlan.optimize ⟨Table.empty⟩).compile = .ok guestGraph := by
    apply compileFrom_of_lower (n := 7) (by decide +kernel) rfl
    exact StageGraph.ofStages_of_faultless (by decide) (by decide) (by decide)
  have missing : (leftoverEngine.runPlan guestPlan ⟨Table.empty⟩).1 =
      .error (.storage (.relationMissing "Guest.json")) := by
    rw [(leftoverEngine.runPlan_of_compiled compiled).2]
    decide +kernel
  have accepted : StageGraph.ofStages ⟨1⟩ pizzaGraph.stages.reverse = .ok pizzaGraph :=
    StageGraph.ofStages_of_faultless (by decide) (by decide) (List.reverse_perm _)
  obtain ⟨plans, graphs⟩ := runPlan_faults leftoverEngine
  refine ⟨joins, missing, fun spec reason failed => ?_, accepted, graphs _ _ _ accepted⟩
  obtain ⟨_, other, -⟩ | ⟨_, _, other⟩ | ⟨_, other⟩ :=
    (plans guestPlan ⟨Table.empty⟩ joins).1 _ failed
  all_goals cases other

end StagedAlgebra
