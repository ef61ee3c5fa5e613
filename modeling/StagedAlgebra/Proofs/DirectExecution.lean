import StagedAlgebra.StageGraph.Compilation
import StagedAlgebra.Proofs.OperatorRuns
import StagedAlgebra.Proofs.RecordCodec

/-!
# Direct execution of plans

A plan can be executed without stages: a scan gives the records that are read, and every other
operator is applied at once to the records of its inputs, left before right. `Plan.direct` is
that, and fails where any part fails.

The nodes of a plan are its operators with the numbers of their stages. Compiling gives every
node its stage, and what is executed directly at a node does not depend on the rest of the plan.
-/

namespace StagedAlgebra

/-- Why a plan cannot be executed directly. -/
inductive DirectFault where
  /-- The records of a relation cannot be read. -/
  | storage (fault : StorageFault)
  /-- An operator cannot be built, or cannot go on. -/
  | operator (fault : OperatorFault)
  /-- There is a cross product. -/
  | crossProduct
deriving DecidableEq

/-- What the operator of a stage makes of records. -/
def StageSpec.operate (spec : StageSpec) (records : List Record) :
    Except DirectFault (List Record) :=
  match spec.work with
  | .error fault => .error (.operator fault)
  | .ok .offer => .ok records
  | .ok (.apply op) => (op.run records).mapError .operator

namespace Plan

/-- The stage that an operator becomes. -/
def spec? : Plan → Option StageSpec
  | .scan relation => some (.scan relation)
  | .select c _ => some (.select c)
  | .project attributes _ => some (.project attributes)
  | .rename newLabel _ => some (.rename newLabel)
  | .join left c right => some (.join c left.label right.label)
  | .cross .. => none

/-- The inputs of the operator at the root, from left to right. -/
def inputs : Plan → List Plan
  | .scan _ => []
  | .select _ input | .project _ input | .rename _ input => [input]
  | .cross left right | .join left _ right => [left, right]

/-- The records of a plan, executed operator by operator. -/
def direct (read : String → Except StorageFault (List Record)) :
    Plan → Except DirectFault (List Record)
  | .scan relation => (read relation).mapError .storage
  | .select c input => (input.direct read).bind (StageSpec.select c).operate
  | .project attributes input => (input.direct read).bind (StageSpec.project attributes).operate
  | .rename newLabel input => (input.direct read).bind (StageSpec.rename newLabel).operate
  | .join left c right =>
    (left.direct read).bind fun l => (right.direct read).bind fun r =>
      (StageSpec.join c left.label right.label).operate (l ++ r)
  | .cross .. => .error .crossProduct

/-- The records of several plans, one after another. -/
def directAll (read : String → Except StorageFault (List Record)) :
    List Plan → Except DirectFault (List Record)
  | [] => .ok []
  | p :: rest => (p.direct read).bind fun records => (directAll read rest).map (records ++ ·)

/-- The number of records of an outcome. -/
def count (outcome : Except DirectFault (List Record)) : Nat :=
  match outcome with
  | .ok records => records.length
  | .error _ => 0

end Plan

/-- An operator of a plan, with all that is below it, and the number of its stage. -/
structure PlanNode where
  /-- The number of the stage. -/
  step : StepId
  /-- The operator and its inputs. -/
  plan : Plan
deriving DecidableEq

namespace PlanNode

/-- The nodes of the inputs. -/
def children (n : PlanNode) : List PlanNode :=
  match n.plan with
  | .scan _ => []
  | .select _ input | .project _ input | .rename _ input => [⟨n.step.offset 1, input⟩]
  | .cross left right | .join left _ right =>
    [⟨n.step.offset 1, left⟩, ⟨n.step.offset (1 + left.size), right⟩]

/-- The stage of a node. -/
def stage? (n : PlanNode) : Option Stage :=
  n.plan.spec?.map fun spec => ⟨n.step, spec, n.plan.label, n.children.map (·.step)⟩

/-- Whether a node reads a relation. -/
def isScan (n : PlanNode) : Bool :=
  n.plan.kind == .scan

end PlanNode

namespace Plan

/-- The nodes of a plan whose root has a number, inputs before the nodes that take their
records. -/
def numbered (step : StepId) : Plan → List PlanNode
  | .scan relation => [⟨step, .scan relation⟩]
  | .select c input => input.numbered (step.offset 1) ++ [⟨step, .select c input⟩]
  | .project attributes input =>
    input.numbered (step.offset 1) ++ [⟨step, .project attributes input⟩]
  | .rename newLabel input => input.numbered (step.offset 1) ++ [⟨step, .rename newLabel input⟩]
  | .join left c right =>
    left.numbered (step.offset 1) ++ right.numbered (step.offset (1 + left.size))
      ++ [⟨step, .join left c right⟩]
  | .cross left right =>
    left.numbered (step.offset 1) ++ right.numbered (step.offset (1 + left.size))
      ++ [⟨step, .cross left right⟩]

theorem self_mem_numbered (p : Plan) (step : StepId) : ⟨step, p⟩ ∈ p.numbered step := by
  cases p <;> simp [numbered]

/-- The inputs of a node are nodes. -/
theorem children_mem_numbered {p : Plan} {step : StepId} {n m : PlanNode}
    (hn : n ∈ p.numbered step) (hm : m ∈ n.children) : m ∈ p.numbered step := by
  induction p generalizing step with
  | scan relation =>
      rw [numbered, List.mem_singleton] at hn
      subst hn
      simp [PlanNode.children] at hm
  | select c input ih | project attributes input ih | rename newLabel input ih =>
      rw [numbered, List.mem_append, List.mem_singleton] at hn ⊢
      rcases hn with hn | rfl
      · exact .inl (ih hn)
      · simp only [PlanNode.children, List.mem_singleton] at hm
        rw [hm]
        exact .inl (self_mem_numbered _ _)
  | cross left right ihl ihr | join left c right ihl ihr =>
      rw [numbered, List.mem_append, List.mem_append, List.mem_singleton] at hn ⊢
      rcases hn with (hn | hn) | rfl
      · exact .inl (.inl (ihl hn))
      · exact .inl (.inr (ihr hn))
      · simp only [PlanNode.children, List.mem_cons, List.not_mem_nil, or_false] at hm
        rcases hm with rfl | rfl
        · exact .inl (.inl (self_mem_numbered _ _))
        · exact .inl (.inr (self_mem_numbered _ _))

/-- Every node but the root is an input of a node. -/
theorem eq_root_or_exists_parent {p : Plan} {step : StepId} {n : PlanNode}
    (hn : n ∈ p.numbered step) : n = ⟨step, p⟩ ∨ ∃ m ∈ p.numbered step, n ∈ m.children := by
  induction p generalizing step with
  | scan relation => exact .inl (List.mem_singleton.mp hn)
  | select c input ih | project attributes input ih | rename newLabel input ih =>
      rw [numbered, List.mem_append, List.mem_singleton] at hn
      rcases hn with hn | rfl
      · refine .inr ?_
        rcases ih hn with rfl | ⟨m, hm, child⟩
        · exact ⟨⟨step, _⟩, self_mem_numbered _ _, by simp [PlanNode.children]⟩
        · exact ⟨m, List.mem_append_left _ hm, child⟩
      · exact .inl rfl
  | cross left right ihl ihr | join left c right ihl ihr =>
      rw [numbered, List.mem_append, List.mem_append, List.mem_singleton] at hn
      rcases hn with (hn | hn) | rfl
      · refine .inr ?_
        rcases ihl hn with rfl | ⟨m, hm, child⟩
        · exact ⟨⟨step, _⟩, self_mem_numbered _ _, by simp [PlanNode.children]⟩
        · exact ⟨m, List.mem_append_left _ (List.mem_append_left _ hm), child⟩
      · refine .inr ?_
        rcases ihr hn with rfl | ⟨m, hm, child⟩
        · exact ⟨⟨step, _⟩, self_mem_numbered _ _, by simp [PlanNode.children]⟩
        · exact ⟨m, List.mem_append_left _ (List.mem_append_right _ hm), child⟩
      · exact .inl rfl

theorem length_numbered (p : Plan) (step : StepId) : (p.numbered step).length = p.size := by
  induction p generalizing step with
  | scan relation => rfl
  | select c input ih | project attributes input ih | rename newLabel input ih =>
      simp [numbered, size, ih]
  | cross left right ihl ihr | join left c right ihl ihr =>
      simp [numbered, size, ihl, ihr, Nat.add_assoc]

theorem Everywhere.of_mem_numbered {P : Plan → Prop} {p : Plan} (h : p.Everywhere P)
    {step : StepId} {n : PlanNode} (hn : n ∈ p.numbered step) : n.plan.Everywhere P := by
  induction p generalizing step with
  | scan relation =>
      rw [numbered, List.mem_singleton] at hn
      rw [hn]
      exact h
  | select c input ih | project attributes input ih | rename newLabel input ih =>
      rw [numbered, List.mem_append, List.mem_singleton] at hn
      rcases hn with hn | rfl
      · exact ih h.2 hn
      · exact h
  | cross left right ihl ihr | join left c right ihl ihr =>
      rw [numbered, List.mem_append, List.mem_append, List.mem_singleton] at hn
      rcases hn with (hn | hn) | rfl
      · exact ihl h.2.1 hn
      · exact ihr h.2.2 hn
      · exact h

theorem stageCount_eq_ok {p : Plan} {n : Nat} (h : p.stageCount = .ok n) : n = p.size := by
  induction p generalizing n with
  | scan relation => exact (Except.ok.inj h).symm
  | select c input ih | project attributes input ih | rename newLabel input ih =>
      obtain ⟨m, hm, rfl⟩ := map_eq_ok_iff.mp h
      rw [size, ih hm, Nat.add_comm]
  | cross left right => cases h
  | join left c right ihl ihr =>
      rw [stageCount] at h
      split at h
      · cases h
      · rename_i m hm
        obtain ⟨k, hk, rfl⟩ := map_eq_ok_iff.mp h
        rw [size, ihl hm, ihr hk]
        omega

/-- Compiling gives every node its stage. -/
theorem lower_eq_ok {p : Plan} {step : StepId} {stages : List Stage}
    (h : p.lower step = .ok stages) :
    List.Forall₂ (fun n s => n.stage? = some s) (p.numbered step) stages := by
  induction p generalizing step stages with
  | scan relation =>
      rw [← Except.ok.inj h]
      exact .cons rfl .nil
  | select c input ih | project attributes input ih | rename newLabel input ih =>
      obtain ⟨below, lowered, rfl⟩ := map_eq_ok_iff.mp h
      exact List.rel_append (ih lowered) (.cons rfl .nil)
  | cross left right => cases h
  | join left c right ihl ihr =>
      rw [lower] at h
      split at h
      · cases h
      split at h
      · cases h
      rename_i n counted
      rw [stageCount_eq_ok counted] at h
      dsimp only at h
      split at h
      · cases h
      rename_i leftStages leftLowered
      obtain ⟨rightStages, rightLowered, rfl⟩ := map_eq_ok_iff.mp h
      exact List.rel_append (List.rel_append (ihl leftLowered) (ihr rightLowered)) (.cons rfl .nil)

theorem directAll_eq_ok_iff {read : String → Except StorageFault (List Record)} {p : Plan}
    {rest : List Plan} {records : List Record} :
    directAll read (p :: rest) = .ok records ↔
      ∃ first others, p.direct read = .ok first ∧ directAll read rest = .ok others ∧
        first ++ others = records := by
  rw [directAll, bind_eq_ok_iff]
  simp only [map_eq_ok_iff]
  constructor
  · rintro ⟨first, equal, others, equal', rfl⟩
    exact ⟨first, others, equal, equal', rfl⟩
  · rintro ⟨first, others, equal, equal', rfl⟩
    exact ⟨first, equal, others, equal', rfl⟩

/-- An operator is applied to the records of its inputs. -/
theorem direct_eq {p : Plan} {spec : StageSpec} (hspec : p.spec? = some spec)
    (hscan : p.kind ≠ .scan) (read : String → Except StorageFault (List Record)) :
    p.direct read = (directAll read p.inputs).bind spec.operate := by
  cases p with
  | scan relation => exact absurd rfl hscan
  | cross left right => cases hspec
  | select c input | project attributes input | rename newLabel input =>
      cases hspec
      simp only [direct, inputs, directAll]
      cases input.direct read <;> simp [Except.bind, Except.map]
  | join left c right =>
      cases hspec
      simp only [direct, inputs, directAll]
      cases left.direct read with
      | error fault => rfl
      | ok l => cases right.direct read <;> simp [Except.bind, Except.map]

/-- A plan that can be executed can be executed at each of its nodes. -/
theorem exists_direct_of_mem_numbered {read : String → Except StorageFault (List Record)}
    {p : Plan} {records : List Record} (h : p.direct read = .ok records) {step : StepId}
    {n : PlanNode} (hn : n ∈ p.numbered step) : ∃ made, n.plan.direct read = .ok made := by
  induction p generalizing step records with
  | scan relation =>
      rw [numbered, List.mem_singleton] at hn
      exact ⟨records, hn ▸ h⟩
  | select c input ih | project attributes input ih | rename newLabel input ih =>
      rw [numbered, List.mem_append, List.mem_singleton] at hn
      rcases hn with hn | rfl
      · obtain ⟨taken, equal, -⟩ := bind_eq_ok_iff.mp h
        exact ih equal hn
      · exact ⟨records, h⟩
  | cross left right => cases h
  | join left c right ihl ihr =>
      rw [numbered, List.mem_append, List.mem_append, List.mem_singleton] at hn
      obtain ⟨l, leftOk, more⟩ := bind_eq_ok_iff.mp h
      obtain ⟨r, rightOk, -⟩ := bind_eq_ok_iff.mp more
      rcases hn with (hn | hn) | rfl
      · exact ihl leftOk hn
      · exact ihr rightOk hn
      · exact ⟨records, h⟩

/-- Two ways to read relations give one outcome for the relation at the root. -/
def ReadAlikeAt (read read' : String → Except StorageFault (List Record)) : Plan → Prop
  | .scan relation => read relation = read' relation
  | _ => True

/-- Only the relations of a plan matter to its execution. -/
theorem direct_congr {read read' : String → Except StorageFault (List Record)} {p : Plan}
    (h : p.Everywhere (ReadAlikeAt read read')) : p.direct read = p.direct read' := by
  induction p with
  | scan relation => rw [direct, direct, show read relation = read' relation from h]
  | select c input ih | project attributes input ih | rename newLabel input ih =>
      rw [direct, direct, ih h.2]
  | cross left right => rfl
  | join left c right ihl ihr => rw [direct, direct, ihl h.2.1, ihr h.2.2]

/-- The new label of a renaming fits on a line. -/
def AliasFitsAt : Plan → Prop
  | .rename newLabel _ => FitsLine newLabel
  | _ => True

instance : DecidablePred AliasFitsAt
  | .rename newLabel _ => inferInstanceAs (Decidable (FitsLine newLabel))
  | .scan _ | .select .. | .project .. | .cross .. | .join .. => inferInstanceAs (Decidable True)

theorem fitsLine_pairLabel {left right : String} (hl : FitsLine left) (hr : FitsLine right) :
    FitsLine (pairLabel left right) := by
  simp only [FitsLine, pairLabel, String.toList_append, List.mem_append, not_or]
  exact ⟨⟨⟨hl.1, by decide⟩, hr.1⟩, ⟨⟨hl.2, by decide⟩, hr.2⟩⟩

end Plan

/-- The labels that an operator makes fit on lines if those that it takes do. -/
theorem StageSpec.fitsLine_operate {spec : StageSpec} {records out : List Record}
    (h : spec.operate records = .ok out) (hin : ∀ r ∈ records, FitsLine r.label)
    (hnew : ∀ newLabel, spec = .rename newLabel → FitsLine newLabel) :
    ∀ r ∈ out, FitsLine r.label := by
  intro r hr
  cases spec with
  | scan relation =>
      rw [← Except.ok.inj h] at hr
      exact hin r hr
  | select c =>
      exact hin r ((Operator.mem_run_select (mapError_eq_ok_iff.mp h)).mp hr).1
  | project attributes =>
      obtain ⟨s, hs, projected⟩ := Operator.exists_of_mem_run_project (mapError_eq_ok_iff.mp h) hr
      obtain ⟨t, -, rfl⟩ := map_eq_ok_iff.mp projected
      exact hin s hs
  | rename newLabel =>
      obtain ⟨s, hs, renamed⟩ := (Operator.mem_run_rename (mapError_eq_ok_iff.mp h)).mp hr
      obtain ⟨t, -, rfl⟩ := map_eq_ok_iff.mp renamed
      exact hnew newLabel rfl
  | join c leftLabel rightLabel =>
      unfold operate at h
      split at h
      · cases h
      · rename_i relation built
        obtain ⟨j, -, made⟩ := map_eq_ok_iff.mp built
        cases made
      · rename_i op built
        obtain ⟨j, -, made⟩ := map_eq_ok_iff.mp built
        cases made
        -- A pair exists only if both labels are those of records that were taken.
        obtain ⟨l, hl, s, hs, isLeft, isRight, -, rfl⟩ :=
          Operator.exists_of_mem_run_join (mapError_eq_ok_iff.mp h) hr
        exact Plan.fitsLine_pairLabel (isLeft ▸ hin l hl) (isRight ▸ hin s hs)

namespace Plan

variable {p : Plan} {spec : StageSpec} {op : Operator} {taken made : List Record}

/-- An operator makes records under labels that fit on lines, if it takes such. -/
theorem fitsLine_of_run (hspec : p.spec? = some spec) (work : spec.work = .ok (.apply op))
    (fits : p.AliasFitsAt) (inputs : ∀ r ∈ taken, FitsLine r.label)
    (ran : op.run taken = .ok made) : ∀ r ∈ made, FitsLine r.label := by
  have whole : spec.operate taken = .ok made := by
    simp [StageSpec.operate, work, ran, Except.mapError]
  refine StageSpec.fitsLine_operate whole inputs fun newLabel equal => ?_
  rw [equal] at hspec
  cases p <;> cases hspec
  exact fits

/-- A record that the operator of a plan can make of those that it takes. -/
inductive MadeOf (taken : List Record) : Plan → Record → Prop
  /-- A selection keeps records. -/
  | selected {c input r} (hr : r ∈ taken) : MadeOf taken (.select c input) r
  /-- A projection projects them. -/
  | projected {attributes input r s} (hr : r ∈ taken) (made : r.projected attributes = .ok s) :
      MadeOf taken (.project attributes input) s
  /-- A renaming renames them. -/
  | renamed {newLabel input r s} (hr : r ∈ taken) (made : r.renamed newLabel = .ok s) :
      MadeOf taken (.rename newLabel input) s
  /-- A join merges two of them. -/
  | joined {left c right j r s} (built : KeyJoin.ofCondition c left.label right.label = .ok j)
      (hr : r ∈ taken) (hs : s ∈ taken) : MadeOf taken (.join left c right) (j.merge r s)

theorem madeOf_of_run (hspec : p.spec? = some spec) (work : spec.work = .ok (.apply op))
    (ran : op.run taken = .ok made) {r : Record} (hr : r ∈ made) : MadeOf taken p r := by
  cases p with
  | scan relation =>
      cases hspec
      cases work
  | select c input =>
      cases hspec
      cases work
      exact .selected ((Operator.mem_run_select ran).mp hr).1
  | project attributes input =>
      cases hspec
      cases work
      obtain ⟨s, hs, projected⟩ := Operator.exists_of_mem_run_project ran hr
      exact .projected hs projected
  | rename newLabel input =>
      cases hspec
      cases work
      obtain ⟨s, hs, renamed⟩ := (Operator.mem_run_rename ran).mp hr
      exact .renamed hs renamed
  | cross left right => cases hspec
  | join left c right =>
      cases hspec
      obtain ⟨j, built, made⟩ := map_eq_ok_iff.mp work
      cases made
      obtain ⟨l, hl, s, hs, -, -, -, rfl⟩ := Operator.exists_of_mem_run_join ran hr
      exact .joined built hl hs

/-- An operator makes records under the label of its plan, if it takes such of its inputs. -/
theorem MadeOf.label {r : Record} (h : MadeOf taken p r)
    (inputs : ∀ r ∈ taken, ∃ q ∈ p.inputs, r.label = q.label) : r.label = p.label := by
  cases h with
  | selected hr =>
      obtain ⟨q, hq, label⟩ := inputs r hr
      rw [label, List.mem_singleton.mp hq]
      rfl
  | projected hs projected =>
      obtain ⟨t, -, rfl⟩ := map_eq_ok_iff.mp projected
      obtain ⟨q, hq, label⟩ := inputs _ hs
      rw [label, List.mem_singleton.mp hq]
      rfl
  | renamed hs renamed =>
      obtain ⟨t, -, rfl⟩ := map_eq_ok_iff.mp renamed
      rfl
  | joined built =>
      obtain ⟨pairs, -, rfl⟩ := map_eq_ok_iff.mp built
      rfl

end Plan

theorem Plan.fitsLine_direct {read : String → Except StorageFault (List Record)}
    (hread : ∀ relation records, read relation = .ok records → ∀ r ∈ records, FitsLine r.label)
    {p : Plan} (h : p.Everywhere AliasFitsAt) {records : List Record}
    (hp : p.direct read = .ok records) : ∀ r ∈ records, FitsLine r.label := by
  induction p generalizing records with
  | scan relation => exact hread relation records (mapError_eq_ok_iff.mp hp)
  | select c input ih | project attributes input ih =>
      obtain ⟨taken, equal, made⟩ := bind_eq_ok_iff.mp hp
      exact StageSpec.fitsLine_operate made (ih h.2 equal) (by rintro l ⟨⟩)
  | rename newLabel input ih =>
      obtain ⟨taken, equal, made⟩ := bind_eq_ok_iff.mp hp
      exact StageSpec.fitsLine_operate made (ih h.2 equal) (by rintro l ⟨⟩; exact h.1)
  | cross left right => cases hp
  | join left c right ihl ihr =>
      obtain ⟨l, leftOk, more⟩ := bind_eq_ok_iff.mp hp
      obtain ⟨r, rightOk, made⟩ := bind_eq_ok_iff.mp more
      refine StageSpec.fitsLine_operate made (fun x hx => ?_) (by rintro l ⟨⟩)
      rcases List.mem_append.mp hx with hx | hx
      · exact ihl h.2.1 leftOk x hx
      · exact ihr h.2.2 rightOk x hx

end StagedAlgebra
