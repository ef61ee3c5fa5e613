import StagedAlgebra.Proofs.DirectExecution
import StagedAlgebra.Proofs.Waves

/-!
# Compiled plans

The nodes of a plan are numbered without gaps from the number of its root on: the numbers of what
is below a node follow its own, those of the left input before those of the right. As long as the
last of them is a 64-bit word, no addition on the way wraps around, so the stages of a plan always
make a graph. `compileFrom_represents` says when a plan is compiled and what the graph is: the plan
can be read off it again by following the inputs from the root.
-/

namespace StagedAlgebra

namespace StepId

/-- A step that is a word comes exactly as far after another one as it is offset. -/
theorem toNat_offset (step : StepId) (n : Nat) (h : step.number.toNat + n < 2 ^ 64) :
    (step.offset n).number.toNat = step.number.toNat + n := by
  rw [offset, UInt64.toNat_add, UInt64.toNat_ofNat', Nat.add_mod_mod]
  exact Nat.mod_eq_of_lt h

end StepId

section Stages

variable {g : StageGraph}

theorem compileFrom_eq_ok {p : Plan} {start : StepId} (h : p.compileFrom start = .ok g) :
    g.Valid ∧ g.root = start ∧ ∃ stages, g.stages.Perm stages ∧
      List.Forall₂ (fun n s => n.stage? = some s) (p.numbered start) stages := by
  unfold Plan.compileFrom at h
  split at h
  · cases h
  split at h
  · cases h
  rename_i stages lowered
  split at h
  · cases h
  rename_i made
  cases h
  obtain ⟨valid, root, permuted⟩ := StageGraph.valid_of_ofStages made
  exact ⟨valid, root, stages, permuted, Plan.lower_eq_ok lowered⟩

theorem compileFrom_of_lower {p : Plan} {start : StepId} {n : Nat} {stages : List Stage}
    (count : p.stageCount = .ok n) (lowered : p.lower start = .ok stages)
    (made : StageGraph.ofStages start stages = .ok g) : p.compileFrom start = .ok g := by
  simp only [Plan.compileFrom, count, lowered, made]

theorem step_of_stage? {n : PlanNode} {s : Stage} (h : n.stage? = some s) : s.step = n.step := by
  obtain ⟨spec, -, rfl⟩ := Option.map_eq_some_iff.mp h
  rfl

theorem map_step_of_forall₂ {ns : List PlanNode} {stages : List Stage}
    (all : List.Forall₂ (fun n s => n.stage? = some s) ns stages) :
    ns.map (·.step) = stages.map (·.step) := by
  induction all with
  | nil => rfl
  | cons stage _ ih => rw [List.map_cons, List.map_cons, ih, step_of_stage? stage]

/-- The nodes of a plan have the numbers of its stages. -/
theorem map_step_numbered_perm {p : Plan} {start : StepId} (h : p.compileFrom start = .ok g) :
    ((p.numbered start).map (·.step)).Perm (g.stages.map (·.step)) := by
  obtain ⟨-, -, stages, permuted, all⟩ := compileFrom_eq_ok h
  rw [map_step_of_forall₂ all]
  exact permuted.symm.map _

theorem nodup_map_step_numbered {p : Plan} {start : StepId} (h : p.compileFrom start = .ok g) :
    ((p.numbered start).map (·.step)).Nodup :=
  (map_step_numbered_perm h).nodup_iff.mpr (compileFrom_eq_ok h).1.stages.steps_nodup

theorem exists_stage_of_mem_numbered {p : Plan} {start : StepId} (h : p.compileFrom start = .ok g)
    {n : PlanNode} (hn : n ∈ p.numbered start) :
    ∃ s ∈ g.stages, n.stage? = some s ∧ g.stage? n.step = some s := by
  obtain ⟨valid, -, stages, permuted, all⟩ := compileFrom_eq_ok h
  obtain ⟨s, member, stage⟩ := exists_of_forall₂_of_mem all hn
  have inside := permuted.mem_iff.mpr member
  refine ⟨s, inside, stage, ?_⟩
  rw [← step_of_stage? stage]
  exact valid.stages.stageAt?_of_mem inside

end Stages

/-- How far after a node its inputs are numbered, from left to right. -/
def Plan.inputOffsets : Plan → List Nat
  | .scan _ => []
  | .select .. | .project .. | .rename .. => [1]
  | .cross left _ | .join left _ _ => [1, 1 + left.size]

/-- The numbers of a node and of all nodes below it are words. -/
def PlanNode.Fits (n : PlanNode) : Prop :=
  n.step.number.toNat + n.plan.size ≤ 2 ^ 64

namespace PlanNode

theorem map_step_children {n : PlanNode} (h : n.Fits) :
    n.children.map (·.step.number.toNat) = n.plan.inputOffsets.map (n.step.number.toNat + ·) := by
  obtain ⟨step, plan⟩ := n
  cases plan with
  | scan relation => rfl
  | select c input | project attributes input | rename newLabel input =>
      have below := input.size_pos
      simp only [Fits, Plan.size] at h
      simp [children, Plan.inputOffsets, StepId.toNat_offset step 1 (by omega)]
  | cross left right | join left c right =>
      have above := left.size_pos
      have below := right.size_pos
      simp only [Fits, Plan.size] at h
      simp [children, Plan.inputOffsets, StepId.toNat_offset step 1 (by omega),
        StepId.toNat_offset step (1 + left.size) (by omega)]

theorem Fits.children {n m : PlanNode} (h : n.Fits) (hm : m ∈ n.children) :
    m.Fits ∧ m.plan.size < n.plan.size ∧ n.step < m.step := by
  obtain ⟨step, plan⟩ := n
  cases plan with
  | scan relation => cases hm
  | select c input | project attributes input | rename newLabel input =>
      have below := input.size_pos
      simp only [Fits, Plan.size] at h
      have next := StepId.toNat_offset step 1 (by omega)
      obtain rfl := List.mem_singleton.mp hm
      simp only [Fits, Plan.size, StepId.lt_iff, next]
      omega
  | cross left right | join left c right =>
      have above := left.size_pos
      have below := right.size_pos
      simp only [Fits, Plan.size] at h
      have next := StepId.toNat_offset step 1 (by omega)
      have after := StepId.toNat_offset step (1 + left.size) (by omega)
      simp only [PlanNode.children, List.mem_cons, List.not_mem_nil, or_false] at hm
      rcases hm with rfl | rfl
      · simp only [Fits, Plan.size, StepId.lt_iff, next]
        omega
      · simp only [Fits, Plan.size, StepId.lt_iff, after]
        omega

end PlanNode

namespace Plan

/-- A plan is compiled into stages that are numbered from `start` on without gaps. -/
theorem map_step_numbered_perm_range' (p : Plan) (start : StepId)
    (h : start.number.toNat + p.size ≤ 2 ^ 64) :
    ((p.numbered start).map (·.step.number.toNat)).Perm
      (List.range' start.number.toNat p.size) := by
  induction p generalizing start with
  | scan relation => exact .refl _
  | select c input ih | project attributes input ih | rename newLabel input ih =>
      have below := input.size_pos
      rw [size] at h
      have next := StepId.toNat_offset start 1 (by omega)
      have inner := ih (start.offset 1) (by omega)
      rw [next] at inner
      rw [numbered, size, List.map_append, List.range'_succ]
      exact List.perm_append_comm.trans (inner.cons _)
  | cross left right ihl ihr | join left c right ihl ihr =>
      have above := left.size_pos
      have below := right.size_pos
      rw [size] at h
      have next := StepId.toNat_offset start 1 (by omega)
      have after := StepId.toNat_offset start (1 + left.size) (by omega)
      have inner := ihl (start.offset 1) (by omega)
      have inner' := ihr (start.offset (1 + left.size)) (by omega)
      rw [next] at inner
      rw [after, ← Nat.add_assoc] at inner'
      rw [numbered, size, List.map_append, List.map_append, List.range'_succ,
        ← List.range'_append_1]
      exact List.perm_append_comm.trans ((inner.append inner').cons _)

theorem fits_of_mem_numbered {p : Plan} {start : StepId}
    (h : start.number.toNat + p.size ≤ 2 ^ 64) {n : PlanNode} (hn : n ∈ p.numbered start) :
    n.Fits := by
  induction p generalizing start with
  | scan relation =>
      obtain rfl := List.mem_singleton.mp hn
      exact h
  | select c input ih | project attributes input ih | rename newLabel input ih =>
      have root : PlanNode.Fits ⟨start, _⟩ := h
      rw [numbered, List.mem_append, List.mem_singleton] at hn
      rcases hn with hn | rfl
      · exact ih (root.children (List.mem_singleton_self _)).1 hn
      · exact root
  | cross left right ihl ihr | join left c right ihl ihr =>
      have root : PlanNode.Fits ⟨start, _⟩ := h
      rw [numbered, List.mem_append, List.mem_append, List.mem_singleton] at hn
      rcases hn with (hn | hn) | rfl
      · exact ihl (root.children (List.mem_cons_self ..)).1 hn
      · exact ihr (root.children (List.mem_cons_of_mem _ (List.mem_singleton_self _))).1 hn
      · exact root

theorem size_le_of_mem_numbered {p : Plan} {step : StepId} {n : PlanNode}
    (hn : n ∈ p.numbered step) : n.plan.size ≤ p.size := by
  induction p generalizing step with
  | scan relation =>
      obtain rfl := List.mem_singleton.mp hn
      exact le_rfl
  | select c input ih | project attributes input ih | rename newLabel input ih =>
      rw [numbered, List.mem_append, List.mem_singleton] at hn
      rcases hn with hn | rfl
      · exact (ih hn).trans (Nat.le_succ _)
      · exact le_rfl
  | cross left right ihl ihr | join left c right ihl ihr =>
      rw [numbered, List.mem_append, List.mem_append, List.mem_singleton] at hn
      rw [size]
      rcases hn with (hn | hn) | rfl
      · exact (ihl hn).trans (by omega)
      · exact (ihr hn).trans (by omega)
      · exact le_rfl

/-- The two sides of a join flow under different labels. -/
def LabelsApartAt : Plan → Prop
  | .join left _ right => left.label ≠ right.label
  | _ => True

instance : DecidablePred LabelsApartAt
  | .join left _ right => inferInstanceAs (Decidable (left.label ≠ right.label))
  | .scan _ | .select .. | .project .. | .rename .. | .cross .. => inferInstanceAs (Decidable True)

/-- Every operator is counted, unless there is a cross product. -/
theorem stageCount_eq (p : Plan) :
    p.stageCount = if p.hasCross then .error .crossProduct else .ok p.size := by
  induction p with
  | scan relation => rfl
  | select c input ih | project attributes input ih | rename newLabel input ih =>
      rw [stageCount, ih, hasCross, size]
      split
      · rfl
      · rw [Except.map, Nat.add_comm]
  | cross left right => rfl
  | join left c right ihl ihr =>
      rw [stageCount, ihl, ihr, hasCross, size]
      cases left.hasCross with
      | true => rfl
      | false =>
          cases right.hasCross with
          | true => rfl
          | false =>
              simp only [Bool.or_self, Bool.false_eq_true, if_false, Except.map]
              rw [Nat.add_comm 1 left.size, Nat.add_right_comm]

/-- A plan without cross products becomes stages, unless the sides of a join share a label. -/
theorem lower_cases {p : Plan} (h : p.hasCross = false) (step : StepId) :
    (p.Everywhere LabelsApartAt ∧ ∃ stages, p.lower step = .ok stages) ∨
      (¬ p.Everywhere LabelsApartAt ∧ ∃ label, p.lower step = .error (.sharedLabel label)) := by
  induction p generalizing step with
  | scan relation => exact .inl ⟨trivial, _, rfl⟩
  | select c input ih | project attributes input ih | rename newLabel input ih =>
      obtain ⟨apart, stages, below⟩ | ⟨shared, label, below⟩ := ih h (step.offset 1)
      · exact .inl ⟨⟨trivial, apart⟩, _, by rw [lower, below, Except.map]⟩
      · exact .inr ⟨fun all => shared all.2, label, by rw [lower, below, Except.map]⟩
  | cross left right => cases h
  | join left c right ihl ihr =>
      obtain ⟨hl, hr⟩ := Bool.or_eq_false_iff.mp h
      by_cases same : left.label = right.label
      · exact .inr ⟨fun all => all.1 same, left.label, by rw [lower, if_pos same]⟩
      have counted : left.stageCount = .ok left.size := by simp [stageCount_eq, hl]
      simp only [lower, if_neg same, counted]
      obtain ⟨apart, stages, below⟩ | ⟨shared, label, below⟩ := ihl hl (step.offset 1)
      · obtain ⟨apart', stages', below'⟩ | ⟨shared, label, below'⟩ :=
          ihr hr (step.offset (1 + left.size))
        · exact .inl ⟨⟨same, apart, apart'⟩, by simp [below, below', Except.map]⟩
        · exact .inr ⟨fun all => shared all.2.2, label, by simp [below, below', Except.map]⟩
      · exact .inr ⟨fun all => shared all.2.1, label, by simp [below]⟩

/-- Stages that are numbered by words make a graph. -/
theorem exists_graph_of_lower {p : Plan} {start : StepId}
    (fits : start.number.toNat + p.size ≤ 2 ^ 64) {stages : List Stage}
    (lowered : p.lower start = .ok stages) : ∃ g, StageGraph.ofStages start stages = .ok g := by
  have all := lower_eq_ok lowered
  have steps := map_step_of_forall₂ all
  have numbers := map_step_numbered_perm_range' p start fits
  apply StageGraph.exists_ofStages
  · rw [← steps]
    refine List.Nodup.of_map (·.number.toNat) ?_
    rw [List.map_map]
    exact numbers.nodup_iff.mpr List.nodup_range'
  · rw [← steps]
    exact List.mem_map.mpr ⟨_, p.self_mem_numbered start, rfl⟩
  · intro s hs i hi
    obtain ⟨n, hn, stage⟩ := exists_of_forall₂_of_mem all.flip hs
    obtain ⟨spec, -, rfl⟩ := Option.map_eq_some_iff.mp stage
    obtain ⟨m, hm, rfl⟩ := List.mem_map.mp hi
    refine ⟨((fits_of_mem_numbered fits hn).children hm).2.2, ?_⟩
    rw [← steps]
    exact List.mem_map.mpr ⟨m, children_mem_numbered hn hm, rfl⟩

end Plan

namespace StageGraph

/-- The plan of the stage with a number, if no more than `depth` stages follow each other down from
it. -/
def planWithin? (g : StageGraph) : Nat → StepId → Option Plan
  | 0, _ => none
  | depth + 1, step =>
    match g.stage? step with
    | none => none
    | some s =>
      match s.spec, s.inputs with
      | .scan relation, [] => some (.scan relation)
      | .select c, [input] => (g.planWithin? depth input).map (.select c)
      | .project attributes, [input] => (g.planWithin? depth input).map (.project attributes)
      | .rename newLabel, [input] => (g.planWithin? depth input).map (.rename newLabel)
      | .join c _ _, [left, right] =>
        match g.planWithin? depth left, g.planWithin? depth right with
        | some l, some r => some (.join l c r)
        | _, _ => none
      | _, _ => none

/-- The plan that the stage with a number stands for. Inputs have larger numbers, so no more stages
follow each other than there are. -/
def planAt? (g : StageGraph) (step : StepId) : Option Plan :=
  g.planWithin? g.size step

/-- A graph has one stage for every operator of a plan, and nothing of the plan is lost in it. -/
structure Represents (g : StageGraph) (start : StepId) (p : Plan) : Prop where
  /-- The root has the number that was asked for. -/
  root : g.root = start
  /-- The stages are numbered in order and without gaps. -/
  steps : g.stages.map (·.step.number.toNat) = List.range' start.number.toNat p.size
  /-- A stage stands for a plan: it does what the operator at the root does, under the label of the
  plan, and takes its records from steps whose numbers are exact sums. -/
  stages : ∀ s ∈ g.stages, ∃ q, g.planAt? s.step = some q ∧ q.spec? = some s.spec ∧
    s.label = q.label ∧
      s.inputs.map (·.number.toNat) = q.inputOffsets.map (s.step.number.toNat + ·)
  /-- The root stands for the plan. -/
  plan : g.planAt? g.root = some p

/-- Where every node has its stage, the plan of a node is read off. -/
theorem planWithin?_of_node {g : StageGraph} (nodes : List PlanNode)
    (stage : ∀ n ∈ nodes, ∃ s, n.stage? = some s ∧ g.stage? n.step = some s)
    (children : ∀ n ∈ nodes, ∀ m ∈ n.children, m ∈ nodes) {depth : Nat} {n : PlanNode}
    (hn : n ∈ nodes) (deep : n.plan.size ≤ depth) :
    g.planWithin? depth n.step = some n.plan := by
  induction depth generalizing n with
  | zero => exact absurd n.plan.size_pos (by omega)
  | succ depth ih =>
      obtain ⟨s, made, found⟩ := stage n hn
      have below := children n hn
      obtain ⟨step, plan⟩ := n
      cases plan with
      | scan relation =>
          cases made
          simp [planWithin?, found, PlanNode.children]
      | select c input | project attributes input | rename newLabel input =>
          cases made
          simp only [Plan.size] at deep
          have inner := ih (below _ (List.mem_singleton_self _)) (by simpa using deep)
          simp [planWithin?, found, PlanNode.children, inner]
      | cross left right => cases made
      | join left c right =>
          cases made
          simp only [Plan.size] at deep
          have inner := ih (below _ (List.mem_cons_self ..)) (by simp; omega)
          have inner' := ih (below _ (List.mem_cons_of_mem _ (List.mem_singleton_self _)))
            (by simp; omega)
          simp only at inner inner'
          simp [planWithin?, found, PlanNode.children, inner, inner']

end StageGraph

namespace Plan

theorem compileFrom_of_hasCross {p : Plan} (h : p.hasCross = true) (start : StepId) :
    p.compileFrom start = .error .crossProduct := by
  simp [compileFrom, stageCount_eq, h]

/-- Nothing but a cross product is refused as one. -/
theorem compileFrom_eq_crossProduct_iff {p : Plan} {start : StepId} :
    p.compileFrom start = .error .crossProduct ↔ p.hasCross = true := by
  refine ⟨fun refused => ?_, fun h => compileFrom_of_hasCross h start⟩
  by_contra none
  rw [Bool.not_eq_true] at none
  simp only [compileFrom, stageCount_eq, none, Bool.false_eq_true, if_false] at refused
  obtain ⟨-, stages, lowered⟩ | ⟨-, label, lowered⟩ := lower_cases none start
  · rw [lowered] at refused
    dsimp only at refused
    split at refused <;> cases refused
  · rw [lowered] at refused
    cases refused

theorem exists_compileFrom {p : Plan} {start : StepId}
    (fits : start.number.toNat + p.size ≤ 2 ^ 64) (h : p.hasCross = false)
    (apart : p.Everywhere LabelsApartAt) : ∃ g, p.compileFrom start = .ok g := by
  obtain ⟨-, stages, lowered⟩ | ⟨shared, -⟩ := lower_cases h start
  · obtain ⟨g, made⟩ := exists_graph_of_lower fits lowered
    exact ⟨g, by simp [compileFrom, stageCount_eq, h, lowered, made]⟩
  · exact absurd apart shared

theorem compileFrom_of_shared {p : Plan} (h : p.hasCross = false)
    (shared : ¬ p.Everywhere LabelsApartAt) (start : StepId) :
    ∃ label, p.compileFrom start = .error (.sharedLabel label) := by
  obtain ⟨apart, -⟩ | ⟨-, label, lowered⟩ := lower_cases h start
  · exact absurd apart shared
  · exact ⟨label, by simp [compileFrom, stageCount_eq, h, lowered]⟩

theorem represents_of_compileFrom {p : Plan} {start : StepId} {g : StageGraph}
    (fits : start.number.toNat + p.size ≤ 2 ^ 64) (compiled : p.compileFrom start = .ok g) :
    g.Represents start p := by
  obtain ⟨valid, root, stages, permuted, all⟩ := compileFrom_eq_ok compiled
  have steps := map_step_numbered_perm compiled
  have length : g.size = p.size := by
    rw [StageGraph.size, permuted.length_eq, ← all.length_eq, length_numbered]
  have read : ∀ n ∈ p.numbered start, g.planAt? n.step = some n.plan := by
    intro n hn
    refine StageGraph.planWithin?_of_node (p.numbered start) (fun m hm => ?_)
      (fun m hm l hl => children_mem_numbered hm hl) hn ?_
    · obtain ⟨s, -, stage, found⟩ := exists_stage_of_mem_numbered compiled hm
      exact ⟨s, stage, found⟩
    · rw [length]
      exact size_le_of_mem_numbered hn
  refine ⟨root, ?_, fun s hs => ?_, ?_⟩
  · -- Both lists ascend strictly and have the same members.
    have numbers : (g.stages.map (·.step.number.toNat)).Perm
        (List.range' start.number.toNat p.size) := by
      have same := steps.map (·.number.toNat)
      rw [List.map_map, List.map_map] at same
      exact same.symm.trans (map_step_numbered_perm_range' p start fits)
    have ascending : (g.stages.map (·.step.number.toNat)).Pairwise (· < ·) :=
      List.pairwise_map.mpr valid.stages.ascending
    exact numbers.eq_of_pairwise (fun a b _ _ h h' => by omega) ascending
      (List.pairwise_lt_range' ..)
  · obtain ⟨n, hn, stage⟩ := exists_of_forall₂_of_mem all.flip (permuted.mem_iff.mp hs)
    obtain ⟨spec, hspec, rfl⟩ := Option.map_eq_some_iff.mp stage
    refine ⟨n.plan, read n hn, hspec, rfl, ?_⟩
    rw [List.map_map]
    exact PlanNode.map_step_children (fits_of_mem_numbered fits hn)
  · rw [root]
    exact read ⟨start, p⟩ (p.self_mem_numbered start)

/-- Compiling a plan fails exactly for a cross product, or else for a join whose sides share a
label. Otherwise every operator is counted, and the graph represents the plan. -/
theorem compileFrom_represents (p : Plan) (start : StepId)
    (fits : start.number.toNat + p.size ≤ 2 ^ 64) :
    (p.compileFrom start = .error .crossProduct ↔ p.hasCross = true) ∧
      (p.hasCross = false → ((∃ label, p.compileFrom start = .error (.sharedLabel label)) ↔
        ¬ p.Everywhere LabelsApartAt)) ∧
      (p.hasCross = false → p.Everywhere LabelsApartAt → p.stageCount = .ok p.size ∧
        ∃ g, p.compileFrom start = .ok g ∧ g.Represents start p) := by
  cases h : p.hasCross with
  | true => simp [compileFrom_of_hasCross h start]
  | false =>
      by_cases apart : p.Everywhere LabelsApartAt
      · obtain ⟨g, compiled⟩ := exists_compileFrom fits h apart
        have represents := represents_of_compileFrom fits compiled
        simp [compiled, apart, stageCount_eq, h, represents]
      · obtain ⟨label, failed⟩ := compileFrom_of_shared h apart start
        simp [failed, apart]

/-- The last of five stages has the largest word for its number. -/
theorem compileFrom_represents_last_words :
    let p := Plan.select (.equal (.attr (.bare "a")) (.literal (.int 1)))
      (.join (.rename "X" (.scan "R"))
        (.equal (.attr (.qualified "X" "a")) (.attr (.qualified "S" "a"))) (.scan "S"))
    let start : StepId := ⟨18446744073709551611⟩
    start.number.toNat + p.size = 2 ^ 64 ∧ p.hasCross = false ∧ p.Everywhere LabelsApartAt ∧
      ∃ g, p.compileFrom start = .ok g ∧ g.Represents start p := by
  intro p start
  have cross : p.hasCross = false := by decide
  have apart : p.Everywhere LabelsApartAt := by decide
  have fits : start.number.toNat + p.size = 2 ^ 64 := by decide
  exact ⟨fits, cross, apart, ((compileFrom_represents p start fits.le).2.2 cross apart).2⟩

end Plan

end StagedAlgebra
