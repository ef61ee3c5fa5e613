import StagedAlgebra.Plan.Optimization

/-!
# Moving conditions in plans

Splitting and merging selections and introducing joins only move conditions. Whatever relation
between plans passes through every operator and holds of the few laws by which a condition moves
over the next operator (`MovesConditions`) therefore holds between a plan and the rewritten one. It
is found by recursion on the plan, once for all such relations.

Sinking is left out: a selection sinks into one side of a cross product by a law that needs to know
what the selection reads.
-/

namespace StagedAlgebra.Plan

/-- A relation between plans that passes through operators and lets conditions move. -/
structure MovesConditions (R : Plan → Plan → Prop) : Prop where
  refl : ∀ p, R p p
  trans : ∀ {p q r}, R p q → R q r → R p r
  select : ∀ {p q}, R p q → ∀ c, R (.select c p) (.select c q)
  project : ∀ {p q}, R p q → ∀ attributes, R (.project attributes p) (.project attributes q)
  rename : ∀ {p q}, R p q → ∀ newLabel, R (.rename newLabel p) (.rename newLabel q)
  cross : ∀ {left right left' right'}, R left left' → R right right' →
    R (.cross left right) (.cross left' right')
  join : ∀ {left right left' right'}, R left left' → R right right' →
    ∀ c, R (.join left c right) (.join left' c right')
  /-- A selection by a conjunction is two selections. -/
  split_both : ∀ b c p, R (.select (.both b c) p) (.select b (.select c p))
  /-- Two selections are one by the conjunction. -/
  join_both : ∀ b c p, R (.select b (.select c p)) (.select (.both b c) p)
  /-- Selections change places. -/
  swap : ∀ b c p, R (.select b (.select c p)) (.select c (.select b p))
  /-- A selection above a cross product is a join. -/
  to_join : ∀ c left right, R (.select c (.cross left right)) (.join left c right)
  /-- A selection above a join extends the join. -/
  extend_join : ∀ b c left right, R (.select c (.join left b right)) (.join left (.both b c) right)

theorem stack_select (chain : List Condition) (c : Condition) (p : Plan) :
    stack chain (.select c p) = stack (chain ++ [c]) p := by
  rw [stack_append]
  rfl

namespace MovesConditions

variable {R : Plan → Plan → Prop} (moves : MovesConditions R)

include moves

theorem stack {p q : Plan} (h : R p q) (conditions : List Condition) :
    R (Plan.stack conditions p) (Plan.stack conditions q) := by
  induction conditions with
  | nil => exact h
  | cons c _ ih => exact moves.select ih c

/-- A selection moves below others. -/
theorem sink (c : Condition) (conditions : List Condition) (p : Plan) :
    R (.select c (Plan.stack conditions p)) (Plan.stack conditions (.select c p)) := by
  induction conditions with
  | nil => exact moves.refl _
  | cons b _ ih => exact moves.trans (moves.swap c b _) (moves.select ih b)

/-- One selection for each conjunct. -/
theorem stack_conjuncts (c : Condition) (p : Plan) :
    R (.select c p) (Plan.stack c.conjuncts p) := by
  induction c generalizing p with
  | attr _ | literal _ | equal _ _ _ _ => exact moves.refl _
  | both b c ihb ihc =>
      rw [Condition.conjuncts_both, stack_append]
      exact moves.trans (moves.split_both b c p) (moves.trans (moves.select (ihc p) b) (ihb _))

theorem splitSelections (p : Plan) : R p p.splitSelections := by
  induction p with
  | scan _ => exact moves.refl _
  | select c _ ih => exact moves.trans (moves.select ih c) (moves.stack_conjuncts c _)
  | project attributes _ ih => exact moves.project ih attributes
  | rename newLabel _ ih => exact moves.rename ih newLabel
  | cross _ _ ihl ihr => exact moves.cross ihl ihr
  | join _ c _ ihl ihr => exact moves.join ihl ihr c

/-- A chain of selections is one selection by the conjunction. -/
theorem foldl_both (c : Condition) (conditions : List Condition) (p : Plan) :
    R (Plan.stack (c :: conditions) p) (.select (conditions.foldl .both c) p) := by
  induction conditions generalizing c with
  | nil => exact moves.refl _
  | cons b _ ih => exact moves.trans (moves.join_both c b _) (ih (.both c b))

theorem selectAll {p q : Plan} (h : R p q) (conditions : List Condition) :
    R (Plan.stack conditions p) (Plan.selectAll conditions q) := by
  cases conditions with
  | nil => exact h
  | cons c rest => exact moves.trans (moves.stack h (c :: rest)) (moves.foldl_both c rest q)

theorem mergeFrom (chain : List Condition) (p : Plan) :
    R (Plan.stack chain p) (p.mergeFrom chain) := by
  induction p generalizing chain with
  | scan _ => exact moves.selectAll (moves.refl _) chain
  | select c _ ih =>
      rw [stack_select]
      exact ih (chain ++ [c])
  | project attributes _ ih => exact moves.selectAll (moves.project (ih []) attributes) chain
  | rename newLabel _ ih => exact moves.selectAll (moves.rename (ih []) newLabel) chain
  | cross _ _ ihl ihr => exact moves.selectAll (moves.cross (ihl []) (ihr [])) chain
  | join _ c _ ihl ihr => exact moves.selectAll (moves.join (ihl []) (ihr []) c) chain

theorem mergeSelections (p : Plan) : R p p.mergeSelections :=
  moves.mergeFrom [] p

theorem selectOrJoin (c : Condition) (p : Plan) : R (.select c p) (Plan.selectOrJoin c p) := by
  cases p with
  | scan _ | select _ _ | project _ _ | rename _ _ => exact moves.refl _
  | cross left right =>
      simp only [Plan.selectOrJoin]
      split
      · exact moves.to_join c left right
      · exact moves.refl _
  | join left b right =>
      simp only [Plan.selectOrJoin]
      split
      · exact moves.extend_join b c left right
      · exact moves.refl _

theorem introduceJoins (p : Plan) : R p p.introduceJoins := by
  induction p with
  | scan _ => exact moves.refl _
  | select c _ ih => exact moves.trans (moves.select ih c) (moves.selectOrJoin c _)
  | project attributes _ ih => exact moves.project ih attributes
  | rename newLabel _ ih => exact moves.rename ih newLabel
  | cross _ _ ihl ihr => exact moves.cross ihl ihr
  | join _ c _ ihl ihr => exact moves.join ihl ihr c

/-- A plan is optimised by moving conditions, provided that they may sink. -/
theorem optimize {d : Dictionary} (sinks : ∀ p, R p (p.sinkSelections d)) (p : Plan) :
    R p (p.optimize d) :=
  moves.trans (moves.splitSelections p) <| moves.trans (sinks _) <|
    moves.trans (moves.mergeSelections _) (moves.introduceJoins _)

end MovesConditions

end StagedAlgebra.Plan
