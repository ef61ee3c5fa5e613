import StagedAlgebra.Proofs.ConditionMoves
import StagedAlgebra.Proofs.StablePlans

/-!
# Chains of selections

Splitting and merging selections undo each other up to a normal form. What merging joins, splitting
takes apart as if nothing had been merged; and what is split and then merged has one selection for
each chain of selections there was, by the conjunction of all conjuncts of the chain, the outermost
first (`gatherSelections_normal`).

## Implementation notes

`Gathers p q` says what becomes of each chain without going through the rewritings. It reads `p` as
its chains and the other operators between them, and leaves open how the conjuncts of a chain are
nested in the condition of `q`. With the nesting of the normal form it leaves only one plan.
-/

namespace StagedAlgebra

namespace Condition

/-- Conjuncts are conjuncts of nothing but themselves. -/
theorem flatMap_conjuncts (c : Condition) : c.conjuncts.flatMap conjuncts = c.conjuncts := by
  induction c with
  | attr _ | literal _ | equal _ _ _ _ => rfl
  | both left right ihl ihr => rw [conjuncts_both, List.flatMap_append, ihl, ihr]

/-- A list of conditions that is not empty has a conjunction. -/
theorem exists_conjunction {conditions : List Condition} (nonempty : conditions ≠ []) :
    ∃ c, conjunction conditions = some c := by
  cases conditions with
  | nil => exact absurd rfl nonempty
  | cons first rest => exact ⟨rest.foldl .both first, rfl⟩

end Condition

namespace Plan

/-- One selection for each chain of selections, by all conjuncts of the chain. -/
def gatherSelections (p : Plan) : Plan :=
  p.splitSelections.mergeSelections

/-- One plan is another one with each chain of selections, from its outermost to its innermost,
replaced by one selection with the conjuncts of the chain, the outermost first, and with all other
operators as they were. -/
inductive Gathers : Plan → Plan → Prop
  | scan (relation : String) : Gathers (.scan relation) (.scan relation)
  | project {p q : Plan} (attributes : List Attribute) (input : Gathers p q) :
      Gathers (.project attributes p) (.project attributes q)
  | rename {p q : Plan} (newLabel : String) (input : Gathers p q) :
      Gathers (.rename newLabel p) (.rename newLabel q)
  | cross {left left' right right' : Plan} (onLeft : Gathers left left')
      (onRight : Gathers right right') : Gathers (.cross left right) (.cross left' right')
  | join {left left' right right' : Plan} (onLeft : Gathers left left') (c : Condition)
      (onRight : Gathers right right') : Gathers (.join left c right) (.join left' c right')
  /-- A chain that ends at another operator. -/
  | chain {conditions : List Condition} {p q : Plan} {c : Condition} (nonempty : conditions ≠ [])
      (ends : p.NotSelect) (below : Gathers p q)
      (same : c.conjuncts = conditions.flatMap Condition.conjuncts) :
      Gathers (stack conditions p) (.select c q)

variable {p q : Plan}

/-- A chain is split condition by condition. -/
theorem splitSelections_stack (chain : List Condition) (p : Plan) :
    (stack chain p).splitSelections =
      stack (chain.flatMap Condition.conjuncts) p.splitSelections := by
  induction chain with
  | nil => rfl
  | cons c rest ih => rw [stack_cons, splitSelections, ih, List.flatMap_cons, stack_append]

/-- A merged chain is split into what the chain would be split into. -/
theorem splitSelections_selectAll (chain : List Condition) (p : Plan) :
    (selectAll chain p).splitSelections =
      stack (chain.flatMap Condition.conjuncts) p.splitSelections := by
  cases chain with
  | nil => rfl
  | cons c rest =>
      have both : Condition.conjunction (c :: rest) = some (rest.foldl .both c) := rfl
      rw [selectAll, both, ← Condition.conjuncts_of_conjunction both]
      rfl

theorem splitSelections_mergeFrom (chain : List Condition) (p : Plan) :
    (p.mergeFrom chain).splitSelections =
      stack (chain.flatMap Condition.conjuncts) p.splitSelections := by
  induction p generalizing chain with
  | scan _ => exact splitSelections_selectAll ..
  | select c input ih =>
      rw [mergeFrom, ih, List.flatMap_append, List.flatMap_singleton, stack_append]
      rfl
  | project _ _ ih | rename _ _ ih =>
      rw [mergeFrom, splitSelections_selectAll, splitSelections, ih]
      rfl
  | cross _ _ ihl ihr | join _ _ _ ihl ihr =>
      rw [mergeFrom, splitSelections_selectAll, splitSelections, ihl, ihr]
      rfl

/-- Gathering treats the chain at the root apart from what is below it. -/
theorem gatherSelections_stack (chain : List Condition) (ends : p.NotSelect) :
    (stack chain p).gatherSelections =
      selectAll (chain.flatMap Condition.conjuncts) p.gatherSelections := by
  calc (stack chain p).gatherSelections
      = (stack (chain.flatMap Condition.conjuncts) p.splitSelections).mergeFrom [] := by
        rw [gatherSelections, splitSelections_stack, mergeSelections]
    _ = p.splitSelections.mergeFrom (chain.flatMap Condition.conjuncts) := by
        rw [mergeFrom_stack, List.nil_append]
    _ = selectAll (chain.flatMap Condition.conjuncts) p.gatherSelections :=
        NotSelect.mergeFrom (NotSelect.splitSelections ends) _

theorem mergedAt_gatherSelections (p : Plan) : p.gatherSelections.Everywhere MergedAt :=
  mergedAt_mergeFrom (everywhere_splitSelections p) (by simp)

/-- A chain is gathered by merging all its conjuncts. -/
theorem gathers_selectAll (chain : List Condition) (ends : p.NotSelect) (below : Gathers p q) :
    Gathers (stack chain p) (selectAll (chain.flatMap Condition.conjuncts) q) := by
  by_cases empty : chain = []
  · subst empty
    exact below
  obtain ⟨first, member⟩ := List.exists_mem_of_ne_nil chain empty
  have some_conjunct : chain.flatMap Condition.conjuncts ≠ [] := by
    intro none
    exact first.conjuncts_ne_nil (List.flatMap_eq_nil_iff.mp none first member)
  obtain ⟨c, both⟩ := Condition.exists_conjunction some_conjunct
  have same : c.conjuncts = chain.flatMap Condition.conjuncts := by
    rw [Condition.conjuncts_of_conjunction both, List.flatMap_assoc]
    exact List.flatMap_congr fun b _ => b.flatMap_conjuncts
  rw [selectAll, both]
  exact .chain empty ends below same

theorem gathers_stack (chain : List Condition) (ends : p.NotSelect)
    (below : Gathers p p.gatherSelections) :
    Gathers (stack chain p) (stack chain p).gatherSelections := by
  rw [gatherSelections_stack chain ends]
  exact gathers_selectAll chain ends below

/-- Gathering the selections of a plan is gathering each of its chains. The chain above the plan
is part of the induction, because a selection at the root only makes it longer. -/
theorem gathers_gatherSelections (chain : List Condition) (p : Plan) :
    Gathers (stack chain p) (stack chain p).gatherSelections := by
  induction p generalizing chain with
  | scan relation => exact gathers_stack chain trivial (.scan relation)
  | select c input ih =>
      rw [stack_select]
      exact ih (chain ++ [c])
  | project attributes _ ih => exact gathers_stack chain trivial (.project attributes (ih []))
  | rename newLabel _ ih => exact gathers_stack chain trivial (.rename newLabel (ih []))
  | cross _ _ ihl ihr => exact gathers_stack chain trivial (.cross (ihl []) (ihr []))
  | join _ c _ ihl ihr => exact gathers_stack chain trivial (.join (ihl []) c (ihr []))

/-- The chains and the nesting of the normal form determine the plan. -/
theorem Gathers.eq_gatherSelections (h : Gathers p q) (merged : q.Everywhere MergedAt) :
    q = p.gatherSelections := by
  induction h with
  | scan _ => rfl
  | project attributes _ ih => exact congrArg (Plan.project attributes) (ih merged.2)
  | rename newLabel _ ih => exact congrArg (Plan.rename newLabel) (ih merged.2)
  | cross _ _ ihl ihr => exact congrArg₂ Plan.cross (ihl merged.2.1) (ihr merged.2.2)
  | join _ c _ ihl ihr => exact congrArg₂ (Plan.join · c ·) (ihl merged.2.1) (ihr merged.2.2)
  | @chain conditions p q c _ ends _ same ih =>
      rw [gatherSelections_stack conditions ends, ← same, ← ih merged.2,
        selectAll_conjuncts merged.1.1]

/-- Splitting and merging selections are inverse to each other up to a normal form. Merged
selections are split as if they had not been merged, and gathering once more changes nothing. The
gathered plan is the only one with the chains of the plan gathered in which no selection stands
above another and every condition is joined from the left of conjuncts that are no conjunctions. -/
theorem gatherSelections_normal (p : Plan) :
    p.mergeSelections.splitSelections = p.splitSelections ∧
      p.gatherSelections.gatherSelections = p.gatherSelections ∧
      ∀ q, q = p.gatherSelections ↔ Gathers p q ∧ q.Everywhere MergedAt := by
  refine ⟨splitSelections_mergeFrom [] p, ?_, fun q => ⟨?_, ?_⟩⟩
  · exact mergeSelections_splitSelections (mergedAt_gatherSelections p)
  · rintro rfl
    exact ⟨gathers_gatherSelections [] p, mergedAt_gatherSelections p⟩
  · rintro ⟨gathered, merged⟩
    exact gathered.eq_gatherSelections merged

end Plan

end StagedAlgebra
