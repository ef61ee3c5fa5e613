import Mathlib.Algebra.Order.Group.Multiset
import Mathlib.Data.Bool.Basic
import Mathlib.Data.List.Forall2
import StagedAlgebra.Proofs.ConditionMoves

/-!
# What the rewritings keep of a plan

The rewritings of plans move conditions, and nothing else. The *skeleton* of a plan is what
remains of it without its conditions: selections are left out, and a cross product and a join are
the same pairing. `Rearranges p q` says that `q` has the skeleton of `p`, that no join of `p` is a
cross product in `q`, and that the conditions of `q` have the conjuncts of those of `p`, each as
often. Label, leaves and base relation are read off the skeleton, so they stay as well.

The relation is reflexive and transitive and passes through every operator. Each rewriting is a
chain of the few laws that move a condition over one operator, found by recursion on the plan
(`keeps_rewritings`).
-/

namespace StagedAlgebra

/-- A plan without its conditions. -/
inductive Skeleton where
  /-- All records of a relation. -/
  | scan (relation : String)
  /-- The records cut down to some attributes. -/
  | project (attributes : List Attribute) (input : Skeleton)
  /-- The records under another label. -/
  | rename (newLabel : String) (input : Skeleton)
  /-- Pairs of records, all or those that satisfy a condition. -/
  | pair (left right : Skeleton)
deriving DecidableEq

namespace Skeleton

/-- The label under which records flow. -/
def label : Skeleton → String
  | .scan relation => relation
  | .project _ input => input.label
  | .rename newLabel _ => newLabel
  | .pair left right => Plan.pairLabel left.label right.label

/-- The one relation that is read, if no two inputs are paired. -/
def base? : Skeleton → Option String
  | .scan relation => some relation
  | .project _ input | .rename _ input => input.base?
  | .pair .. => none

/-- The labels that attributes can belong to, from left to right. -/
def leaves : Skeleton → List LeafSource
  | .scan relation => [⟨relation, some relation⟩]
  | .project _ input => input.leaves
  | .rename newLabel input => [⟨newLabel, input.base?⟩]
  | .pair left right => left.leaves ++ right.leaves

end Skeleton

namespace Plan

/-- A plan without its conditions. -/
def skeleton : Plan → Skeleton
  | .scan relation => .scan relation
  | .select _ input => input.skeleton
  | .project attributes input => .project attributes input.skeleton
  | .rename newLabel input => .rename newLabel input.skeleton
  | .cross left right | .join left _ right => .pair left.skeleton right.skeleton

/-- Which of the pairings of a plan are joins. A pairing comes before those of its sides, and those
of the left before those of the right, so that plans with one skeleton list the same pairings. -/
def joins : Plan → List Bool
  | .scan _ => []
  | .select _ input | .project _ input | .rename _ input => input.joins
  | .cross left right => false :: (left.joins ++ right.joins)
  | .join left _ right => true :: (left.joins ++ right.joins)

/-- The conjuncts of the conditions of all selections and joins. -/
def conjuncts : Plan → Multiset Condition
  | .scan _ => 0
  | .select c input => (c.conjuncts : Multiset Condition) + input.conjuncts
  | .project _ input | .rename _ input => input.conjuncts
  | .cross left right => left.conjuncts + right.conjuncts
  | .join left c right => (c.conjuncts : Multiset Condition) + (left.conjuncts + right.conjuncts)

@[simp] theorem label_skeleton (p : Plan) : p.skeleton.label = p.label := by
  induction p with
  | scan _ => rfl
  | select _ _ ih | project _ _ ih => exact ih
  | rename _ _ _ => rfl
  | cross _ _ ihl ihr | join _ _ _ ihl ihr => simp only [skeleton, Skeleton.label, label, ihl, ihr]

@[simp] theorem base?_skeleton (p : Plan) : p.skeleton.base? = p.base? := by
  induction p with
  | scan _ => rfl
  | select _ _ ih | project _ _ ih | rename _ _ ih => exact ih
  | cross _ _ _ _ | join _ _ _ _ _ => rfl

@[simp] theorem leaves_skeleton (p : Plan) : p.skeleton.leaves = p.leaves := by
  induction p with
  | scan _ => rfl
  | select _ _ ih | project _ _ ih => exact ih
  | rename _ _ _ => simp only [skeleton, Skeleton.leaves, leaves, base?_skeleton]
  | cross _ _ ihl ihr | join _ _ _ ihl ihr =>
      simp only [skeleton, Skeleton.leaves, leaves, ihl, ihr]

theorem forall₂_le_trans {xs ys zs : List Bool} (h : List.Forall₂ (· ≤ ·) xs ys)
    (h' : List.Forall₂ (· ≤ ·) ys zs) : List.Forall₂ (· ≤ ·) xs zs := by
  induction h generalizing zs with
  | nil => exact h'
  | cons hle _ ih =>
      cases h' with
      | cons hle' hrest => exact .cons (hle.trans hle') (ih hrest)

/-- One plan is another one with its conditions moved, and with cross products made joins. -/
structure Rearranges (p q : Plan) : Prop where
  /-- Scans, projections, renamings and pairings stand where they stood. -/
  skeleton : q.skeleton = p.skeleton
  /-- What was a join is a join. -/
  joins : List.Forall₂ (· ≤ ·) p.joins q.joins
  /-- Every conjunct is there as often as it was. -/
  conjuncts : q.conjuncts = p.conjuncts

/-- A rearranged plan looks from outside as it did. -/
structure Keeps (p q : Plan) : Prop extends Rearranges p q where
  /-- The records flow under the same label. -/
  label : q.label = p.label
  /-- Attributes can belong to the same leaves. -/
  leaves : q.leaves = p.leaves
  /-- The same relation is read, if it is one. -/
  base : q.base? = p.base?

variable {p q r left right left' right' : Plan}

namespace Rearranges

theorem leaves (h : Rearranges p q) : q.leaves = p.leaves := by
  rw [← leaves_skeleton, h.skeleton, leaves_skeleton]

theorem labels (h : Rearranges p q) : q.labels = p.labels := by
  rw [Plan.labels, Plan.labels, h.leaves]

theorem keeps (h : Rearranges p q) : Keeps p q where
  toRearranges := h
  label := by rw [← label_skeleton, h.skeleton, label_skeleton]
  leaves := h.leaves
  base := by rw [← base?_skeleton, h.skeleton, base?_skeleton]

theorem refl (p : Plan) : Rearranges p p :=
  ⟨rfl, List.forall₂_refl _, rfl⟩

theorem trans (h : Rearranges p q) (h' : Rearranges q r) : Rearranges p r where
  skeleton := h'.skeleton.trans h.skeleton
  joins := forall₂_le_trans h.joins h'.joins
  conjuncts := h'.conjuncts.trans h.conjuncts

theorem select (h : Rearranges p q) (c : Condition) :
    Rearranges (.select c p) (.select c q) :=
  ⟨h.skeleton, h.joins, congrArg ((c.conjuncts : Multiset Condition) + ·) h.conjuncts⟩

theorem project (h : Rearranges p q) (attributes : List Attribute) :
    Rearranges (.project attributes p) (.project attributes q) :=
  ⟨congrArg (Skeleton.project attributes) h.skeleton, h.joins, h.conjuncts⟩

theorem rename (h : Rearranges p q) (newLabel : String) :
    Rearranges (.rename newLabel p) (.rename newLabel q) :=
  ⟨congrArg (Skeleton.rename newLabel) h.skeleton, h.joins, h.conjuncts⟩

theorem cross (hl : Rearranges left left') (hr : Rearranges right right') :
    Rearranges (.cross left right) (.cross left' right') where
  skeleton := congrArg₂ Skeleton.pair hl.skeleton hr.skeleton
  joins := .cons le_rfl (List.rel_append hl.joins hr.joins)
  conjuncts := congrArg₂ (· + ·) hl.conjuncts hr.conjuncts

theorem join (hl : Rearranges left left') (hr : Rearranges right right') (c : Condition) :
    Rearranges (.join left c right) (.join left' c right') where
  skeleton := congrArg₂ Skeleton.pair hl.skeleton hr.skeleton
  joins := .cons le_rfl (List.rel_append hl.joins hr.joins)
  conjuncts := by simp only [Plan.conjuncts, hl.conjuncts, hr.conjuncts]

/-- A selection by a conjunction is two selections. -/
theorem split_both (b c : Condition) (p : Plan) :
    Rearranges (.select (.both b c) p) (.select b (.select c p)) := by
  refine ⟨rfl, List.forall₂_refl _, ?_⟩
  simp only [Plan.conjuncts, Condition.conjuncts_both, ← Multiset.coe_add, add_assoc]

/-- Two selections are one by the conjunction. -/
theorem join_both (b c : Condition) (p : Plan) :
    Rearranges (.select b (.select c p)) (.select (.both b c) p) :=
  ⟨rfl, List.forall₂_refl _, (split_both b c p).conjuncts.symm⟩

/-- Selections change places. -/
theorem swap (b c : Condition) (p : Plan) :
    Rearranges (.select b (.select c p)) (.select c (.select b p)) :=
  ⟨rfl, List.forall₂_refl _, add_left_comm _ _ _⟩

/-- A selection above a cross product moves into the left. -/
theorem into_left (c : Condition) (left right : Plan) :
    Rearranges (.select c (.cross left right)) (.cross (.select c left) right) :=
  ⟨rfl, List.forall₂_refl _, add_assoc _ _ _⟩

/-- A selection above a cross product moves into the right. -/
theorem into_right (c : Condition) (left right : Plan) :
    Rearranges (.select c (.cross left right)) (.cross left (.select c right)) :=
  ⟨rfl, List.forall₂_refl _, add_left_comm _ _ _⟩

/-- A selection above a cross product is a join. -/
theorem to_join (c : Condition) (left right : Plan) :
    Rearranges (.select c (.cross left right)) (.join left c right) :=
  ⟨rfl, .cons (Bool.false_le _) (List.forall₂_refl _), rfl⟩

/-- A selection above a join extends the join. -/
theorem extend_join (b c : Condition) (left right : Plan) :
    Rearranges (.select c (.join left b right)) (.join left (.both b c) right) := by
  refine ⟨rfl, List.forall₂_refl _, ?_⟩
  simp only [Plan.conjuncts, Condition.conjuncts_both, ← Multiset.coe_add]
  rw [add_assoc, add_left_comm]

theorem moves : MovesConditions Rearranges where
  refl := refl
  trans := trans
  select := select
  project := project
  rename := rename
  cross := cross
  join := join
  split_both := split_both
  join_both := join_both
  swap := swap
  to_join := to_join
  extend_join := extend_join

end Rearranges

theorem rearranges_insertSelection (c : Condition) (labels : List String) (p : Plan) :
    Rearranges (.select c p) (p.insertSelection c labels) := by
  induction p with
  | scan _ | project _ _ _ | rename _ _ _ | join _ _ _ _ _ => exact .refl _
  | select b input ih => exact (Rearranges.swap c b input).trans (ih.select b)
  | cross left right ihl ihr =>
      simp only [insertSelection]
      split
      · exact (Rearranges.into_left c left right).trans (ihl.cross (.refl right))
      · split
        · exact (Rearranges.into_right c left right).trans ((Rearranges.refl left).cross ihr)
        · exact .refl _

theorem rearranges_placeSelection (scope : List LeafSource) (d : Dictionary) (c : Condition)
    (p : Plan) : Rearranges (.select c p) (placeSelection scope d p c) := by
  unfold placeSelection
  split
  · exact rearranges_insertSelection c _ p
  · exact .refl _

/-- The selections above a plan are placed one by one, the outermost first. -/
theorem rearranges_foldl_placeSelection (scope : List LeafSource) (d : Dictionary)
    (chain : List Condition) (p : Plan) :
    Rearranges (stack chain p) (chain.foldl (placeSelection scope d) p) := by
  induction chain generalizing p with
  | nil => exact .refl _
  | cons c rest ih =>
      have placed := Rearranges.moves.stack (rearranges_placeSelection scope d c p) rest
      exact (Rearranges.moves.sink c rest p).trans (placed.trans (ih _))

theorem rearranges_sinkFrom (d : Dictionary) (chain : List Condition) (p : Plan) :
    Rearranges (stack chain p) (p.sinkFrom d chain) := by
  induction p generalizing chain with
  | scan _ => exact .refl _
  | select c _ ih =>
      rw [stack_select]
      exact ih (chain ++ [c])
  | project attributes _ ih => exact Rearranges.moves.stack ((ih []).project attributes) chain
  | rename newLabel _ ih => exact Rearranges.moves.stack ((ih []).rename newLabel) chain
  | join _ c _ ihl ihr => exact Rearranges.moves.stack ((ihl []).join (ihr []) c) chain
  | cross left right ihl ihr =>
      have sides := Rearranges.moves.stack ((ihl []).cross (ihr [])) chain
      exact sides.trans (rearranges_foldl_placeSelection _ d chain _)

theorem rearranges_sinkSelections (d : Dictionary) (p : Plan) :
    Rearranges p (p.sinkSelections d) :=
  rearranges_sinkFrom d [] p

theorem rearranges_optimize (d : Dictionary) (p : Plan) : Rearranges p (p.optimize d) :=
  Rearranges.moves.optimize (rearranges_sinkSelections d) p

/-- Each of the four rewritings, and all of them in their order, only moves conditions: the skeleton
stays, joins stay joins, no conjunct is lost, repeated or made up, and the plan looks the same from
outside. -/
theorem keeps_rewritings (d : Dictionary) (p : Plan) :
    Keeps p p.splitSelections ∧ Keeps p (p.sinkSelections d) ∧ Keeps p p.mergeSelections ∧
      Keeps p p.introduceJoins ∧ Keeps p (p.optimize d) :=
  ⟨(Rearranges.moves.splitSelections p).keeps, (rearranges_sinkSelections d p).keeps,
    (Rearranges.moves.mergeSelections p).keeps, (Rearranges.moves.introduceJoins p).keeps,
    (rearranges_optimize d p).keeps⟩

end Plan

end StagedAlgebra
