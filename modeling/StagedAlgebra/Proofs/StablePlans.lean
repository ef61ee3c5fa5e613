import StagedAlgebra.Plan.Optimization
import StagedAlgebra.Proofs.Scope

/-!
# Optimised plans are stable

An optimised plan is in a normal form. No selection stands right above another one, the condition
of each is a conjunction joined from the left, and no selection above a pairing could be part of a
join there. Splitting such a plan and merging it again gives it back, and there is no join to be
introduced. Only sinking could still move something, and it does so at cross products alone: a plan
that is optimised to one without them is not changed by optimising it once more, with whatever
dictionary (`optimize_stable`). Introducing joins alone is stable on all plans, also on those whose
selections are not merged (`introduceJoins_stable`).

## Implementation notes

The normal form is a condition on each operator. `MergedAt` is established by merging, from
conditions that are no conjunctions, and kept by introducing joins, which establishes `JoinedAt`.
-/

namespace StagedAlgebra

namespace Condition

/-- A condition that is no conjunction. -/
def Single : Condition → Prop
  | .both _ _ => False
  | _ => True

/-- A condition that is joined from the left: what comes second in a conjunction is none. -/
def LeftNested : Condition → Prop
  | .both left right => left.LeftNested ∧ right.Single
  | _ => True

variable {c : Condition}

theorem Single.conjuncts_eq (h : c.Single) : c.conjuncts = [c] := by
  cases c with
  | attr _ | literal _ | equal _ _ => rfl
  | both _ _ => exact h.elim

theorem Single.leftNested (h : c.Single) : c.LeftNested := by
  cases c with
  | attr _ | literal _ | equal _ _ => trivial
  | both _ _ => exact h.elim

theorem single_of_mem_conjuncts {atom : Condition} (h : atom ∈ c.conjuncts) : atom.Single := by
  induction c with
  | attr _ | literal _ | equal _ _ _ _ =>
      rw [List.mem_singleton.mp h]
      trivial
  | both left right ihl ihr =>
      rw [conjuncts_both, List.mem_append] at h
      exact h.elim ihl ihr

theorem leftNested_foldl_both {rest : List Condition} (h : c.LeftNested)
    (single : ∀ d ∈ rest, d.Single) : (rest.foldl .both c).LeftNested := by
  induction rest generalizing c with
  | nil => exact h
  | cons d rest ih =>
      have first : (Condition.both c d).LeftNested := ⟨h, single d (List.mem_cons_self ..)⟩
      exact ih first fun b hb => single b (List.mem_cons_of_mem _ hb)

theorem conjunction_concat {conditions : List Condition} {d : Condition}
    (h : conjunction conditions = some c) :
    conjunction (conditions ++ [d]) = some (.both c d) := by
  cases conditions with
  | nil => cases h
  | cons first rest =>
      rw [List.cons_append, conjunction, List.foldl_concat]
      exact congrArg (fun b => some (Condition.both b d)) (Option.some.inj h)

/-- A condition that is joined from the left is the conjunction of its conjuncts. -/
theorem LeftNested.conjunction_conjuncts (h : c.LeftNested) :
    conjunction c.conjuncts = some c := by
  induction c with
  | attr _ | literal _ | equal _ _ _ _ => rfl
  | both left right ihl _ =>
      rw [conjuncts_both, h.2.conjuncts_eq]
      exact conjunction_concat (ihl h.1)

end Condition

namespace Plan

variable {p q : Plan} {c : Condition} {chain : List Condition} {P : Condition → Prop}

/-- A selection at the root has a condition with a property. -/
def SelectsBy (P : Condition → Prop) : Plan → Prop
  | .select c _ => P c
  | _ => True

/-- A plan with another operator than a selection at its root. -/
def NotSelect : Plan → Prop
  | .select _ _ => False
  | _ => True

/-- A selection at the root is one by a conjunction joined from the left, and the only one of its
chain. -/
def MergedAt : Plan → Prop
  | .select c input => c.LeftNested ∧ input.NotSelect
  | _ => True

/-- A selection at the root is not part of a join. -/
def JoinedAt : Plan → Prop
  | .select c (.cross left right) => isEquiJoin c left right = false
  | .select c (.join left _ right) => isEquiJoin c left right = false
  | _ => True

/-- A property of operators that says something of the conditions of selections and does not depend
on the inputs of other operators. -/
structure OwnProperty (P : Condition → Prop) (Q : Plan → Prop) : Prop where
  select : ∀ {c input}, Q (.select c input) ↔ P c
  project : ∀ {attributes p q}, Q (.project attributes p) → Q (.project attributes q)
  rename : ∀ {newLabel p q}, Q (.rename newLabel p) → Q (.rename newLabel q)
  cross : ∀ {left right left' right'}, Q (.cross left right) → Q (.cross left' right')
  join : ∀ {left c right left' right'}, Q (.join left c right) → Q (.join left' c right')

theorem ownProperty_selectsBy (P : Condition → Prop) : OwnProperty P (SelectsBy P) :=
  ⟨Iff.rfl, id, id, id, id⟩

namespace OwnProperty

variable {Q : Plan → Prop} (own : OwnProperty P Q)

include own

theorem stack (h : p.Everywhere Q) (all : ∀ c ∈ chain, P c) :
    (Plan.stack chain p).Everywhere Q := by
  induction chain with
  | nil => exact h
  | cons c rest ih =>
      have first : P c := all c (List.mem_cons_self ..)
      exact ⟨own.select.mpr first, ih fun d hd => all d (List.mem_cons_of_mem _ hd)⟩

theorem insertSelection (h : p.Everywhere Q) (hc : P c) (labels : List String) :
    (p.insertSelection c labels).Everywhere Q := by
  induction p with
  | scan _ | project _ _ _ | rename _ _ _ | join _ _ _ _ _ => exact ⟨own.select.mpr hc, h⟩
  | select _ _ ih => exact ⟨own.select.mpr (own.select.mp h.1), ih h.2⟩
  | cross left right ihl ihr =>
      rw [Plan.insertSelection]
      split
      · exact ⟨own.cross h.1, ihl h.2.1, h.2.2⟩
      split
      · exact ⟨own.cross h.1, h.2.1, ihr h.2.2⟩
      · exact ⟨own.select.mpr hc, h⟩

theorem placeSelection {scope : List LeafSource} {d : Dictionary} (h : p.Everywhere Q) (hc : P c) :
    (Plan.placeSelection scope d p c).Everywhere Q := by
  unfold Plan.placeSelection
  split
  · exact own.insertSelection h hc _
  · exact ⟨own.select.mpr hc, h⟩

theorem foldl_placeSelection {scope : List LeafSource} {d : Dictionary}
    (h : p.Everywhere Q) (all : ∀ c ∈ chain, P c) :
    (chain.foldl (Plan.placeSelection scope d) p).Everywhere Q := by
  induction chain generalizing p with
  | nil => exact h
  | cons c rest ih =>
      refine ih (own.placeSelection h (all c (List.mem_cons_self ..))) fun b hb => ?_
      exact all b (List.mem_cons_of_mem _ hb)

/-- Sinking keeps what is true of the conditions of all selections. -/
theorem sinkFrom (d : Dictionary) (h : p.Everywhere Q) (all : ∀ c ∈ chain, P c) :
    (p.sinkFrom d chain).Everywhere Q := by
  induction p generalizing chain with
  | scan _ => exact own.stack h all
  | select c _ ih =>
      refine ih h.2 fun b hb => ?_
      rcases List.mem_append.mp hb with hb | hb
      · exact all b hb
      · rw [List.mem_singleton.mp hb]
        exact own.select.mp h.1
  | project _ _ ih => exact own.stack ⟨own.project h.1, ih h.2 (by simp)⟩ all
  | rename _ _ ih => exact own.stack ⟨own.rename h.1, ih h.2 (by simp)⟩ all
  | cross _ _ ihl ihr =>
      exact own.foldl_placeSelection
        ⟨own.cross h.1, ihl h.2.1 (by simp), ihr h.2.2 (by simp)⟩ all
  | join _ _ _ ihl ihr =>
      exact own.stack ⟨own.join h.1, ihl h.2.1 (by simp), ihr h.2.2 (by simp)⟩ all

end OwnProperty

/-- Once they are split, selections are not by conjunctions. -/
theorem everywhere_splitSelections (p : Plan) :
    p.splitSelections.Everywhere (SelectsBy Condition.Single) := by
  induction p with
  | scan _ => trivial
  | select c _ ih =>
      exact (ownProperty_selectsBy _).stack ih fun _ => Condition.single_of_mem_conjuncts
  | project _ _ ih | rename _ _ ih => exact ⟨trivial, ih⟩
  | cross _ _ ihl ihr | join _ _ _ ihl ihr => exact ⟨trivial, ihl, ihr⟩

theorem mergedAt_selectAll (h : p.Everywhere MergedAt) (other : p.NotSelect)
    (single : ∀ c ∈ chain, c.Single) : (selectAll chain p).Everywhere MergedAt := by
  cases chain with
  | nil => exact h
  | cons c rest =>
      have nested : (rest.foldl .both c).LeftNested :=
        Condition.leftNested_foldl_both (single c (List.mem_cons_self ..)).leftNested
          fun b hb => single b (List.mem_cons_of_mem _ hb)
      exact ⟨⟨nested, other⟩, h⟩

/-- Selections that are not by conjunctions are merged into one a chain. -/
theorem mergedAt_mergeFrom (h : p.Everywhere (SelectsBy Condition.Single))
    (single : ∀ c ∈ chain, c.Single) : (p.mergeFrom chain).Everywhere MergedAt := by
  induction p generalizing chain with
  | scan _ => exact mergedAt_selectAll trivial trivial single
  | select c _ ih =>
      refine ih h.2 fun b hb => ?_
      rcases List.mem_append.mp hb with hb | hb
      · exact single b hb
      · rw [List.mem_singleton.mp hb]
        exact h.1
  | project _ _ ih | rename _ _ ih =>
      exact mergedAt_selectAll ⟨trivial, ih h.2 (by simp)⟩ trivial single
  | cross _ _ ihl ihr | join _ _ _ ihl ihr =>
      exact mergedAt_selectAll ⟨trivial, ihl h.2.1 (by simp), ihr h.2.2 (by simp)⟩ trivial single

/-- The normal form of an operator of an optimised plan. -/
def NormalAt (p : Plan) : Prop :=
  p.MergedAt ∧ p.JoinedAt

theorem NotSelect.introduceJoins (h : p.NotSelect) : p.introduceJoins.NotSelect := by
  cases p with
  | select _ _ => exact h.elim
  | scan _ | project _ _ | rename _ _ | cross _ _ | join _ _ _ => trivial

theorem mergedAt_selectOrJoin (h : p.Everywhere MergedAt) (other : p.NotSelect)
    (nested : c.LeftNested) : (selectOrJoin c p).Everywhere MergedAt := by
  cases p with
  | select _ _ => exact other.elim
  | scan _ | project _ _ | rename _ _ => exact ⟨⟨nested, trivial⟩, h⟩
  | cross _ _ | join _ _ _ =>
      rw [selectOrJoin]
      split
      · exact ⟨trivial, h.2⟩
      · exact ⟨⟨nested, trivial⟩, h⟩

/-- Merged selections stay merged where joins are introduced. -/
theorem mergedAt_introduceJoins (h : p.Everywhere MergedAt) :
    p.introduceJoins.Everywhere MergedAt := by
  induction p with
  | scan _ => trivial
  | select c input ih =>
      exact mergedAt_selectOrJoin (ih h.2) (NotSelect.introduceJoins h.1.2) h.1.1
  | project _ _ ih | rename _ _ ih => exact ⟨trivial, ih h.2⟩
  | cross _ _ ihl ihr | join _ _ _ ihl ihr => exact ⟨trivial, ihl h.2.1, ihr h.2.2⟩

theorem joinedAt_selectOrJoin (c : Condition) (h : p.Everywhere JoinedAt) :
    (selectOrJoin c p).Everywhere JoinedAt := by
  cases p with
  | scan _ | select _ _ | project _ _ | rename _ _ => exact ⟨trivial, h⟩
  | cross _ _ | join _ _ _ =>
      rw [selectOrJoin]
      split
      · exact ⟨trivial, h.2⟩
      · rename_i apart
        exact ⟨Bool.eq_false_iff.mpr apart, h⟩

/-- No selection that could be part of a join is left, whatever the plan. The input of a selection
is done before, and what becomes of the selection is decided by what is then at its root. -/
theorem joinedAt_introduceJoins (p : Plan) : p.introduceJoins.Everywhere JoinedAt := by
  induction p with
  | scan _ => trivial
  | select c _ ih => exact joinedAt_selectOrJoin c ih
  | project _ _ ih | rename _ _ ih => exact ⟨trivial, ih⟩
  | cross _ _ ihl ihr | join _ _ _ ihl ihr => exact ⟨trivial, ihl, ihr⟩

/-- An optimised plan is in normal form. -/
theorem normalAt_optimize (d : Dictionary) (p : Plan) : (p.optimize d).Everywhere NormalAt := by
  have sunk : (p.splitSelections.sinkFrom d []).Everywhere (SelectsBy _) :=
    (ownProperty_selectsBy _).sinkFrom d (everywhere_splitSelections p) (by simp)
  have merged : ((p.splitSelections.sinkFrom d []).mergeFrom []).Everywhere MergedAt :=
    mergedAt_mergeFrom sunk (by simp)
  exact (mergedAt_introduceJoins merged).and (joinedAt_introduceJoins _)

theorem mergeFrom_stack (chain conditions : List Condition) (p : Plan) :
    (stack conditions p).mergeFrom chain = p.mergeFrom (chain ++ conditions) := by
  induction conditions generalizing chain with
  | nil => rw [stack_nil, List.append_nil]
  | cons c rest ih => rw [stack_cons, mergeFrom, ih, List.append_assoc, List.singleton_append]

theorem NotSelect.splitSelections (h : p.NotSelect) : p.splitSelections.NotSelect := by
  cases p with
  | select _ _ => exact h.elim
  | scan _ | project _ _ | rename _ _ | cross _ _ | join _ _ _ => trivial

/-- The conditions gathered above an operator become one selection. -/
theorem NotSelect.mergeFrom (h : p.NotSelect) (chain : List Condition) :
    p.mergeFrom chain = selectAll chain p.mergeSelections := by
  cases p with
  | select _ _ => exact h.elim
  | scan _ | project _ _ | rename _ _ | cross _ _ | join _ _ _ => rfl

theorem selectAll_conjuncts (nested : c.LeftNested) (p : Plan) :
    selectAll c.conjuncts p = .select c p := by
  rw [selectAll, nested.conjunction_conjuncts]

/-- A plan with merged selections is what splitting and merging them once more gives. -/
theorem mergeSelections_splitSelections (h : p.Everywhere MergedAt) :
    p.splitSelections.mergeSelections = p := by
  induction p with
  | scan _ => rfl
  | select c input ih =>
      rw [splitSelections, mergeSelections, mergeFrom_stack, List.nil_append,
        NotSelect.mergeFrom (NotSelect.splitSelections h.1.2), ih h.2, selectAll_conjuncts h.1.1]
  | project attributes _ ih => exact congrArg (project attributes) (ih h.2)
  | rename newLabel _ ih => exact congrArg (rename newLabel) (ih h.2)
  | cross _ _ ihl ihr => exact congrArg₂ cross (ihl h.2.1) (ihr h.2.2)
  | join _ c _ ihl ihr => exact congrArg₂ (join · c ·) (ihl h.2.1) (ihr h.2.2)

theorem selectOrJoin_of_joinedAt (h : (select c p).JoinedAt) : selectOrJoin c p = .select c p := by
  cases p with
  | scan _ | select _ _ | project _ _ | rename _ _ => rfl
  | cross left right | join left _ right =>
      have apart : isEquiJoin c left right = false := h
      simp only [selectOrJoin, apart, Bool.false_eq_true, if_false]

/-- There is no join to introduce where no selection could be part of one. -/
theorem introduceJoins_of_joinedAt (h : p.Everywhere JoinedAt) : p.introduceJoins = p := by
  induction p with
  | scan _ => rfl
  | select c _ ih => rw [introduceJoins, ih h.2, selectOrJoin_of_joinedAt h.1]
  | project attributes _ ih => exact congrArg (project attributes) (ih h.2)
  | rename newLabel _ ih => exact congrArg (rename newLabel) (ih h.2)
  | cross _ _ ihl ihr => exact congrArg₂ cross (ihl h.2.1) (ihr h.2.2)
  | join _ c _ ihl ihr => exact congrArg₂ (join · c ·) (ihl h.2.1) (ihr h.2.2)

/-- Introducing joins comes to its end in one go. No selection that could be part of a join stands
above a pairing of the result, which is as it would be by introducing joins once more; and the plans
that have no such selection are the ones that stay as they are. -/
theorem introduceJoins_stable (p : Plan) :
    p.introduceJoins.Everywhere JoinedAt ∧
      p.introduceJoins.introduceJoins = p.introduceJoins ∧
      (p.introduceJoins = p ↔ p.Everywhere JoinedAt) := by
  have joined := joinedAt_introduceJoins p
  refine ⟨joined, introduceJoins_of_joinedAt joined, fun same => ?_, introduceJoins_of_joinedAt⟩
  rw [← same]
  exact joined

@[simp] theorem hasCross_stack (conditions : List Condition) (p : Plan) :
    (stack conditions p).hasCross = p.hasCross := by
  induction conditions with
  | nil => rfl
  | cons _ _ ih => exact ih

@[simp] theorem hasCross_splitSelections (p : Plan) : p.splitSelections.hasCross = p.hasCross := by
  induction p with
  | scan _ => rfl
  | select c _ ih => rw [splitSelections, hasCross_stack, ih, hasCross]
  | project _ _ ih | rename _ _ ih => exact ih
  | cross _ _ _ _ => rfl
  | join _ _ _ ihl ihr => simp only [splitSelections, hasCross, ihl, ihr]

/-- Nothing sinks in a plan without cross products. -/
theorem sinkFrom_of_not_hasCross (d : Dictionary) (h : p.hasCross = false)
    (chain : List Condition) : p.sinkFrom d chain = stack chain p := by
  induction p generalizing chain with
  | scan _ => rfl
  | select c _ ih => rw [sinkFrom, ih h, stack_append, stack_cons, stack_nil]
  | project _ _ ih | rename _ _ ih => rw [sinkFrom, ih h, stack_nil]
  | cross _ _ _ _ => cases h
  | join _ _ _ ihl ihr =>
      obtain ⟨left, right⟩ := Bool.or_eq_false_iff.mp h
      rw [sinkFrom, ihl left, ihr right, stack_nil, stack_nil]

/-- A plan in normal form without cross products is as it would be optimised. -/
theorem optimize_of_normalAt (d : Dictionary) (h : p.Everywhere NormalAt)
    (free : p.hasCross = false) : p.optimize d = p := by
  have sunk : p.splitSelections.sinkSelections d = p.splitSelections := by
    rw [sinkSelections, sinkFrom_of_not_hasCross d (by rw [hasCross_splitSelections, free]),
      stack_nil]
  rw [optimize, sunk, mergeSelections_splitSelections (h.imp fun _ normal => normal.1),
    introduceJoins_of_joinedAt (h.imp fun _ normal => normal.2)]

/-- A plan that is optimised to one without cross products is not changed by optimising it once
more, with whatever dictionary. -/
theorem optimize_stable (d d' : Dictionary) (p : Plan) (free : (p.optimize d).hasCross = false) :
    (p.optimize d).optimize d' = p.optimize d :=
  optimize_of_normalAt d' (normalAt_optimize d p) free

/-- By the first dictionary one conjunct sinks to those above a join, where all stay as one
conjunction; the others make the cross product a join. -/
theorem optimize_stable_guests :
    let same := fun x y name =>
      Condition.equal (.attr (.qualified x name)) (.attr (.qualified y name))
    let is := fun name n => Condition.equal (.attr (.bare name)) (.literal (.int n))
    let p := Plan.select (.both (same "X" "Eats" "name") (.both (is "age" 16)
        (same "Eats" "Guest" "name")))
      (.select (same "Guest" "Eats" "pizza")
        (.cross
          (.select (.both (is "tip" 2) (.both (same "X" "X" "name") (is "tip" 3)))
            (.join (.rename "X" (.scan "Person")) (same "X" "Guest" "name") (.scan "Guest")))
          (.scan "Eats")))
    let d := Dictionary.mk (Table.ofList [("Person", Table.ofList [("age", .integer)])])
    (p.optimize d).hasCross = false ∧ p.optimize d ≠ p.optimize ⟨Table.empty⟩ ∧
      (p.optimize d).optimize ⟨Table.empty⟩ = p.optimize d := by
  intro same is p d
  have free : (p.optimize d).hasCross = false := by decide
  exact ⟨free, by decide, optimize_stable d _ p free⟩

end Plan

end StagedAlgebra
