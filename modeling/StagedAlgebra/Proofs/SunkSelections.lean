import StagedAlgebra.Proofs.OptimizedMeaning
import StagedAlgebra.Proofs.Rearrangement

/-!
# How deep selections sink

A selection that is above a cross product after sinking has no deeper place to go: its attributes
cannot be resolved among the leaves of that cross product, or they belong to labels that neither
side has all of (`sinkSelections_rests`).

The point is which leaves count. A selection is resolved once, among the leaves of the cross product
that it starts from, and may come to rest above another one further down, with fewer leaves. There
it can only be resolved to the same labels, if it can be resolved at all: fewer leaves make no name
that had one leaf belong to another (`Condition.labels_of_sublist`).

## Implementation notes

What keeps a selection above a cross product is read off the leaves of the two sides, and sinking
does not change these. `sidesBelow?` gives the leaves of the sides of the cross product at which the
chain of selections at the root ends, so that a selection put somewhere below does not matter to the
selections above.
-/

namespace StagedAlgebra

section Resolving

variable {scope inner : List LeafSource} {d : Dictionary}

/-- Among fewer leaves an attribute is resolved to the same label or not at all. -/
theorem Attribute.labels_of_sublist {a : Attribute} {labels labels' : List String}
    (fewer : inner.Sublist scope) (outside : a.resolve scope d = .resolved labels)
    (inside : a.resolve inner d = .resolved labels') : labels' = labels := by
  cases qualified : a.relation with
  | some relation =>
      rw [resolve_qualified qualified outside, resolve_qualified qualified inside]
  | none =>
      obtain ⟨owner, leaf, owners, only, rfl⟩ := resolve_bare qualified outside
      obtain ⟨owner', leaf', owners', only', rfl⟩ := resolve_bare qualified inside
      obtain rfl : owner' = owner := by simpa [owners] using owners'.symm
      have sub : [leaf'].Sublist [leaf] := by
        rw [← only, ← only']
        exact fewer.filter _
      rw [List.mem_singleton.mp (List.singleton_sublist.mp sub)]

theorem Resolution.labels_of_sublist {attributes : List Attribute} {labels labels' : List String}
    (fewer : inner.Sublist scope) (outside : ofAttributes scope d attributes = .resolved labels)
    (inside : ofAttributes inner d attributes = .resolved labels') : labels' = labels := by
  induction attributes generalizing labels labels' with
  | nil =>
      cases outside
      cases inside
      rfl
  | cons a rest ih =>
      obtain ⟨own, more, first, others, rfl⟩ := ofAttributes_cons_eq_resolved outside
      obtain ⟨own', more', first', others', rfl⟩ := ofAttributes_cons_eq_resolved inside
      rw [Attribute.labels_of_sublist fewer first first', ih others others']

/-- Among fewer leaves a condition is resolved to the same labels or not at all. -/
theorem Condition.labels_of_sublist {c : Condition} {labels labels' : List String}
    (fewer : inner.Sublist scope) (outside : c.resolve scope d = .resolved labels)
    (inside : c.resolve inner d = .resolved labels') : labels' = labels := by
  obtain ⟨found, all, rfl⟩ := resolve_eq_resolved outside
  obtain ⟨found', all', rfl⟩ := resolve_eq_resolved inside
  rw [Resolution.labels_of_sublist fewer all all']

end Resolving

/-- A selection cannot sink from above a cross product into one of its sides, with some leaves
each: its attributes are not resolved among these leaves, or to labels that neither side has all
of. -/
def Condition.StaysAbove (d : Dictionary) (left right : List LeafSource) (c : Condition) : Prop :=
  ∀ labels, c.resolve (left ++ right) d = .resolved labels →
    ¬ labels ⊆ left.map (·.label) ∧ ¬ labels ⊆ right.map (·.label)

namespace Plan

/-- No selection of the chain at the root can sink, if the chain ends at a cross product. -/
def ChainRestsAt (d : Dictionary) (p : Plan) : Prop :=
  ∀ chain left right, p = stack chain (.cross left right) →
    ∀ c ∈ chain, c.StaysAbove d left.leaves right.leaves

/-- The leaves of the two sides of the cross product at which the chain of selections at the root
ends, if it ends at one. -/
def sidesBelow? : Plan → Option (List LeafSource × List LeafSource)
  | .select _ input => input.sidesBelow?
  | .cross left right => some (left.leaves, right.leaves)
  | .scan _ | .project .. | .rename .. | .join .. => none

/-- A selection at the root cannot sink, if its chain ends at a cross product. -/
def RestsAt (d : Dictionary) : Plan → Prop
  | .select c input =>
    ∀ left right, input.sidesBelow? = some (left, right) → c.StaysAbove d left right
  | _ => True

variable {d : Dictionary} {scope : List LeafSource} {p : Plan} {c : Condition}
variable {chain : List Condition}

@[simp] theorem sidesBelow?_stack (chain : List Condition) (p : Plan) :
    (stack chain p).sidesBelow? = p.sidesBelow? := by
  induction chain with
  | nil => rfl
  | cons _ _ ih => exact ih

theorem leaves_of_sidesBelow? {left right : List LeafSource}
    (h : p.sidesBelow? = some (left, right)) : p.leaves = left ++ right := by
  induction p with
  | select _ _ ih => exact ih h
  | cross _ _ _ _ =>
      cases h
      rfl
  | scan _ | project _ _ _ | rename _ _ _ | join _ _ _ _ _ => cases h

theorem leaves_insertSelection (c : Condition) (labels : List String) (p : Plan) :
    (p.insertSelection c labels).leaves = p.leaves :=
  (rearranges_insertSelection c labels p).leaves

/-- Where a selection is put does not matter to the selections above. -/
theorem sidesBelow?_insertSelection (c : Condition) (labels : List String) (p : Plan) :
    (p.insertSelection c labels).sidesBelow? = p.sidesBelow? := by
  induction p with
  | select _ _ ih => exact ih
  | cross left right _ _ =>
      rw [insertSelection]
      split
      · rw [sidesBelow?, leaves_insertSelection, sidesBelow?]
      split
      · rw [sidesBelow?, leaves_insertSelection, sidesBelow?]
      · rfl
  | scan _ | project _ _ _ | rename _ _ _ | join _ _ _ _ _ => rfl

theorem rests_stack (h : p.Everywhere (RestsAt d)) (elsewhere : p.sidesBelow? = none) :
    (stack chain p).Everywhere (RestsAt d) := by
  induction chain with
  | nil => exact h
  | cons c rest ih =>
      have none : (stack rest p).sidesBelow? = none := by rw [sidesBelow?_stack, elsewhere]
      refine ⟨fun left right below => ?_, ih⟩
      cases none.symm.trans below

/-- A selection that is resolved among the leaves of a scope can be put into any plan with leaves of
that scope. It goes down to a cross product of which neither side has all its labels. -/
theorem rests_insertSelection {labels : List String} (h : p.Everywhere (RestsAt d))
    (resolved : c.resolve scope d = .resolved labels) (fewer : p.leaves.Sublist scope) :
    (p.insertSelection c labels).Everywhere (RestsAt d) := by
  induction p with
  | scan _ | project _ _ _ | rename _ _ _ | join _ _ _ _ _ => exact ⟨nofun, h⟩
  | select b input ih =>
      refine ⟨fun left right below => ?_, ih h.2 fewer⟩
      rw [sidesBelow?_insertSelection] at below
      exact h.1 left right below
  | cross left right ihl ihr =>
      rw [insertSelection]
      split
      · exact ⟨trivial, ihl h.2.1 ((List.sublist_append_left ..).trans fewer), h.2.2⟩
      rename_i notLeft
      split
      · exact ⟨trivial, h.2.1, ihr h.2.2 ((List.sublist_append_right ..).trans fewer)⟩
      rename_i notRight
      refine ⟨?_, h⟩
      rintro _ _ ⟨⟩ labels' resolved'
      obtain rfl := Condition.labels_of_sublist fewer resolved resolved'
      exact ⟨fun inside => notLeft (covers_iff.mpr inside),
        fun inside => notRight (covers_iff.mpr inside)⟩

theorem rests_placeSelection (h : p.Everywhere (RestsAt d)) (c : Condition) :
    (placeSelection p.leaves d p c).Everywhere (RestsAt d) := by
  unfold placeSelection
  split
  · rename_i labels resolved
    exact rests_insertSelection h resolved (List.Sublist.refl _)
  · rename_i unresolved
    refine ⟨fun left right below labels resolved => ?_, h⟩
    rw [← leaves_of_sidesBelow? below] at resolved
    exact absurd resolved (unresolved labels)

theorem rests_foldl_placeSelection (chain : List Condition) (h : p.Everywhere (RestsAt d)) :
    (chain.foldl (placeSelection p.leaves d) p).Everywhere (RestsAt d) := by
  induction chain generalizing p with
  | nil => exact h
  | cons c rest ih =>
      have same : (placeSelection p.leaves d p c).leaves = p.leaves :=
        (rearranges_placeSelection p.leaves d c p).leaves
      have next := ih (rests_placeSelection h c)
      rwa [same] at next

/-- Wherever selections come from, they sink as deep as they can. -/
theorem rests_sinkFrom (d : Dictionary) (chain : List Condition) (p : Plan) :
    (p.sinkFrom d chain).Everywhere (RestsAt d) := by
  induction p generalizing chain with
  | scan _ => exact rests_stack trivial rfl
  | select c _ ih => exact ih (chain ++ [c])
  | project _ _ ih | rename _ _ ih => exact rests_stack ⟨trivial, ih []⟩ rfl
  | join _ _ _ ihl ihr => exact rests_stack ⟨trivial, ihl [], ihr []⟩ rfl
  | cross left right ihl ihr =>
      have sides : (cross (left.sinkFrom d []) (right.sinkFrom d [])).leaves =
          (cross left right).leaves :=
        ((rearranges_sinkFrom d [] left).cross (rearranges_sinkFrom d [] right)).leaves
      rw [sinkFrom, ← sides]
      exact rests_foldl_placeSelection chain ⟨trivial, ihl [], ihr []⟩

theorem chainRestsAt (h : p.Everywhere (RestsAt d)) : p.ChainRestsAt d := by
  rintro chain left right rfl
  induction chain with
  | nil => simp
  | cons b rest ih =>
      intro c hc
      rcases List.mem_cons.mp hc with rfl | hc
      · exact h.1 left.leaves right.leaves (sidesBelow?_stack rest _)
      · exact ih h.2 c hc

/-- Selections sink as deep as they can, and none is lost. Wherever in the plan a chain of
selections ends at a cross product, none of them could be moved into one of its sides. -/
theorem sinkSelections_rests (d : Dictionary) (p : Plan) :
    Rearranges p (p.sinkSelections d) ∧ (p.sinkSelections d).Everywhere (ChainRestsAt d) :=
  ⟨rearranges_sinkSelections d p, (rests_sinkFrom d [] p).everywhere.imp fun _ => chainRestsAt⟩

end Plan

end StagedAlgebra
