import StagedAlgebra.Proofs.CompiledPlans
import StagedAlgebra.Proofs.OptimizedMeaning
import StagedAlgebra.Proofs.Rearrangement

/-!
# Which cross products become joins

A query that only reads, renames, pairs and selects, with every attribute under the label of a
leaf, can be compiled once it is optimised if and only if each of its cross products is *linked*:
some selection, wherever it stands, equates an attribute of the one side with an attribute of the
other. Otherwise a cross product remains, and that is the only reason for which the compiler
refuses the query (`compile_optimize_iff`).

## Implementation notes

Once selections have sunk, a selection above a cross product equates attributes of its two sides,
since any other one goes deeper. Such a plan is *settled*. The equalities of a settled plan that
link a cross product stand right above it: those inside one of the sides mention only labels of
that side, and those further up mention a label outside of both. So a cross product without
selections above it is not linked, and one with selections above it becomes a join.

Which pairings a plan has, and which labels they pair, is read off its skeleton, which no rewriting
changes.
-/

namespace StagedAlgebra

namespace Condition

/-- A condition equates an attribute under a label of one list with one under a label of the
other. -/
def Links (left right : List String) (c : Condition) : Prop :=
  ∃ x a y b, c = .equal (.attr (.qualified x a)) (.attr (.qualified y b)) ∧
    (x ∈ left ∧ y ∈ right ∨ y ∈ left ∧ x ∈ right)

/-- Every attribute of a condition stands under one of some labels. -/
def QualifiedBy (labels : List String) (c : Condition) : Prop :=
  ∀ a ∈ c.attributes, ∃ label ∈ labels, a.relation = some label

/-- Some labels are those under which the attributes of a condition stand. -/
def MentionsExactly (labels : List String) (c : Condition) : Prop :=
  ∀ label, label ∈ labels ↔ ∃ a ∈ c.attributes, a.relation = some label

variable {c atom : Condition} {left right labels : List String}

theorem linksLabels_iff : c.linksLabels left right = true ↔ c.Links left right := by
  unfold linksLabels Links
  constructor
  · intro h
    split at h
    · rename_i x a y b pair
      have shape : c = .equal (.attr (.qualified x a)) (.attr (.qualified y b)) := by
        unfold attributePair? at pair
        split at pair
        · cases pair
          rfl
        · cases pair
      exact ⟨x, a, y, b, shape, by simpa using h⟩
    · cases h
  · rintro ⟨x, a, y, b, rfl, sides⟩
    simpa [attributePair?, Attribute.qualified] using sides

instance : Decidable (c.Links left right) :=
  decidable_of_iff _ linksLabels_iff

instance : Decidable (c.QualifiedBy labels) :=
  inferInstanceAs (Decidable (∀ _ ∈ _, _))

theorem Links.conjuncts_eq (h : c.Links left right) : c.conjuncts = [c] := by
  obtain ⟨x, a, y, b, rfl, -⟩ := h
  rfl

/-- Each of the two lists has a label that the condition mentions. -/
theorem Links.exists_mem (h : c.Links left right) :
    (∃ x ∈ left, ∃ a ∈ c.attributes, a.relation = some x) ∧
      ∃ y ∈ right, ∃ a ∈ c.attributes, a.relation = some y := by
  obtain ⟨x, a, y, b, rfl, ⟨hx, hy⟩ | ⟨hy, hx⟩⟩ := h
  · exact ⟨⟨x, hx, .qualified x a, by simp [attributes], rfl⟩,
      y, hy, .qualified y b, by simp [attributes], rfl⟩
  · exact ⟨⟨y, hy, .qualified y b, by simp [attributes], rfl⟩,
      x, hx, .qualified x a, by simp [attributes], rfl⟩

/-- The condition mentions no other label. -/
theorem Links.qualifiedBy (h : c.Links left right) : c.QualifiedBy (left ++ right) := by
  obtain ⟨x, a, y, b, rfl, sides⟩ := h
  simp only [QualifiedBy, attributes, Attribute.qualified, List.mem_append]
  rintro _ (member | member) <;> obtain rfl := List.mem_singleton.mp member
  · exact ⟨x, sides.imp And.left And.right, rfl⟩
  · exact ⟨y, sides.symm.imp And.left And.right, rfl⟩

theorem QualifiedBy.mem (h : c.QualifiedBy labels) {label : String}
    (mentioned : ∃ a ∈ c.attributes, a.relation = some label) : label ∈ labels := by
  obtain ⟨a, ha, relation⟩ := mentioned
  obtain ⟨label', member, relation'⟩ := h a ha
  rw [relation, Option.some.injEq] at relation'
  exact relation' ▸ member

theorem attributes_of_mem_conjuncts (h : atom ∈ c.conjuncts) {a : Attribute}
    (ha : a ∈ atom.attributes) : a ∈ c.attributes := by
  induction c with
  | attr _ | literal _ | equal _ _ _ _ =>
      obtain rfl := List.mem_singleton.mp h
      exact ha
  | both b c ihb ihc =>
      rw [attributes, List.mem_append]
      rcases List.mem_append.mp h with h | h
      · exact .inl (ihb h)
      · exact .inr (ihc h)

theorem QualifiedBy.conjunct (h : c.QualifiedBy labels) (member : atom ∈ c.conjuncts) :
    atom.QualifiedBy labels :=
  fun a ha => h a (attributes_of_mem_conjuncts member ha)

/-- An equality between operands that belongs to two lists of labels, but to neither of them alone,
links them. -/
theorem links_of_not_qualifiedBy (atomic : c.isAtomic = true)
    (both : c.QualifiedBy (left ++ right)) (notLeft : ¬ c.QualifiedBy left)
    (notRight : ¬ c.QualifiedBy right) : c.Links left right := by
  have side (a : Attribute) (ha : a ∈ c.attributes) :
      ∃ x, a.relation = some x ∧ (x ∈ left ∨ x ∈ right) := by
    obtain ⟨x, member, relation⟩ := both a ha
    exact ⟨x, relation, List.mem_append.mp member⟩
  -- With at most one attribute the condition would belong to the side of that attribute.
  match c, atomic with
  | .equal (.literal _) (.literal _), _ => simp [QualifiedBy, attributes] at notLeft
  | .equal (.attr a) (.literal _), _ | .equal (.literal _) (.attr a), _ =>
      obtain ⟨x, relation, sides⟩ := side a (by simp [attributes])
      simp only [QualifiedBy, attributes, List.append_nil, List.nil_append, List.mem_singleton,
        forall_eq, relation, Option.some.injEq, exists_eq_right'] at notLeft notRight
      exact absurd sides (not_or.mpr ⟨notLeft, notRight⟩)
  | .equal (.attr ⟨rx, a⟩) (.attr ⟨ry, b⟩), _ =>
      obtain ⟨x, rfl, sides⟩ := side ⟨rx, a⟩ (by simp [attributes])
      obtain ⟨y, rfl, sides'⟩ := side ⟨ry, b⟩ (by simp [attributes])
      refine ⟨x, a, y, b, rfl, ?_⟩
      simp only [QualifiedBy, attributes, List.cons_append, List.nil_append, List.mem_cons,
        List.not_mem_nil, or_false, forall_eq_or_imp, forall_eq, Option.some.injEq,
        exists_eq_right'] at notLeft notRight
      tauto

end Condition

section Resolving

variable {scope : List LeafSource} {d : Dictionary}

theorem ofAttributes_of_qualified {attributes : List Attribute}
    (h : ∀ a ∈ attributes, ∃ label ∈ scope.map (·.label), a.relation = some label) :
    Resolution.ofAttributes scope d attributes =
      .resolved (attributes.filterMap (·.relation)) := by
  induction attributes with
  | nil => rfl
  | cons a rest ih =>
      obtain ⟨label, member, relation⟩ := h a (by simp)
      obtain ⟨leaf, inside, rfl⟩ := List.mem_map.mp member
      have found : a.resolve scope d = .resolved [leaf.label] := by
        have any : scope.any (·.label == leaf.label) = true :=
          List.any_eq_true.mpr ⟨leaf, inside, beq_self_eq_true _⟩
        simp [Attribute.resolve, relation, any]
      have others := ih fun b hb => h b (List.mem_cons_of_mem _ hb)
      simp only [Resolution.ofAttributes, found, others]
      rw [List.filterMap_cons_some relation, List.singleton_append]

/-- A condition whose attributes stand under labels in scope is resolved to those labels. -/
theorem Condition.resolve_of_qualifiedBy {c : Condition}
    (h : c.QualifiedBy (scope.map (·.label))) :
    ∃ labels, c.resolve scope d = .resolved labels ∧ c.MentionsExactly labels := by
  refine ⟨ascendingSet (c.attributes.filterMap (·.relation)), ?_, fun label => ?_⟩
  · rw [Condition.resolve, ofAttributes_of_qualified h]
  · rw [mem_ascendingSet, List.mem_filterMap]

end Resolving

namespace Skeleton

/-- The labels of the leaves. -/
def labels (s : Skeleton) : List String :=
  s.leaves.map (·.label)

/-- The number of operators. -/
def size : Skeleton → Nat
  | .scan _ => 1
  | .project _ input | .rename _ input => input.size + 1
  | .pair left right => left.size + right.size + 1

/-- Each pairing is linked by one of some conditions. -/
def Linked (atoms : Multiset Condition) : Skeleton → Prop
  | .scan _ => True
  | .project _ input | .rename _ input => input.Linked atoms
  | .pair left right => (∃ atom ∈ atoms, atom.Links left.labels right.labels) ∧
      left.Linked atoms ∧ right.Linked atoms

/-- The two sides of each pairing flow under different labels. -/
def LabelsApart : Skeleton → Prop
  | .scan _ => True
  | .project _ input | .rename _ input => input.LabelsApart
  | .pair left right => left.label ≠ right.label ∧ left.LabelsApart ∧ right.LabelsApart

/-- Where one relation is read there is no pairing. -/
theorem unpaired_of_base? {s : Skeleton} (h : s.base?.isSome = true) :
    (∀ atoms, s.Linked atoms) ∧ s.LabelsApart := by
  induction s with
  | scan _ => exact ⟨fun _ => trivial, trivial⟩
  | project _ _ ih | rename _ _ ih => exact ih h
  | pair _ _ _ _ => cases h

end Skeleton

namespace Plan

@[simp] theorem labels_skeleton (p : Plan) : p.skeleton.labels = p.labels := by
  rw [Skeleton.labels, leaves_skeleton, labels]

theorem size_skeleton_le (p : Plan) : p.skeleton.size ≤ p.size := by
  induction p with
  | scan _ => exact le_rfl
  | select _ _ ih => exact ih.trans (Nat.le_succ _)
  | project _ _ ih | rename _ _ ih => exact Nat.succ_le_succ ih
  | cross _ _ ihl ihr | join _ _ _ ihl ihr => exact Nat.succ_le_succ (Nat.add_le_add ihl ihr)

theorem everywhere_labelsApartAt {p : Plan} (h : p.skeleton.LabelsApart) :
    p.Everywhere LabelsApartAt := by
  induction p with
  | scan _ => trivial
  | select _ _ ih | project _ _ ih | rename _ _ ih => exact ⟨trivial, ih h⟩
  | cross _ _ ihl ihr => exact ⟨trivial, ihl h.2.1, ihr h.2.2⟩
  | join left c right ihl ihr =>
      refine ⟨?_, ihl h.2.1, ihr h.2.2⟩
      have apart := h.1
      rwa [label_skeleton, label_skeleton] at apart

/-- The operators of queries that read relations, rename them one by one, pair records and select
among them by equalities, every attribute under a label of the input. -/
def FromWhereAt : Plan → Prop
  | .scan _ | .cross .. => True
  | .select c input => c.IsPredicate ∧ c.QualifiedBy input.labels
  | .rename _ input => input.base?.isSome = true
  | .project .. | .join .. => False

/-- A cross product is linked by one of some conditions. -/
def LinkedAt (atoms : Multiset Condition) : Plan → Prop
  | .cross left right => ∃ atom ∈ atoms, atom.Links left.labels right.labels
  | _ => True

/-- Each cross product is linked by a conjunct of a condition anywhere in the plan. -/
def CrossesLinked (p : Plan) : Prop :=
  p.Everywhere (LinkedAt p.conjuncts)

instance : DecidablePred FromWhereAt
  | .scan _ | .cross .. => inferInstanceAs (Decidable True)
  | .select c input => inferInstanceAs (Decidable (c.IsPredicate ∧ c.QualifiedBy input.labels))
  | .rename _ input => inferInstanceAs (Decidable (input.base?.isSome = true))
  | .project .. | .join .. => inferInstanceAs (Decidable False)

instance (atoms : Multiset Condition) : DecidablePred (LinkedAt atoms)
  | .cross left right =>
    Multiset.decidableExistsMultiset (p := Condition.Links left.labels right.labels)
  | .scan _ | .select .. | .project .. | .rename .. | .join .. => inferInstanceAs (Decidable True)

instance (p : Plan) : Decidable p.CrossesLinked :=
  inferInstanceAs (Decidable (p.Everywhere _))

/-- A selection above a cross product equates attributes of its two sides. -/
def SettledAt : Plan → Prop
  | .scan _ | .cross .. => True
  | .select c input => c.QualifiedBy input.labels ∧
      ∀ left right, input.skeleton = .pair left right → c.Links left.labels right.labels
  | .rename _ input => input.base?.isSome = true
  | .project .. | .join .. => False

variable {d : Dictionary} {p : Plan} {c : Condition} {chain : List Condition}

/-- A query has no joins, so its pairings are its cross products. -/
theorem linked_skeleton_iff (query : p.Everywhere FromWhereAt) (atoms : Multiset Condition) :
    p.skeleton.Linked atoms ↔ p.Everywhere (LinkedAt atoms) := by
  induction p with
  | scan _ => exact Iff.rfl
  | select _ _ ih | rename _ _ ih =>
      exact (ih query.2).trans (iff_of_eq (true_and _)).symm
  | cross _ _ ihl ihr =>
      simp only [skeleton, Skeleton.Linked, Everywhere, LinkedAt, labels_skeleton,
        ihl query.2.1, ihr query.2.2]
  | project _ _ _ => exact query.1.elim
  | join _ _ _ _ _ => exact query.1.elim

theorem labels_of_base? (h : p.base?.isSome = true) : ∃ label, p.labels = [label] := by
  obtain ⟨relation, base⟩ := Option.isSome_iff_exists.mp h
  obtain ⟨label, leaves⟩ := leaves_of_base? base
  exact ⟨label, by rw [labels, leaves]; rfl⟩

theorem labelsApart_of_nodup (query : p.Everywhere FromWhereAt) (distinct : p.labels.Nodup)
    (commaless : ∀ label ∈ p.labels, ',' ∉ label.toList) : p.skeleton.LabelsApart := by
  induction p with
  | scan _ => trivial
  | select _ _ ih => exact ih query.2 distinct commaless
  | rename _ input _ =>
      have based : input.skeleton.base?.isSome = true := by rw [base?_skeleton]; exact query.1
      exact (Skeleton.unpaired_of_base? based).2
  | cross left right ihl ihr =>
      rw [labels_cross] at distinct commaless
      have inLeft : ∀ label ∈ left.labels, ',' ∉ label.toList :=
        fun label h => commaless label (List.mem_append_left _ h)
      have inRight : ∀ label ∈ right.labels, ',' ∉ label.toList :=
        fun label h => commaless label (List.mem_append_right _ h)
      refine ⟨?_, ihl query.2.1 distinct.of_append_left inLeft,
        ihr query.2.2 distinct.of_append_right inRight⟩
      rw [label_skeleton, label_skeleton]
      exact label_ne_of_disjoint (List.disjoint_of_nodup_append distinct) inLeft inRight
  | project _ _ _ => exact query.1.elim
  | join _ _ _ _ _ => exact query.1.elim

@[simp] theorem skeleton_stack (chain : List Condition) (p : Plan) :
    (stack chain p).skeleton = p.skeleton := by
  induction chain with
  | nil => rfl
  | cons _ _ ih => exact ih

@[simp] theorem labels_stack (chain : List Condition) (p : Plan) :
    (stack chain p).labels = p.labels := by
  rw [labels, leaves_stack, labels]

theorem mem_conjuncts_stack {atom : Condition} : atom ∈ (stack chain p).conjuncts ↔
    (∃ c ∈ chain, atom ∈ c.conjuncts) ∨ atom ∈ p.conjuncts := by
  induction chain with
  | nil => simp
  | cons c _ ih => simp [conjuncts, ih, or_assoc]

theorem links_of_settledAt {left right : Plan} (h : (select c (cross left right)).SettledAt) :
    c.Links left.labels right.labels := by
  simpa using h.2 _ _ rfl

theorem settledAt_select_stack :
    (select c (stack chain p)).SettledAt ↔ (select c p).SettledAt := by
  simp [SettledAt]

theorem settled_of_stack (settled : (stack chain p).Everywhere SettledAt) :
    p.Everywhere SettledAt ∧ ∀ c ∈ chain, (select c p).SettledAt := by
  induction chain with
  | nil => exact ⟨settled, by simp⟩
  | cons c rest ih =>
      obtain ⟨below, others⟩ := ih settled.2
      refine ⟨below, fun b hb => ?_⟩
      rcases List.mem_cons.mp hb with rfl | hb
      · exact settledAt_select_stack.mp settled.1
      · exact others b hb

theorem settled_stack (settled : p.Everywhere SettledAt)
    (above : ∀ c ∈ chain, (select c p).SettledAt) : (stack chain p).Everywhere SettledAt := by
  induction chain with
  | nil => exact settled
  | cons c rest ih =>
      exact ⟨settledAt_select_stack.mpr (above c (by simp)), ih fun b hb => above b (by simp [hb])⟩

/-- Inserting a selection by an equality between operands leaves a plan settled. -/
theorem settled_insertSelection (settled : p.Everywhere SettledAt) (atomic : c.isAtomic = true)
    (qualified : c.QualifiedBy p.labels) {labels : List String}
    (mentions : c.MentionsExactly labels) :
    (p.insertSelection c labels).Everywhere SettledAt := by
  have covered {q : Plan} : q.covers labels = true ↔ c.QualifiedBy q.labels := by
    rw [covers_iff]
    constructor
    · intro covers a ha
      obtain ⟨label, -, relation⟩ := qualified a ha
      exact ⟨label, covers label ((mentions label).mpr ⟨a, ha, relation⟩), relation⟩
    · exact fun own label member => own.mem ((mentions label).mp member)
  induction p with
  | scan _ => exact ⟨⟨qualified, fun _ _ => nofun⟩, settled⟩
  | rename _ _ _ => exact ⟨⟨qualified, fun _ _ => nofun⟩, settled⟩
  | select b input ih =>
      have moved := rearranges_insertSelection c labels input
      refine ⟨⟨?_, ?_⟩, ih settled.2 qualified⟩
      · rw [moved.labels]
        exact settled.1.1
      · rw [moved.skeleton]
        exact settled.1.2
  | cross left right ihl ihr =>
      simp only [insertSelection]
      split
      · rename_i covers
        exact ⟨trivial, ihl settled.2.1 (covered.mp covers), settled.2.2⟩
      rename_i notLeft
      split
      · rename_i covers
        exact ⟨trivial, settled.2.1, ihr settled.2.2 (covered.mp covers)⟩
      rename_i notRight
      refine ⟨⟨qualified, ?_⟩, settled⟩
      rintro _ _ ⟨⟩
      rw [labels_skeleton, labels_skeleton]
      rw [labels_cross] at qualified
      exact Condition.links_of_not_qualifiedBy atomic qualified (covered.not.mp notLeft)
        (covered.not.mp notRight)
  | project _ _ _ => exact settled.1.elim
  | join _ _ _ _ _ => exact settled.1.elim

theorem settled_placeSelection (settled : p.Everywhere SettledAt) (atomic : c.isAtomic = true)
    (qualified : c.QualifiedBy p.labels) {scope : List LeafSource}
    (inScope : scope.map (·.label) = p.labels) :
    (placeSelection scope d p c).Everywhere SettledAt := by
  rw [← inScope] at qualified
  obtain ⟨labels, resolved, mentions⟩ := Condition.resolve_of_qualifiedBy (d := d) qualified
  rw [inScope] at qualified
  rw [placeSelection, resolved]
  exact settled_insertSelection settled atomic qualified mentions

theorem settled_foldl_placeSelection (settled : p.Everywhere SettledAt)
    (atoms : ∀ c ∈ chain, c.isAtomic = true ∧ c.QualifiedBy p.labels) {scope : List LeafSource}
    (inScope : scope.map (·.label) = p.labels) :
    (chain.foldl (placeSelection scope d) p).Everywhere SettledAt := by
  induction chain generalizing p with
  | nil => exact settled
  | cons c rest ih =>
      obtain ⟨atomic, qualified⟩ := atoms c (by simp)
      have moved : (placeSelection scope d p c).labels = p.labels :=
        (rearranges_placeSelection scope d c p).labels
      refine ih (settled_placeSelection settled atomic qualified inScope) ?_ ?_
      · rw [moved]
        exact fun b hb => atoms b (by simp [hb])
      · rw [moved, inScope]

theorem sinkFrom_stack (d : Dictionary) (chain conditions : List Condition) (p : Plan) :
    (stack conditions p).sinkFrom d chain = p.sinkFrom d (chain ++ conditions) := by
  induction conditions generalizing chain with
  | nil => rw [stack_nil, List.append_nil]
  | cons c rest ih => rw [stack_cons, sinkFrom, ih, List.append_assoc, List.singleton_append]

theorem rearranges_sunk (d : Dictionary) (p : Plan) :
    Rearranges p (p.splitSelections.sinkFrom d []) :=
  (Rearranges.moves.splitSelections p).trans (rearranges_sinkFrom d [] _)

/-- Once its selections are split and have sunk, a query is settled. -/
theorem settled_sinkFrom (query : p.Everywhere FromWhereAt)
    (atoms : ∀ c ∈ chain, c.isAtomic = true ∧ c.QualifiedBy p.labels) :
    (p.splitSelections.sinkFrom d chain).Everywhere SettledAt := by
  induction p generalizing chain with
  | scan _ => exact settled_stack trivial fun c hc => ⟨(atoms c hc).2, fun _ _ => nofun⟩
  | select c input ih =>
      rw [splitSelections, sinkFrom_stack]
      refine ih query.2 fun b hb => ?_
      rcases List.mem_append.mp hb with hb | hb
      · exact atoms b hb
      · exact ⟨query.1.1 b hb, query.1.2.conjunct hb⟩
  | rename newLabel input ih =>
      have moved : (input.splitSelections.sinkFrom d []).base? = input.base? :=
        (rearranges_sunk d input).keeps.base
      refine settled_stack ⟨?_, ih query.2 (by simp)⟩ fun c hc => ⟨?_, fun _ _ => nofun⟩
      · rw [SettledAt, moved]
        exact query.1
      · exact (atoms c hc).2
  | cross left right ihl ihr =>
      have sunk := (rearranges_sunk d left).cross (rearranges_sunk d right)
      have split := (Rearranges.moves.splitSelections left).cross
        (Rearranges.moves.splitSelections right)
      have sides : (cross (left.splitSelections.sinkFrom d [])
          (right.splitSelections.sinkFrom d [])).Everywhere SettledAt :=
        ⟨trivial, ihl query.2.1 (by simp), ihr query.2.2 (by simp)⟩
      refine settled_foldl_placeSelection sides ?_ (split.labels.trans sunk.labels.symm)
      rw [sunk.labels]
      exact atoms
  | project _ _ _ => exact query.1.elim
  | join _ _ _ _ _ => exact query.1.elim

/-- What links two lists of labels in a settled plan mentions a label of the plan from each. -/
theorem exists_mem_labels_of_links (settled : p.Everywhere SettledAt) {atom : Condition}
    (member : atom ∈ p.conjuncts) {left right : List String} (links : atom.Links left right)
    (apart : left.Disjoint right) :
    (∃ x ∈ left, x ∈ p.labels) ∧ ∃ y ∈ right, y ∈ p.labels := by
  induction p with
  | scan _ => simp [conjuncts] at member
  | select c input ih =>
      rcases Multiset.mem_add.mp member with member | member
      · have own := settled.1.1.conjunct member
        obtain ⟨⟨x, hx, mentioned⟩, y, hy, mentioned'⟩ := links.exists_mem
        exact ⟨⟨x, hx, own.mem mentioned⟩, y, hy, own.mem mentioned'⟩
      · exact ih settled.2 member
  | rename newLabel input ih =>
      -- All labels below the renaming are one, which cannot be in both lists.
      obtain ⟨label, single⟩ := labels_of_base? settled.1
      obtain ⟨⟨x, hx, inside⟩, y, hy, inside'⟩ := ih settled.2 member
      rw [single, List.mem_singleton] at inside inside'
      exact absurd (inside'.trans inside.symm ▸ hy) (apart hx)
  | cross l r ihl ihr =>
      rw [labels_cross]
      rcases Multiset.mem_add.mp member with member | member
      · obtain ⟨⟨x, hx, inside⟩, y, hy, inside'⟩ := ihl settled.2.1 member
        exact ⟨⟨x, hx, List.mem_append_left _ inside⟩, y, hy, List.mem_append_left _ inside'⟩
      · obtain ⟨⟨x, hx, inside⟩, y, hy, inside'⟩ := ihr settled.2.2 member
        exact ⟨⟨x, hx, List.mem_append_right _ inside⟩, y, hy, List.mem_append_right _ inside'⟩
  | project _ _ _ => exact settled.1.elim
  | join _ _ _ _ _ => exact settled.1.elim

/-- Conditions that link no two parts of a plan's labels do not matter. -/
theorem linked_skeleton_congr (settled : p.Everywhere SettledAt) {atoms fewer : Multiset Condition}
    (fewer_subset : fewer ⊆ atoms)
    (h : ∀ atom ∈ atoms, ∀ left right, (left ++ right).Sublist p.labels →
      atom.Links left right → atom ∈ fewer) :
    p.skeleton.Linked atoms ↔ p.skeleton.Linked fewer := by
  induction p with
  | scan _ => exact Iff.rfl
  | select _ _ ih => exact ih settled.2 h
  | rename _ input _ =>
      have based : input.skeleton.base?.isSome = true := by rw [base?_skeleton]; exact settled.1
      have free := (Skeleton.unpaired_of_base? based).1
      exact iff_of_true (free atoms) (free fewer)
  | cross left right ihl ihr =>
      rw [labels_cross] at h
      have inLeft := ihl settled.2.1 fun atom member l r sub =>
        h atom member l r (sub.trans (List.sublist_append_left ..))
      have inRight := ihr settled.2.2 fun atom member l r sub =>
        h atom member l r (sub.trans (List.sublist_append_right ..))
      simp only [skeleton, Skeleton.Linked, labels_skeleton, inLeft, inRight]
      refine and_congr_left fun _ => ⟨?_, ?_⟩
      · rintro ⟨atom, member, links⟩
        exact ⟨atom, h atom member _ _ (List.Sublist.refl _) links, links⟩
      · rintro ⟨atom, member, links⟩
        exact ⟨atom, fewer_subset member, links⟩
  | project _ _ _ => exact settled.1.elim
  | join _ _ _ _ _ => exact settled.1.elim

/-- Selections above a cross product that all link its sides make it a join. -/
theorem introduceJoins_selectAll_cross {left right : Plan} (nonempty : chain ≠ [])
    (links : ∀ c ∈ chain, c.Links left.labels right.labels) :
    ∃ b, (selectAll chain (.cross left right)).introduceJoins =
      .join left.introduceJoins b right.introduceJoins := by
  obtain ⟨c, rest, rfl⟩ := List.exists_cons_of_ne_nil nonempty
  have same : (rest.foldl .both c).conjuncts = (c :: rest).flatMap Condition.conjuncts := by
    rw [Condition.conjuncts_foldl_both, List.flatMap_cons]
  have equi : isEquiJoin (rest.foldl .both c) left.introduceJoins right.introduceJoins = true := by
    rw [isEquiJoin, same, (Rearranges.moves.introduceJoins left).labels,
      (Rearranges.moves.introduceJoins right).labels, List.all_eq_true]
    intro atom member
    obtain ⟨b, hb, inside⟩ := List.mem_flatMap.mp member
    rw [(links b hb).conjuncts_eq, List.mem_singleton] at inside
    exact Condition.linksLabels_iff.mpr (inside ▸ links b hb)
  exact ⟨rest.foldl .both c, by
    simp only [selectAll, Condition.conjunction, introduceJoins, selectOrJoin, equi, if_true]⟩

/-- One side of a pairing is linked by its own conditions if it is linked at all: those of the other
side and those that mention a label of the other side link nothing in it. -/
theorem linked_side_iff {side other : Plan} {atoms : Multiset Condition}
    (settled : side.Everywhere SettledAt) (settled' : other.Everywhere SettledAt)
    (apart : side.labels.Disjoint other.labels) (distinct : side.labels.Nodup)
    (own : side.conjuncts ⊆ atoms)
    (origin : ∀ atom ∈ atoms, atom ∈ side.conjuncts ∨ atom ∈ other.conjuncts ∨
      ∃ y ∈ other.labels, ∃ a ∈ atom.attributes, a.relation = some y) :
    side.skeleton.Linked atoms ↔ side.skeleton.Linked side.conjuncts := by
  refine linked_skeleton_congr settled own fun atom member left right sub links => ?_
  rcases origin atom member with inside | outside | ⟨y, hy, mentioned⟩
  · exact inside
  · have disjoint := List.disjoint_of_nodup_append (distinct.sublist sub)
    obtain ⟨⟨x, hx, hx'⟩, -⟩ := exists_mem_labels_of_links settled' outside links disjoint
    exact absurd hx' (apart (sub.subset (List.mem_append_left _ hx)))
  · exact absurd hy (apart (sub.subset (links.qualifiedBy.mem mentioned)))

/-- Below a chain of selections a cross product is linked if and only if the chain is not empty, and
what is in its sides is linked by their own conditions. -/
theorem linked_cross_iff {left right : Plan} {chain : List Condition}
    (settled : (stack chain (cross left right)).Everywhere SettledAt)
    (distinct : (cross left right).labels.Nodup) :
    (cross left right).skeleton.Linked (stack chain (cross left right)).conjuncts ↔
      chain ≠ [] ∧ left.skeleton.Linked left.conjuncts ∧
        right.skeleton.Linked right.conjuncts := by
  obtain ⟨⟨-, hl, hr⟩, above⟩ := settled_of_stack settled
  rw [labels_cross] at distinct
  have apart := List.disjoint_of_nodup_append distinct
  have links : ∀ c ∈ chain, c.Links left.labels right.labels :=
    fun c hc => links_of_settledAt (above c hc)
  -- An atom comes from a side or from the chain, and then it mentions labels of both sides.
  have origin : ∀ atom ∈ (stack chain (cross left right)).conjuncts,
      atom ∈ left.conjuncts ∨ atom ∈ right.conjuncts ∨ atom ∈ chain := by
    intro atom member
    rcases mem_conjuncts_stack.mp member with ⟨c, hc, inside⟩ | member
    · rw [(links c hc).conjuncts_eq, List.mem_singleton] at inside
      exact .inr (.inr (inside ▸ hc))
    · exact (Multiset.mem_add.mp member).imp_right .inl
  have inLeft : left.skeleton.Linked (stack chain (cross left right)).conjuncts ↔
      left.skeleton.Linked left.conjuncts := by
    refine linked_side_iff hl hr apart distinct.of_append_left ?_ fun atom member => ?_
    · exact fun atom member => mem_conjuncts_stack.mpr (.inr (Multiset.mem_add.mpr (.inl member)))
    · exact (origin atom member).imp_right (.imp_right fun h => (links atom h).exists_mem.2)
  have inRight : right.skeleton.Linked (stack chain (cross left right)).conjuncts ↔
      right.skeleton.Linked right.conjuncts := by
    refine linked_side_iff hr hl apart.symm distinct.of_append_right ?_ fun atom member => ?_
    · exact fun atom member => mem_conjuncts_stack.mpr (.inr (Multiset.mem_add.mpr (.inr member)))
    · exact (or_left_comm.mp (origin atom member)).imp_right
        (.imp_right fun h => (links atom h).exists_mem.1)
  simp only [skeleton, Skeleton.Linked, labels_skeleton, inLeft, inRight]
  refine and_congr_left fun _ => ⟨?_, fun nonempty => ?_⟩
  · rintro ⟨atom, member, crossing⟩
    rcases origin atom member with inside | inside | hc
    · obtain ⟨-, y, hy, hy'⟩ := exists_mem_labels_of_links hl inside crossing apart
      exact absurd hy (apart hy')
    · obtain ⟨⟨x, hx, hx'⟩, -⟩ := exists_mem_labels_of_links hr inside crossing apart
      exact absurd hx' (apart hx)
    · exact List.ne_nil_of_mem hc
  · obtain ⟨c, hc⟩ := List.exists_mem_of_ne_nil chain nonempty
    exact ⟨c, mem_conjuncts_stack.mpr (.inl ⟨c, hc, by simp [(links c hc).conjuncts_eq]⟩),
      links c hc⟩

/-- No cross product is left in a settled plan once its selections are merged and joins are
introduced, if and only if its pairings are linked. -/
theorem hasCross_introduceJoins_iff (chain : List Condition)
    (settled : (stack chain p).Everywhere SettledAt) (distinct : p.labels.Nodup) :
    (p.mergeFrom chain).introduceJoins.hasCross = false ↔
      p.skeleton.Linked (stack chain p).conjuncts := by
  induction p generalizing chain with
  | scan relation =>
      refine iff_of_true ?_ trivial
      cases chain <;> rfl
  | select c input ih =>
      rw [stack_select] at settled ⊢
      exact ih (chain ++ [c]) settled distinct
  | rename newLabel input ih =>
      obtain ⟨⟨based, below⟩, -⟩ := settled_of_stack settled
      have free : ∀ atoms, input.skeleton.Linked atoms := by
        rw [SettledAt, ← base?_skeleton] at based
        exact (Skeleton.unpaired_of_base? based).1
      obtain ⟨label, single⟩ := labels_of_base? based
      have inner := (ih [] below (by simp [single])).mpr (free _)
      refine iff_of_true ?_ (free _)
      cases chain <;> exact inner
  | cross left right ihl ihr =>
      obtain ⟨⟨-, hl, hr⟩, above⟩ := settled_of_stack settled
      rw [linked_cross_iff settled distinct]
      rw [labels_cross] at distinct
      have inLeft : _ ↔ left.skeleton.Linked left.conjuncts :=
        ihl [] hl distinct.of_append_left
      have inRight : _ ↔ right.skeleton.Linked right.conjuncts :=
        ihr [] hr distinct.of_append_right
      rw [← inLeft, ← inRight]
      by_cases empty : chain = []
      · subst empty
        simp [mergeFrom, selectAll, Condition.conjunction, introduceJoins, hasCross]
      · have links : ∀ c ∈ chain,
            c.Links (left.mergeFrom []).labels (right.mergeFrom []).labels := by
          intro c hc
          rw [(Rearranges.moves.mergeFrom [] left).labels,
            (Rearranges.moves.mergeFrom [] right).labels]
          exact links_of_settledAt (above c hc)
        obtain ⟨b, joined⟩ := introduceJoins_selectAll_cross empty links
        simp [mergeFrom, joined, hasCross, empty]
  | project _ _ _ => exact (settled_of_stack settled).1.1.elim
  | join _ _ _ _ _ => exact (settled_of_stack settled).1.1.elim

theorem size_selectAll_le (chain : List Condition) (p : Plan) :
    (selectAll chain p).size ≤ p.size + 1 := by
  cases chain with
  | nil => exact Nat.le_succ _
  | cons _ _ => exact le_rfl

/-- A plan whose selections are merged has at most one for every other operator. -/
theorem size_mergeFrom_le (chain : List Condition) (p : Plan) :
    (p.mergeFrom chain).size ≤ 2 * p.skeleton.size := by
  induction p generalizing chain with
  | scan _ => exact size_selectAll_le ..
  | select c _ ih => exact ih (chain ++ [c])
  | project _ _ ih | rename _ _ ih =>
      refine (size_selectAll_le ..).trans ?_
      have below := ih []
      simp only [size, skeleton, Skeleton.size]
      omega
  | cross _ _ ihl ihr | join _ _ _ ihl ihr =>
      refine (size_selectAll_le ..).trans ?_
      have inLeft := ihl []
      have inRight := ihr []
      simp only [size, skeleton, Skeleton.size]
      omega

theorem size_selectOrJoin_le (c : Condition) (p : Plan) :
    (selectOrJoin c p).size ≤ p.size + 1 := by
  cases p with
  | scan _ | select _ _ | project _ _ | rename _ _ => exact le_rfl
  | cross _ _ | join _ _ _ =>
      simp only [selectOrJoin]
      split
      · exact Nat.le_succ _
      · exact le_rfl

theorem size_introduceJoins_le (p : Plan) : p.introduceJoins.size ≤ p.size := by
  induction p with
  | scan _ => exact le_rfl
  | select _ _ ih => exact (size_selectOrJoin_le ..).trans (Nat.succ_le_succ ih)
  | project _ _ ih | rename _ _ ih => exact Nat.succ_le_succ ih
  | cross _ _ ihl ihr | join _ _ _ ihl ihr => exact Nat.succ_le_succ (Nat.add_le_add ihl ihr)

/-- Optimising at most doubles the number of operators. -/
theorem size_optimize_le (d : Dictionary) (p : Plan) : (p.optimize d).size ≤ 2 * p.size := by
  have moved : (p.splitSelections.sinkSelections d).skeleton = p.skeleton :=
    (rearranges_sunk d p).skeleton
  calc (p.optimize d).size
      ≤ ((p.splitSelections.sinkSelections d).mergeSelections).size := size_introduceJoins_le _
    _ ≤ 2 * (p.splitSelections.sinkSelections d).skeleton.size := size_mergeFrom_le [] _
    _ = 2 * p.skeleton.size := by rw [moved]
    _ ≤ 2 * p.size := Nat.mul_le_mul_left 2 (size_skeleton_le p)

/-- An optimised query has no cross product if and only if all those of the query are linked. -/
theorem hasCross_optimize_iff (query : p.Everywhere FromWhereAt) (distinct : p.labels.Nodup) :
    (p.optimize d).hasCross = false ↔ p.CrossesLinked := by
  have sunk := rearranges_sunk d p
  have settled : (p.splitSelections.sinkFrom d []).Everywhere SettledAt :=
    settled_sinkFrom query (by simp)
  have distinct' : (p.splitSelections.sinkFrom d []).labels.Nodup := sunk.labels ▸ distinct
  calc (p.optimize d).hasCross = false
      ↔ (p.splitSelections.sinkFrom d []).skeleton.Linked
          (p.splitSelections.sinkFrom d []).conjuncts :=
        hasCross_introduceJoins_iff [] settled distinct'
    _ ↔ p.skeleton.Linked p.conjuncts := by rw [sunk.skeleton, sunk.conjuncts]
    _ ↔ p.CrossesLinked := linked_skeleton_iff query _

/-- An optimised query is refused because of a cross product exactly if one of those of the query is
not linked, and is compiled otherwise. No plan in memory has so many operators that its stages could
not be numbered by words. -/
theorem compile_optimize_iff (d : Dictionary) (p : Plan) (query : p.Everywhere FromWhereAt)
    (distinct : p.labels.Nodup) (commaless : ∀ label ∈ p.labels, ',' ∉ label.toList) :
    ((p.optimize d).compile = .error .crossProduct ↔ ¬ p.CrossesLinked) ∧
      (p.size < 2 ^ 63 → ((∃ g, (p.optimize d).compile = .ok g) ↔ p.CrossesLinked)) := by
  have cross := hasCross_optimize_iff (d := d) query distinct
  refine ⟨?_, fun small => ⟨?_, fun linked => ?_⟩⟩
  · rw [← cross, Bool.not_eq_false]
    exact compileFrom_eq_crossProduct_iff
  · rintro ⟨g, compiled⟩
    rw [← cross, Bool.eq_false_iff]
    intro remains
    rw [compile, compileFrom_of_hasCross remains] at compiled
    cases compiled
  · have skeleton : (p.optimize d).skeleton = p.skeleton := (rearranges_optimize d p).skeleton
    have apart : (p.optimize d).Everywhere LabelsApartAt := by
      apply everywhere_labelsApartAt
      rw [skeleton]
      exact labelsApart_of_nodup query distinct commaless
    have fits : StepId.root.number.toNat + (p.optimize d).size ≤ 2 ^ 64 := by
      have size := size_optimize_le d p
      have root : StepId.root.number.toNat = 1 := rfl
      omega
    exact exists_compileFrom fits (cross.mpr linked) apart

/-- The outermost selection links the outermost cross product and, with another conjunct, the one on
its left; the third one is linked by a selection of its own. -/
theorem compile_optimize_serves :
    let same := fun x y name =>
      Condition.equal (.attr (.qualified x name)) (.attr (.qualified y name))
    let young := Condition.equal (.attr (.qualified "X" "age")) (.literal (.int 16))
    let p := Plan.select (.both (same "Y" "Eats" "pizza") (.both young (same "X" "Eats" "name")))
      (.cross (.cross (.rename "X" (.scan "Person")) (.scan "Eats"))
        (.select (same "Z" "Y" "pizza")
          (.cross (.rename "Y" (.scan "Serves")) (.rename "Z" (.scan "Serves")))))
    p.Everywhere FromWhereAt ∧ p.labels.Nodup ∧ (∀ label ∈ p.labels, ',' ∉ label.toList) ∧
      p.size < 2 ^ 63 ∧ p.CrossesLinked ∧ ∃ g, (p.optimize ⟨Table.empty⟩).compile = .ok g := by
  intro same young p
  have query : p.Everywhere FromWhereAt := by decide
  have distinct : p.labels.Nodup := by decide
  have commaless : ∀ label ∈ p.labels, ',' ∉ label.toList := by decide
  have small : p.size < 2 ^ 63 := by decide
  have linked : p.CrossesLinked := by decide
  exact ⟨query, distinct, commaless, small, linked,
    ((compile_optimize_iff _ p query distinct commaless).2 small).mpr linked⟩

end Plan

end StagedAlgebra
