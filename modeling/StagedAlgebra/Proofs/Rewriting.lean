import StagedAlgebra.Proofs.ConditionMoves
import StagedAlgebra.Proofs.Sides

/-!
# Laws of rewriting plans

`Rewrites d p q` says that wherever `p` is regular, `q` is regular as well, looks the same from
outside (label, leaves, base relation and keys), and has the same records in the same order over
every database that conforms to the dictionary. It is reflexive and transitive and passes through
every operator, so a rewriting of plans is justified by the few laws at the end: selections by a
conjunction are split and joined, selections change places, a selection moves into the side of a
cross product that it reads, and a selection above a pairing becomes part of a join.

## Implementation notes

The relation is not symmetric. A selection inside one side of a cross product may use a name that
is found there only because the records flow under that side's own label.
-/

namespace StagedAlgebra.Plan

/-- Two plans have the same records and look the same from outside. -/
structure SameMeaning (d : Dictionary) (p q : Plan) : Prop where
  /-- The records flow under one label. -/
  label : q.label = p.label
  /-- Attributes can belong to the same leaves. -/
  leaves : q.leaves = p.leaves
  /-- The same relation is read, if it is one. -/
  base : q.base? = p.base?
  /-- The records have the same keys. -/
  heading : q.heading d = p.heading d
  /-- The records are the same, in the same order. -/
  evaluate : ∀ db : Database, db.ConformsTo d → q.evaluate db = p.evaluate db

/-- A regular plan may be replaced by another one. -/
def Rewrites (d : Dictionary) (p q : Plan) : Prop :=
  p.Regular d → q.Regular d ∧ SameMeaning d p q

variable {d : Dictionary} {p q r left right left' right' : Plan} {b c : Condition}

namespace SameMeaning

theorem header (h : SameMeaning d p q) : q.header d = p.header d := by
  rw [Plan.header, Plan.header, h.label, h.heading]

theorem labels (h : SameMeaning d p q) : q.labels = p.labels := by
  rw [Plan.labels, Plan.labels, h.leaves]

theorem finds (h : SameMeaning d p q) (a : Attribute) : q.Finds d a ↔ p.Finds d a := by
  rw [Finds, Finds, h.header]

end SameMeaning

namespace Rewrites

theorem refl (d : Dictionary) (p : Plan) : Rewrites d p p :=
  fun h => ⟨h, rfl, rfl, rfl, rfl, fun _ _ => rfl⟩

theorem trans (h : Rewrites d p q) (h' : Rewrites d q r) : Rewrites d p r := by
  intro hp
  obtain ⟨hq, hpq⟩ := h hp
  obtain ⟨hr, hqr⟩ := h' hq
  refine ⟨hr, hqr.label.trans hpq.label, hqr.leaves.trans hpq.leaves, hqr.base.trans hpq.base,
    hqr.heading.trans hpq.heading, ?_⟩
  intro db hdb
  exact (hqr.evaluate db hdb).trans (hpq.evaluate db hdb)

theorem select (h : Rewrites d p q) (c : Condition) :
    Rewrites d (.select c p) (.select c q) := by
  rintro ⟨⟨⟨hc, hfinds⟩, _⟩, hp⟩
  obtain ⟨hq, hpq⟩ := h hp
  refine ⟨⟨⟨⟨hc, fun a ha => (hpq.finds a).2 (hfinds a ha)⟩, trivial, trivial, trivial⟩, hq⟩,
    hpq.label, hpq.leaves, hpq.base, hpq.heading, ?_⟩
  intro db hdb
  simp only [Plan.evaluate, hpq.evaluate db hdb]

theorem project (h : Rewrites d p q) (attributes : List Attribute) :
    Rewrites d (.project attributes p) (.project attributes q) := by
  rintro ⟨⟨hfinds, _⟩, hp⟩
  obtain ⟨hq, hpq⟩ := h hp
  refine ⟨⟨⟨fun a ha => (hpq.finds a).2 (hfinds a ha), trivial, trivial, trivial⟩, hq⟩,
    hpq.label, hpq.leaves, hpq.base, ?_, ?_⟩
  · simp only [Plan.heading, hpq.label, hpq.heading]
  · intro db hdb
    simp only [Plan.evaluate, hpq.evaluate db hdb]

theorem rename (h : Rewrites d p q) (newLabel : String) :
    Rewrites d (.rename newLabel p) (.rename newLabel q) := by
  rintro ⟨⟨_, _, hbased, hplain⟩, hp⟩
  obtain ⟨hq, hpq⟩ := h hp
  refine ⟨⟨⟨trivial, trivial, ?_, hplain⟩, hq⟩, rfl, ?_, hpq.base, ?_, ?_⟩
  · simpa only [BasedAt, hpq.base] using hbased
  · simp only [Plan.leaves, hpq.base]
  · simp only [Plan.heading, hpq.heading]
  · intro db hdb
    simp only [Plan.evaluate, hpq.evaluate db hdb]

theorem cross (hl : Rewrites d left left') (hr : Rewrites d right right') :
    Rewrites d (.cross left right) (.cross left' right') := by
  rintro ⟨⟨_, hapart, _⟩, hleft, hright⟩
  obtain ⟨hleft', hlsame⟩ := hl hleft
  obtain ⟨hright', hrsame⟩ := hr hright
  refine ⟨⟨⟨trivial, ?_, trivial, trivial⟩, hleft', hright'⟩, ?_, ?_, rfl, ?_, ?_⟩
  · simpa only [ApartAt, hlsame.labels, hrsame.labels] using hapart
  · simp only [Plan.label, hlsame.label, hrsame.label]
  · simp only [Plan.leaves, hlsame.leaves, hrsame.leaves]
  · simp only [Plan.heading, hlsame.heading, hrsame.heading]
  · intro db hdb
    simp only [Plan.evaluate, hlsame.evaluate db hdb, hrsame.evaluate db hdb, hlsame.label,
      hrsame.label]

theorem join (hl : Rewrites d left left') (hr : Rewrites d right right') (c : Condition) :
    Rewrites d (.join left c right) (.join left' c right') := by
  rintro ⟨⟨⟨hc, hfinds⟩, hapart, _⟩, hleft, hright⟩
  obtain ⟨hleft', hlsame⟩ := hl hleft
  obtain ⟨hright', hrsame⟩ := hr hright
  refine ⟨⟨⟨⟨hc, fun a ha => ?_⟩, ?_, trivial, trivial⟩, hleft', hright'⟩, ?_, ?_, rfl, ?_, ?_⟩
  · simpa only [Finds, Plan.header, Plan.label, Plan.heading, hlsame.label, hlsame.heading,
      hrsame.label, hrsame.heading] using hfinds a ha
  · simpa only [ApartAt, hlsame.labels, hrsame.labels] using hapart
  · simp only [Plan.label, hlsame.label, hrsame.label]
  · simp only [Plan.leaves, hlsame.leaves, hrsame.leaves]
  · simp only [Plan.heading, hlsame.heading, hrsame.heading]
  · intro db hdb
    simp only [Plan.evaluate, hlsame.evaluate db hdb, hrsame.evaluate db hdb, hlsame.label,
      hrsame.label]

end Rewrites

theorem Regular.exists_evaluate (hd : d.RelationsPlain) {db : Database} (hdb : db.ConformsTo d)
    (h : p.Regular d) :
    ∃ records, p.evaluate db = .ok records ∧ ∀ r ∈ records, r.SameShape (p.header d) :=
  Plan.exists_evaluate hdb h.inScope (h.rekeys hd)

/-- What two selections in a row keep. -/
theorem evaluate_select_select {db : Database} {records : List Record}
    (heval : p.evaluate db = .ok records) (hshape : ∀ r ∈ records, r.SameShape (p.header d))
    (hb : (select b p).ScopedAt d) (hc : (select c p).ScopedAt d) :
    (select b (select c p)).evaluate db = .ok (records.filter fun r => b.holds r && c.holds r) := by
  have hinner := evaluate_select heval hshape hc
  have hkept : ∀ r ∈ records.filter c.holds, r.SameShape ((select c p).header d) := by
    intro r hr
    exact hshape r (List.mem_filter.1 hr).1
  rw [evaluate_select hinner hkept hb, List.filter_filter]

theorem scopedAt_select_both :
    (select (.both b c) p).ScopedAt d ↔ (select b p).ScopedAt d ∧ (select c p).ScopedAt d := by
  simp only [ScopedAt, Condition.isPredicate_both, Condition.attributes, List.mem_append, or_imp,
    forall_and]
  tauto

theorem regular_select_both :
    (select (.both b c) p).Regular d ↔ (select b (select c p)).Regular d := by
  constructor
  · rintro ⟨⟨hscope, _⟩, hp⟩
    obtain ⟨hb, hc⟩ := scopedAt_select_both.1 hscope
    exact ⟨⟨hb, trivial, trivial, trivial⟩, ⟨hc, trivial, trivial, trivial⟩, hp⟩
  · rintro ⟨⟨hb, _⟩, ⟨hc, _⟩, hp⟩
    exact ⟨⟨scopedAt_select_both.2 ⟨hb, hc⟩, trivial, trivial, trivial⟩, hp⟩

theorem evaluate_select_both (hd : d.RelationsPlain) (h : (select (.both b c) p).Regular d)
    {db : Database} (hdb : db.ConformsTo d) :
    (select b (select c p)).evaluate db = (select (.both b c) p).evaluate db := by
  obtain ⟨records, heval, hshape⟩ := Regular.exists_evaluate hd hdb h.2
  obtain ⟨hb, hc⟩ := scopedAt_select_both.1 h.1.1
  rw [evaluate_select_select heval hshape hb hc, evaluate_select heval hshape h.1.1]
  simp only [Condition.holds_both]

namespace Rewrites

/-- A selection by a conjunction is two selections. -/
theorem split_both (hd : d.RelationsPlain) (b c : Condition) (p : Plan) :
    Rewrites d (.select (.both b c) p) (.select b (.select c p)) := by
  intro h
  exact ⟨regular_select_both.1 h, rfl, rfl, rfl, rfl, fun db hdb => evaluate_select_both hd h hdb⟩

/-- Two selections are one by the conjunction. -/
theorem join_both (hd : d.RelationsPlain) (b c : Condition) (p : Plan) :
    Rewrites d (.select b (.select c p)) (.select (.both b c) p) := by
  intro h
  have hboth := regular_select_both.2 h
  exact ⟨hboth, rfl, rfl, rfl, rfl, fun db hdb => (evaluate_select_both hd hboth hdb).symm⟩

/-- Selections change places. -/
theorem swap (hd : d.RelationsPlain) (b c : Condition) (p : Plan) :
    Rewrites d (.select b (.select c p)) (.select c (.select b p)) := by
  rintro ⟨⟨hb, _⟩, ⟨hc, _⟩, hp⟩
  refine ⟨⟨⟨hc, trivial, trivial, trivial⟩, ⟨hb, trivial, trivial, trivial⟩, hp⟩,
    rfl, rfl, rfl, rfl, ?_⟩
  intro db hdb
  obtain ⟨records, heval, hshape⟩ := Regular.exists_evaluate hd hdb hp
  rw [evaluate_select_select heval hshape hc hb, evaluate_select_select heval hshape hb hc]
  simp only [Bool.and_comm]

end Rewrites

section Pairs

/-- The keys of the two sides of a regular pairing are apart, and none stands under its label. -/
theorem Regular.pair (hd : d.RelationsPlain) (hl : left.Regular d) (hr : right.Regular d)
    (hapart : left.labels.Disjoint right.labels) :
    (left.heading d).keys.Disjoint (right.heading d).keys ∧
      ∀ name, attributeKey (pairLabel left.label right.label) name ∉
        ((cross left right).heading d).keys := by
  have hleft := hl.plainName hd
  have hright := hr.plainName hd
  refine ⟨heading_disjoint hapart hleft hright, fun name => ?_⟩
  refine attributeKey_pairLabel_not_mem ?_ (dotless_label hleft) (dotless_label hright) name
  intro label hlabel
  rw [labels_cross, List.mem_append] at hlabel
  exact hlabel.elim (hleft label) (hright label)

theorem filter_allPairs_left {label : String} {ls rs : List Record}
    (h : ∀ l ∈ ls, ∀ r ∈ rs, c.holds ⟨label, l.tuple.union r.tuple⟩ = c.holds l) :
    (allPairs label ls rs).filter c.holds = allPairs label (ls.filter c.holds) rs := by
  induction ls with
  | nil => rfl
  | cons l rest ih =>
      have hrest := ih fun l' hl' => h l' (List.mem_cons_of_mem _ hl')
      have hhead : ∀ r ∈ rs, c.holds ⟨label, l.tuple.union r.tuple⟩ = c.holds l :=
        h l (List.mem_cons_self ..)
      simp only [allPairs, List.flatMap_cons, List.filter_append, List.filter_cons] at hrest ⊢
      rw [hrest]
      cases hl : c.holds l with
      | true =>
          have hall : (rs.map fun r => (⟨label, l.tuple.union r.tuple⟩ : Record)).filter c.holds =
              rs.map fun r => ⟨label, l.tuple.union r.tuple⟩ := by
            refine List.filter_eq_self.2 fun e he => ?_
            obtain ⟨r, hr, rfl⟩ := List.mem_map.1 he
            rw [hhead r hr, hl]
          simp [hall]
      | false =>
          have hnone : (rs.map fun r => (⟨label, l.tuple.union r.tuple⟩ : Record)).filter c.holds =
              [] := by
            refine List.filter_eq_nil_iff.2 fun e he => ?_
            obtain ⟨r, hr, rfl⟩ := List.mem_map.1 he
            rw [hhead r hr, hl]
            exact Bool.false_ne_true
          simp [hnone]

theorem filter_allPairs_right {label : String} {ls rs : List Record}
    (h : ∀ l ∈ ls, ∀ r ∈ rs, c.holds ⟨label, l.tuple.union r.tuple⟩ = c.holds r) :
    (allPairs label ls rs).filter c.holds = allPairs label ls (rs.filter c.holds) := by
  simp only [allPairs, List.filter_flatMap, List.filter_map]
  refine List.flatMap_congr fun l hl => ?_
  congr 1
  exact List.filter_congr fun r hr => h l hl r hr

/-- In the pairs of two sides a condition that reads keys of the left holds as in the left. -/
theorem holds_allPairs_left {ls rs : List Record} (hd : d.RelationsPlain) (hl : left.Regular d)
    (hr : right.Regular d) (hapart : left.labels.Disjoint right.labels)
    (hlshape : ∀ l ∈ ls, l.SameShape (left.header d))
    (hrshape : ∀ r ∈ rs, r.SameShape (right.header d))
    (hreads : ∀ a ∈ c.attributes, ∃ e, ((cross left right).header d).lookup? a = some e ∧
      e.1 ∈ (left.heading d).keys) :
    ∀ l ∈ ls, ∀ r ∈ rs,
      c.holds ⟨pairLabel left.label right.label, l.tuple.union r.tuple⟩ = c.holds l := by
  intro l hlmem r hrmem
  obtain ⟨hdisjoint, hlabel⟩ := Regular.pair hd hl hr hapart
  have hshape : Record.SameShape ⟨pairLabel left.label right.label, l.tuple.union r.tuple⟩
      ((cross left right).header d) := (hlshape l hlmem).paired (hrshape r hrmem) _
  refine Condition.holds_pair_left (fun name => hshape.2 ▸ hlabel name) fun a ha => ?_
  obtain ⟨e, he, hkey⟩ := hreads a ha
  have hfst := hshape.map_fst_lookup? a
  rw [he, Option.map_some] at hfst
  obtain ⟨f, hf, hfe⟩ := Option.map_eq_some_iff.1 hfst
  have hleft : f.1 ∈ l.tuple.keys := by rw [hfe, (hlshape l hlmem).2]; exact hkey
  refine ⟨f, hf, hleft, fun hright => ?_⟩
  rw [hfe, (hrshape r hrmem).2] at hright
  exact hdisjoint hkey hright

theorem holds_allPairs_right {ls rs : List Record} (hd : d.RelationsPlain) (hl : left.Regular d)
    (hr : right.Regular d) (hapart : left.labels.Disjoint right.labels)
    (hlshape : ∀ l ∈ ls, l.SameShape (left.header d))
    (hrshape : ∀ r ∈ rs, r.SameShape (right.header d))
    (hreads : ∀ a ∈ c.attributes, ∃ e, ((cross left right).header d).lookup? a = some e ∧
      e.1 ∈ (right.heading d).keys) :
    ∀ l ∈ ls, ∀ r ∈ rs,
      c.holds ⟨pairLabel left.label right.label, l.tuple.union r.tuple⟩ = c.holds r := by
  intro l hlmem r hrmem
  obtain ⟨_, hlabel⟩ := Regular.pair hd hl hr hapart
  have hshape : Record.SameShape ⟨pairLabel left.label right.label, l.tuple.union r.tuple⟩
      ((cross left right).header d) := (hlshape l hlmem).paired (hrshape r hrmem) _
  refine Condition.holds_pair_right (fun name => hshape.2 ▸ hlabel name) fun a ha => ?_
  obtain ⟨e, he, hkey⟩ := hreads a ha
  have hfst := hshape.map_fst_lookup? a
  rw [he, Option.map_some] at hfst
  obtain ⟨f, hf, hfe⟩ := Option.map_eq_some_iff.1 hfst
  exact ⟨f, hf, by rw [hfe, (hrshape r hrmem).2]; exact hkey⟩

end Pairs

namespace Rewrites

/-- A selection above a cross product that reads keys of the left moves into the left. -/
theorem into_left (hd : d.RelationsPlain)
    (hreads : ∀ a ∈ c.attributes, ∃ e, ((Plan.cross left right).header d).lookup? a = some e ∧
      e.1 ∈ (left.heading d).keys) :
    Rewrites d (.select c (.cross left right)) (.cross (.select c left) right) := by
  rintro ⟨⟨hscope, _⟩, ⟨_, hapart, _⟩, hl, hr⟩
  obtain ⟨_, hlabel⟩ := Regular.pair hd hl hr hapart
  have hfinds : ∀ a ∈ c.attributes, left.Finds d a := by
    intro a ha
    obtain ⟨e, he, hkey⟩ := hreads a ha
    obtain ⟨v, hv⟩ := Record.lookup?_of_subset (s := left.header d) hlabel
      (fun key h => Table.mem_keys_union.2 (Or.inl h)) he hkey
    rw [Finds, hv]
    rfl
  refine ⟨⟨⟨trivial, hapart, trivial, trivial⟩, ⟨⟨⟨hscope.1, hfinds⟩, trivial, trivial, trivial⟩, hl⟩,
    hr⟩, rfl, rfl, rfl, rfl, ?_⟩
  intro db hdb
  obtain ⟨ls, hls, hlshape⟩ := Regular.exists_evaluate hd hdb hl
  obtain ⟨rs, hrs, hrshape⟩ := Regular.exists_evaluate hd hdb hr
  have hpairs := evaluate_cross hls hrs
  have hselected := evaluate_select (c := c) hls hlshape ⟨hscope.1, hfinds⟩
  rw [evaluate_cross hselected hrs,
    evaluate_select hpairs (sameShape_allPairs hlshape hrshape) hscope,
    filter_allPairs_left (holds_allPairs_left hd hl hr hapart hlshape hrshape hreads)]
  rfl

/-- A selection above a cross product that reads keys of the right moves into the right. -/
theorem into_right (hd : d.RelationsPlain)
    (hreads : ∀ a ∈ c.attributes, ∃ e, ((Plan.cross left right).header d).lookup? a = some e ∧
      e.1 ∈ (right.heading d).keys) :
    Rewrites d (.select c (.cross left right)) (.cross left (.select c right)) := by
  rintro ⟨⟨hscope, _⟩, ⟨_, hapart, _⟩, hl, hr⟩
  obtain ⟨_, hlabel⟩ := Regular.pair hd hl hr hapart
  have hfinds : ∀ a ∈ c.attributes, right.Finds d a := by
    intro a ha
    obtain ⟨e, he, hkey⟩ := hreads a ha
    obtain ⟨v, hv⟩ := Record.lookup?_of_subset (s := right.header d) hlabel
      (fun key h => Table.mem_keys_union.2 (Or.inr h)) he hkey
    rw [Finds, hv]
    rfl
  refine ⟨⟨⟨trivial, hapart, trivial, trivial⟩, hl,
    ⟨⟨⟨hscope.1, hfinds⟩, trivial, trivial, trivial⟩, hr⟩⟩, rfl, rfl, rfl, rfl, ?_⟩
  intro db hdb
  obtain ⟨ls, hls, hlshape⟩ := Regular.exists_evaluate hd hdb hl
  obtain ⟨rs, hrs, hrshape⟩ := Regular.exists_evaluate hd hdb hr
  have hpairs := evaluate_cross hls hrs
  have hselected := evaluate_select (c := c) hrs hrshape ⟨hscope.1, hfinds⟩
  rw [evaluate_cross hls hselected,
    evaluate_select hpairs (sameShape_allPairs hlshape hrshape) hscope,
    filter_allPairs_right (holds_allPairs_right hd hl hr hapart hlshape hrshape hreads)]
  rfl

/-- A selection above a cross product is a join. -/
theorem to_join (c : Condition) (left right : Plan) :
    Rewrites d (.select c (.cross left right)) (.join left c right) := by
  rintro ⟨⟨hscope, _⟩, ⟨_, hapart, _⟩, hl, hr⟩
  refine ⟨⟨⟨hscope, hapart, trivial, trivial⟩, hl, hr⟩, rfl, rfl, rfl, rfl, ?_⟩
  intro db _
  simp only [Plan.evaluate]
  cases left.evaluate db with
  | error fault => rfl
  | ok ls => cases right.evaluate db <;> rfl

/-- A selection above a join extends the join. -/
theorem extend_join (hd : d.RelationsPlain) (b c : Condition) (left right : Plan) :
    Rewrites d (.select c (.join left b right)) (.join left (.both b c) right) := by
  rintro ⟨⟨hc, _⟩, ⟨hb, hapart, _⟩, hl, hr⟩
  have hboth : (Plan.select (.both b c) (.cross left right)).ScopedAt d :=
    scopedAt_select_both.2 ⟨hb, hc⟩
  refine ⟨⟨⟨hboth, hapart, trivial, trivial⟩, hl, hr⟩, rfl, rfl, rfl, rfl, ?_⟩
  intro db hdb
  obtain ⟨ls, hls, hlshape⟩ := Regular.exists_evaluate hd hdb hl
  obtain ⟨rs, hrs, hrshape⟩ := Regular.exists_evaluate hd hdb hr
  have hpairs := sameShape_allPairs hlshape hrshape
  have hjoin := evaluate_join hls hrs hlshape hrshape hb
  have hkept : ∀ r ∈ (allPairs (pairLabel left.label right.label) ls rs).filter b.holds,
      r.SameShape ((Plan.join left b right).header d) := by
    intro r hr
    exact hpairs r (List.mem_filter.1 hr).1
  rw [evaluate_select hjoin hkept hc, evaluate_join hls hrs hlshape hrshape hboth,
    List.filter_filter]
  simp only [Condition.holds_both, Bool.and_comm]

theorem moves (hd : d.RelationsPlain) : MovesConditions (Rewrites d) where
  refl := refl d
  trans := trans
  select := select
  project := project
  rename := rename
  cross := cross
  join := join
  split_both := split_both hd
  join_both := join_both hd
  swap := swap hd
  to_join := to_join
  extend_join := extend_join hd

end Rewrites

end StagedAlgebra.Plan
