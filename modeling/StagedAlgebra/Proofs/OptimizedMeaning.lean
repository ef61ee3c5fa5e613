import StagedAlgebra.Proofs.Rewriting

/-!
# Optimisation keeps the meaning of plans

Each of the four rewritings of `Plan.optimize` is a chain of laws of rewriting, found by recursion
on the plan. Splitting and merging only regroup conjunctions. Sinking takes the selections above a
cross product one by one, the outermost first; each passes those that remain and then goes as deep
as the labels of its attributes allow. That the selection still reads the same keys there is
carried along by `ReadsFrom`.

The result is `evaluate_optimize`: an optimised plan can be evaluated wherever the plan can, and
gives the same list of records.
-/

namespace StagedAlgebra.Plan

variable {d : Dictionary} {p q : Plan} {c : Condition}

/-- Every attribute of a condition is found under a key with one of some labels. -/
def ReadsFrom (d : Dictionary) (c : Condition) (labels : List String) (p : Plan) : Prop :=
  ∀ a ∈ c.attributes, ∃ e, (p.header d).lookup? a = some e ∧
    ∃ label ∈ labels, ∃ name, e.1 = attributeKey label name

theorem covers_iff {labels : List String} :
    p.covers labels = true ↔ ∀ label ∈ labels, label ∈ p.labels := by
  simp [covers]

/-- A key of a pair under a label of one side is a key of that side. -/
theorem mem_heading_side (hd : d.RelationsPlain) (hp : p.Regular d) (hq : q.Regular d)
    (hapart : p.labels.Disjoint q.labels) {label name : String} (hlabel : label ∈ p.labels)
    (hkey : attributeKey label name ∈ (p.heading d).keys ∨
      attributeKey label name ∈ (q.heading d).keys) :
    attributeKey label name ∈ (p.heading d).keys := by
  rcases hkey with h | h
  · exact h
  · obtain ⟨label', hlabel', name', heq⟩ := exists_label_of_mem_heading h
    rw [attributeKey_inj (hp.plainName hd label hlabel).1 (hq.plainName hd label' hlabel').1] at heq
    exact (hapart hlabel (heq.1 ▸ hlabel')).elim

theorem mem_heading_of_lookup? {a : Attribute} {e : String × Scalar}
    (h : (p.header d).lookup? a = some e) : e.1 ∈ (p.heading d).keys :=
  Table.mem_keys_iff_exists.2 ⟨e.2, Record.get?_of_lookup? h⟩

/-- If all keys with some labels belong to one side of a pairing, a condition that reads from these
labels reads the same keys of that side. -/
theorem ReadsFrom.side {labels : List String} (hreads : ReadsFrom d c labels p)
    (hlabel : ∀ name, attributeKey p.label name ∉ (p.heading d).keys)
    (hsub : ∀ key ∈ (q.heading d).keys, key ∈ (p.heading d).keys)
    (hside : ∀ label ∈ labels, ∀ name, attributeKey label name ∈ (p.heading d).keys →
      attributeKey label name ∈ (q.heading d).keys) :
    (∀ a ∈ c.attributes, ∃ e, (p.header d).lookup? a = some e ∧ e.1 ∈ (q.heading d).keys) ∧
      ReadsFrom d c labels q := by
  have hkeys : ∀ a ∈ c.attributes, ∃ e, (p.header d).lookup? a = some e ∧
      e.1 ∈ (q.heading d).keys ∧ ∃ label ∈ labels, ∃ name, e.1 = attributeKey label name := by
    intro a ha
    obtain ⟨e, he, label, hmem, name, hname⟩ := hreads a ha
    have hkey := mem_heading_of_lookup? he
    rw [hname] at hkey
    exact ⟨e, he, hname ▸ hside label hmem name hkey, label, hmem, name, hname⟩
  constructor
  · intro a ha
    obtain ⟨e, he, hin, _⟩ := hkeys a ha
    exact ⟨e, he, hin⟩
  · intro a ha
    obtain ⟨e, he, hin, hname⟩ := hkeys a ha
    obtain ⟨v, hv⟩ := @Record.lookup?_of_subset (p.header d) (q.header d) a hlabel hsub e he hin
    exact ⟨_, hv, hname⟩

/-- A selection is put as deep as the labels that it reads from allow. -/
theorem rewrites_insertSelection (hd : d.RelationsPlain) {labels : List String}
    (hreads : ReadsFrom d c labels p) :
    Rewrites d (.select c p) (p.insertSelection c labels) := by
  induction p with
  | scan _ => exact .refl d _
  | project _ _ _ => exact .refl d _
  | rename _ _ _ => exact .refl d _
  | join _ _ _ _ _ => exact .refl d _
  | select b input ih => exact (Rewrites.swap hd c b input).trans ((ih hreads).select b)
  | cross left right ihl ihr =>
      intro h
      have hlr : left.labels.Disjoint right.labels := h.2.1.2.1
      have hl : left.Regular d := h.2.2.1
      have hr : right.Regular d := h.2.2.2
      obtain ⟨_, hlabel⟩ := Regular.pair hd hl hr hlr
      simp only [insertSelection]
      split
      · rename_i hcovers
        obtain ⟨hkeys, hleft⟩ := hreads.side hlabel
          (fun key hkey => Table.mem_keys_union.2 (Or.inl hkey))
          fun label hmem name hkey => mem_heading_side hd hl hr hlr
            (covers_iff.1 hcovers label hmem) (Table.mem_keys_union.1 hkey)
        exact ((Rewrites.into_left hd hkeys).trans ((ihl hleft).cross (.refl d right))) h
      · split
        · rename_i hcovers
          obtain ⟨hkeys, hright⟩ := hreads.side hlabel
            (fun key hkey => Table.mem_keys_union.2 (Or.inr hkey))
            fun label hmem name hkey => mem_heading_side hd hr hl (List.disjoint_symm hlr)
              (covers_iff.1 hcovers label hmem) (Table.mem_keys_union.1 hkey).symm
          exact ((Rewrites.into_right hd hkeys).trans ((Rewrites.refl d left).cross (ihr hright))) h
        · exact Rewrites.refl d _ h

/-- Resolving a condition above a plan whose label stands before no key gives labels that it reads
from. -/
theorem readsFrom_of_resolve (hd : d.RelationsPlain) (hnames : d.AttributesDotless)
    (h : (select c p).Regular d) (hlabel : ∀ name, attributeKey p.label name ∉ (p.heading d).keys)
    {labels : List String} (hres : c.resolve p.leaves d = .resolved labels) :
    ReadsFrom d c labels p := by
  intro a ha
  obtain ⟨e, he⟩ := Option.isSome_iff_exists.1 (h.1.1.2 a ha)
  obtain ⟨own, hown, hsub⟩ := Condition.resolve_attribute hres a ha
  obtain ⟨label, hmem, name, hname⟩ := Regular.label_of_resolve hd hnames h.2 hlabel he hown
  exact ⟨e, he, label, hsub label hmem, name, hname⟩

theorem rewrites_placeSelection (hd : d.RelationsPlain) (hnames : d.AttributesDotless)
    (hlabel : ∀ name, attributeKey p.label name ∉ (p.heading d).keys) (c : Condition) :
    Rewrites d (.select c p) (placeSelection p.leaves d p c) := by
  intro h
  unfold placeSelection
  split
  · rename_i labels hres
    exact rewrites_insertSelection hd (readsFrom_of_resolve hd hnames h hlabel hres) h
  · exact Rewrites.refl d _ h

theorem regular_of_stack {conditions : List Condition} (h : (stack conditions p).Regular d) :
    p.Regular d := by
  induction conditions with
  | nil => exact h
  | cons c rest ih => exact ih h.2

/-- The selections above a plan whose label stands before no key are placed one by one, the
outermost first. -/
theorem rewrites_foldl_placeSelection (hd : d.RelationsPlain) (hnames : d.AttributesDotless)
    (chain : List Condition) (hlabel : ∀ name, attributeKey p.label name ∉ (p.heading d).keys) :
    Rewrites d (stack chain p) (chain.foldl (placeSelection p.leaves d) p) := by
  induction chain generalizing p with
  | nil => exact .refl d _
  | cons c rest ih =>
      have hpassed := (Rewrites.moves hd).sink c rest p
      have hsunk := hpassed.trans
        ((Rewrites.moves hd).stack (rewrites_placeSelection hd hnames hlabel c) rest)
      intro h
      -- The placed selection leaves the plan as it looks from outside, so the next one is placed
      -- in the same scope.
      have hselect : (select c p).Regular d := regular_of_stack (hpassed h).1
      have hsame := (rewrites_placeSelection hd hnames hlabel c hselect).2
      have hnext := @ih (placeSelection p.leaves d p c) (by
        intro name
        rw [hsame.label, hsame.heading]
        exact hlabel name)
      rw [hsame.leaves] at hnext
      exact (hsunk.trans hnext) h

theorem rewrites_sinkFrom (hd : d.RelationsPlain) (hnames : d.AttributesDotless)
    (chain : List Condition) (p : Plan) : Rewrites d (stack chain p) (p.sinkFrom d chain) := by
  induction p generalizing chain with
  | scan _ => exact .refl d _
  | select c input ih =>
      rw [stack_select]
      exact ih (chain ++ [c])
  | project attributes _ ih => exact (Rewrites.moves hd).stack ((ih []).project attributes) chain
  | rename newLabel _ ih => exact (Rewrites.moves hd).stack ((ih []).rename newLabel) chain
  | join _ c _ ihl ihr => exact (Rewrites.moves hd).stack ((ihl []).join (ihr []) c) chain
  | cross left right ihl ihr =>
      intro h
      have hsides : Rewrites d (cross left right) (cross (left.sinkFrom d []) (right.sinkFrom d [])) :=
        (ihl []).cross (ihr [])
      obtain ⟨hcross, hsame⟩ := hsides (regular_of_stack h)
      obtain ⟨_, hlabel⟩ := Regular.pair hd hcross.2.1 hcross.2.2 hcross.1.2.1
      have hplaced := rewrites_foldl_placeSelection hd hnames chain hlabel
      rw [hsame.leaves] at hplaced
      exact (((Rewrites.moves hd).stack hsides chain).trans hplaced) h

theorem rewrites_optimize (hd : d.RelationsPlain) (hnames : d.AttributesDotless) (p : Plan) :
    Rewrites d p (p.optimize d) :=
  (Rewrites.moves hd).optimize (rewrites_sinkFrom hd hnames []) p

/-- An optimised plan can be evaluated over every database that conforms to the dictionary, and
gives the records of the plan in their order. The plan has to be in scope, with the leaf labels of
the two sides of every pairing apart, and with renamings of single relations only. -/
theorem evaluate_optimize (d : Dictionary) (hd : d.RelationsPlain) (hnames : d.AttributesDotless)
    (db : Database) (hdb : db.ConformsTo d) (p : Plan) (hscope : p.Everywhere (ScopedAt d))
    (hplain : p.Everywhere PlainLabelAt) (hapart : p.Everywhere ApartAt)
    (hbased : p.Everywhere BasedAt) :
    ∃ records, p.evaluate db = .ok records ∧ (p.optimize d).evaluate db = .ok records := by
  have hregular : p.Regular d := hscope.and (hapart.and (hbased.and hplain))
  obtain ⟨records, heval, _⟩ := hregular.exists_evaluate hd hdb
  refine ⟨records, heval, ?_⟩
  rw [(rewrites_optimize hd hnames p hregular).2.evaluate db hdb]
  exact heval

/-- Persons and what they eat. -/
def eatersDictionary : Dictionary :=
  (Dictionary.empty.declare "Person" [("name", .string), ("age", .integer)]).declare "Eats"
    [("name", .string), ("pizza", .string)]

/-- Two persons, one of whom eats twice. -/
def eatersDatabase : Database :=
  Table.ofList
    [("Person", [⟨"Person", Table.ofList [("Person.name", .text "Amy"), ("Person.age", .int 16)]⟩,
      ⟨"Person", Table.ofList [("Person.name", .text "Ben"), ("Person.age", .int 21)]⟩]),
    ("Eats", [⟨"Eats", Table.ofList [("Eats.name", .text "Amy"), ("Eats.pizza", .text "cheese")]⟩,
      ⟨"Eats", Table.ofList [("Eats.name", .text "Amy"), ("Eats.pizza", .text "ham")]⟩])]

/-- What young persons eat: a selection by a bare name, a literal and an equality of the two sides
above a cross product of a projection and a renaming. -/
def eatersPlan : Plan :=
  .select
    (.both (.equal (.attr (.bare "age")) (.literal (.int 16)))
      (.both (.equal (.attr (.qualified "E" "name")) (.attr (.qualified "Person" "name")))
        (.equal (.literal (.text "ham")) (.attr (.bare "pizza")))))
    (.cross (.project [.bare "age", .qualified "Person" "name"] (.scan "Person"))
      (.rename "E" (.scan "Eats")))

/-- The selections are sunk and the cross product becomes a join, and the records stay. -/
theorem evaluate_optimize_eaters :
    eatersPlan.hasCross = true ∧ (eatersPlan.optimize eatersDictionary).hasCross = false ∧
      ∃ records, eatersPlan.evaluate eatersDatabase = .ok records ∧
        (eatersPlan.optimize eatersDictionary).evaluate eatersDatabase = .ok records :=
  ⟨by decide, by decide, evaluate_optimize eatersDictionary (by decide) (by decide) eatersDatabase
    (by decide) eatersPlan (by decide) (by decide) (by decide) (by decide)⟩

end StagedAlgebra.Plan
