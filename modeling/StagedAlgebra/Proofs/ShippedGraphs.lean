import StagedAlgebra.Proofs.AttributeTexts
import StagedAlgebra.Proofs.DocumentReading
import StagedAlgebra.Proofs.KeyForms
import StagedAlgebra.Proofs.Waves

/-!
# Graphs survive shipping

A graph is shipped as a JSON text and made anew from it. A stage graph that was made, and whose
attribute references can be read, is the graph of its text if the text nests at most 127 levels
deep; a text that nests deeper is refused as unreadable: `StageGraph.parse_shipped`.

## Implementation notes

Lists and objects nest deep only inside the condition of a stage. What a stage does is read only
if it can be read in all its parts, so one condition that nests too deep makes the whole text
unreadable.
-/

namespace StagedAlgebra

open Document (ofJson ofWritten ofJsonFields choice?_ofJson structure?_ofJson structure?_fields)

theorem StepId.exact_toJson (s : StepId) : s.toJson.Exact :=
  .int (Json.fitsWord_word s.number)

theorem StepId.ofDocument?_toJson (s : StepId) : ofDocument? (ofJson s.toJson) = some s := by
  have fits : s.number.toNat < Text.wordCount := s.number.toNat_lt
  simp [ofDocument?, toJson, ofJson, Document.word64?, Document.leaf?, Document.untagged, fits]

theorem Literal.exact_toJson (l : Literal) : l.toJson.Exact := by
  cases l with
  | text s => exact .object (by simpa using .string s)
  | int i => exact .object (by simpa using .int (Json.fitsWord_int64 i))

theorem Literal.ofDocument?_toJson (l : Literal) : ofDocument? (ofJson l.toJson) = some l := by
  cases l with
  | text s => simp [ofDocument?, toJson, choice?_ofJson]
  | int i =>
      have read : (ofJson (.int i.toInt)).int64? = some i := by
        simp [ofJson, Document.int64?, Document.leaf?, Document.untagged, Text.inInt64_toInt]
      simp [ofDocument?, toJson, choice?_ofJson, read]

namespace Condition

theorem exact_binaryJson {left right : Json} (h : left.Exact) (h' : right.Exact) (op : String) :
    (binaryJson op left right).Exact := by
  refine .object ?_
  rw [List.forall_mem_singleton]
  refine .object ?_
  simpa using ⟨.string op, h, h'⟩

theorem exact_toJson (c : Condition) : c.toJson.Exact := by
  induction c with
  | attr a => exact .object (by simpa using .string a.text)
  | literal l => exact .object (by simpa using l.exact_toJson)
  | equal left right ihl ihr => exact exact_binaryJson ihl ihr "eq"
  | both left right ihl ihr => exact exact_binaryJson ihl ihr "and"

theorem depth_binaryJson (op : String) (left right : Json) :
    (ofJson (binaryJson op left right)).depth =
      max (ofJson left).depth (ofJson right).depth + 2 := by
  simp [binaryJson, ofJson, ofJsonFields, Document.depth, Document.depthEntries]

/-- An operator spends one of the budget, and its sides the rest. -/
theorem ofDocument?_binaryJson {op : String} (known : op ∈ ["eq", "and"]) {left right : Json}
    {budget : Nat} {l r : Condition} (first : ofDocument? .full budget (ofJson left) = some l)
    (second : ofDocument? .full budget (ofJson right) = some r) :
    ofDocument? .full (budget + 1) (ofJson (binaryJson op left right)) = ofOperator? op l r := by
  have sides := structure?_ofJson true [("op", .string op), ("left", left), ("right", right)]
    (by simp)
  have named : (ofJson (.string op)).unit? .full ["eq", "and"] = some op := by
    simp only [ofJson, Document.unit?, Document.choice?, Option.bind_some, List.contains_iff_mem,
      known, if_true, Document.isUnitBody]
  simp only [List.map_cons, List.map_nil] at sides
  rw [ofDocument?, binaryJson, choice?_ofJson (by simp)]
  simp only [Leniency.full, sides]
  simp only [Leniency.full] at named first second
  simp only [named, first, second]

/-- A condition with canonical references is read from its form. -/
theorem ofDocument?_toJson {c : Condition} (h : ∀ a ∈ c.attributes, a.Canonical) :
    ∀ {budget : Nat}, (ofJson c.toJson).depth ≤ budget →
      ofDocument? .full budget (ofJson c.toJson) = some c := by
  have sides {left right : Condition} {op : String} {budget : Nat}
      (fits : (ofJson (binaryJson op left.toJson right.toJson)).depth ≤ budget) :
      ∃ below, budget = below + 1 ∧ (ofJson left.toJson).depth ≤ below ∧
        (ofJson right.toJson).depth ≤ below := by
    rw [depth_binaryJson] at fits
    exact ⟨budget - 1, by omega, by omega, by omega⟩
  induction c with
  | attr a =>
      intro budget _
      have read := (h a (by simp [attributes])).parse_text
      rw [ofDocument?.eq_def, toJson, choice?_ofJson (by simp)]
      simp [Attribute.parse?, read, Except.toOption]
  | literal l =>
      intro budget _
      rw [ofDocument?.eq_def, toJson, choice?_ofJson (by simp)]
      simp [l.ofDocument?_toJson]
  | equal left right ihl ihr =>
      intro budget fits
      rw [attributes, List.forall_mem_append] at h
      obtain ⟨below, rfl, first, second⟩ := sides fits
      exact ofDocument?_binaryJson (by simp) (ihl h.1 first) (ihr h.2 second)
  | both left right ihl ihr =>
      intro budget fits
      rw [attributes, List.forall_mem_append] at h
      obtain ⟨below, rfl, first, second⟩ := sides fits
      exact ofDocument?_binaryJson (by simp) (ihl h.1 first) (ihr h.2 second)

end Condition

theorem Attribute.listToJson_eq (attributes : List Attribute) :
    listToJson attributes = .array (attributes.map fun a => .string a.text) := by
  rw [listToJson, Json.strings, List.map_map]
  rfl

theorem Attribute.listOfDocument?_listToJson {attributes : List Attribute}
    (h : ∀ a ∈ attributes, a.Canonical) :
    listOfDocument? 1 (ofJson (listToJson attributes)) = some attributes := by
  rw [listOfDocument?, if_neg (by decide), listToJson_eq]
  refine Document.listOf?_ofJson fun a member => ?_
  simp [Attribute.parse?, (h a member).parse_text, Except.toOption]

namespace StageSpec

/-- The attributes that a stage refers to. -/
def attributes : StageSpec → List Attribute
  | .scan _ | .rename _ => []
  | .select c | .join c _ _ => c.attributes
  | .project attributes => attributes

theorem exact_toJson (spec : StageSpec) : spec.toJson.Exact := by
  cases spec with
  | scan relation => exact .object (by simpa using ⟨.string "scan", .string relation⟩)
  | select c => exact .object (by simpa using ⟨.string "select", c.exact_toJson⟩)
  | project attributes =>
      have texts : (Attribute.listToJson attributes).Exact := by
        rw [Attribute.listToJson_eq]
        exact .array_map fun a _ => .string a.text
      exact .object (by simpa using ⟨.string "project", texts⟩)
  | rename newLabel => exact .object (by simpa using ⟨.string "rename", .string newLabel⟩)
  | join c left right =>
      exact .object (by simpa using ⟨.string "join", c.exact_toJson, .string left, .string right⟩)

/-- The name of the operator is found in front of its settings. -/
theorem ofDocument?_op {op : String} {settings : List (String × Json)}
    (exact : (Json.object (("op", .string op) :: settings)).Exact)
    (others : ∀ f ∈ settings, f.1 ≠ "op") :
    ofDocument? (ofJson (.object (("op", .string op) :: settings))) =
      ofSettings? op (ofJson (.object settings)) := by
  have readable := Document.isReadable_ofJson exact
  have apart : ∀ e ∈ ofJsonFields settings, e.1.text? ≠ some "op" := by
    rw [Document.ofJsonFields_eq_map]
    intro e member
    obtain ⟨f, inside, rfl⟩ := List.mem_map.mp member
    simpa [FieldName.text?] using others f inside
  have named : (ofJsonFields settings).filter (fun e => e.1.text? == some "op") = [] := by
    rw [List.filter_eq_nil_iff]
    simpa using apart
  have kept : (ofJsonFields settings).filter (fun e => e.1.text? != some "op") =
      ofJsonFields settings := by
    rw [List.filter_eq_self]
    simpa using apart
  have first : (FieldName.written "op").text? = some "op" := rfl
  rw [ofDocument?, readable]
  simp [ofJson, ofJsonFields, Document.untagged, first, named, kept, Document.text?, Document.leaf?]

/-- What a stage does is read from its form. -/
theorem ofDocument?_toJson {spec : StageSpec} (h : ∀ a ∈ spec.attributes, a.Canonical) :
    ofDocument? (ofJson spec.toJson) = some spec := by
  have exact := spec.exact_toJson
  have field (name : String) (value : Json) :=
    structure?_ofJson true [(name, value)] (by simp)
  simp only [List.map_cons, List.map_nil] at field
  cases spec with
  | scan relation =>
      rw [toJson, ofDocument?_op exact (by simp)]
      simp [ofSettings?, field]
  | select c =>
      rw [toJson, ofDocument?_op exact (by simp)]
      simp [ofSettings?, field, Condition.ofDocument?_toJson h]
  | project attributes =>
      rw [toJson, ofDocument?_op exact (by simp)]
      have read : Attribute.listOfDocument? 1 (ofJson (Attribute.listToJson attributes)) =
          some attributes := Attribute.listOfDocument?_listToJson h
      simp [ofSettings?, field, read]
  | rename newLabel =>
      rw [toJson, ofDocument?_op exact (by simp)]
      simp [ofSettings?, field]
  | join c left right =>
      have fields := structure?_ofJson true
        [("condition", c.toJson), ("left_label", .string left), ("right_label", .string right)]
        (by simp)
      simp only [List.map_cons, List.map_nil] at fields
      rw [toJson, ofDocument?_op exact (by simp)]
      simp [ofSettings?, fields, Condition.ofDocument?_toJson h]

/-- What nests too deep does not say what a stage does. -/
theorem ofDocument?_eq_none {spec : StageSpec} {level : Nat} (deep : level < spec.toJson.depth) :
    ofDocument? (ofWritten level spec.toJson.written) = none := by
  have unreadable : (ofWritten level spec.toJson.written).isReadable = false := by
    rw [← Bool.not_eq_true, Document.isReadable_ofWritten spec.exact_toJson]
    omega
  rw [ofDocument?, unreadable]
  rfl

theorem depth_pos (spec : StageSpec) : 1 ≤ spec.toJson.depth := by
  cases spec <;> simp [toJson, Json.depth]

end StageSpec

namespace Stage

theorem exact_toJson (s : Stage) : s.toJson.Exact := by
  have inputs : (Json.array (s.inputs.map StepId.toJson)).Exact :=
    .array_map fun input _ => input.exact_toJson
  exact .object (by simpa using ⟨s.step.exact_toJson, s.spec.exact_toJson, .string s.label, inputs⟩)

/-- A stage nests as deep as what it does, and once more. -/
theorem depth_toJson (s : Stage) : s.toJson.depth = s.spec.toJson.depth + 1 := by
  have inputs : Json.depthItems (s.inputs.map StepId.toJson) = 0 := by
    rw [← Nat.le_zero, Json.depthItems_le_iff]
    intro item member
    obtain ⟨input, -, rfl⟩ := List.mem_map.mp member
    simp [StepId.toJson, Json.depth]
  have some_depth := s.spec.depth_pos
  simp only [toJson, Json.depth, Json.depthFields, StepId.toJson, inputs]
  omega

/-- A stage is read from its form. -/
theorem ofDocument?_toJson {s : Stage} (h : ∀ a ∈ s.spec.attributes, a.Canonical) :
    ofDocument? (ofJson s.toJson) = some s := by
  have fields := structure?_ofJson true
    [("step", s.step.toJson), ("spec", s.spec.toJson), ("label", .string s.label),
      ("depends_on", .array (s.inputs.map StepId.toJson))] (by simp)
  have inputs : (ofJson (.array (s.inputs.map StepId.toJson))).listOf? StepId.ofDocument? =
      some s.inputs :=
    Document.listOf?_ofJson fun input _ => input.ofDocument?_toJson
  simp only [List.map_cons, List.map_nil] at fields
  simp [ofDocument?, toJson, fields, StepId.ofDocument?_toJson, StageSpec.ofDocument?_toJson h,
    inputs]

/-- A stage that nests too deep is not read. -/
theorem ofDocument?_eq_none {s : Stage} {level : Nat} (deep : level < s.toJson.depth) :
    ofDocument? (ofWritten level s.toJson.written) = none := by
  cases level with
  | zero => simp [ofDocument?, toJson, Json.written, ofWritten, Document.structure?,
      Document.untagged]
  | succ level =>
      have spec : StageSpec.ofDocument? (ofWritten level s.spec.toJson.written) = none := by
        refine StageSpec.ofDocument?_eq_none ?_
        rw [depth_toJson] at deep
        omega
      have fields := structure?_fields true
        [("step", ofWritten level s.step.toJson.written),
          ("spec", ofWritten level s.spec.toJson.written),
          ("label", ofWritten level (Json.string s.label).written),
          ("depends_on", ofWritten level (Json.array (s.inputs.map StepId.toJson)).written)]
        (by simp)
      simp only [List.map_cons, List.map_nil] at fields
      rw [toJson, Document.ofWritten_object]
      simp [ofDocument?, fields, spec]

end Stage

namespace StageGraph

theorem exact_toJson (g : StageGraph) : g.toJson.Exact := by
  have stages : (Json.array (g.stages.map Stage.toJson)).Exact :=
    .array_map fun s _ => s.exact_toJson
  exact .object (by simpa using ⟨g.root.exact_toJson, stages⟩)

/-- A graph nests as deep as its deepest stage, and twice more. -/
theorem depth_toJson_le_iff {g : StageGraph} {level : Nat} :
    g.toJson.depth ≤ level + 2 ↔ ∀ s ∈ g.stages, s.toJson.depth ≤ level := by
  have stages : Json.depthItems (g.stages.map Stage.toJson) ≤ level ↔
      ∀ s ∈ g.stages, s.toJson.depth ≤ level := by
    rw [Json.depthItems_le_iff, List.forall_mem_map]
  rw [← stages]
  simp only [toJson, StepId.toJson, Json.depth, Json.depthFields]
  omega

/-- The parts of a graph are read from its form. -/
theorem partsOfDocument?_toJson {g : StageGraph}
    (h : ∀ s ∈ g.stages, ∀ a ∈ s.spec.attributes, a.Canonical) :
    partsOfDocument? (ofJson g.toJson) = some (g.root, g.stages) := by
  have fields := structure?_ofJson true
    [("root", g.root.toJson), ("stages", .array (g.stages.map Stage.toJson))] (by simp)
  have stages : (ofJson (.array (g.stages.map Stage.toJson))).listOf? Stage.ofDocument? =
      some g.stages :=
    Document.listOf?_ofJson fun s member => Stage.ofDocument?_toJson (h s member)
  simp only [List.map_cons, List.map_nil] at fields
  simp [partsOfDocument?, toJson, fields, StepId.ofDocument?_toJson, stages]

/-- No parts are read from a graph that nests too deep. -/
theorem partsOfDocument?_eq_none {g : StageGraph} {level : Nat}
    (deep : level + 2 < g.toJson.depth) :
    partsOfDocument? (ofWritten (level + 2) g.toJson.written) = none := by
  obtain ⟨s, member, deep⟩ : ∃ s ∈ g.stages, level < s.toJson.depth := by
    by_contra shallow
    push Not at shallow
    exact absurd (depth_toJson_le_iff.mpr shallow) (by omega)
  have stages : (ofWritten (level + 1) (Json.array (g.stages.map Stage.toJson)).written).listOf?
      Stage.ofDocument? = none := by
    rw [Document.ofWritten_array, List.map_map]
    exact mapM_eq_none (List.mem_map_of_mem member) (Stage.ofDocument?_eq_none deep)
  have fields := structure?_fields true
    [("root", ofWritten (level + 1) g.root.toJson.written),
      ("stages", ofWritten (level + 1) (Json.array (g.stages.map Stage.toJson)).written)] (by simp)
  simp only [List.map_cons, List.map_nil] at fields
  rw [toJson, Document.ofWritten_object]
  simp [partsOfDocument?, fields, stages]

/-- A graph that was made is made again from its own parts. -/
theorem ofStages_self {root : StepId} {stages : List Stage} {g : StageGraph}
    (accepted : ofStages root stages = .ok g) : ofStages g.root g.stages = .ok g := by
  obtain ⟨-, rfl, same⟩ := valid_of_ofStages accepted
  rw [ofStages_eq_of_perm g.root same, accepted]

/-- A graph is made anew from the text it is shipped as, if that nests at most 127 levels deep;
otherwise nothing is read. -/
theorem parse_shipped {root : StepId} {stages : List Stage} {g : StageGraph}
    (accepted : ofStages root stages = .ok g)
    (readable : ∀ s ∈ g.stages, ∀ a ∈ s.spec.attributes, ∃ text, Attribute.parse text = .ok a) :
    parse g.shipped = if g.toJson.depth ≤ 127 then .ok g else .error .unreadable := by
  have document : Document.parseJson g.shipped = some (ofWritten 127 g.toJson.written) := by
    rw [Document.parseJson, shipped, Json.parse_pretty]
    rfl
  simp only [parse, document, Option.bind_some]
  by_cases fits : g.toJson.depth ≤ 127
  · have canonical : ∀ s ∈ g.stages, ∀ a ∈ s.spec.attributes, a.Canonical :=
      fun s hs a ha => Attribute.canonical_iff.mpr (readable s hs a ha)
    rw [if_pos fits, Document.ofWritten_written g.exact_toJson fits,
      partsOfDocument?_toJson canonical]
    exact ofStages_self accepted
  · have deep : 125 + 2 < g.toJson.depth := by omega
    rw [if_neg fits, partsOfDocument?_eq_none deep]

/-- The selection of the persons of an age, whose condition says so once and `n` times more. -/
def insistentGraph (n : Nat) : StageGraph :=
  let aged : Condition := .equal (.attr (.bare "age")) (.literal (.int 9))
  ⟨⟨1⟩, [⟨⟨1⟩, .select ((List.replicate n aged).foldl .both aged), "Person", [⟨2⟩]⟩,
    ⟨⟨2⟩, .scan "Person", "Person", []⟩]⟩

/-- Sixty conditions joined from the left nest 126 levels deep, and one more does not survive. -/
theorem parse_shipped_insistent :
    parse (insistentGraph 59).shipped = .ok (insistentGraph 59) ∧
      parse (insistentGraph 60).shipped = .error .unreadable := by
  have accepted (n : Nat) :
      ofStages ⟨1⟩ (insistentGraph n).stages.reverse = .ok (insistentGraph n) := by
    have ascending : (⟨1⟩ : StepId) ≤ ⟨2⟩ := by decide
    exact ofStages_of_faultless (List.pairwise_pair.mpr ascending) rfl (List.reverse_perm _)
  have read : ∃ text, Attribute.parse text = .ok (.bare "age") := ⟨" age", by decide⟩
  have readable (n : Nat) (age : ∀ s ∈ (insistentGraph n).stages, ∀ a ∈ s.spec.attributes,
      a = .bare "age") : ∀ s ∈ (insistentGraph n).stages, ∀ a ∈ s.spec.attributes,
      ∃ text, Attribute.parse text = .ok a :=
    fun s hs a ha => age s hs a ha ▸ read
  constructor
  · rw [parse_shipped (accepted 59) (readable 59 (by decide +kernel))]
    exact if_pos (by decide +kernel)
  · rw [parse_shipped (accepted 60) (readable 60 (by decide +kernel))]
    exact if_neg (by decide +kernel)

end StageGraph

end StagedAlgebra
