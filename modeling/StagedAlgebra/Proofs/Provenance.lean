import StagedAlgebra.Proofs.RecordFlow
import StagedAlgebra.Proofs.RelationalMeaning
import StagedAlgebra.Proofs.ResolvedNames

/-!
# Records bear the names of their plan

Every record that a stage of a compiled plan makes flows under the label of the plan that the stage
stands for, and every key of it is an attribute of a label of that plan. This is so in every attempt
of every run, over any storage, if the records of relations bear the names of their relations. A
join therefore never meets a record of neither side.

## Implementation notes

A join tells its sides apart by the labels of records, which were computed from the plan when it was
compiled, and which have gone through a file since. Numbers need not be read back from files for
this: labels and keys always are, as long as labels fit on lines.
-/

namespace StagedAlgebra

/-- A record flows under the label of a plan, and every key of it is an attribute of a label of
the plan. -/
structure Record.BelongsTo (p : Plan) (r : Record) : Prop where
  /-- The label is that of the plan. -/
  label : r.label = p.label
  /-- Every key is an attribute of a label. -/
  keys : ∀ key ∈ r.tuple.keys, ∃ l ∈ p.labels, ∃ name, key = attributeKey l name

/-- A record belongs to a relation if it is labelled with it and all its keys start with it. -/
theorem Record.belongsTo_scan_iff {relation : String} {r : Record} :
    r.BelongsTo (.scan relation) ↔ r.label = relation ∧
      ∀ key ∈ r.tuple.keys, ∃ name, key = attributeKey relation name := by
  have one : (Plan.scan relation).labels = [relation] := rfl
  constructor
  · rintro ⟨label, keys⟩
    simp only [one, List.mem_singleton, exists_eq_left] at keys
    exact ⟨label, keys⟩
  · rintro ⟨label, keys⟩
    exact ⟨label, by simpa only [one, List.mem_singleton, exists_eq_left] using keys⟩

theorem exists_rekey (newLabel key : String) :
    ∃ name, rekey newLabel key = attributeKey newLabel name := by
  unfold rekey
  split
  · exact ⟨_, rfl⟩
  · exact ⟨_, rfl⟩

namespace Record.BelongsTo

variable {p left right : Plan} {r s : Record}

theorem select (h : r.BelongsTo p) (c : Condition) : r.BelongsTo (.select c p) :=
  ⟨h.label, h.keys⟩

theorem project (h : r.BelongsTo p) {attributes : List Attribute}
    (projected : r.projected attributes = .ok s) : s.BelongsTo (.project attributes p) := by
  obtain ⟨label, keys⟩ := keys_of_projected projected
  exact ⟨label.trans h.label, fun key hkey => h.keys key (keys key hkey)⟩

/-- A renaming gives every key its own label. -/
theorem rename (p : Plan) {newLabel : String} (renamed : r.renamed newLabel = .ok s) :
    s.BelongsTo (.rename newLabel p) := by
  obtain ⟨label, keys⟩ := keys_of_renamed renamed
  refine ⟨label, fun key hkey => ?_⟩
  obtain ⟨old, -, rfl⟩ := keys key hkey
  exact ⟨newLabel, List.mem_singleton_self _, exists_rekey newLabel old⟩

theorem mem_labels (c : Condition) {q : Plan} (hq : q ∈ [left, right]) {l : String}
    (hl : l ∈ q.labels) : l ∈ (Plan.join left c right).labels := by
  have both : (Plan.join left c right).labels = left.labels ++ right.labels := List.map_append
  rw [both, List.mem_append]
  simp only [List.mem_cons, List.not_mem_nil, or_false] at hq
  rcases hq with rfl | rfl
  · exact .inl hl
  · exact .inr hl

theorem join {c : Condition} {j : KeyJoin}
    (built : KeyJoin.ofCondition c left.label right.label = .ok j)
    (hr : ∃ q ∈ [left, right], r.BelongsTo q) (hs : ∃ q ∈ [left, right], s.BelongsTo q) :
    (j.merge r s).BelongsTo (.join left c right) := by
  obtain ⟨pairs, -, rfl⟩ := map_eq_ok_iff.mp built
  refine ⟨rfl, fun key hkey => ?_⟩
  obtain ⟨q, hq, fromLeft⟩ := hr
  obtain ⟨q', hq', fromRight⟩ := hs
  rcases Table.mem_keys_union.mp hkey with hkey | hkey
  · obtain ⟨l, hl, name⟩ := fromLeft.keys key hkey
    exact ⟨l, mem_labels c hq hl, name⟩
  · obtain ⟨l, hl, name⟩ := fromRight.keys key hkey
    exact ⟨l, mem_labels c hq' hl, name⟩

/-- What an operator makes belongs to its plan if what it takes belongs to the inputs. -/
theorem operate {taken : List Record} (inputs : ∀ r ∈ taken, ∃ q ∈ p.inputs, r.BelongsTo q)
    (made : p.MadeOf taken r) : r.BelongsTo p := by
  cases made with
  | selected hr =>
      obtain ⟨q, hq, belongs⟩ := inputs r hr
      obtain rfl := List.mem_singleton.mp hq
      exact belongs.select _
  | projected hs projected =>
      obtain ⟨q, hq, belongs⟩ := inputs _ hs
      obtain rfl := List.mem_singleton.mp hq
      exact belongs.project projected
  | renamed hs renamed => exact rename _ renamed
  | joined built hl hs => exact join built (inputs _ hl) (inputs _ hs)

/-- A join takes records of the labels of its sides. -/
theorem label_of_join {spec : StageSpec} {j : KeyJoin} (hspec : p.spec? = some spec)
    (work : spec.work = .ok (.apply (.join j))) (h : ∃ q ∈ p.inputs, r.BelongsTo q) :
    r.label = j.leftLabel ∨ r.label = j.rightLabel := by
  obtain ⟨q, hq, belongs⟩ := h
  cases p with
  | scan relation | select c input | project attributes input | rename newLabel input =>
      cases hspec
      cases work
  | cross left right => cases hspec
  | join left c right =>
      cases hspec
      obtain ⟨built, found, made⟩ := map_eq_ok_iff.mp work
      cases made
      obtain ⟨pairs, -, rfl⟩ := map_eq_ok_iff.mp found
      simp only [Plan.inputs, List.mem_cons, List.not_mem_nil, or_false] at hq
      rcases hq with rfl | rfl
      · exact .inl belongs.label
      · exact .inr belongs.label

end Record.BelongsTo

section Strangers

variable {key label left right : String}

theorem Record.lookup_ne_strangeLabel (r : Record) (a : Attribute) :
    r.lookup a ≠ .error (.strangeLabel key label left right) := by
  unfold lookup
  split <;> simp

theorem Condition.equalIn_ne_strangeLabel (r : Record) (a b : Condition) :
    equalIn r a b ≠ .error (.strangeLabel key label left right) := by
  unfold equalIn
  split
  · simpa only [ne_eq, map_eq_error_iff] using r.lookup_ne_strangeLabel _
  · simpa only [ne_eq, map_eq_error_iff] using r.lookup_ne_strangeLabel _
  · split
    · rename_i found
      rintro ⟨⟩
      exact r.lookup_ne_strangeLabel _ found
    · simpa only [ne_eq, map_eq_error_iff] using r.lookup_ne_strangeLabel _
  · simp
  · simp

theorem Condition.holdsIn_ne_strangeLabel (c : Condition) (r : Record) :
    c.holdsIn r ≠ .error (.strangeLabel key label left right) := by
  induction c with
  | both a b iha ihb =>
      unfold holdsIn
      split
      · exact ihb
      · exact iha
  | equal a b => exact equalIn_ne_strangeLabel r a b
  | attr | literal => simp [holdsIn]

theorem projectEntries_ne_strangeLabel (r : Record) (done : Tuple) (attributes : List Attribute) :
    projectEntries r done attributes ≠ .error (.strangeLabel key label left right) := by
  induction attributes generalizing done with
  | nil => simp [projectEntries]
  | cons a rest ih =>
      unfold projectEntries
      split
      · rename_i fault found
        rintro ⟨⟩
        exact r.lookup_ne_strangeLabel a found
      · exact ih _

theorem renameEntries_ne_strangeLabel (old newLabel : String) (done : Tuple)
    (entries : List (String × Scalar)) :
    renameEntries old newLabel done entries ≠ .error (.strangeLabel key label left right) := by
  induction entries generalizing done with
  | nil => simp [renameEntries]
  | cons e rest ih =>
      simp only [renameEntries]
      split
      · simp
      · exact ih _

theorem KeyJoin.file_ne_strangeLabel (j : KeyJoin) (r : Record) :
    j.file r ≠ .error (.strangeLabel key label left right) := by
  rw [file, ne_eq, map_eq_error_iff]
  intro failed
  obtain ⟨pair, -, stuck⟩ := exists_of_mapM_eq_error failed
  unfold pairValue at stuck
  split at stuck <;> cases stuck

namespace Operator

variable {op : Operator}

theorem map_ne_strangeLabel (op : Operator) (r : Record) :
    op.map r ≠ .error (.strangeLabel key label left right) := by
  cases op with
  | select c => simpa only [map, ne_eq, map_eq_error_iff] using c.holdsIn_ne_strangeLabel r
  | project attributes =>
      simpa only [map, ne_eq, map_eq_error_iff] using projectEntries_ne_strangeLabel r _ _
  | rename newLabel =>
      simpa only [map, ne_eq, map_eq_error_iff] using renameEntries_ne_strangeLabel _ _ _ _
  | join j => exact j.file_ne_strangeLabel r

/-- An operator meets no stranger among records of the labels that it joins. -/
theorem run_ne_strangeLabel {records : List Record}
    (known : ∀ j, op = .join j → ∀ r ∈ records, r.label = j.leftLabel ∨ r.label = j.rightLabel) :
    op.run records ≠ .error (.strangeLabel key label left right) := by
  intro failed
  cases mapped : records.mapM op.map with
  | error fault =>
      obtain ⟨r, -, stuck⟩ := exists_of_mapM_eq_error mapped
      simp only [run, mapped, Except.error.injEq] at failed
      exact op.map_ne_strangeLabel r (failed ▸ stuck)
  | ok all =>
      -- All records are mapped, so a group is to blame; but all groups can be reduced.
      obtain ⟨out, ran⟩ : ∃ out, op.run records = .ok out := by
        refine exists_run (fun r hr => ?_) fun group values filed => ?_
        · obtain ⟨entries, -, equal⟩ := exists_of_mapM_eq_ok mapped hr
          exact ⟨entries, equal⟩
        · cases op with
          | select c | rename newLabel | project attributes => exact ⟨_, rfl⟩
          | join j =>
              have labels : ∀ s ∈ values, s.label = j.leftLabel ∨ s.label = j.rightLabel := by
                intro s hs
                obtain ⟨r, hr, entries, file, member⟩ := filed s hs
                obtain ⟨rfl, -⟩ := KeyJoin.mem_file_iff.mp ⟨entries, file, member⟩
                exact known j rfl s hr
              obtain ⟨both, sides⟩ := KeyJoin.exists_sides labels
              exact ⟨_, map_eq_ok_iff.mpr ⟨both, sides, rfl⟩⟩
      rw [ran] at failed
      cases failed

end Operator

end Strangers

/-- Records that belong to a plan under labels that fit on lines. -/
def Plan.Owns (p : Plan) (records : List Record) : Prop :=
  ∀ r ∈ records, r.BelongsTo p ∧ FitsLine r.label

namespace Plan

theorem exists_input_of_takenFrom {inputs : List Plan} {taken : List Record}
    (h : TakenFrom Owns inputs taken) :
    ∀ r ∈ taken, ∃ q ∈ inputs, r.BelongsTo q ∧ FitsLine r.label := by
  induction inputs generalizing taken with
  | nil =>
      rw [show taken = [] from h]
      simp
  | cons p rest ih =>
      obtain ⟨first, others, owned, more, rfl⟩ := h
      intro r hr
      rcases List.mem_append.mp hr with hr | hr
      · exact ⟨p, by simp, owned r hr⟩
      · obtain ⟨q, hq, both⟩ := ih more r hr
        exact ⟨q, by simp [hq], both⟩

/-- Operators and files keep whose the records are. -/
theorem carries_owns {p : Plan} (fits : p.AliasFitsAt) : p.Carries Owns where
  operate spec op hspec work taken made inputs ran := by
    have sources := exists_input_of_takenFrom inputs
    have labels := fitsLine_of_run hspec work fits (fun r hr => (sources r hr).choose_spec.2.2) ran
    refine fun r hr => ⟨.operate (fun s hs => ?_) (madeOf_of_run hspec work ran hr), labels r hr⟩
    obtain ⟨q, hq, belongs, -⟩ := sources s hs
    exact ⟨q, hq, belongs⟩
  stored made owned path records decoded := by
    intro r hr
    obtain ⟨s, hs, label, keys⟩ :=
      exists_of_mem_decodeRecords (fun s hs => (owned s hs).2) decoded hr
    obtain ⟨belongs, fits⟩ := owned s hs
    refine ⟨⟨label.trans belongs.label, ?_⟩, label ▸ fits⟩
    rw [keys]
    exact belongs.keys

end Plan

namespace Engine

variable {p : Plan} {start : StepId} {g : StageGraph} {e x : Engine} {s : Stage}

theorem stepRecords_ne_stage (e : Engine) (g : StageGraph) (taken step : StepId)
    (fault : OperatorFault) : e.stepRecords g taken ≠ .error (.stage step fault) := by
  intro failed
  obtain ⟨-, other⟩ | ⟨_, other⟩ := stepRecords_eq_error failed
  all_goals cases other

theorem inputRecords_ne_stage (e : Engine) (g : StageGraph) (inputs : List StepId) (step : StepId)
    (fault : OperatorFault) : e.inputRecords g inputs ≠ .error (.stage step fault) := by
  intro failed
  obtain ⟨i, -, read⟩ := exists_of_inputRecords_error failed
  exact e.stepRecords_ne_stage g i step fault read

section Owned

variable (compiled : p.compileFrom start = .ok g)
variable (fits : p.Everywhere Plan.AliasFitsAt)
variable (relations : ∀ relation ∈ g.relations, ∀ records,
  e.storage.readRelation relation = .ok records → ∀ r ∈ records, r.BelongsTo (.scan relation))

include compiled fits relations in
/-- Every attempt is one at the stage of a node, which takes and makes what plans own. -/
theorem Tries.owned (h : e.Tries g s x) : ∃ n ∈ p.numbered start, n.stage? = some s ∧
    (∀ taken, x.inputRecords g s.inputs = .ok taken →
      ∀ r ∈ taken, ∃ q ∈ n.plan.inputs, r.BelongsTo q) ∧
    ∀ op taken made, s.spec.work = .ok (.apply op) → x.applyOperator g s op = .ok (taken, made) →
      ∀ r ∈ made, r.BelongsTo n.plan := by
  have carries : ∀ n ∈ p.numbered start, n.plan.Carries Plan.Owns := fun n hn =>
    Plan.carries_owns (fits.of_mem_numbered hn).root
  have owned : ∀ n ∈ p.numbered start, ∀ relation, n.plan = .scan relation → ∀ records,
      e.storage.readRelation relation = .ok records → n.plan.Owns records := by
    intro n hn relation plan records read r hr
    rw [plan]
    exact ⟨relations relation (mem_relations_of_mem_numbered compiled hn plan) records read r hr,
      Storage.fitsLine_of_readRelation read r hr⟩
  obtain ⟨n, done, ready, carried⟩ := h.carried compiled carries owned
  refine ⟨n, ready.node, ready.stage, fun taken read r hr => ?_, fun op taken made work applied =>
    ?_⟩
  · obtain ⟨q, hq, belongs, -⟩ := Plan.exists_input_of_takenFrom
      (carried.taken compiled carries owned ready read) r hr
    exact ⟨q, hq, belongs⟩
  · exact fun r hr => (carried.made compiled carries owned ready work applied r hr).1

include compiled fits relations in
/-- No attempt meets a stranger. -/
theorem Tries.ne_strangeLabel (h : e.Tries g s x) (step : StepId)
    (key label left right : String) :
    (x.attempt g s).1 ≠ .error (.stage step (.strangeLabel key label left right)) := by
  obtain ⟨n, hn, stage, owned, -⟩ := h.owned compiled fits relations
  obtain ⟨spec, hspec, rfl⟩ := Option.map_eq_some_iff.mp stage
  obtain ⟨failPoints, failed⟩ | ⟨-, works⟩ := x.attempt_cases g _
  · rw [failed]
    simp
  rw [works]
  have outcome := x.workOutcome g ⟨n.step, spec, n.plan.label, n.children.map (·.step)⟩
  generalize x.doWork g _ = result at outcome
  cases outcome with
  | unbuilt | refused | stored => simp
  | offered =>
      rw [ne_eq, map_eq_error_iff, checkRelation]
      split <;> simp
  | @stuck op fault work applied =>
      rintro ⟨⟩
      unfold applyOperator at applied
      split at applied
      · rename_i read
        cases applied
        exact x.inputRecords_ne_stage g _ _ _ read
      rename_i taken read
      split at applied
      · rename_i ran
        cases applied
        refine Operator.run_ne_strangeLabel (fun j join r hr => ?_) ran
        exact Record.BelongsTo.label_of_join hspec (join ▸ work) (owned taken read r hr)
      · cases applied

end Owned

/-- Whatever the stage of a node of a compiled plan makes in a run, at whatever attempt and whether
the run succeeds or not, flows under the label of the node's plan, which is that of the stage, and
under keys of the labels of that plan. No attempt and no run fails with a record of a strange
label. -/
theorem run_keeps_names (compiled : p.compileFrom start = .ok g)
    (fits : p.Everywhere Plan.AliasFitsAt)
    (relations : ∀ relation ∈ g.relations, ∀ records,
      e.storage.readRelation relation = .ok records →
        ∀ r ∈ records, r.BelongsTo (.scan relation)) :
    (∀ n ∈ p.numbered start, ∃ s ∈ g.stages, n.stage? = some s ∧ s.label = n.plan.label ∧
      ∀ made, e.Makes g s made → ∀ r ∈ made, r.BelongsTo n.plan) ∧
    (∀ s x, e.Tries g s x → ∀ step key label left right,
      (x.attempt g s).1 ≠ .error (.stage step (.strangeLabel key label left right))) ∧
    ∀ step key label left right,
      (e.run g).1 ≠ .error (.stage step (.strangeLabel key label left right)) := by
  have valid := (compileFrom_eq_ok compiled).1
  refine ⟨fun n hn => ?_, fun s x tried => tried.ne_strangeLabel compiled fits relations,
    fun step key label left right failed => ?_⟩
  · obtain ⟨s, hs, stage, -⟩ := exists_stage_of_mem_numbered compiled hn
    obtain ⟨spec, -, rfl⟩ := Option.map_eq_some_iff.mp stage
    refine ⟨_, hs, stage, rfl, ?_⟩
    rintro made ⟨x, op, taken, tried, -, work, applied⟩
    obtain ⟨m, hm, same, -, owned⟩ := tried.owned compiled fits relations
    have equal : m = n := List.inj_on_of_nodup_map (nodup_map_step_numbered compiled) hm hn
      (step_of_stage? same).symm
    exact equal ▸ owned op taken made work applied
  · obtain ⟨s, x, tried, last⟩ | ⟨x, read⟩ := exists_tries_of_run_error valid failed
    · exact tried.ne_strangeLabel compiled fits relations step key label left right last
    · exact x.stepRecords_ne_stage g _ _ _ read

end Engine

theorem pizzaRelations_belong {relation : String} (h : relation ∈ pizzaGraph.relations)
    {records : List Record} (read : leftoverEngine.storage.readRelation relation = .ok records) :
    ∀ r ∈ records, r.BelongsTo (.scan relation) := by
  have belong (names : List String) (labels : ∀ r ∈ records, r.label = relation ∧
      ∀ key ∈ r.tuple.keys, ∃ name ∈ names, key = attributeKey relation name) :
      ∀ r ∈ records, r.BelongsTo (.scan relation) := fun r hr =>
    Record.belongsTo_scan_iff.mpr ⟨(labels r hr).1, fun key hkey =>
      ((labels r hr).2 key hkey).imp fun _ => And.right⟩
  obtain ⟨-, -, ⟨-, eats⟩, person⟩ := pizzaPlan_readAlike
  have both : pizzaGraph.relations = ["Eats", "Person"] := by decide
  rw [both, List.mem_pair] at h
  rcases h with rfl | rfl
  · cases (show leftoverEngine.storage.readRelation "Eats" = .ok eatsRecords from eats).symm.trans
      read
    exact belong ["name", "pizza"] (by decide)
  · cases (show leftoverEngine.storage.readRelation "Person" = .ok personRecords from
      person).symm.trans read
    exact belong ["age", "name"] (by decide)

/-- The stage that joins. -/
def pizzaJoin : Stage :=
  ⟨⟨2⟩, .join (.equal (.attr (.qualified "E" "name")) (.attr (.qualified "Person" "name"))) "E"
    "Person", "E,Person", [⟨3⟩, ⟨5⟩]⟩

/-- What it does. -/
def pizzaKeyJoin : KeyJoin :=
  ⟨"E", "Person", [(.qualified "E" "name", .qualified "Person" "name")]⟩

/-- The stages that run before it. -/
def beforePizzaJoin : List Stage :=
  [⟨⟨4⟩, .scan "Eats", "Eats", []⟩, ⟨⟨5⟩, .scan "Person", "Person", []⟩,
    ⟨⟨3⟩, .rename "E", "E", [⟨4⟩]⟩]

theorem Engine.run_keeps_names_pizzas :
    (∃ made, leftoverEngine.Makes pizzaGraph pizzaJoin made ∧ made.length = 2) ∧
    (∀ made, leftoverEngine.Makes pizzaGraph pizzaJoin made → ∀ r ∈ made,
      r.label = "E,Person" ∧
        ∀ key ∈ r.tuple.keys, ∃ l ∈ ["E", "Person"], ∃ name, key = attributeKey l name) ∧
    ∀ step key label left right,
      (leftoverEngine.run pizzaGraph).1 ≠
        .error (.stage step (.strangeLabel key label left right)) := by
  obtain ⟨makes, -, run⟩ :=
    Engine.run_keeps_names compileFrom_pizzaPlan (by decide) (e := leftoverEngine)
      fun relation h records read => pizzaRelations_belong h read
  refine ⟨?_, fun made produced r hr => ?_, run⟩
  · have order : pizzaGraph.schedule = beforePizzaJoin ++ pizzaJoin ::
        [⟨⟨1⟩, .project [.bare "pizza"], "E,Person", [⟨2⟩]⟩] := by
      decide +kernel
    have work : pizzaJoin.spec.work = .ok (.apply (.join pizzaKeyJoin)) := by
      decide +kernel
    have result : (leftoverEngine.runInOrder pizzaGraph beforePizzaJoin).1 =
          .ok [⟨⟨4⟩, .scan, 0, 0, 1⟩, ⟨⟨5⟩, .scan, 0, 0, 1⟩, ⟨⟨3⟩, .rename, 2, 2, 1⟩] ∧
        ((leftoverEngine.runInOrder pizzaGraph beforePizzaJoin).2.failPoints.hit
          (startPoint pizzaJoin.label)).1 = false ∧
        ((leftoverEngine.runInOrder pizzaGraph beforePizzaJoin).2.applyOperator
          pizzaGraph pizzaJoin (.join pizzaKeyJoin)).map (·.2.length) = .ok 2 := by
      decide +kernel
    obtain ⟨reached, calm, joined⟩ := result
    cases ran : leftoverEngine.runInOrder pizzaGraph beforePizzaJoin with
    | mk outcome x =>
        rw [ran] at reached calm joined
        obtain ⟨⟨taken, made⟩, applied, length⟩ := map_eq_ok_iff.mp joined
        have tried : leftoverEngine.Tries pizzaGraph pizzaJoin x :=
          ⟨_, _, x, order, ⟨_, ran.trans (Prod.ext reached rfl)⟩, self_mem_attemptStates _ _ _ _⟩
        exact ⟨made, ⟨x, _, taken, tried, calm, work, applied⟩, length⟩
  · obtain ⟨s, hs, stage, -, owned⟩ :=
      makes ⟨⟨2⟩, .join (.rename "E" (.scan "Eats"))
        (.equal (.attr (.qualified "E" "name")) (.attr (.qualified "Person" "name")))
        (.scan "Person")⟩ (by decide)
    obtain rfl : pizzaJoin = s := Option.some.inj stage
    obtain ⟨label, keys⟩ := owned made produced r hr
    exact ⟨label, keys⟩

end StagedAlgebra
