import StagedAlgebra.Proofs.SelectionChains

/-!
# Outcomes of conditions

To evaluate a condition in a record is to evaluate its conjuncts from left to right, up to the
first one that does not hold or cannot be evaluated. How the conjunctions are nested plays no part
in it: conditions with the same conjuncts in the same order have the same outcome in every record,
a truth value or a fault.

## Implementation notes

`firstStop` is stated by a search through all outcomes and not by evaluating one after another. So
it says nothing about nesting, and what makes re-nesting safe is the single law `firstStop_append`.
-/

namespace StagedAlgebra.Condition

variable {b c : Condition}

/-- The outcome of conditions that are to hold together, from theirs: the first that is anything
but that the condition holds. -/
def firstStop (outcomes : List (Except OperatorFault Bool)) : Except OperatorFault Bool :=
  (outcomes.find? (· ≠ .ok true)).getD (.ok true)

/-- The outcome of a condition that is no conjunction: operands are compared, and nothing else is a
predicate. -/
def aloneIn (r : Record) : Condition → Except OperatorFault Bool
  | .equal left right => equalIn r left right
  | c => .error (.notPredicate c)

theorem firstStop_singleton (outcome : Except OperatorFault Bool) :
    firstStop [outcome] = outcome := by
  by_cases holds : outcome = .ok true
  · simp [firstStop, holds]
  · simp [firstStop, holds]

/-- What comes later counts only where everything before it holds. -/
theorem firstStop_append (before after : List (Except OperatorFault Bool)) :
    firstStop (before ++ after) =
      match firstStop before with
      | .ok true => firstStop after
      | other => other := by
  rw [firstStop, List.find?_append]
  cases stopped : before.find? (· ≠ .ok true) with
  | none => simp only [firstStop, stopped, Option.none_or, Option.getD_none]
  | some outcome =>
      have stops : outcome ≠ .ok true := by simpa using List.find?_some stopped
      simp only [firstStop, stopped, Option.some_or, Option.getD_some]

theorem Single.holdsIn_eq (h : c.Single) (r : Record) : c.holdsIn r = c.aloneIn r := by
  cases c with
  | attr _ | literal _ | equal _ _ => rfl
  | both _ _ => exact h.elim

/-- A condition has the outcome of its conjuncts from left to right. -/
theorem holdsIn_eq_firstStop (c : Condition) (r : Record) :
    c.holdsIn r = firstStop (c.conjuncts.map (holdsIn r)) := by
  induction c with
  | attr _ | literal _ | equal _ _ _ _ => exact (firstStop_singleton _).symm
  | both left right ihl ihr =>
      rw [conjuncts_both, List.map_append, firstStop_append, ← ihl, ← ihr]
      rfl

theorem holdsIn_eq_of_conjuncts_eq (same : b.conjuncts = c.conjuncts) (r : Record) :
    b.holdsIn r = c.holdsIn r := by
  rw [holdsIn_eq_firstStop, same, ← holdsIn_eq_firstStop]

/-- Evaluation goes through the conjuncts of a condition from left to right and stops at the first
one that does not hold or cannot be evaluated. It depends on nothing else of the condition, so it
is the same for the conjunction of the conjuncts. -/
theorem holdsIn_conjunct_by_conjunct (c : Condition) (r : Record) :
    c.holdsIn r = firstStop (c.conjuncts.map (holdsIn r)) ∧
      (∀ conjunct ∈ c.conjuncts, conjunct.holdsIn r = conjunct.aloneIn r) ∧
      (∀ b : Condition, b.conjuncts = c.conjuncts → b.holdsIn r = c.holdsIn r) ∧
      ∃ joined, conjunction c.conjuncts = some joined ∧ joined.holdsIn r = c.holdsIn r := by
  refine ⟨holdsIn_eq_firstStop c r, ?_, ?_, ?_⟩
  · intro conjunct member
    exact (single_of_mem_conjuncts member).holdsIn_eq r
  · intro b same
    exact holdsIn_eq_of_conjuncts_eq same r
  · obtain ⟨joined, made⟩ := exists_conjunction c.conjuncts_ne_nil
    have same : joined.conjuncts = c.conjuncts := by
      rw [conjuncts_of_conjunction made, flatMap_conjuncts]
    exact ⟨joined, made, holdsIn_eq_of_conjuncts_eq same r⟩

/-- The second of three conjuncts asks for a column that is not there, so the third, which does not
hold, is not looked at under either nesting. -/
theorem holdsIn_conjunct_by_conjunct_renested :
    let r : Record := ⟨"P", .ofList [("P.age", .int 7)]⟩
    let seven : Condition := .equal (.attr (.bare "age")) (.literal (.int 7))
    let placed : Condition := .equal (.attr (.qualified "P" "town")) (.literal (.text "Ulm"))
    let never : Condition := .equal (.literal (.int 1)) (.attr (.bare "age"))
    let b : Condition := .both seven (.both placed never)
    let c : Condition := .both (.both seven placed) never
    b ≠ c ∧ b.conjuncts = c.conjuncts ∧ b.holdsIn r = c.holdsIn r ∧
      c.holdsIn r = .error (.unresolved "P.town" "P") := by
  intro r seven placed never b c
  have same : b.conjuncts = c.conjuncts := rfl
  exact ⟨by decide, same, (holdsIn_conjunct_by_conjunct c r).2.2.1 b same, by decide +kernel⟩

end StagedAlgebra.Condition
