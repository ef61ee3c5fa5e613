import Mathlib.Data.List.Forall2

/-!
# Outcomes that may fail

A computation that may fail succeeds exactly if its parts do. The lemmas take a successful outcome
apart into those of its parts, and put it together again.
-/

namespace StagedAlgebra

variable {ε : Type u} {α : Type v} {β : Type w}

theorem bind_eq_ok_iff {x : Except ε α} {f : α → Except ε β} {b : β} :
    x.bind f = .ok b ↔ ∃ a, x = .ok a ∧ f a = .ok b := by
  cases x <;> simp [Except.bind]

theorem map_eq_ok_iff {x : Except ε α} {f : α → β} {b : β} :
    x.map f = .ok b ↔ ∃ a, x = .ok a ∧ f a = b := by
  cases x <;> simp [Except.map]

theorem map_eq_error_iff {x : Except ε α} {f : α → β} {fault : ε} :
    x.map f = .error fault ↔ x = .error fault := by
  cases x <;> simp [Except.map]

theorem mapError_eq_ok_iff {δ : Type w} {x : Except ε α} {f : ε → δ} {a : α} :
    x.mapError f = .ok a ↔ x = .ok a := by
  cases x <;> simp [Except.mapError]

theorem mapError_eq_error_iff {δ : Type w} {x : Except ε α} {f : ε → δ} {fault : δ} :
    x.mapError f = .error fault ↔ ∃ reason, x = .error reason ∧ f reason = fault := by
  cases x <;> simp [Except.mapError]

/-- A list is worked through successfully exactly if each of its members is. -/
theorem mapM_eq_ok_iff {β : Type v} {f : α → Except ε β} {xs : List α} {ys : List β} :
    xs.mapM f = .ok ys ↔ List.Forall₂ (fun x y => f x = .ok y) xs ys := by
  induction xs generalizing ys with
  | nil =>
      rw [List.mapM_nil, List.forall₂_nil_left_iff]
      exact ⟨fun h => (Except.ok.inj h).symm, fun h => h ▸ rfl⟩
  | cons x rest ih =>
      rw [List.mapM_cons, List.forall₂_cons_left_iff]
      cases hx : f x with
      | error fault => simp [bind, Except.bind]
      | ok y =>
          cases hrest : rest.mapM f with
          | error fault =>
              have hnone : ∀ us, ¬ List.Forall₂ (fun x y => f x = .ok y) rest us := by
                intro us hus
                have hok := ih.2 hus
                rw [hrest] at hok
                cases hok
              simp [bind, Except.bind, hnone]
          | ok rest' =>
              have huniq : ∀ us, List.Forall₂ (fun x y => f x = .ok y) rest us ↔ us = rest' := by
                intro us
                rw [← ih, hrest]
                exact ⟨fun h => (Except.ok.inj h).symm, fun h => h ▸ rfl⟩
              simp [bind, Except.bind, pure, Except.pure, huniq, eq_comm]

theorem mapM_eq_ok_map {β : Type v} {f : α → Except ε β} {g : α → β} {xs : List α}
    (h : ∀ x ∈ xs, f x = .ok (g x)) : xs.mapM f = .ok (xs.map g) := by
  rw [mapM_eq_ok_iff, List.forall₂_map_right_iff, List.forall₂_same]
  exact h

/-- Where each member succeeds, the whole list does. -/
theorem exists_mapM_eq_ok {β : Type v} {f : α → Except ε β} {xs : List α}
    (h : ∀ x ∈ xs, ∃ y, f x = .ok y) : ∃ ys, xs.mapM f = .ok ys := by
  induction xs with
  | nil => exact ⟨[], rfl⟩
  | cons x rest ih =>
      obtain ⟨y, hy⟩ := h x (List.mem_cons_self ..)
      obtain ⟨ys, hys⟩ := ih fun z hz => h z (List.mem_cons_of_mem _ hz)
      refine ⟨y :: ys, ?_⟩
      rw [mapM_eq_ok_iff] at hys ⊢
      exact List.Forall₂.cons hy hys

/-- A list that cannot be worked through has a member that cannot. -/
theorem exists_of_mapM_eq_error {β : Type v} {f : α → Except ε β} {xs : List α} {fault : ε}
    (h : xs.mapM f = .error fault) : ∃ x ∈ xs, f x = .error fault := by
  induction xs with
  | nil => cases h
  | cons x rest ih =>
      rw [List.mapM_cons] at h
      cases first : f x with
      | error other =>
          rw [first] at h
          cases h
          exact ⟨x, List.mem_cons_self .., first⟩
      | ok y =>
          cases others : rest.mapM f with
          | ok ys =>
              rw [first, others] at h
              cases h
          | error other =>
              rw [first, others] at h
              cases h
              obtain ⟨z, hz, failed⟩ := ih others
              exact ⟨z, List.mem_cons_of_mem _ hz, failed⟩

/-- What a list is worked into comes from its members. -/
theorem mem_of_mapM_eq_ok {β : Type v} {f : α → Except ε β} {xs : List α} {ys : List β}
    (h : xs.mapM f = .ok ys) (y : β) : y ∈ ys ↔ ∃ x ∈ xs, f x = .ok y := by
  rw [mapM_eq_ok_iff] at h
  induction h with
  | nil => simp
  | @cons x y' rest ys hx _ ih =>
      simp [ih, hx, eq_comm]

/-- What is related to a member of one list is in the other. -/
theorem exists_of_forall₂_of_mem {R : α → β → Prop} {xs : List α} {ys : List β}
    (h : List.Forall₂ R xs ys) {x : α} (hx : x ∈ xs) : ∃ y ∈ ys, R x y := by
  induction h with
  | nil => cases hx
  | @cons x' y rest ys hy _ ih =>
      rcases List.mem_cons.1 hx with rfl | hx
      · exact ⟨y, List.mem_cons_self .., hy⟩
      · obtain ⟨z, hz, hrel⟩ := ih hx
        exact ⟨z, List.mem_cons_of_mem _ hz, hrel⟩

theorem exists_of_mapM_eq_ok {β : Type v} {f : α → Except ε β} {xs : List α} {ys : List β}
    (h : xs.mapM f = .ok ys) {x : α} (hx : x ∈ xs) : ∃ y ∈ ys, f x = .ok y :=
  exists_of_forall₂_of_mem (mapM_eq_ok_iff.1 h) hx

theorem toOption_map (outcome : Except ε α) (f : α → β) :
    (outcome.map f).toOption = outcome.toOption.map f := by
  cases outcome <;> rfl

theorem mapM_eq_some_map {f : α → Option β} {g : α → β} {xs : List α}
    (h : ∀ x ∈ xs, f x = some (g x)) : xs.mapM f = some (xs.map g) := by
  induction xs with
  | nil => rfl
  | cons x rest ih =>
      rw [List.mapM_cons, h x (List.mem_cons_self ..),
        ih fun y hy => h y (List.mem_cons_of_mem _ hy)]
      rfl

/-- One member that fails makes the whole list fail. -/
theorem mapM_eq_none {f : α → Option β} {xs : List α} {x : α} (hx : x ∈ xs) (h : f x = none) :
    xs.mapM f = none := by
  induction xs with
  | nil => cases hx
  | cons first rest ih =>
      rw [List.mapM_cons]
      rcases List.mem_cons.mp hx with rfl | hx
      · rw [h]
        rfl
      · rw [ih hx]
        cases f first <;> rfl

end StagedAlgebra
