import Mathlib.Data.List.Forall2
import GraphQL.Proofs.Outcome

/-! Traversals of a list by a step that may fail. A traversal that ends well has one result for each
item, in order, and one that fails does so with the failure of the first item that fails. -/
namespace GraphQL

universe u

variable {ε α β γ : Type u}

/-- Traversals that agree on all items agree. -/
theorem mapM_congr_mem {items : List α} {first second : α → Except ε β}
    (h : ∀ item ∈ items, first item = second item) : items.mapM first = items.mapM second := by
  induction items with
  | nil => rfl
  | cons item rest ih =>
      obtain ⟨hItem, hRest⟩ := List.forall_mem_cons.1 h
      rw [List.mapM_cons, List.mapM_cons, hItem, ih hRest]

/-- A traversal that ends well has one result for each item. -/
theorem except_mapM_eq_ok {items : List α} {step : α → Except ε β} {results : List β} :
    items.mapM step = .ok results ↔
      List.Forall₂ (fun item result => step item = .ok result) items results := by
  induction items generalizing results with
  | nil => cases results <;> simp
  | cons item rest ih =>
      simp only [List.mapM_cons, except_bind_eq_ok, except_pure_eq_ok, ih]
      cases results with
      | nil => simp
      | cons result more => simp

/-- A traversal ends well if each of its steps does. -/
theorem except_mapM_of_ok {items : List α} {f : α → Except ε β} {g : α → β}
    (h : ∀ item ∈ items, f item = .ok (g item)) : items.mapM f = .ok (items.map g) := by
  rw [except_mapM_eq_ok, List.forall₂_map_right_iff, List.forall₂_same]
  exact h

/-- Whether `error` is the failure of the first of the items that fails. -/
def FirstFails (step : α → Except ε β) (items : List α) (error : ε) : Prop :=
  ∃ before item after, items = before ++ item :: after ∧
    (∀ earlier ∈ before, ∃ result, step earlier = .ok result) ∧ step item = .error error

theorem not_firstFails_nil {step : α → Except ε β} {error : ε} : ¬ FirstFails step [] error := by
  rintro ⟨before, item, after, hItems, -⟩
  simp at hItems

/-- The first failure is that of the first item, or it succeeds and the failure is among the rest.
-/
theorem firstFails_cons {step : α → Except ε β} {item : α} {rest : List α} {error : ε} :
    FirstFails step (item :: rest) error ↔ step item = .error error ∨
      (∃ result, step item = .ok result) ∧ FirstFails step rest error := by
  constructor
  · rintro ⟨before, failing, after, hItems, hBefore, hFailing⟩
    cases before with
    | nil =>
        cases hItems
        exact .inl hFailing
    | cons first before =>
        cases hItems
        obtain ⟨hFirst, hOthers⟩ := List.forall_mem_cons.1 hBefore
        exact .inr ⟨hFirst, before, failing, after, rfl, hOthers, hFailing⟩
  · rintro (hItem | ⟨hItem, before, failing, after, rfl, hBefore, hFailing⟩)
    · exact ⟨[], item, rest, rfl, by simp, hItem⟩
    · exact ⟨item :: before, failing, after, rfl, List.forall_mem_cons.2 ⟨hItem, hBefore⟩, hFailing⟩

/-- A traversal that fails gives the failure of the first item that fails. -/
theorem except_mapM_eq_error {items : List α} {step : α → Except ε β} {error : ε} :
    items.mapM step = .error error ↔ FirstFails step items error := by
  induction items with
  | nil => exact iff_of_false (fun h => nomatch h) not_firstFails_nil
  | cons item rest ih =>
      rw [List.mapM_cons, firstFails_cons, ← ih]
      cases step item with
      | error cause => simp [bind, Except.bind]
      | ok result => cases rest.mapM step <;> simp [bind, Except.bind, pure, Except.pure]

/-- A traversal that fails does so at some item. -/
theorem FirstFails.exists_mem {step : α → Except ε β} {items : List α} {error : ε}
    (h : FirstFails step items error) : ∃ item ∈ items, step item = .error error := by
  obtain ⟨before, item, after, rfl, -, hItem⟩ := h
  exact ⟨item, List.mem_append_right _ List.mem_cons_self, hItem⟩

/-- Whatever is made of the results, the same item fails first. -/
theorem firstFails_map {items : List α} {step : α → Except ε β}
    {change : α → β → γ} {error : ε} :
    FirstFails (fun item => (step item).map (change item)) items error ↔
      FirstFails step items error := by
  have hSucceeds (item : α) : (∃ result, (step item).map (change item) = .ok result) ↔
      ∃ result, step item = .ok result := by
    cases step item <;> simp [Except.map]
  simp only [FirstFails, hSucceeds, except_map_eq_error]

end GraphQL
