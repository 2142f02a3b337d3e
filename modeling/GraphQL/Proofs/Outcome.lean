/-! What the success of a computation says of its parts, and what its failure does. Computations
that may fail are opened with these facts rather than by unfolding their monads. -/
namespace GraphQL

universe u

variable {ε σ α β : Type u}

@[simp] theorem except_bind_eq_ok {x : Except ε α} {f : α → Except ε β} {b : β} :
    (x >>= f) = .ok b ↔ ∃ a, x = .ok a ∧ f a = .ok b := by
  cases x with
  | error error => simp [bind, Except.bind]
  | ok a => simp [bind, Except.bind]

/-- Of two steps the first fails, or it succeeds and the second fails. -/
theorem except_bind_eq_error {x : Except ε α} {f : α → Except ε β} {error : ε} :
    (x >>= f) = .error error ↔ x = .error error ∨ ∃ a, x = .ok a ∧ f a = .error error := by
  cases x <;> simp [bind, Except.bind]

@[simp] theorem except_pure_eq_ok {a b : α} : (pure a : Except ε α) = .ok b ↔ a = b := by
  simp [pure, Except.pure]

@[simp] theorem except_map_eq_ok {x : Except ε α} {f : α → β} {b : β} :
    x.map f = .ok b ↔ ∃ a, x = .ok a ∧ f a = b := by
  cases x <;> simp [Except.map]

@[simp] theorem except_map_eq_error {x : Except ε α} {f : α → β} {error : ε} :
    x.map f = .error error ↔ x = .error error := by
  cases x <;> simp [Except.map]

/-- A result that is entered under a name. -/
theorem except_map_pair_eq_ok {x : Except ε β} {a : α} {result : α × β} :
    x.map (fun b => (a, b)) = .ok result ↔ result.1 = a ∧ x = .ok result.2 := by
  obtain ⟨name, b⟩ := result
  cases x with
  | error error => simp [Except.map]
  | ok answer => simp [Except.map, eq_comm]

theorem except_toOption_eq_some {x : Except ε α} {a : α} : x.toOption = some a ↔ x = .ok a := by
  cases x <;> simp [Except.toOption]

/-- To go on with a function is to map the result. -/
theorem except_bind_pure {x : Except ε α} {f : α → β} : (do return f (← x)) = x.map f := by
  cases x <;> rfl

@[simp] theorem except_throw_ne_ok {error : ε} {a : α} : (throw error : Except ε α) ≠ .ok a :=
  fun h => nomatch h

/-- A sequence ends well exactly if its first part does and the rest does from there on. -/
@[simp] theorem estate_bind_eq_ok {x : EStateM ε σ α} {f : α → EStateM ε σ β} {s t : σ} {b : β} :
    (x >>= f) s = .ok b t ↔ ∃ a middle, x s = .ok a middle ∧ f a middle = .ok b t := by
  simp only [bind, EStateM.bind]
  split
  · next a middle hx => simp [hx, and_assoc]
  · next error middle hx => simp [hx]

/-- After a step that succeeds the next goes on in the state it left. -/
theorem estate_bind_of_ok {x : EStateM ε σ α} {f : α → EStateM ε σ β} {s t : σ} {a : α}
    (h : x s = .ok a t) : (x >>= f) s = f a t := by
  simp only [bind, EStateM.bind, h]

/-- After a step that fails nothing more is done. -/
theorem estate_bind_of_error {x : EStateM ε σ α} {f : α → EStateM ε σ β} {s t : σ} {e : ε}
    (h : x s = .error e t) : (x >>= f) s = .error e t := by
  simp only [bind, EStateM.bind, h]

@[simp] theorem estate_pure_eq_ok {a b : α} {s t : σ} :
    (pure a : EStateM ε σ α) s = .ok b t ↔ b = a ∧ t = s := by
  simp [pure, EStateM.pure, eq_comm]

@[simp] theorem estate_map_eq_ok {x : EStateM ε σ α} {f : α → β} {s t : σ} {b : β} :
    (f <$> x) s = .ok b t ↔ ∃ a, x s = .ok a t ∧ f a = b := by
  simp only [Functor.map, EStateM.map]
  split
  · next a middle hx => simp only [hx, EStateM.Result.ok.injEq]; grind
  · next error middle hx => simp [hx]

end GraphQL
