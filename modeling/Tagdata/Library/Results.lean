import Mathlib

/-!
# Computations that can fail

How `Except` and `EStateM` computations run and what a successful run says about their
parts.
-/

set_option autoImplicit false

namespace Tagdata.Library

variable {ε σ α β : Type}

/-- A result is passed on. -/
@[simp] theorem except_bind_ok (a : α) (f : α → Except ε β) :
    ((Except.ok a : Except ε α) >>= f) = f a := rfl

/-- An error ends the computation. -/
@[simp] theorem except_bind_error (e : ε) (f : α → Except ε β) :
    ((Except.error e : Except ε α) >>= f) = .error e := rfl

/-- To return is a result. -/
@[simp] theorem except_pure (a : α) : (pure a : Except ε α) = .ok a := rfl

/-- To throw is an error. -/
@[simp] theorem except_throw (e : ε) : (throw e : Except ε α) = .error e := rfl

/-- A sequence succeeds when both parts do. -/
theorem except_bind_eq_ok {x : Except ε α} {f : α → Except ε β} {b : β} :
    (x >>= f) = .ok b ↔ ∃ a, x = .ok a ∧ f a = .ok b := by
  cases x <;> simp

/-- A mapped result succeeds when the result does. -/
theorem except_map_eq_ok {x : Except ε α} {f : α → β} {b : β} :
    x.map f = .ok b ↔ ∃ a, x = .ok a ∧ f a = b := by
  cases x <;> simp [Except.map]

/-- To return leaves the state alone. -/
@[simp] theorem estate_pure (a : α) (s : σ) : (pure a : EStateM ε σ α) s = .ok a s := rfl

/-- So does to throw. -/
@[simp] theorem estate_throw (e : ε) (s : σ) : (throw e : EStateM ε σ α) s = .error e s := rfl

/-- The state is read. -/
@[simp] theorem estate_get (s : σ) : (get : EStateM ε σ σ) s = .ok s s := rfl

/-- The same for the method of the class. -/
@[simp] theorem estate_get' (s : σ) : (MonadState.get : EStateM ε σ σ) s = .ok s s := rfl

/-- The state is replaced. -/
@[simp] theorem estate_set (s s' : σ) : (set s' : EStateM ε σ PUnit) s = .ok ⟨⟩ s' := rfl

/-- An error hands back the state it was thrown in. -/
theorem estate_bind (x : EStateM ε σ α) (f : α → EStateM ε σ β) (s : σ) :
    (x >>= f) s = match x s with
      | .ok a s' => f a s'
      | .error e s' => .error e s' := by
  show EStateM.bind x f s = _
  unfold EStateM.bind
  cases x s <;> rfl

/-- A first step that returned. -/
theorem estate_bind_ok {x : EStateM ε σ α} {f : α → EStateM ε σ β} {s s' : σ} {a : α}
    (h : x s = .ok a s') : (x >>= f) s = f a s' := by
  rw [estate_bind, h]

/-- A first step that failed. -/
theorem estate_bind_error {x : EStateM ε σ α} {f : α → EStateM ε σ β} {s s' : σ} {e : ε}
    (h : x s = .error e s') : (x >>= f) s = .error e s' := by
  rw [estate_bind, h]

/-- A result is mapped, an error is not. -/
theorem estate_map (f : α → β) (x : EStateM ε σ α) (s : σ) :
    (f <$> x) s = match x s with
      | .ok a s' => .ok (f a) s'
      | .error e s' => .error e s' := by
  show EStateM.map f x s = _
  unfold EStateM.map
  cases x s <;> rfl

end Tagdata.Library
