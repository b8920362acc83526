import Mathlib

/-!
# Runs of a machine with partial steps

A machine answers an action with its next state and an event, or refuses it.  A run is a
sequence of accepted actions; its history is the list of their events.  Invariants may speak
about the state and the history together.
-/

set_option autoImplicit false

namespace Tagdata.Library

section Runs

variable {S A E : Type} (step : S → A → Option (S × E))

/-- Performs actions one after another and collects their events. -/
def runs (s : S) : List A → Option (S × List E)
  | [] => some (s, [])
  | a :: actions => do
      let (s, e) ← step s a
      let (s, es) ← runs s actions
      return (s, e :: es)

theorem runs_cons {s s' : S} {a : A} {actions : List A} {es : List E}
    (h : runs step s (a :: actions) = some (s', es)) :
    ∃ t e rest, step s a = some (t, e) ∧ runs step t actions = some (s', rest) ∧
      es = e :: rest := by
  simp only [runs, Option.bind_eq_bind, Option.bind_eq_some_iff, Prod.exists, Option.pure_def,
    Option.some.injEq, Prod.mk.injEq] at h
  obtain ⟨t, e, hstep, u, rest, hrest, rfl, rfl⟩ := h
  exact ⟨t, e, rest, hstep, hrest, rfl⟩

/-- A fact about state and history that every step keeps holds after every run. -/
theorem runs_invariant (Inv : List E → S → Prop)
    (hstep : ∀ es s a s' e, Inv es s → step s a = some (s', e) → Inv (es ++ [e]) s')
    {s s' : S} {actions : List A} {past es : List E} (hinv : Inv past s)
    (h : runs step s actions = some (s', es)) : Inv (past ++ es) s' := by
  induction actions generalizing s past es with
  | nil =>
    obtain ⟨rfl, rfl⟩ : s = s' ∧ [] = es := by simpa [runs] using h
    simpa using hinv
  | cons a actions ih =>
    obtain ⟨t, e, rest, hfirst, hrest, rfl⟩ := runs_cons step h
    have hmore := ih (hstep past s a t e hinv hfirst) hrest
    simpa using hmore

end Runs

end Tagdata.Library
