import Tagdata.Library.Results

/-!
# Iterators

An iterator is a step on a state that answers an element or `none`.  `Yields` is what a loop
over it sees, up to and including the first `none`; an iterator may go on differently after
that, so the state it is left in belongs to the statement.
-/

set_option autoImplicit false

namespace Tagdata.Library

variable {ε σ α β : Type}

/-- Calls an iterator until its first `none`, at most `n` times. -/
def drain (next : EStateM ε σ (Option α)) (overrun : ε) : Nat → EStateM ε σ (List α)
  | 0 => throw overrun
  | n + 1 => do
      match ← next with
      | none => return []
      | some a =>
          let rest ← drain next overrun n
          return a :: rest

/-- Until its first `none` the iterator answers these elements. -/
inductive Yields (next : EStateM ε σ (Option α)) : σ → List α → σ → Prop
  | done {s s' : σ} (stop : next s = .ok none s') : Yields next s [] s'
  | more {s s' s'' : σ} {a : α} {l : List α} (step : next s = .ok (some a) s')
      (rest : Yields next s' l s'') : Yields next s (a :: l) s''

namespace Yields

variable {next : EStateM ε σ (Option α)} {s s' : σ} {l : List α}

theorem drain (h : Yields next s l s') (overrun : ε) :
    ∀ n, l.length < n → Library.drain next overrun n s = .ok l s' := by
  induction h with
  | done stop =>
    intro n hn
    obtain ⟨n, rfl⟩ : ∃ m, n = m + 1 := ⟨n - 1, by omega⟩
    rw [Library.drain, estate_bind_ok stop]
    rfl
  | more step rest ih =>
    intro n hn
    rw [List.length_cons] at hn
    obtain ⟨n, rfl⟩ : ∃ m, n = m + 1 := ⟨n - 1, by omega⟩
    rw [Library.drain, estate_bind_ok step]
    simp only
    rw [estate_bind_ok (ih n (by omega))]
    rfl

end Yields

end Tagdata.Library
