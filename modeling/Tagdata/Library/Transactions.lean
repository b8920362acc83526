import Mathlib

/-!
# Transactions over a state

A store has a committed state and, while a transaction runs, the state the transaction has made of
it.  Operations change the second; a commit makes it the first, a rollback forgets it.
-/

set_option autoImplicit false

namespace Tagdata.Library

variable {S : Type}

/-- The committed state, and the state of the running transaction. -/
structure Store (S : Type) where
  committed : S
  working : Option S

namespace Store

/-- One step, where `op` says what an operation may do. -/
inductive Step (op : S → S → Prop) : Store S → Store S → Prop
  | start (c : S) : Step op ⟨c, none⟩ ⟨c, some c⟩
  | operate (c : S) {w w' : S} (h : op w w') : Step op ⟨c, some w⟩ ⟨c, some w'⟩
  | commit (c w : S) : Step op ⟨c, some w⟩ ⟨w, none⟩
  | rollback (c w : S) : Step op ⟨c, some w⟩ ⟨c, none⟩

/-- The stores that runs from a committed state lead to. -/
def Reachable (op : S → S → Prop) (c : S) (s : Store S) : Prop :=
  Relation.ReflTransGen (Step op) ⟨c, none⟩ s

/-- The states in a store. -/
def Holds (s : Store S) (x : S) : Prop := x = s.committed ∨ s.working = some x

variable {op : S → S → Prop} {Inv : S → Prop}

/-- One step keeps what every operation keeps. -/
theorem Step.invariant (hop : ∀ w w', Inv w → op w w' → Inv w') {s s' : Store S}
    (hstep : Step op s s') (h : ∀ x, s.Holds x → Inv x) : ∀ x, s'.Holds x → Inv x := by
  intro x hx
  cases hstep with
  | start c =>
    obtain rfl | hx := hx
    · exact h _ (.inl rfl)
    · obtain rfl := Option.some.inj hx
      exact h _ (.inl rfl)
  | @operate c w w' hww' =>
    obtain rfl | hx := hx
    · exact h _ (.inl rfl)
    · obtain rfl := Option.some.inj hx
      exact hop w _ (h w (.inr rfl)) hww'
  | commit c w =>
    obtain rfl | hx := hx
    · exact h _ (.inr rfl)
    · cases hx
  | rollback c w =>
    obtain rfl | hx := hx
    · exact h _ (.inl rfl)
    · cases hx

/-- What every operation keeps holds of every state of every run. -/
theorem Reachable.invariant (hop : ∀ w w', Inv w → op w w' → Inv w') {c : S} (hc : Inv c)
    {s : Store S} (hs : Reachable op c s) : ∀ x, s.Holds x → Inv x := by
  induction hs with
  | refl =>
    rintro x (rfl | hx)
    · exact hc
    · cases hx
  | tail _ hstep ih => exact hstep.invariant hop ih

end Store

end Tagdata.Library
