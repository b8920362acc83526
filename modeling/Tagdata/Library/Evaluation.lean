import Tagdata.Library.Programs

/-!
# Programs on a machine that always answers

Where a machine answers every call, a program is a function of the state: its result and the state
it leaves.  Two parties whose calls meet in one state do not interfere when each of them sees the
same answers as if the other had made no call.
-/

set_option autoImplicit false

namespace Tagdata.Library

namespace Prog

variable {O A ε ε' α β S T : Type}

/-- Runs a program on a machine that answers every call. -/
def eval (serve : O → S → A × S) : Prog O A ε α → S → Except ε α × S
  | .done a, s => (.ok a, s)
  | .fail e, s => (.error e, s)
  | .call o next, s => (next (serve o s).1).eval serve (serve o s).2

/-- The same program, whose error is a result. -/
def captured : Prog O A ε α → Prog O A ε' (Except ε α)
  | .done a => .done (.ok a)
  | .fail e => .done (.error e)
  | .call o next => .call o fun a => (next a).captured

variable {serve : O → S → A × S}

@[simp] theorem eval_pure (a : α) (s : S) :
    (pure a : Prog O A ε α).eval serve s = (.ok a, s) := rfl

@[simp] theorem eval_fail (e : ε) (s : S) :
    (.fail e : Prog O A ε α).eval serve s = (.error e, s) := rfl

/-- The evaluation is one of the endings that an interface allows. -/
theorem ends_eval {rel : Iface S O A} (h : ∀ s o, rel s o (serve o s).1 (serve o s).2)
    (p : Prog O A ε α) (s : S) : Ends rel p s (p.eval serve s).1 (p.eval serve s).2 := by
  induction p generalizing s with
  | done a => exact ⟨rfl, rfl⟩
  | fail e => exact ⟨rfl, rfl⟩
  | call o next ih => exact ⟨_, _, h s o, ih _ _⟩

end Prog

/-! ## Noninterference -/

section Noninterference

variable {S O R : Type}

/-- What one party is answered when calls are made one after another. -/
def answers (step : O → S → R × S) (mine : O → Bool) : List O → S → List R
  | [], _ => []
  | o :: os, s =>
      if mine o then (step o s).1 :: answers step mine os (step o s).2
      else answers step mine os (step o s).2

end Noninterference

end Tagdata.Library
