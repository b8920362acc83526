import Mathlib

/-!
# Sequences framed by a terminator

A sequence over an ordered alphabet is framed by escaping its least letter and ending it with two
of them.  Frames can be put one after the other: they compare as the sequences do, and only then
as what follows.
-/

set_option autoImplicit false

namespace Tagdata.Library

variable {α : Type} [LinearOrder α] {zero top : α}

/-- What stands for one letter. -/
def escapeOne (zero top c : α) : List α := if c = zero then [zero, top] else [c]

/-- A sequence, escaped and ended. -/
def frame (zero top : α) (l : List α) : List α := l.flatMap (escapeOne zero top) ++ [zero, zero]

theorem frame_cons (c : α) (l : List α) :
    frame zero top (c :: l) = escapeOne zero top c ++ frame zero top l := by
  rw [frame, frame, List.flatMap_cons, List.append_assoc]

theorem escapeOne_of_ne {c : α} (h : c ≠ zero) : escapeOne zero top c = [c] := if_neg h

theorem escapeOne_zero : escapeOne zero top zero = [zero, top] := if_pos rfl

/-- A frame that ends comes before one that goes on. -/
theorem frame_nil_lt (hzero : ∀ c, zero ≤ c) (htop : zero < top) (d : α) (b x y : List α) :
    frame zero top [] ++ x < frame zero top (d :: b) ++ y := by
  rw [frame_cons]
  by_cases hd : d = zero
  · rw [hd, escapeOne_zero]
    simp [frame, List.cons_lt_cons_iff, htop]
  · have hlt : zero < d := lt_of_le_of_ne (hzero d) (Ne.symm hd)
    rw [escapeOne_of_ne hd]
    simp [frame, List.cons_lt_cons_iff, hlt]

/-- A smaller letter comes first, whatever follows. -/
theorem escapeOne_append_lt (hzero : ∀ c, zero ≤ c) {c d : α} (h : c < d) (x y : List α) :
    escapeOne zero top c ++ x < escapeOne zero top d ++ y := by
  have hd : d ≠ zero := fun hd => absurd h (not_lt.mpr (hd ▸ hzero c))
  rw [escapeOne_of_ne hd]
  by_cases hc : c = zero
  · rw [hc, escapeOne_zero]
    exact List.cons_lt_cons_iff.mpr (.inl (hc ▸ h))
  · rw [escapeOne_of_ne hc]
    exact List.cons_lt_cons_iff.mpr (.inl h)

theorem escapeOne_append_lt_iff (c : α) (x y : List α) :
    escapeOne zero top c ++ x < escapeOne zero top c ++ y ↔ x < y := by
  by_cases hc : c = zero
  · rw [hc, escapeOne_zero]
    simp
  · rw [escapeOne_of_ne hc]
    simp

/-- **Frames compare as the sequences they hold, then as what follows them.** -/
theorem frame_append_lt (hzero : ∀ c, zero ≤ c) (htop : zero < top) (a b x y : List α) :
    frame zero top a ++ x < frame zero top b ++ y ↔ a < b ∨ a = b ∧ x < y := by
  induction a generalizing b with
  | nil =>
    cases b with
    | nil => simp [frame]
    | cons d b =>
      exact iff_of_true (frame_nil_lt hzero htop d b x y) (.inl (List.nil_lt_cons d b))
  | cons c a ih =>
    cases b with
    | nil => exact iff_of_false (frame_nil_lt hzero htop c a y x).asymm (by simp)
    | cons d b =>
      rw [frame_cons, frame_cons, List.append_assoc, List.append_assoc, List.cons_lt_cons_iff,
        List.cons.injEq]
      -- the first letters decide, unless they are the same
      rcases lt_trichotomy c d with hlt | heq | hgt
      · exact iff_of_true (escapeOne_append_lt hzero hlt _ _) (.inl (.inl hlt))
      · subst heq
        rw [escapeOne_append_lt_iff, ih]
        simp
      · refine iff_of_false (escapeOne_append_lt hzero hgt _ _).asymm ?_
        rintro ((hlt | ⟨heq, -⟩) | ⟨⟨heq, -⟩, -⟩)
        · exact hlt.asymm hgt
        · exact hgt.ne' heq
        · exact hgt.ne' heq

end Tagdata.Library
