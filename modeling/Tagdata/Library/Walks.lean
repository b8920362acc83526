import Mathlib

/-!
# Walks over a graph with a stack

A walk takes a vertex off a stack, looks up what lies below it and puts that on the stack.  Nothing
is remembered about the vertices that were taken before.  When only finitely many vertices have
something below them, the walk ends exactly when it never takes a vertex that it reached through
that vertex itself.
-/

set_option autoImplicit false

namespace Tagdata.Library

variable {α : Type} (below : α → Option (List α))

/-- The walk, for a number of rounds: `some true` when the stack is empty, `some false` when a
vertex was taken that has no entry, `none` when the rounds were used up. -/
def walk : Nat → List α → Option Bool
  | _, [] => some true
  | 0, _ :: _ => none
  | rounds + 1, a :: rest =>
      match below a with
      | none => some false
      | some next => walk rounds (next ++ rest)

/-- The walk gets through everything below a vertex. -/
def Clears (a : α) : Prop := ∃ rounds, walk below rounds [a] = some true

/-- The walk ends. -/
def WalkEnds (stack : List α) : Prop := ∃ rounds, walk below rounds stack ≠ none

/-- The vertices that the walk takes off the stack, with those they were reached through. -/
inductive Takes (root : α) : α → List α → Prop
  | root : Takes root root []
  | down {a b : α} {above front back : List α} (h : Takes root a above)
      (hbelow : below a = some (front ++ b :: back)) (hfront : ∀ c ∈ front, Clears below c) :
      Takes root b (a :: above)

/-- No vertex is taken that was reached through itself. -/
def NeverBelowItself (root : α) : Prop := ∀ a above, Takes below root a above → a ∉ above

variable {below} {stack more : List α} {rounds : Nat}

theorem walk_nil (rounds : Nat) : walk below rounds [] = some true := by
  cases rounds <;> rfl

theorem walk_mono {result : Bool} (h : walk below rounds stack = some result) {rounds' : Nat}
    (hle : rounds ≤ rounds') : walk below rounds' stack = some result := by
  induction rounds generalizing stack rounds' with
  | zero =>
    cases stack with
    | nil => rw [walk_nil] at h ⊢; exact h
    | cons a rest => cases h
  | succ rounds ih =>
    cases stack with
    | nil => rw [walk_nil] at h ⊢; exact h
    | cons a rest =>
      obtain ⟨k, rfl⟩ : ∃ k, rounds' = k + 1 := ⟨rounds' - 1, by omega⟩
      rw [walk] at h ⊢
      cases hbelow : below a with
      | none => rw [hbelow] at h; exact h
      | some next =>
        rw [hbelow] at h
        exact ih h (by omega)

/-- The walk over one part of the stack, then over the rest. -/
theorem walk_append {result : Bool} {rounds' : Nat} (h : walk below rounds stack = some true)
    (h' : walk below rounds' more = some result) :
    walk below (rounds + rounds') (stack ++ more) = some result := by
  induction rounds generalizing stack with
  | zero =>
    cases stack with
    | nil => rw [Nat.zero_add, List.nil_append]; exact h'
    | cons a rest => cases h
  | succ rounds ih =>
    cases stack with
    | nil =>
      rw [List.nil_append]
      exact walk_mono h' (by omega)
    | cons a rest =>
      rw [walk] at h
      rw [Nat.add_right_comm, List.cons_append, walk]
      cases hbelow : below a with
      | none => rw [hbelow] at h; cases h
      | some next =>
        rw [hbelow] at h
        dsimp only at h ⊢
        rw [← List.append_assoc]
        exact ih h

/-- A vertex without an entry stops the walk, whatever lies under it on the stack. -/
theorem walk_append_stop (h : walk below rounds stack = some false) :
    walk below rounds (stack ++ more) = some false := by
  induction rounds generalizing stack with
  | zero =>
    cases stack with
    | nil => cases h
    | cons a rest => cases h
  | succ rounds ih =>
    cases stack with
    | nil => cases h
    | cons a rest =>
      rw [walk] at h
      rw [List.cons_append, walk]
      cases hbelow : below a with
      | none => rfl
      | some next =>
        rw [hbelow] at h
        dsimp only at h ⊢
        rw [← List.append_assoc]
        exact ih h

/-- The upper part of the stack is done no later than the whole. -/
theorem walk_upper (h : walk below rounds (stack ++ more) ≠ none) :
    walk below rounds stack ≠ none := by
  induction rounds generalizing stack with
  | zero =>
    cases stack with
    | nil => simp [walk]
    | cons a rest => exact absurd rfl h
  | succ rounds ih =>
    cases stack with
    | nil => simp [walk]
    | cons a rest =>
      rw [List.cons_append, walk] at h
      rw [walk]
      cases hbelow : below a with
      | none => simp
      | some next =>
        rw [hbelow] at h
        dsimp only at h ⊢
        rw [← List.append_assoc] at h
        exact ih h

/-- So is the lower part, once the walk gets through the upper one. -/
theorem walk_lower (h : walk below rounds (stack ++ more) ≠ none) {k : Nat}
    (hclear : walk below k stack = some true) : walk below rounds more ≠ none := by
  induction rounds generalizing stack k with
  | zero =>
    cases stack with
    | nil => exact h
    | cons a rest => exact absurd rfl h
  | succ rounds ih =>
    cases stack with
    | nil => exact h
    | cons a rest =>
      cases k with
      | zero => cases hclear
      | succ k =>
        rw [List.cons_append, walk] at h
        rw [walk] at hclear
        cases hbelow : below a with
        | none => rw [hbelow] at hclear; cases hclear
        | some next =>
          rw [hbelow] at h hclear
          dsimp only at h hclear
          rw [← List.append_assoc] at h
          obtain ⟨result, hresult⟩ := Option.ne_none_iff_exists'.mp (ih h hclear)
          rw [walk_mono hresult (Nat.le_succ rounds)]
          simp

theorem walk_front {front : List α} (h : ∀ c ∈ front, Clears below c) :
    ∃ rounds, walk below rounds front = some true := by
  induction front with
  | nil => exact ⟨0, rfl⟩
  | cons c front ih =>
    obtain ⟨k, hk⟩ := h c List.mem_cons_self
    obtain ⟨k', hk'⟩ := ih fun d hd => h d (List.mem_cons_of_mem c hd)
    exact ⟨k + k', walk_append hk hk'⟩

/-- A vertex that is taken needs fewer rounds than one that it was reached through. -/
theorem walk_child {a b : α} {front back : List α} (hbelow : below a = some (front ++ b :: back))
    (hfront : ∀ c ∈ front, Clears below c) (h : walk below (rounds + 1) [a] ≠ none) :
    walk below rounds [b] ≠ none := by
  obtain ⟨k, hk⟩ := walk_front hfront
  rw [walk, hbelow] at h
  dsimp only at h
  rw [List.append_nil] at h
  have hrest : walk below rounds ([b] ++ back) ≠ none := walk_lower h hk
  exact walk_upper hrest

theorem walk_ne_none_mono (h : walk below rounds stack ≠ none) {rounds' : Nat}
    (hle : rounds ≤ rounds') : walk below rounds' stack ≠ none := by
  obtain ⟨result, hresult⟩ := Option.ne_none_iff_exists'.mp h
  rw [walk_mono hresult hle]
  simp

theorem walk_of_above {root a : α} {above : List α} (h : Takes below root a above) :
    ∀ b ∈ above, ∀ rounds, walk below (rounds + 1) [b] ≠ none → walk below rounds [a] ≠ none := by
  induction h with
  | root =>
    intro b hb
    cases hb
  | @down a b above front back h hbelow hfront ih =>
    intro c hc rounds hwalk
    rcases List.mem_cons.mp hc with rfl | hc
    · exact walk_child hbelow hfront hwalk
    · -- a vertex further up needs more rounds than the one in between
      have hbetween := ih c hc rounds hwalk
      exact walk_child hbelow hfront (walk_ne_none_mono hbetween (Nat.le_succ rounds))

theorem takes_ends {root a : α} {above : List α} (h : Takes below root a above)
    (hroot : WalkEnds below [root]) : WalkEnds below [a] := by
  induction h with
  | root => exact hroot
  | down h hbelow hfront ih =>
    obtain ⟨rounds, hrounds⟩ := ih
    exact ⟨rounds, walk_child hbelow hfront (walk_ne_none_mono hrounds (Nat.le_succ rounds))⟩

/-- A walk that ends takes no vertex below itself: it would need fewer rounds than it needs. -/
theorem neverBelowItself_of_ends {root : α} (h : WalkEnds below [root]) :
    NeverBelowItself below root := by
  intro a above htakes hmem
  have hless := walk_of_above htakes a hmem
  obtain ⟨rounds, hrounds⟩ := takes_ends htakes h
  induction rounds with
  | zero => exact hrounds rfl
  | succ rounds ih => exact ih (hless rounds hrounds)

/-! ## Walks over finitely many vertices -/

theorem Takes.nodup {root a : α} {above : List α} (h : Takes below root a above)
    (hnever : NeverBelowItself below root) :
    (a :: above).Nodup ∧ ∀ b ∈ above, below b ≠ none := by
  induction h with
  | root => simp
  | @down a b above front back h hbelow hfront ih =>
    have hb := hnever b (a :: above) (h.down hbelow hfront)
    refine ⟨List.nodup_cons.mpr ⟨hb, ih.1⟩, ?_⟩
    intro c hc
    rcases List.mem_cons.mp hc with rfl | hc
    · rw [hbelow]
      simp
    · exact ih.2 c hc

/-- What lies below a vertex is walked through one after the other. -/
theorem ends_below {root a : α} {above : List α} (h : Takes below root a above)
    (hends : ∀ b, Takes below root b (a :: above) → WalkEnds below [b]) (front back : List α)
    (hbelow : below a = some (front ++ back)) (hfront : ∀ c ∈ front, Clears below c) :
    WalkEnds below back := by
  induction back generalizing front with
  | nil => exact ⟨0, by simp [walk]⟩
  | cons b back ih =>
    obtain ⟨rounds, hrounds⟩ := hends b (h.down hbelow hfront)
    obtain ⟨result, hresult⟩ := Option.ne_none_iff_exists'.mp hrounds
    cases result with
    | false =>
      have hstop : walk below rounds ([b] ++ back) = some false := walk_append_stop hresult
      rw [List.singleton_append] at hstop
      exact ⟨rounds, by rw [hstop]; simp⟩
    | true =>
      have hnext : ∀ c ∈ front ++ [b], Clears below c := by
        intro c hc
        rcases List.mem_append.mp hc with hc | hc
        · exact hfront c hc
        · rw [List.mem_singleton.mp hc]
          exact ⟨rounds, hresult⟩
      obtain ⟨rounds', hrounds'⟩ := ih (front ++ [b]) (by rw [hbelow]; simp) hnext
      obtain ⟨result', hresult'⟩ := Option.ne_none_iff_exists'.mp hrounds'
      refine ⟨rounds + rounds', ?_⟩
      have hboth : walk below (rounds + rounds') ([b] ++ back) = some result' :=
        walk_append hresult hresult'
      rw [List.singleton_append] at hboth
      rw [hboth]
      simp

theorem takes_ends_of_never (hfinite : {a | below a ≠ none}.Finite) {root : α}
    (hnever : NeverBelowItself below root) {a : α} {above : List α}
    (h : Takes below root a above) : WalkEnds below [a] := by
  classical
  -- the vertices above are different and have entries, so there is room for finitely many
  induction hroom : hfinite.toFinset.card - above.length using Nat.strong_induction_on
    generalizing a above with
  | _ room ih =>
    cases hbelow : below a with
    | none => exact ⟨1, by simp [walk, hbelow]⟩
    | some next =>
      obtain ⟨hnodup, habove⟩ := h.nodup hnever
      have hsubset : (a :: above).toFinset ⊆ hfinite.toFinset := by
        intro b hb
        rw [Set.Finite.mem_toFinset]
        rcases List.mem_cons.mp (List.mem_toFinset.mp hb) with rfl | hb
        · show below b ≠ none
          rw [hbelow]
          simp
        · exact habove b hb
      have hcard := Finset.card_le_card hsubset
      rw [List.toFinset_card_of_nodup hnodup, List.length_cons] at hcard
      have hends : ∀ b, Takes below root b (a :: above) → WalkEnds below [b] := by
        intro b hb
        exact ih _ (by rw [List.length_cons]; omega) hb rfl
      obtain ⟨rounds, hrounds⟩ := ends_below h hends [] next hbelow (by simp)
      refine ⟨rounds + 1, ?_⟩
      rw [walk, hbelow]
      simpa using hrounds

/-- Over finitely many vertices, the walk ends exactly when it takes no vertex below itself. -/
theorem walkEnds_iff (hfinite : {a | below a ≠ none}.Finite) (root : α) :
    WalkEnds below [root] ↔ NeverBelowItself below root :=
  ⟨neverBelowItself_of_ends, fun hnever => takes_ends_of_never hfinite hnever .root⟩

end Tagdata.Library
