import Mathlib

/-!
# Finite maps as lists

Two readings of a list of pairs.  A hash map is an association list whose order means
nothing: `List.lookup` reads it, `Assoc.insert` and `Assoc.erase` update it.  An ordered
map keeps its keys ascending, so that walking the list is walking the map in key order.
-/

set_option autoImplicit false

namespace Tagdata.Library

namespace Assoc

variable {K V : Type} [DecidableEq K]

/-- Removes a key. -/
def erase (k : K) (m : List (K × V)) : List (K × V) :=
  m.filter fun e => e.1 ≠ k

/-- Binds a key, replacing what it was bound to. -/
def insert (k : K) (v : V) (m : List (K × V)) : List (K × V) :=
  (k, v) :: erase k m

/-- The keys, in the order of the list. -/
def keys (m : List (K × V)) : List K := m.map Prod.fst

variable [BEq K] [LawfulBEq K]

omit [DecidableEq K] in
theorem lookup_cons_ne {j k : K} (h : k ≠ j) (v : V) (m : List (K × V)) :
    ((j, v) :: m).lookup k = m.lookup k := by
  have hne : (k == j) = false := by simpa using h
  simp [List.lookup_cons, hne]

omit [DecidableEq K] in
theorem lookup_cons_self (k : K) (v : V) (m : List (K × V)) :
    ((k, v) :: m).lookup k = some v := by
  simp

omit [DecidableEq K] in
/-- Keeping the bindings of some keys only. -/
theorem lookup_filter (keep : K → Bool) (k : K) (m : List (K × V)) :
    (m.filter fun e => keep e.1).lookup k = if keep k then m.lookup k else none := by
  induction m with
  | nil => simp
  | cons e m ih =>
    obtain ⟨j, v⟩ := e
    rw [List.filter_cons]
    by_cases hj : k = j
    · subst hj
      split_ifs with hkeep
      · rw [lookup_cons_self, lookup_cons_self]
      · rw [ih, if_neg hkeep]
    · rw [lookup_cons_ne hj, ← ih]
      split_ifs
      · exact lookup_cons_ne hj v _
      · rfl

theorem lookup_erase_ne {j k : K} (h : j ≠ k) (m : List (K × V)) :
    (erase k m).lookup j = m.lookup j :=
  (lookup_filter (fun i => decide (i ≠ k)) j m).trans (if_pos (by simpa using h))

@[simp] theorem lookup_insert_self (k : K) (v : V) (m : List (K × V)) :
    (insert k v m).lookup k = some v := lookup_cons_self k v _

theorem lookup_insert_ne {j k : K} (h : j ≠ k) (v : V) (m : List (K × V)) :
    (insert k v m).lookup j = m.lookup j := by
  rw [insert, lookup_cons_ne h, lookup_erase_ne h]

omit [DecidableEq K] in
theorem lookup_append_of_notMem {k : K} {l : List (K × V)} (h : k ∉ keys l)
    (m : List (K × V)) : (l ++ m).lookup k = m.lookup k := by
  induction l with
  | nil => rfl
  | cons e l ih =>
    obtain ⟨j, v⟩ := e
    simp only [keys, List.map_cons, List.mem_cons, not_or] at h
    rw [List.cons_append, lookup_cons_ne h.1]
    exact ih h.2

omit [DecidableEq K] in
theorem mem_of_lookup {k : K} {v : V} {m : List (K × V)} (h : m.lookup k = some v) :
    (k, v) ∈ m := by
  induction m with
  | nil => simp at h
  | cons e m ih =>
    obtain ⟨j, w⟩ := e
    by_cases hj : k = j
    · subst hj
      rw [lookup_cons_self, Option.some.injEq] at h
      simp [h]
    · rw [lookup_cons_ne hj] at h
      exact List.mem_cons_of_mem _ (ih h)

omit [DecidableEq K] in
theorem lookup_of_mem {k : K} {v : V} {m : List (K × V)} (hm : (keys m).Nodup)
    (h : (k, v) ∈ m) : m.lookup k = some v := by
  induction m with
  | nil => simp at h
  | cons e m ih =>
    obtain ⟨j, w⟩ := e
    obtain ⟨hj, hm⟩ := List.nodup_cons.mp hm
    rcases List.mem_cons.mp h with heq | hmem
    · obtain ⟨rfl, rfl⟩ := Prod.mk.inj heq
      exact lookup_cons_self k v m
    · have hne : k ≠ j := by
        rintro rfl
        exact hj (List.mem_map.mpr ⟨(k, v), hmem, rfl⟩)
      rw [lookup_cons_ne hne]
      exact ih hm hmem

omit [DecidableEq K] in
theorem lookup_isSome {k : K} {m : List (K × V)} : (m.lookup k).isSome ↔ k ∈ keys m := by
  induction m with
  | nil => simp [keys]
  | cons e m ih =>
    obtain ⟨j, w⟩ := e
    by_cases hj : k = j
    · subst hj
      simp [keys]
    · rw [lookup_cons_ne hj, ih]
      simp [keys, hj]

omit [BEq K] [LawfulBEq K] in
theorem keys_erase (k : K) (m : List (K × V)) : keys (erase k m) = (keys m).filter (· ≠ k) := by
  simp [keys, erase, List.filter_map, Function.comp_def]

omit [BEq K] [LawfulBEq K] in
theorem erase_insert (k : K) (v : V) (m : List (K × V)) : erase k (insert k v m) = erase k m := by
  simp [insert, erase]

omit [BEq K] [LawfulBEq K] in
theorem nodup_insert (k : K) (v : V) {m : List (K × V)} (h : (keys m).Nodup) :
    (keys (insert k v m)).Nodup := by
  rw [insert, keys, List.map_cons, List.nodup_cons]
  change k ∉ keys (erase k m) ∧ (keys (erase k m)).Nodup
  rw [keys_erase]
  exact ⟨by simp, h.filter _⟩

end Assoc

namespace OrdMap

variable {V : Type}

/-- Binds a key of an ordered map, replacing what it was bound to. -/
def insert (k : Nat) (v : V) : List (Nat × V) → List (Nat × V)
  | [] => [(k, v)]
  | (j, w) :: m =>
      if k < j then (k, v) :: (j, w) :: m
      else if k = j then (k, v) :: m
      else (j, w) :: insert k v m

/-- Updates the value of a key, starting from `d` when the key is not bound. -/
def adjust (k : Nat) (d : V) (f : V → V) : List (Nat × V) → List (Nat × V)
  | [] => [(k, f d)]
  | (j, w) :: m =>
      if k < j then (k, f d) :: (j, w) :: m
      else if k = j then (k, f w) :: m
      else (j, w) :: adjust k d f m

/-- The keys ascend. -/
def Ascending (m : List (Nat × V)) : Prop := m.Pairwise fun e e' => e.1 < e'.1

theorem Ascending.lookup_none {k : Nat} {m : List (Nat × V)} (h : ∀ e ∈ m, k < e.1) :
    m.lookup k = none := by
  induction m with
  | nil => rfl
  | cons e m ih =>
    have hne : k ≠ e.1 := (h e List.mem_cons_self).ne
    rw [Assoc.lookup_cons_ne hne]
    exact ih fun e' he' => h e' (List.mem_cons_of_mem _ he')

theorem mem_adjust {k : Nat} {d : V} {f : V → V} {m : List (Nat × V)} {e : Nat × V}
    (h : e ∈ adjust k d f m) : e.1 = k ∨ e ∈ m := by
  induction m with
  | nil => exact .inl (by rw [List.mem_singleton.mp h])
  | cons e' m ih =>
    obtain ⟨j, w⟩ := e'
    rw [adjust] at h
    split_ifs at h with hlt heq
    · rcases List.mem_cons.mp h with rfl | h
      · exact .inl rfl
      · exact .inr h
    · rcases List.mem_cons.mp h with rfl | h
      · exact .inl rfl
      · exact .inr (List.mem_cons_of_mem _ h)
    · rcases List.mem_cons.mp h with rfl | h
      · exact .inr List.mem_cons_self
      · exact (ih h).imp_right (List.mem_cons_of_mem _)

theorem Ascending.adjust {m : List (Nat × V)} (h : Ascending m) (k : Nat) (d : V) (f : V → V) :
    Ascending (adjust k d f m) := by
  induction m with
  | nil => exact List.pairwise_singleton _ _
  | cons e m ih =>
    obtain ⟨j, w⟩ := e
    obtain ⟨hhead, hrest⟩ := List.pairwise_cons.mp h
    rw [OrdMap.adjust]
    split_ifs with hlt heq
    · refine List.pairwise_cons.mpr ⟨fun e he => ?_, h⟩
      rcases List.mem_cons.mp he with rfl | he
      · exact hlt
      · exact hlt.trans (hhead e he)
    · subst heq
      exact List.pairwise_cons.mpr ⟨hhead, hrest⟩
    · refine List.pairwise_cons.mpr ⟨fun e he => ?_, ih hrest⟩
      rcases mem_adjust he with hk | he
      · show j < e.1
        omega
      · exact hhead e he

theorem Ascending.lookup_adjust {m : List (Nat × V)} (h : Ascending m) (k : Nat) (d : V)
    (f : V → V) (x : Nat) :
    (OrdMap.adjust k d f m).lookup x =
      if x = k then some (f ((m.lookup k).getD d)) else m.lookup x := by
  induction m with
  | nil =>
    by_cases hx : x = k
    · simp [OrdMap.adjust, hx]
    · rw [if_neg hx]
      exact Assoc.lookup_cons_ne hx _ _
  | cons e m ih =>
    obtain ⟨j, w⟩ := e
    obtain ⟨hhead, hrest⟩ := List.pairwise_cons.mp h
    rw [OrdMap.adjust]
    by_cases hlt : k < j
    · have hnone : ((j, w) :: m).lookup k = none := by
        refine Ascending.lookup_none fun e he => ?_
        rcases List.mem_cons.mp he with rfl | he
        · exact hlt
        · exact hlt.trans (hhead e he)
      rw [if_pos hlt, hnone, Option.getD_none]
      by_cases hx : x = k
      · rw [hx, if_pos rfl, Assoc.lookup_cons_self]
      · rw [if_neg hx, Assoc.lookup_cons_ne hx]
    · rw [if_neg hlt]
      by_cases heq : k = j
      · rw [if_pos heq, heq, Assoc.lookup_cons_self, Option.getD_some]
        by_cases hx : x = j
        · rw [hx, if_pos rfl, Assoc.lookup_cons_self]
        · rw [if_neg hx, Assoc.lookup_cons_ne hx, Assoc.lookup_cons_ne hx]
      · rw [if_neg heq, Assoc.lookup_cons_ne heq]
        by_cases hj : x = j
        · rw [hj, if_neg (Ne.symm heq), Assoc.lookup_cons_self, Assoc.lookup_cons_self]
        · rw [Assoc.lookup_cons_ne hj, Assoc.lookup_cons_ne hj, ih hrest]

end OrdMap

end Tagdata.Library
