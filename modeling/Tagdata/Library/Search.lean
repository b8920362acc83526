import Mathlib

/-!
# Searching lists that are sorted by a key

`binarySearchByKey` is the search of a slice by bisection: `ok i` when the element at `i`
carries the key, `error i` when no element does and `i` is where it belongs.  On a
strictly sorted list the answer is determined by the cut of the list at the key, and
that cut is the only thing that is used about the search of such a list.
-/

set_option autoImplicit false

namespace Tagdata.Library

variable {α K : Type} [LinearOrder K]

/-- The loop of `binary_search_by`: the candidates are the `size` elements from `base` on, and the
upper half of them is kept unless its first element lies above the key. -/
def bisect {α K : Type} [LinearOrder K] (key : K) (f : α → K) (l : List α) :
    Nat → Nat → Nat → Nat
  | 0, base, _ => base
  | rounds + 1, base, size =>
      if size ≤ 1 then base
      else
        let half := size / 2
        let mid := base + half
        match l[mid]? with
        | none => base
        | some a => bisect key f l rounds (if key < f a then base else mid) (size - half)

/-- `binary_search_by_key`: the element that is left is compared last.  On a slice that is not
sorted this is the answer of the current library, which documents none. -/
def binarySearchByKey {α K : Type} [LinearOrder K] (key : K) (f : α → K) (l : List α) :
    Except Nat Nat :=
  let base := bisect key f l l.length 0 l.length
  match l[base]? with
  | none => .error 0
  | some a =>
      if f a = key then .ok base
      else if f a < key then .error (base + 1)
      else .error base

/-- A list is strictly sorted by the key `f`. -/
def SortedBy {α K : Type} [LinearOrder K] (f : α → K) (l : List α) : Prop :=
  l.Pairwise fun a b => f a < f b

/-- What is found carries the key, in any list. -/
theorem binary_search_sound {f : α → K} {key : K} {l : List α} {i : Nat}
    (h : binarySearchByKey key f l = .ok i) : ∃ a, l[i]? = some a ∧ f a = key := by
  simp only [binarySearchByKey] at h
  split at h
  · cases h
  · next a ha =>
    split_ifs at h with hkey
    obtain rfl := Except.ok.inj h
    exact ⟨a, ha, hkey⟩

/-- The loop finds the last place whose element is not above the key, or the first place. -/
theorem bisect_eq {f : α → K} {key : K} {l : List α} {target : Nat}
    (h : ∀ i a, 0 < i → l[i]? = some a → (key < f a ↔ target < i)) {rounds base size : Nat}
    (hrounds : size ≤ rounds + 1) (hbase : base ≤ target) (htarget : target < base + size)
    (hsize : base + size ≤ l.length) : bisect key f l rounds base size = target := by
  induction rounds generalizing base size with
  | zero =>
    rw [bisect]
    omega
  | succ rounds ih =>
    rw [bisect]
    split_ifs with hone
    · omega
    · have hmid : base + size / 2 < l.length := by omega
      have habove := h (base + size / 2) _ (by omega) (List.getElem?_eq_getElem hmid)
      simp only [List.getElem?_eq_getElem hmid]
      split_ifs with hlt
      · rw [habove] at hlt
        exact ih (by omega) hbase (by omega) (by omega)
      · rw [habove] at hlt
        exact ih (by omega) (by omega) (by omega) (by omega)

/-- The place of an element in a list that is cut at it. -/
theorem getElem?_cut {l r : List α} {i : Nat} {a : α} (h : (l ++ r)[i]? = some a) :
    (i < l.length ∧ a ∈ l) ∨ (l.length ≤ i ∧ a ∈ r) := by
  rcases lt_or_ge i l.length with hlt | hge
  · rw [List.getElem?_append_left hlt] at h
    exact .inl ⟨hlt, List.mem_of_getElem? h⟩
  · rw [List.getElem?_append_right hge] at h
    exact .inr ⟨hge, List.mem_of_getElem? h⟩

/-- The search finds the element that carries the key. -/
theorem binary_search_ok {f : α → K} {key : K} {l r : List α} {x : α}
    (hl : ∀ a ∈ l, f a < key) (hx : f x = key) (hr : ∀ b ∈ r, key < f b) :
    binarySearchByKey key f (l ++ x :: r) = .ok l.length := by
  have hbase : bisect key f (l ++ x :: r) (l ++ x :: r).length 0 (l ++ x :: r).length =
      l.length := by
    apply bisect_eq _ (by omega) (by omega) (by simp) (by omega)
    intro i a _ hi
    rcases getElem?_cut hi with ⟨hlt, ha⟩ | ⟨hge, ha⟩
    · exact iff_of_false (hl a ha).not_gt (by omega)
    · rcases Nat.lt_or_eq_of_le hge with hgt | heq
      · have hrest : a ∈ r := by
          rw [List.getElem?_append_right hge, List.getElem?_cons, if_neg (by omega)] at hi
          exact List.mem_of_getElem? hi
        exact iff_of_true (hr a hrest) hgt
      · rw [← heq, List.getElem?_append_right le_rfl, Nat.sub_self] at hi
        have hax : x = a := by simpa using hi
        rw [← hax, hx]
        exact iff_of_false (lt_irrefl key) (by omega)
  rw [binarySearchByKey, hbase]
  simp [hx]

/-- The search stops between the elements below the key and those above it. -/
theorem binary_search_error {f : α → K} {key : K} {l r : List α}
    (hl : ∀ a ∈ l, f a < key) (hr : ∀ b ∈ r, key < f b) :
    binarySearchByKey key f (l ++ r) = .error l.length := by
  rcases List.eq_nil_or_concat (l ++ r) with hnil | ⟨_, _, hne⟩
  · rw [List.append_eq_nil_iff] at hnil
    rw [hnil.1, hnil.2]
    rfl
  · have hpos : 0 < (l ++ r).length := by rw [hne]; simp
    have hlength : (l ++ r).length = l.length + r.length := List.length_append
    have hbase : bisect key f (l ++ r) (l ++ r).length 0 (l ++ r).length = l.length - 1 := by
      apply bisect_eq _ (by omega) (by omega) (by omega) (by omega)
      intro i a _ hi
      rcases getElem?_cut hi with ⟨hlt, ha⟩ | ⟨hge, ha⟩
      · exact iff_of_false (hl a ha).not_gt (by omega)
      · exact iff_of_true (hr a ha) (by omega)
    have hlast : l.length - 1 < (l ++ r).length := by omega
    rw [binarySearchByKey, hbase, List.getElem?_eq_getElem hlast]
    dsimp only
    -- the element in front of the cut is below the key, unless there is none
    rcases getElem?_cut (List.getElem?_eq_getElem hlast) with ⟨hlt, ha⟩ | ⟨hge, ha⟩
    · have hbelow := hl _ ha
      rw [if_neg hbelow.ne, if_pos hbelow]
      congr 1
      omega
    · have habove := hr _ ha
      rw [if_neg habove.ne', if_neg habove.not_gt]
      congr 1
      omega

theorem binary_search_singleton (key : K) (f : α → K) (a : α) :
    binarySearchByKey key f [a] =
      if f a = key then .ok 0 else if f a < key then .error 1 else .error 0 := rfl

/-- A strictly sorted list is cut by a key into the elements below it, at most one element
that carries it, and the elements above it; the search finds the cut. -/
theorem binary_search_cases {f : α → K} {l : List α} (h : SortedBy f l) (key : K) :
    (∃ below x above, l = below ++ x :: above ∧ f x = key ∧
        (∀ a ∈ below, f a < key) ∧ (∀ b ∈ above, key < f b) ∧
        binarySearchByKey key f l = .ok below.length) ∨
      (∃ below above, l = below ++ above ∧
        (∀ a ∈ below, f a < key) ∧ (∀ b ∈ above, key < f b) ∧
        binarySearchByKey key f l = .error below.length) := by
  induction l with
  | nil => exact .inr ⟨[], [], rfl, by simp, by simp, rfl⟩
  | cons a l ih =>
    obtain ⟨ha, hl⟩ := List.pairwise_cons.mp h
    rcases lt_trichotomy (f a) key with hlt | heq | hgt
    · -- the head stays below the key, so the cut is that of the tail
      rcases ih hl with ⟨below, x, above, rfl, hx, hb, hab, -⟩ | ⟨below, above, rfl, hb, hab, -⟩
      · have hb' : ∀ c ∈ a :: below, f c < key := by simpa [hlt] using hb
        exact .inl ⟨a :: below, x, above, rfl, hx, hb', hab, binary_search_ok hb' hx hab⟩
      · have hb' : ∀ c ∈ a :: below, f c < key := by simpa [hlt] using hb
        exact .inr ⟨a :: below, above, rfl, hb', hab, binary_search_error hb' hab⟩
    · have hab : ∀ b ∈ l, key < f b := fun b hb => heq ▸ ha b hb
      have hnil : ∀ c ∈ ([] : List α), f c < key := by simp
      exact .inl ⟨[], a, l, rfl, heq, hnil, hab, binary_search_ok hnil heq hab⟩
    · have hab : ∀ b ∈ a :: l, key < f b := by
        intro b hb
        rcases List.mem_cons.mp hb with rfl | hb
        · exact hgt
        · exact hgt.trans (ha b hb)
      have hnil : ∀ c ∈ ([] : List α), f c < key := by simp
      exact .inr ⟨[], a :: l, rfl, hnil, hab, binary_search_error hnil hab⟩

theorem bisect_map (key : K) (f : α → K) (l : List α) (rounds base size : Nat) :
    bisect key (fun k => k) (l.map f) rounds base size = bisect key f l rounds base size := by
  induction rounds generalizing base size with
  | zero => rfl
  | succ rounds ih =>
    simp only [bisect, List.getElem?_map]
    cases l[base + size / 2]? with
    | none => rfl
    | some a => simp only [Option.map_some, ih]

/-- Searching the keys themselves is searching the elements by their key. -/
theorem binary_search_map (key : K) (f : α → K) (l : List α) :
    binarySearchByKey key (fun k => k) (l.map f) = binarySearchByKey key f l := by
  rw [binarySearchByKey, binarySearchByKey, List.length_map, bisect_map, List.getElem?_map]
  cases l[bisect key f l l.length 0 l.length]? with
  | none => rfl
  | some a => rfl

/-- Inserting at a cut. -/
theorem insertIdx_append {β : Type} (below above : List β) (a : β) :
    (below ++ above).insertIdx below.length a = below ++ a :: above := by
  induction below with
  | nil => simp
  | cons x below ih => simp [ih]

/-- In a strictly sorted list a key belongs to one element. -/
theorem SortedBy.eq_of_key {f : α → K} {l : List α} (h : SortedBy f l) {x y : α}
    (hx : x ∈ l) (hy : y ∈ l) (hxy : f x = f y) : x = y := by
  induction l with
  | nil => simp at hx
  | cons a l ih =>
    obtain ⟨ha, hl⟩ := List.pairwise_cons.mp h
    rcases List.mem_cons.mp hx with rfl | hx' <;> rcases List.mem_cons.mp hy with rfl | hy'
    · rfl
    · exact absurd hxy (ha y hy').ne
    · exact absurd hxy (ha x hx').ne'
    · exact ih hl hx' hy'

/-- A list that is sorted by a key is determined by its elements. -/
theorem SortedBy.ext {f : α → K} {l l' : List α} (h : SortedBy f l)
    (h' : SortedBy f l') (hmem : ∀ x, x ∈ l ↔ x ∈ l') : l = l' := by
  have hnodup : ∀ {l : List α}, SortedBy f l → l.Nodup := by
    intro l h
    refine h.imp fun {a c} hlt => ?_
    rintro rfl
    exact lt_irrefl _ hlt
  have hperm : l.Perm l' := (List.perm_ext_iff_of_nodup (hnodup h) (hnodup h')).mpr hmem
  exact hperm.eq_of_pairwise (fun a c _ _ hac hca => absurd (hac.trans hca) (lt_irrefl _)) h h'

/-! ## Cuts of a list -/

/-- A test that no element passes after one that fails it is a cut. -/
theorem takeWhile_eq_filter {α : Type} {p : α → Bool} {l : List α}
    (h : l.Pairwise fun a b => p b = true → p a = true) : l.takeWhile p = l.filter p := by
  induction l with
  | nil => rfl
  | cons a l ih =>
    obtain ⟨ha, hl⟩ := List.pairwise_cons.mp h
    cases hp : p a with
    | true => rw [List.takeWhile_cons_of_pos hp, List.filter_cons_of_pos hp, ih hl]
    | false =>
      have hnone : ∀ b ∈ l, ¬ p b = true := fun b hb hpb => by simp [ha b hb hpb] at hp
      rw [List.takeWhile_cons_of_neg (by simp [hp]), List.filter_cons_of_neg (by simp [hp]),
        List.filter_eq_nil_iff.mpr hnone]

/-- A test that every element passes after one that passes it is a cut. -/
theorem dropWhile_eq_filter {α : Type} {p : α → Bool} {l : List α}
    (h : l.Pairwise fun a b => p b = true → p a = true) :
    l.dropWhile p = l.filter fun a => !p a := by
  induction l with
  | nil => rfl
  | cons a l ih =>
    obtain ⟨ha, hl⟩ := List.pairwise_cons.mp h
    cases hp : p a with
    | true => rw [List.dropWhile_cons_of_pos hp, List.filter_cons_of_neg (by simp [hp]), ih hl]
    | false =>
      have hall : ∀ b ∈ a :: l, (!p b) = true := by
        intro b hb
        rcases List.mem_cons.mp hb with rfl | hb
        · simp [hp]
        · cases hpb : p b with
          | true => simp [ha b hb hpb] at hp
          | false => rfl
      rw [List.dropWhile_cons_of_neg (by simp [hp]), List.filter_eq_self.mpr hall]

end Tagdata.Library
