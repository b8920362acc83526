import Tagdata.Analysis.MergeSteps

/-!
# A merge key by key

What the destination holds after a merge, as a relation between both sides and the result.  It
says of each key what became of its entry and of its expiration, so it is carried through the loop
of `merge_bucket` one key at a time.
-/

set_option autoImplicit false

namespace Tagdata.Analysis

open Tagdata.Library Tagdata.Model Tagdata.Interface

/-! ## Content that a merge accepts -/

/-- The expirations of the records of a source bucket. -/
def sourceExpirations (s : Contents) : Expirations := fun k =>
  match s.find ttlBucket with
  | some (.bucket e) =>
      match e.find k with
      | some (.value b) => some (ofBeBytes b)
      | _ => none
  | _ => none

/-- A source bucket as a cursor yields it: the reserved names are for expirations, at every
level. -/
inductive SourceSound : Contents → Prop
  | mk {s : Contents} (sorted : s.keys.Pairwise (· < ·))
      (values : ∀ k ∈ valueKeys s, ¬ Reserved k)
      (eight : ∀ e k b, s.find ttlBucket = some (.bucket e) → e.find k = some (.value b) →
        b.length = 8)
      (inner : ∀ name i, ¬ Reserved name → s.find name = some (.bucket i) → SourceSound i) :
      SourceSound s

/-- A destination bucket: the reserved names hold the two indexes, at every level. -/
inductive Sound : Dir → Prop
  | mk {d : Dir} (expires : Expires (expirationsOf d) d)
      (inner : ∀ name c, ¬ Reserved name → d.entries name = some (.bucket c) → Sound c) : Sound d

theorem Sound.expires {d : Dir} (h : Sound d) : Expires (expirationsOf d) d := by
  cases h
  assumption

theorem Sound.inner {d : Dir} (h : Sound d) {name : Bytes} {c : Dir} (hname : ¬ Reserved name)
    (hc : d.entries name = some (.bucket c)) : Sound c := by
  cases h with
  | mk _ inner => exact inner name c hname hc

theorem Sound.empty : Sound Dir.empty :=
  .mk expires_empty.of_eq fun _ _ _ hc => by cases hc

/-! ## The result of a merge -/

/-- What becomes of a source value. -/
def resolution (policy : MergeConflictPolicy) (exps : Expirations) (d : Dir) (k v : Bytes) :
    Resolution :=
  resolveValue policy (d.entries k) (expirationsOf d k) v (exps k)

/-- What became of a key: of its expiration, and of its entry.  `x` is the entry of the source, and
`c'` the bucket that came out of a nested merge. -/
def KeyResult (policy : MergeConflictPolicy) (exps : Expirations) (x : Option Content)
    (d d' : Dir) (k : Bytes) (c' : Dir) : Prop :=
  match x with
  | none =>
      expirationsOf d' k = expirationsOf d k ∧ (¬ Reserved k → d'.entries k = d.entries k)
  | some (.value v) =>
      expirationsOf d' k =
        mergedExpiration (resolution policy exps d k v) (expirationsOf d k) (exps k) ∧
      d'.entries k = mergedEntry (resolution policy exps d k v) (d.entries k) v
  | some (.bucket _) =>
      expirationsOf d' k = expirationsOf d k ∧
      (¬ Reserved k → d'.entries k =
        if (target policy (d.entries k)).isSome then some (.bucket c') else d.entries k)

/-- The destination `d` became `d'` when the source `s` with the expirations `exps` was merged. -/
inductive Merged (policy : MergeConflictPolicy) : Expirations → Contents → Dir → Dir → Prop
  | mk {exps : Expirations} {s : Contents} {d d' : Dir} (inner : Bytes → Dir)
      (expires : Expires (expirationsOf d') d')
      (keys : ∀ k, KeyResult policy exps (s.find k) d d' k (inner k))
      (below : ∀ name i c, ¬ Reserved name → s.find name = some (.bucket i) →
        target policy (d.entries name) = some c →
        Merged policy (sourceExpirations i) i c (inner name)) :
      Merged policy exps s d d'

/-! ## Keys of a source -/

theorem find_none {s : Contents} {k : Bytes} (h : k ∉ s.keys) : s.find k = none := by
  induction s with
  | done n => rfl
  | value key v rest ih =>
    simp only [Contents.keys, List.mem_cons, not_or] at h
    simp only [Contents.find, h.1, if_false]
    exact ih h.2
  | bucket name inner rest _ ih =>
    simp only [Contents.keys, List.mem_cons, not_or] at h
    simp only [Contents.find, h.1, if_false]
    exact ih h.2

theorem mem_keys_of_find {s : Contents} {k : Bytes} {e : Content} (h : s.find k = some e) :
    k ∈ s.keys := by
  by_contra hk
  rw [find_none hk] at h
  cases h

theorem mem_valueKeys {s : Contents} {k v : Bytes} (h : s.find k = some (.value v)) :
    k ∈ valueKeys s := by
  induction s with
  | done n => cases h
  | value key w rest ih =>
    by_cases hk : k = key
    · simp [valueKeys, hk]
    · simp only [Contents.find, hk, if_false] at h
      exact List.mem_cons_of_mem _ (ih h)
  | bucket name inner rest _ ih =>
    by_cases hk : k = name
    · simp [Contents.find, hk] at h
    · simp only [Contents.find, hk, if_false] at h
      exact ih h

/-- A source begins with an entry. -/
structure Prepends (key : Bytes) (x : Content) (rest s : Contents) : Prop where
  keys : s.keys = key :: rest.keys
  self : s.find key = some x
  others : ∀ k, k ≠ key → s.find k = rest.find k

theorem prepends_value (key v : Bytes) (rest : Contents) :
    Prepends key (.value v) rest (.value key v rest) :=
  ⟨rfl, by simp [Contents.find], fun k hk => by simp only [Contents.find, hk, if_false]⟩

theorem prepends_bucket (name : Bytes) (i rest : Contents) :
    Prepends name (.bucket i) rest (.bucket name i rest) :=
  ⟨rfl, by simp [Contents.find], fun k hk => by simp only [Contents.find, hk, if_false]⟩

/-- What the loop of `merge_bucket` needs of the source. -/
structure Mergeable (s : Contents) : Prop where
  sorted : s.keys.Pairwise (· < ·)
  values : ∀ k v, s.find k = some (.value v) → ¬ Reserved k
  inner : ∀ name i, ¬ Reserved name → s.find name = some (.bucket i) → SourceSound i

theorem SourceSound.mergeable {s : Contents} (h : SourceSound s) : Mergeable s := by
  cases h with
  | mk sorted values eight inner =>
    exact ⟨sorted, fun k v hs => values k (mem_valueKeys hs), inner⟩

section Prepends

variable {key : Bytes} {x : Content} {rest s : Contents}

theorem Prepends.find_self (h : Prepends key x rest s) (hs : s.keys.Pairwise (· < ·)) :
    rest.find key = none := by
  rw [h.keys] at hs
  exact find_none fun hmem => lt_irrefl key ((List.pairwise_cons.mp hs).1 key hmem)

/-- An entry of the rest is an entry of the whole. -/
theorem Prepends.find_rest (h : Prepends key x rest s) (hs : s.keys.Pairwise (· < ·)) {k : Bytes}
    {y : Content} (hy : rest.find k = some y) : s.find k = some y := by
  rw [h.others k, hy]
  rintro rfl
  rw [h.find_self hs] at hy
  cases hy

theorem Prepends.sorted (h : Prepends key x rest s) (hs : s.keys.Pairwise (· < ·)) :
    rest.keys.Pairwise (· < ·) := by
  rw [h.keys] at hs
  exact (List.pairwise_cons.mp hs).2

theorem Prepends.mergeable (h : Prepends key x rest s) (hs : Mergeable s) : Mergeable rest :=
  ⟨h.sorted hs.sorted, fun k v hv => hs.values k v (h.find_rest hs.sorted hv),
    fun name i hname hi => hs.inner name i hname (h.find_rest hs.sorted hi)⟩

end Prepends

/-! ## One key at a time -/

/-- Two buckets agree but at one key. -/
structure Elsewhere (key : Bytes) (d d' : Dir) : Prop where
  entries : ∀ k, ¬ Reserved k → k ≠ key → d'.entries k = d.entries k
  expirations : ∀ k, k ≠ key → expirationsOf d' k = expirationsOf d k

theorem Elsewhere.refl (key : Bytes) (d : Dir) : Elsewhere key d d :=
  ⟨fun _ _ _ => rfl, fun _ _ => rfl⟩

theorem KeyMerged.elsewhere {key : Bytes} {entry : Option Entry} {t : Option Nat} {d d' : Dir}
    (h : KeyMerged key entry (Function.update (expirationsOf d) key t) d d') :
    Elsewhere key d d' := by
  refine ⟨fun k hk hne => ?_, fun k hne => ?_⟩
  · rw [h.entries k hk, Function.update_of_ne hne]
  · rw [← h.expires.eq_expirationsOf, Function.update_of_ne hne]

/-- The reserved names are the only ones that expirations depend on. -/
theorem expirationsOf_congr {d d' : Dir} (h : d'.entries ttlBucket = d.entries ttlBucket) :
    expirationsOf d' = expirationsOf d := by
  funext k
  simp only [expirationsOf, lookupOf, h]

/-- A nested bucket was put into place and then changed. -/
theorem Writes.elsewhere {name : Bytes} {e : Entry} {d d₁ : Dir} (h : Writes name e d d₁)
    (hname : ¬ Reserved name) (e' : Option Entry) :
    Elsewhere name d (d₁.set name e') ∧ expirationsOf (d₁.set name e') = expirationsOf d := by
  have hentries : ∀ k, k ≠ name → (d₁.set name e').entries k = d.entries k := by
    intro k hne
    rw [Dir.set_entries_ne _ hne, h.entries, Function.update_of_ne hne]
  have hexp := expirationsOf_congr (hentries ttlBucket fun heq => hname (.inl heq.symm))
  exact ⟨⟨fun k _ hne => hentries k hne, fun k _ => by rw [hexp]⟩, hexp⟩

theorem Sound.step {key : Bytes} {d d' : Dir} (h : Sound d) (helse : Elsewhere key d d')
    (hexpires : Expires (expirationsOf d') d')
    (hkey : ∀ c, d'.entries key = some (.bucket c) → Sound c) : Sound d' := by
  refine .mk hexpires fun name c hname hc => ?_
  by_cases hne : name = key
  · exact hkey c (hne ▸ hc)
  · rw [helse.entries name hname hne] at hc
    exact h.inner hname hc

theorem resolution_conflict {policy : MergeConflictPolicy} {exps : Expirations} {d : Dir}
    {k v : Bytes} (h : resolution policy exps d k v = .conflict) : policy = .error := by
  cases hpolicy : policy with
  | error => rfl
  | overwrite | keepExisting =>
    subst hpolicy
    unfold resolution resolveValue Resolution.under at h
    split at h
    · cases h
    · split at h
      · split at h <;> cases h
      · cases h
    · cases h

/-! ### The relation after one more key -/

section Keys

variable {policy : MergeConflictPolicy} {exps : Expirations} {d d₁ d' c' : Dir} {k : Bytes}

/-- A key that the rest of the source does not have stays as it is. -/
theorem KeyResult.stays {x : Content} {c : Dir} (h : KeyResult policy exps (some x) d d₁ k c')
    (hvalue : ∀ v, x = .value v → ¬ Reserved k) (hrest : KeyResult policy exps none d₁ d' k c) :
    KeyResult policy exps (some x) d d' k c' := by
  cases x with
  | value v => exact ⟨hrest.1.trans h.1, (hrest.2 (hvalue v rfl)).trans h.2⟩
  | bucket i => exact ⟨hrest.1.trans h.1, fun hk => (hrest.2 hk).trans (h.2 hk)⟩

/-- What becomes of a key is decided by what it was before. -/
theorem KeyResult.before {x : Option Content} {key : Bytes} (h : KeyResult policy exps x d₁ d' k c')
    (hvalue : ∀ v, x = some (.value v) → ¬ Reserved k) (helse : Elsewhere key d d₁)
    (hne : k ≠ key) : KeyResult policy exps x d d' k c' := by
  have hexp := helse.expirations k hne
  rcases x with - | v | i
  · exact ⟨h.1.trans hexp, fun hk => (h.2 hk).trans (helse.entries k hk hne)⟩
  · have hentry := helse.entries k (hvalue v rfl) hne
    simp only [KeyResult, resolution, hexp, hentry] at h
    exact h
  · refine ⟨h.1.trans hexp, fun hk => ?_⟩
    rw [← helse.entries k hk hne]
    exact h.2 hk

/-- One key was merged, and then the rest of the source. -/
theorem Merged.cons {key : Bytes} {x : Content} {rest s : Contents} (hs : Mergeable s)
    (hprep : Prepends key x rest s) (helse : Elsewhere key d d₁)
    (hstep : KeyResult policy exps (some x) d d₁ key c')
    (hbelow : ∀ i c, ¬ Reserved key → x = .bucket i → target policy (d.entries key) = some c →
      Merged policy (sourceExpirations i) i c c')
    (h : Merged policy exps rest d₁ d') : Merged policy exps s d d' := by
  obtain ⟨inner, expires, keys, below⟩ := h
  refine .mk (Function.update inner key c') expires (fun k => ?_) fun name i c hname hi ht => ?_
  · by_cases hk : k = key
    · subst hk
      have hrest := keys k
      rw [hprep.find_self hs.sorted] at hrest
      rw [hprep.self, Function.update_self]
      exact hstep.stays (fun v hv => hs.values k v (hv ▸ hprep.self)) hrest
    · rw [hprep.others k hk, Function.update_of_ne hk]
      exact (keys k).before (fun v hv => hs.values k v ((hprep.others k hk).trans hv)) helse hk
  · by_cases hk : name = key
    · subst hk
      rw [Function.update_self]
      exact hbelow i c hname (Option.some.inj (hprep.self.symm.trans hi)) ht
    · rw [Function.update_of_ne hk]
      rw [hprep.others name hk] at hi
      exact below name i c hname hi ((helse.entries name hname hk).symm ▸ ht)

end Keys

end Tagdata.Analysis
