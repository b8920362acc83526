import Tagdata.Interface.Requests
import Tagdata.Library.Results
import Tagdata.Model.Ttl

/-!
# The two indexes of expirations

The lookup bucket and the deadline bucket hold the same pairs of keys and deadlines.  Every
operation on expirations is described by what it does to that map.
-/

set_option autoImplicit false

namespace Tagdata.Analysis

open Tagdata.Library Tagdata.Model Tagdata.Interface

/-- The keys that expire, with their deadlines. -/
abbrev Expirations := Bytes → Option Nat

/-- What the lookup bucket holds for them. -/
def lookupEntries (m : Expirations) (k : Bytes) : Option Entry :=
  (m k).map fun t => .value (beBytes 8 t)

/-- What the deadline bucket holds for them. -/
def deadlineEntries (m : Expirations) (x : Bytes) : Option Entry :=
  if 8 ≤ x.length ∧ m (x.drop 8) = some (ofBeBytes (x.take 8)) then some (.value []) else none

/-- Two buckets hold the same deadlines, each of 64 bits. -/
structure Indexes (m : Expirations) (L D : Dir) : Prop where
  bounded : ∀ k t, m k = some t → t < 2 ^ 64
  lookup : L.entries = lookupEntries m
  deadlines : D.entries = deadlineEntries m

/-- The expirations of the records in a bucket. -/
def Expires (m : Expirations) (d : Dir) : Prop :=
  (m = (fun _ => none) ∧ d.entries ttlBucket = none ∧ d.entries ttlDeadlinesBucket = none) ∨
  ∃ L D : Dir, d.entries ttlBucket = some (.bucket L) ∧
    d.entries ttlDeadlinesBucket = some (.bucket D) ∧
    Indexes m L D

theorem expires_empty : Expires (fun _ => none) Dir.empty := .inl ⟨rfl, rfl, rfl⟩

/-- The reserved names. -/
def Reserved (k : Bytes) : Prop := k = ttlBucket ∨ k = ttlDeadlinesBucket

/-- The records are the same and the counter did not fall. -/
structure SameRecords (d d' : Dir) : Prop where
  entries : ∀ k, ¬ Reserved k → d'.entries k = d.entries k
  counter : d.counter ≤ d'.counter

theorem ttlBucket_ne : ttlBucket ≠ ttlDeadlinesBucket := by decide

theorem SameRecords.refl (d : Dir) : SameRecords d d := ⟨fun _ _ => rfl, le_rfl⟩

theorem SameRecords.trans {d₁ d₂ d₃ : Dir} (h : SameRecords d₁ d₂) (h' : SameRecords d₂ d₃) :
    SameRecords d₁ d₃ :=
  ⟨fun k hk => (h'.entries k hk).trans (h.entries k hk), h.counter.trans h'.counter⟩

/-- Something put under a reserved name. -/
theorem SameRecords.set {d : Dir} {name : Bytes} (hname : Reserved name) (e : Option Entry) :
    SameRecords d (d.set name e) := by
  refine ⟨fun k hk => ?_, le_rfl⟩
  have hne : k ≠ name := by
    rintro rfl
    exact hk hname
  exact Dir.set_entries_ne d hne e

theorem SameRecords.insert {d : Dir} {name : Bytes} (hname : Reserved name) (e : Entry) :
    SameRecords d (d.insert name e) := by
  refine ⟨fun k hk => ?_, ?_⟩
  · have hne : k ≠ name := by
      rintro rfl
      exact hk hname
    exact Dir.insert_entries_ne d hne e
  · simp only [Dir.insert]
    split <;> omega

/-! ## Deadline keys -/

theorem drop_deadlineKey (t : Nat) (k : Bytes) : (deadlineKey t k).drop 8 = k := by
  rw [deadlineKey, List.drop_append_of_le_length (by simp)]
  simp

theorem take_deadlineKey (t : Nat) (k : Bytes) : (deadlineKey t k).take 8 = beBytes 8 t := by
  rw [deadlineKey, List.take_append_of_le_length (by simp)]
  simp

theorem length_deadlineKey (t : Nat) (k : Bytes) : 8 ≤ (deadlineKey t k).length := by
  simp [deadlineKey]

theorem ofBeBytes_eight {t : Nat} (ht : t < 2 ^ 64) : ofBeBytes (beBytes 8 t) = t :=
  ofBeBytes_beBytes (by simpa using ht)

/-- A deadline key is its deadline and its key. -/
theorem eq_deadlineKey {x k : Bytes} {t : Nat} (ht : t < 2 ^ 64) :
    x = deadlineKey t k ↔ 8 ≤ x.length ∧ x.drop 8 = k ∧ ofBeBytes (x.take 8) = t := by
  constructor
  · rintro rfl
    exact ⟨length_deadlineKey t k, drop_deadlineKey t k, by
      rw [take_deadlineKey, ofBeBytes_eight ht]⟩
  · rintro ⟨hlen, rfl, rfl⟩
    have hhead : beBytes 8 (ofBeBytes (x.take 8)) = x.take 8 := by
      have hbytes := beBytes_ofBeBytes (x.take 8)
      rwa [List.length_take, Nat.min_eq_left hlen] at hbytes
    rw [deadlineKey, hhead, List.take_append_drop]

theorem decodeExpiration_eight {t : Nat} (ht : t < 2 ^ 64) :
    decodeExpiration (beBytes 8 t) = .ok t := by
  simp [decodeExpiration, ofBeBytes_eight ht]

theorem decodeDeadlineKey_deadlineKey {t : Nat} (ht : t < 2 ^ 64) (k : Bytes) :
    decodeDeadlineKey (deadlineKey t k) = .ok (t, k) := by
  simp [decodeDeadlineKey, length_deadlineKey, take_deadlineKey, drop_deadlineKey,
    decodeExpiration_eight ht]

/-- Removing a key from the map removes one deadline. -/
theorem deadlineEntries_remove {m : Expirations} {k : Bytes} {t : Nat} (ht : t < 2 ^ 64)
    (hk : m k = some t) :
    deadlineEntries (Function.update m k none) =
      Function.update (deadlineEntries m) (deadlineKey t k) none := by
  funext x
  by_cases hx : x = deadlineKey t k
  · subst hx
    simp [deadlineEntries, drop_deadlineKey]
  · rw [Function.update_of_ne hx]
    by_cases hkey : x.drop 8 = k
    · have hne : ¬ (8 ≤ x.length ∧ some t = some (ofBeBytes (x.take 8))) := by
        rintro ⟨hlen, heq⟩
        exact hx ((eq_deadlineKey ht).mpr ⟨hlen, hkey, (Option.some.inj heq).symm⟩)
      simp only [deadlineEntries, hkey, Function.update_self, hk, hne, if_false]
      simp
    · simp [deadlineEntries, Function.update_of_ne hkey]

/-- Adding a key to the map adds one deadline. -/
theorem deadlineEntries_add {m : Expirations} {k : Bytes} {t : Nat} (ht : t < 2 ^ 64)
    (hk : m k = none) :
    deadlineEntries (Function.update m k (some t)) =
      Function.update (deadlineEntries m) (deadlineKey t k) (some (.value [])) := by
  funext x
  by_cases hx : x = deadlineKey t k
  · subst hx
    simp [deadlineEntries, drop_deadlineKey, take_deadlineKey, length_deadlineKey,
      ofBeBytes_eight ht]
  · rw [Function.update_of_ne hx]
    by_cases hkey : x.drop 8 = k
    · have hne : ¬ (8 ≤ x.length ∧ some t = some (ofBeBytes (x.take 8))) := by
        rintro ⟨hlen, heq⟩
        exact hx ((eq_deadlineKey ht).mpr ⟨hlen, hkey, (Option.some.inj heq).symm⟩)
      simp only [deadlineEntries, hkey, Function.update_self, hk, hne, if_false]
      simp
    · simp [deadlineEntries, Function.update_of_ne hkey]

theorem lookupEntries_update (m : Expirations) (k : Bytes) (t : Option Nat) :
    lookupEntries (Function.update m k t) =
      Function.update (lookupEntries m) k (t.map fun t => .value (beBytes 8 t)) := by
  funext x
  by_cases hx : x = k
  · subst hx
    simp [lookupEntries]
  · simp [lookupEntries, Function.update_of_ne hx]

/-! ## What each operation does to the map -/

section Operations

variable {seen : Dir → List Data → Prop}

/-- While an operation runs the two buckets may differ, and the second may still be missing. -/
def Halves (m m' : Expirations) (d : Dir) : Prop :=
  ∃ L : Dir, d.entries ttlBucket = some (.bucket L) ∧ L.entries = lookupEntries m ∧
    (d.entries ttlDeadlinesBucket = none ∧ m' = (fun _ => none) ∨
      ∃ D : Dir, d.entries ttlDeadlinesBucket = some (.bucket D) ∧ D.entries = deadlineEntries m')

/-- Both buckets are there. -/
def Both (m m' : Expirations) (d : Dir) : Prop :=
  ∃ L D : Dir, d.entries ttlBucket = some (.bucket L) ∧ L.entries = lookupEntries m ∧
    d.entries ttlDeadlinesBucket = some (.bucket D) ∧ D.entries = deadlineEntries m'

theorem Both.halves {m m' : Expirations} {d : Dir} (h : Both m m' d) : Halves m m' d := by
  obtain ⟨L, D, hL, hlookup, hD, hdeadlines⟩ := h
  exact ⟨L, hL, hlookup, .inr ⟨D, hD, hdeadlines⟩⟩

theorem Both.expires {m : Expirations} {d : Dir} (h : Both m m d)
    (hbounded : ∀ k t, m k = some t → t < 2 ^ 64) : Expires m d := by
  obtain ⟨L, D, hL, hlookup, hD, hdeadlines⟩ := h
  exact .inr ⟨L, D, hL, hD, hbounded, hlookup, hdeadlines⟩

theorem Expires.bounded {m : Expirations} {d : Dir} (h : Expires m d) :
    ∀ k t, m k = some t → t < 2 ^ 64 := by
  obtain ⟨rfl, -, -⟩ | ⟨L, D, -, -, hindexes⟩ := h
  · simp
  · exact hindexes.bounded

theorem lookupEntries_ne_bucket (m : Expirations) (k : Bytes) (c : Dir) :
    lookupEntries m k ≠ some (.bucket c) := by
  unfold lookupEntries
  cases m k <;> simp

theorem deadlineEntries_ne_bucket (m : Expirations) (x : Bytes) (c : Dir) :
    deadlineEntries m x ≠ some (.bucket c) := by
  unfold deadlineEntries
  split <;> simp

/-- Deleting where there is no nested bucket. -/
theorem run_delete_value {d : Dir} {k : Bytes} (h : ∀ c, d.entries k ≠ some (.bucket c)) :
    (Dir.run (.delete k) d).2 = d.set k none ∧
    ((d.entries k = none ∧ (Dir.run (.delete k) d).1 = .error .keyValueMissing) ∨
      ∃ v, d.entries k = some (.value v) ∧
        (Dir.run (.delete k) d).1 = .ok (.pair (some (k, v)))) := by
  rcases hd : d.entries k with - | v | c
  · simp [Dir.run, hd, Dir.set_self hd]
  · simp [Dir.run, hd]
  · exact absurd hd (h c)

/-- Putting where there is no nested bucket. -/
theorem run_put_value {d : Dir} {k : Bytes} (v : Bytes)
    (h : ∀ c, d.entries k ≠ some (.bucket c)) :
    (Dir.run (.put k v) d).2 = d.insert k (.value v) ∧
      ∃ o, (Dir.run (.put k v) d).1 = .ok (.pair o) := by
  rcases hd : d.entries k with - | w | c
  · simp [Dir.run, hd]
  · simp [Dir.run, hd]
  · exact absurd hd (h c)

theorem removeDeadline_spec {d D : Dir} (hD : d.entries ttlDeadlinesBucket = some (.bucket D))
    {t : Nat} {k : Bytes} (hvalue : ∀ c, D.entries (deadlineKey t k) ≠ some (.bucket c)) :
    Prog.wp (Dir.serve seen) (Program.removeDeadline t k) d fun r d' => r = .ok () ∧
      d' = d.set ttlDeadlinesBucket (some (.bucket (D.set (deadlineKey t k) none))) := by
  unfold Program.removeDeadline
  have hget : Dir.run (.getBucket ttlDeadlinesBucket) d = (.ok .unit, d) := by
    simp [Dir.run, hD]
  simp only [Prog.wp_bind, wp_attempt, hget, Prog.andThen_ok]
  rw [wp_inside hD, wp_attempt]
  obtain ⟨hstate, ⟨-, hanswer⟩ | ⟨v, -, hanswer⟩⟩ := run_delete_value hvalue
  · simp [hstate, hanswer]
  · simp [hstate, hanswer]

/-- `remove_deadline` on the deadline a key has. -/
theorem Halves.removeDeadline {m m' : Expirations} {d : Dir} (h : Halves m m' d) {k : Bytes}
    {t : Nat} (hk : m' k = some t) (ht : t < 2 ^ 64) :
    Prog.wp (Dir.serve seen) (Program.removeDeadline t k) d fun r d' => r = .ok () ∧
      Both m (Function.update m' k none) d' ∧ SameRecords d d' := by
  obtain ⟨L, hL, hlookup, ⟨-, rfl⟩ | ⟨D, hD, hdeadlines⟩⟩ := h
  · cases hk
  apply Prog.wp_mono (removeDeadline_spec hD (by
    rw [hdeadlines]
    exact deadlineEntries_ne_bucket m' _))
  rintro r d' ⟨rfl, rfl⟩
  refine ⟨rfl, ⟨L, D.set (deadlineKey t k) none, ?_, hlookup, ?_, ?_⟩,
    SameRecords.set (.inr rfl) _⟩
  · rw [Dir.set_entries_ne _ ttlBucket_ne, hL]
  · exact Dir.set_entries_self _ _ _
  · rw [deadlineEntries_remove ht hk, ← hdeadlines]
    rfl

/-- Rewriting the lookup bucket. -/
theorem Halves.setLookup {m m' : Expirations} {d L' : Dir} (h : Halves m m' d)
    {m₁ : Expirations} (hlookup : L'.entries = lookupEntries m₁) :
    Halves m₁ m' (d.set ttlBucket (some (.bucket L'))) := by
  obtain ⟨L, -, -, hrest⟩ := h
  refine ⟨L', Dir.set_entries_self _ _ _, hlookup, ?_⟩
  rwa [Dir.set_entries_ne _ ttlBucket_ne.symm]

theorem Expires.halves {m : Expirations} {d : Dir} (h : Expires m d) :
    Halves m m (Dir.run (.getOrCreateBucket ttlBucket) d).2 ∧
      (Dir.run (.getOrCreateBucket ttlBucket) d).1 = .ok .unit ∧
      SameRecords d (Dir.run (.getOrCreateBucket ttlBucket) d).2 := by
  obtain ⟨rfl, hL, hD⟩ | ⟨L, D, hL, hD, hindexes⟩ := h
  · simp only [Dir.run, hL, true_and]
    refine ⟨⟨Dir.empty, Dir.insert_entries_self _ _ _, by funext; rfl, .inl ⟨?_, rfl⟩⟩,
      SameRecords.insert (.inl rfl) _⟩
    rw [Dir.insert_entries_ne _ ttlBucket_ne.symm, hD]
  · simp only [Dir.run, hL, true_and]
    exact ⟨⟨L, hL, hindexes.lookup, .inr ⟨D, hD, hindexes.deadlines⟩⟩, .refl d⟩

/-- The deadline bucket is there afterwards. -/
theorem Halves.getDeadlines {m m' : Expirations} {d : Dir} (h : Halves m m' d) :
    Halves m m' (Dir.run (.getOrCreateBucket ttlDeadlinesBucket) d).2 ∧
      (∃ D : Dir, (Dir.run (.getOrCreateBucket ttlDeadlinesBucket) d).2.entries ttlDeadlinesBucket =
          some (.bucket D) ∧ D.entries = deadlineEntries m') ∧
      (Dir.run (.getOrCreateBucket ttlDeadlinesBucket) d).1 = .ok .unit ∧
      SameRecords d (Dir.run (.getOrCreateBucket ttlDeadlinesBucket) d).2 := by
  obtain ⟨L, hL, hlookup, ⟨hD, rfl⟩ | ⟨D, hD, hdeadlines⟩⟩ := h
  · have hempty : Dir.empty.entries = deadlineEntries fun _ => none := by
      funext x
      simp [Dir.empty, deadlineEntries]
    simp only [Dir.run, hD]
    refine ⟨⟨L, ?_, hlookup, .inr ⟨Dir.empty, Dir.insert_entries_self _ _ _, hempty⟩⟩,
      ⟨Dir.empty, Dir.insert_entries_self _ _ _, hempty⟩, trivial, SameRecords.insert (.inr rfl) _⟩
    rw [Dir.insert_entries_ne _ ttlBucket_ne, hL]
  · simp only [Dir.run, hD]
    exact ⟨⟨L, hL, hlookup, .inr ⟨D, hD, hdeadlines⟩⟩, ⟨D, rfl, hdeadlines⟩, trivial, .refl d⟩

theorem getKv_lookup {m : Expirations} {L : Dir} (h : L.entries = lookupEntries m) (k : Bytes)
    (post : Except Error (Option Bytes) → Dir → Prop) :
    Prog.wp (Dir.serve seen) (Program.getKv k) L post ↔
      post (.ok ((m k).map (beBytes 8))) L := by
  cases hk : m k <;>
    simp [Program.getKv, Dir.run, h, lookupEntries, hk, Dir.pairOf, Program.valueOf]

/-- The deadline that a key had is retired before it gets a new one. -/
theorem Halves.retireDeadline {m : Expirations} {d : Dir} (h : Halves m m d) (k : Bytes)
    (hbounded : ∀ t, m k = some t → t < 2 ^ 64) :
    Prog.wp (Dir.serve seen) (Program.retireDeadline k) d fun r d' => r = .ok () ∧
      Halves m (Function.update m k none) d' ∧ SameRecords d d' := by
  obtain ⟨L, hL, hlookup, -⟩ := id h
  unfold Program.retireDeadline
  rw [Prog.wp_bind, wp_inside hL, getKv_lookup hlookup, Dir.set_self hL]
  cases hk : m k with
  | none =>
    simp only [Option.map_none, Prog.andThen_ok, Prog.wp_pure, true_and]
    rw [← hk, Function.update_eq_self]
    exact ⟨h, .refl d⟩
  | some t =>
    simp only [Option.map_some, Prog.andThen_ok, Prog.wp_bind, Prog.wp_ofExcept,
      decodeExpiration_eight (hbounded t hk)]
    apply Prog.wp_mono (h.removeDeadline hk (hbounded t hk))
    rintro r d' ⟨hr, hboth, hsame⟩
    exact ⟨hr, hboth.halves, hsame⟩

/-- `set_expiration_millis` binds one key. -/
theorem Expires.setExpirationMillis {m : Expirations} {d : Dir} (h : Expires m d) (k : Bytes)
    {t : Nat} (ht : t < 2 ^ 64) :
    Prog.wp (Dir.serve seen) (Program.setExpirationMillis k t) d fun r d' => r = .ok () ∧
      Expires (Function.update m k (some t)) d' ∧ SameRecords d d' := by
  unfold Program.setExpirationMillis
  obtain ⟨hhalves, hok, hsame⟩ := h.halves
  rw [Prog.wp_bind, wp_perform, hok, Prog.andThen_ok]
  apply Prog.wp_seq (hhalves.retireDeadline k (h.bounded k))
  rotate_left
  · rintro e d' ⟨hr, -⟩
    cases hr
  rintro _ d₁ ⟨-, hhalves₁, hsame₁⟩
  obtain ⟨L, hL, hlookup, -⟩ := id hhalves₁
  have hfree : ∀ c, L.entries k ≠ some (.bucket c) := by
    rw [hlookup]
    exact lookupEntries_ne_bucket m k
  obtain ⟨hput, o, hanswer⟩ := run_put_value (beBytes 8 t) hfree
  rw [Prog.wp_bind, wp_inside hL, Program.put, Prog.wp_bind, wp_perform, hput, hanswer]
  simp only [Prog.andThen_ok, Prog.wp_pure]
  have hhalves₂ : Halves (Function.update m k (some t)) (Function.update m k none)
      (d₁.set ttlBucket (some (.bucket (L.insert k (.value (beBytes 8 t)))))) := by
    apply hhalves₁.setLookup
    rw [lookupEntries_update, ← hlookup]
    rfl
  obtain ⟨⟨L', hL', hlookup', -⟩, ⟨D, hD, hdeadlines⟩, hok₂, hsame₂⟩ := hhalves₂.getDeadlines
  rw [Prog.wp_bind, wp_perform, hok₂, Prog.andThen_ok, Prog.wp_bind, wp_inside hD, Program.put,
    Prog.wp_bind, wp_perform]
  obtain ⟨hput', o', hanswer'⟩ := run_put_value (d := D) [] (k := deadlineKey t k) (by
    rw [hdeadlines]
    exact deadlineEntries_ne_bucket _ _)
  rw [hput', hanswer']
  simp only [Prog.andThen_ok, Prog.wp_pure, true_and]
  have hindexes : Indexes (Function.update m k (some t)) L'
      (D.insert (deadlineKey t k) (.value [])) := by
    refine ⟨?_, hlookup', ?_⟩
    · intro x s hx
      by_cases hxk : x = k
      · subst hxk
        rw [Function.update_self, Option.some.injEq] at hx
        omega
      · rw [Function.update_of_ne hxk] at hx
        exact h.bounded x s hx
    · have hadd := deadlineEntries_add (m := Function.update m k none) (k := k) ht (by simp)
      rw [Function.update_idem] at hadd
      rw [hadd, ← hdeadlines]
      rfl
  refine ⟨.inr ⟨L', _, ?_, ?_, hindexes⟩, ?_⟩
  · rw [Dir.set_entries_ne _ ttlBucket_ne, hL']
  · exact Dir.set_entries_self _ _ _
  · exact hsame.trans (hsame₁.trans ((SameRecords.set (.inl rfl) _).trans
      (hsame₂.trans (SameRecords.set (.inr rfl) _))))

/-- `clear_ttl` unbinds one key. -/
theorem Expires.clearTtl {m : Expirations} {d : Dir} (h : Expires m d) (k : Bytes) :
    Prog.wp (Dir.serve seen) (Program.clearTtl k) d fun r d' => r = .ok (m k).isSome ∧
      Expires (Function.update m k none) d' ∧ SameRecords d d' := by
  unfold Program.clearTtl
  obtain ⟨rfl, hL, hD⟩ | ⟨L, D, hL, hD, hindexes⟩ := id h
  · have hget : Dir.run (.getBucket ttlBucket) d = (.error .bucketMissing, d) := by
      simp [Dir.run, hL]
    rw [Prog.wp_bind, wp_attempt, hget]
    simp only [Prog.andThen_ok, Prog.wp_pure, Option.isSome_none, true_and]
    rw [Function.update_eq_self_iff.mpr rfl]
    exact ⟨h, .refl d⟩
  have hget : Dir.run (.getBucket ttlBucket) d = (.ok .unit, d) := by
    simp [Dir.run, hL]
  rw [Prog.wp_bind, wp_attempt, hget]
  simp only [Prog.andThen_ok]
  rw [Prog.wp_bind, wp_inside hL, wp_attempt]
  obtain ⟨hstate, hanswer⟩ := run_delete_value (d := L) (k := k) (by
    rw [hindexes.lookup]
    exact lookupEntries_ne_bucket m k)
  rw [hstate]
  obtain ⟨hnone, hanswer⟩ | ⟨v, hv, hanswer⟩ := hanswer
  · have hk : m k = none := by simpa [hindexes.lookup, lookupEntries] using hnone
    rw [hanswer]
    simp only [Prog.andThen_ok, Prog.wp_pure, hk, Option.isSome_none, true_and]
    rw [Dir.set_self hnone, Dir.set_self hL, ← hk, Function.update_eq_self]
    exact ⟨h, .refl d⟩
  · obtain ⟨t, hk, rfl⟩ : ∃ t, m k = some t ∧ beBytes 8 t = v := by
      simpa [hindexes.lookup, lookupEntries] using hv
    have ht := hindexes.bounded k t hk
    have hhalves : Halves (Function.update m k none) m
        (d.set ttlBucket (some (.bucket (L.set k none)))) := by
      refine Halves.setLookup ⟨L, hL, hindexes.lookup, .inr ⟨D, hD, hindexes.deadlines⟩⟩ ?_
      rw [lookupEntries_update, ← hindexes.lookup]
      rfl
    rw [hanswer]
    simp only [Prog.andThen_ok, Prog.wp_bind, Program.valueOf, Option.getD_some, Prog.wp_ofExcept,
      decodeExpiration_eight ht]
    apply Prog.wp_mono (hhalves.removeDeadline hk ht)
    rintro r d' ⟨rfl, hboth, hsame⟩
    simp only [Prog.andThen_ok, Prog.wp_pure, hk, Option.isSome_some, true_and]
    refine ⟨hboth.expires fun x s hx => ?_, (SameRecords.set (.inl rfl) _).trans hsame⟩
    by_cases hxk : x = k
    · simp [hxk] at hx
    · rw [Function.update_of_ne hxk] at hx
      exact hindexes.bounded x s hx

theorem Expires.congr {m : Expirations} {d d' : Dir} (h : Expires m d)
    (hlookup : d'.entries ttlBucket = d.entries ttlBucket)
    (hdeadlines : d'.entries ttlDeadlinesBucket = d.entries ttlDeadlinesBucket) :
    Expires m d' := by
  unfold Expires at h ⊢
  rwa [hlookup, hdeadlines]

/-- Records under other names do not matter. -/
theorem Expires.set {m : Expirations} {d : Dir} (h : Expires m d) {k : Bytes} (hk : ¬ Reserved k)
    (e : Option Entry) : Expires m (d.set k e) :=
  h.congr (Dir.set_entries_ne d (fun heq => hk (.inl heq.symm)) e)
    (Dir.set_entries_ne d (fun heq => hk (.inr heq.symm)) e)

theorem Expires.insert {m : Expirations} {d : Dir} (h : Expires m d) {k : Bytes}
    (hk : ¬ Reserved k) (e : Entry) : Expires m (d.insert k e) :=
  h.congr (Dir.insert_entries_ne d (fun heq => hk (.inl heq.symm)) e)
    (Dir.insert_entries_ne d (fun heq => hk (.inr heq.symm)) e)

/-- `expiration` reads the map. -/
theorem Expires.expiration {m : Expirations} {d : Dir} (h : Expires m d) (k : Bytes) :
    Prog.wp (Dir.serve seen) (Program.expiration k) d fun r d' => r = .ok (m k) ∧ d' = d := by
  unfold Program.expiration Program.expirationBucket
  obtain ⟨rfl, hL, -⟩ | ⟨L, D, hL, -, hindexes⟩ := h
  · have hget : Dir.run (.getBucket ttlBucket) d = (.error .bucketMissing, d) := by
      simp [Dir.run, hL]
    simp [hget]
  have hget : Dir.run (.getBucket ttlBucket) d = (.ok .unit, d) := by
    simp [Dir.run, hL]
  simp only [Prog.wp_bind, wp_attempt, hget, Prog.andThen_ok, Prog.wp_pure]
  rw [wp_inside hL, getKv_lookup hindexes.lookup, Dir.set_self hL]
  cases hk : m k with
  | none => simp
  | some t => simp [decodeExpiration_eight (hindexes.bounded k t hk)]

/-- The value of a record. -/
def rawValue (d : Dir) (k : Bytes) : Option Bytes :=
  match d.entries k with
  | some (.value v) => some v
  | _ => none

@[simp] theorem wp_getKv (k : Bytes) (d : Dir) (post : Except Error (Option Bytes) → Dir → Prop) :
    Prog.wp (Dir.serve seen) (Program.getKv k) d post ↔ post (.ok (rawValue d k)) d := by
  rcases hd : d.entries k with - | v | c <;>
    simp [Program.getKv, Dir.run, hd, Dir.pairOf, Program.valueOf, rawValue]

/-- The lookup entry of a key. -/
def lookupOf (d : Dir) (k : Bytes) : Option Bytes :=
  match d.entries ttlBucket with
  | some (.bucket L) => rawValue L k
  | _ => none

theorem Expires.lookupOf {m : Expirations} {d : Dir} (h : Expires m d) (k : Bytes) :
    lookupOf d k = (m k).map (beBytes 8) := by
  obtain ⟨rfl, hL, -⟩ | ⟨L, D, hL, -, hindexes⟩ := h
  · simp [Analysis.lookupOf, hL]
  · cases hk : m k <;> simp [Analysis.lookupOf, hL, rawValue, hindexes.lookup, lookupEntries, hk]

/-- The expirations a bucket holds. -/
def expirationsOf (d : Dir) : Expirations := fun k => (lookupOf d k).map ofBeBytes

/-- There is one way to read the indexes. -/
theorem Expires.eq_expirationsOf {m : Expirations} {d : Dir} (h : Expires m d) :
    m = expirationsOf d := by
  funext k
  rw [expirationsOf, h.lookupOf]
  cases hk : m k with
  | none => rfl
  | some t => simp [ofBeBytes_eight (h.bounded k t hk)]

theorem Expires.of_eq {m : Expirations} {d : Dir} (h : Expires m d) :
    Expires (expirationsOf d) d :=
  h.eq_expirationsOf ▸ h

/-- `get_live_at` compares the deadline of the key with the clock. -/
theorem Expires.getLiveAt {m : Expirations} {d : Dir} (h : Expires m d) (k : Bytes)
    {time : SystemTime} {now : Nat} (hnow : epochMillis time = .ok now) :
    Prog.wp (Dir.serve seen) (Program.getLiveAt k time) d fun r d' => d' = d ∧
      r = .ok (if ∀ t, m k = some t → now < t then rawValue d k else none) := by
  unfold Program.getLiveAt
  rw [Prog.wp_bind]
  apply Prog.wp_mono (h.expiration k)
  rintro r d' ⟨rfl, rfl⟩
  cases hk : m k with
  | none => simp
  | some t =>
    by_cases hle : t ≤ now
    · simp [hnow, hle]
    · simp [hnow, hle, Nat.lt_of_not_le hle]

/-! ## Purging -/

/-- Expired deadline keys with their keys, as the scan collects them. -/
def Due (m : Expirations) (expired : List (Bytes × Bytes)) : Prop :=
  (expired.map Prod.snd).Nodup ∧
  ∀ x ∈ expired, ∃ t, m x.2 = some t ∧ t < 2 ^ 64 ∧ x.1 = deadlineKey t x.2

/-- What the deadline bucket shows are deadline keys of the map. -/
theorem shown_deadline {m : Expirations} {D : Dir} (hdeadlines : D.entries = deadlineEntries m)
    (hbounded : ∀ k t, m k = some t → t < 2 ^ 64) {l : List Data} (hl : Shows D l)
    {pair : Bytes × Bytes} (hpair : pair ∈ l.filterMap Data.kvPair) :
    ∃ k t, m k = some t ∧ t < 2 ^ 64 ∧ pair.1 = deadlineKey t k := by
  obtain ⟨x, hx, hkv⟩ := List.mem_filterMap.mp hpair
  obtain ⟨y, e, he, rfl⟩ := hl.mem x hx
  rw [hdeadlines] at he
  unfold deadlineEntries at he
  split at he
  · rename_i hy
    obtain rfl : Entry.value [] = e := Option.some.inj he
    obtain rfl : (y, []) = pair := Option.some.inj hkv
    have ht := hbounded _ _ hy.2
    exact ⟨y.drop 8, _, hy.2, ht, (eq_deadlineKey ht).mpr ⟨hy.1, rfl, rfl⟩⟩
  · cases he

theorem takeExpired_due {m : Expirations} (now limit : Nat) {pairs : List (Bytes × Bytes)}
    (hnodup : (pairs.map Prod.fst).Nodup)
    (hpairs : ∀ pair ∈ pairs, ∃ k t, m k = some t ∧ t < 2 ^ 64 ∧ pair.1 = deadlineKey t k) :
    ∃ expired, Program.takeExpired now limit pairs = .ok expired ∧ Due m expired ∧
      (expired.map Prod.fst).Sublist (pairs.map Prod.fst) := by
  induction pairs generalizing limit with
  | nil => cases limit <;> exact ⟨[], rfl, by simp [Due], .refl _⟩
  | cons pair pairs ih =>
    cases limit with
    | zero => exact ⟨[], rfl, by simp [Due], List.nil_sublist _⟩
    | succ limit =>
      obtain ⟨k, t, hk, ht, hkey⟩ := hpairs pair (by simp)
      rw [List.map_cons, List.nodup_cons] at hnodup
      obtain ⟨expired, htake, hdue, hsub⟩ :=
        ih limit hnodup.2 fun x hx => hpairs x (List.mem_cons_of_mem _ hx)
      by_cases hnow : now < t
      · refine ⟨[], ?_, by simp [Due], List.nil_sublist _⟩
        simp [Program.takeExpired, hkey, decodeDeadlineKey_deadlineKey ht, hnow]
      · refine ⟨(pair.1, k) :: expired, ?_, ⟨?_, ?_⟩, hsub.cons_cons _⟩
        · simp [Program.takeExpired, hkey, decodeDeadlineKey_deadlineKey ht, hnow, htake]
        · -- Two deadline keys of one key would be the same key of the bucket.
          rw [List.map_cons, List.nodup_cons]
          refine ⟨fun hmem => ?_, hdue.1⟩
          obtain ⟨x, hx, heq⟩ := List.mem_map.mp hmem
          obtain ⟨s, hs, -, hxkey⟩ := hdue.2 x hx
          have hst : s = t := by
            rw [heq, hk] at hs
            exact (Option.some.inj hs).symm
          rw [heq, hst, ← hkey] at hxkey
          exact hnodup.1 (hsub.subset (List.mem_map.mpr ⟨x, hx, hxkey⟩))
        · intro x hx
          obtain rfl | hx := List.mem_cons.mp hx
          · exact ⟨t, hk, ht, hkey⟩
          · exact hdue.2 x hx

/-- The record of a key is gone, or there is a nested bucket in its place. -/
theorem purgeRecord_spec (k : Bytes) (d : Dir) :
    Prog.wp (Dir.serve seen) (Program.purgeRecord k) d fun r d' =>
      ((∃ c, d.entries k = some (.bucket c)) ∧ r = .error .incompatibleValue ∧ d' = d) ∨
      ((∀ c, d.entries k ≠ some (.bucket c)) ∧ r = .ok () ∧ d' = d.set k none) := by
  rcases hd : d.entries k with - | v | c
  · simp [Program.purgeRecord, Program.get, Dir.run, hd, Program.dataOf, Dir.set_self hd]
  · simp [Program.purgeRecord, Program.get, Dir.run, hd, Program.dataOf, Dir.dataOf]
  · simp [Program.purgeRecord, Program.get, Dir.run, hd, Program.dataOf, Dir.dataOf]

/-- One round of `purge_expired`. -/
theorem Both.purgeOne {m : Expirations} {d : Dir} (h : Both m m d) {x : Bytes × Bytes} {t : Nat}
    (hx : m x.2 = some t) (ht : t < 2 ^ 64) (hkey : x.1 = deadlineKey t x.2) :
    Prog.wp (Dir.serve seen) (Program.purgeOne x) d fun r d' =>
      ((∃ c, d.entries x.2 = some (.bucket c)) ∧ r = .error .incompatibleValue ∧ d' = d) ∨
      (r = .ok () ∧ Both (Function.update m x.2 none) (Function.update m x.2 none) d' ∧
        ∀ k, ¬ Reserved k → d'.entries k = if k = x.2 then none else d.entries k) := by
  obtain ⟨L, D, hL, hlookup, hD, hdeadlines⟩ := h
  unfold Program.purgeOne
  apply Prog.wp_seq (purgeRecord_spec x.2 d)
  rotate_left
  · rintro e d' (⟨hc, hr, rfl⟩ | ⟨-, hr, -⟩)
    · exact .inl ⟨hc, hr, rfl⟩
    · cases hr
  rintro _ d' (⟨-, hfailed, -⟩ | ⟨hrecord, -, rfl⟩)
  · cases hfailed
  -- The reserved names hold buckets, so the record had another name.
  have hne : ttlBucket ≠ x.2 := fun heq => hrecord L (heq ▸ hL)
  have hne' : ttlDeadlinesBucket ≠ x.2 := fun heq => hrecord D (heq ▸ hD)
  have hL₁ : (d.set x.2 none).entries ttlBucket = some (.bucket L) := by
    rw [Dir.set_entries_ne d hne, hL]
  have hlook : L.entries x.2 = some (.value (beBytes 8 t)) := by
    simp [hlookup, lookupEntries, hx]
  have hdead : D.entries x.1 = some (.value []) := by
    simp [hdeadlines, hkey, deadlineEntries, drop_deadlineKey, take_deadlineKey,
      length_deadlineKey, ofBeBytes_eight ht, hx]
  rw [Prog.wp_bind, wp_inside hL₁, wp_perform]
  simp only [Dir.run, hlook, Prog.andThen_ok]
  have hD₁ : ((d.set x.2 none).set ttlBucket (some (.bucket (L.set x.2 none)))).entries
      ttlDeadlinesBucket = some (.bucket D) := by
    rw [Dir.set_entries_ne _ ttlBucket_ne.symm, Dir.set_entries_ne d hne', hD]
  rw [Prog.wp_bind, wp_inside hD₁, wp_perform]
  simp only [Dir.run, hdead, Prog.andThen_ok, Prog.wp_pure]
  refine .inr ⟨trivial, ⟨L.set x.2 none, D.set x.1 none, ?_, ?_, ?_, ?_⟩, ?_⟩
  · rw [Dir.set_entries_ne _ ttlBucket_ne]
    exact Dir.set_entries_self _ _ _
  · rw [lookupEntries_update, ← hlookup]
    rfl
  · exact Dir.set_entries_self _ _ _
  · rw [deadlineEntries_remove ht hx, ← hdeadlines, ← hkey]
    rfl
  · intro k hreserved
    rw [Dir.set_entries_ne _ fun heq => hreserved (.inr heq),
      Dir.set_entries_ne _ fun heq => hreserved (.inl heq)]
    by_cases hk : k = x.2
    · rw [if_pos hk, hk, Dir.set_entries_self]
    · rw [if_neg hk, Dir.set_entries_ne d hk]

/-- The loop of `purge_expired`. -/
theorem Both.purgeAll {m : Expirations} {d : Dir} {expired : List (Bytes × Bytes)}
    (h : Both m m d) (hdue : Due m expired)
    (hbounded : ∀ k t, m k = some t → t < 2 ^ 64) :
    Prog.wp (Dir.serve seen) (Prog.forEach Program.purgeOne expired) d fun r d' =>
      (∃ m', Expires m' d') ∧
      ((∀ k t, m k = some t → ∀ c, d.entries k ≠ some (.bucket c)) → r = .ok ()) := by
  induction expired generalizing m d with
  | nil => exact ⟨⟨m, h.expires hbounded⟩, fun _ => rfl⟩
  | cons x expired ih =>
    obtain ⟨hnodup, hall⟩ := hdue
    rw [List.map_cons, List.nodup_cons] at hnodup
    obtain ⟨t, hx, ht, hkey⟩ := hall x (by simp)
    rw [Prog.forEach, Prog.wp_bind']
    apply Prog.wp_mono (h.purgeOne hx ht hkey)
    rintro r d' (⟨⟨c, hc⟩, rfl, rfl⟩ | ⟨rfl, hboth, hsame⟩)
    · exact ⟨⟨m, h.expires hbounded⟩, fun hclean => absurd hc (hclean x.2 t hx c)⟩
    · have hrest : ∀ k s, Function.update m x.2 none k = some s → k ≠ x.2 ∧ m k = some s := by
        intro k s hk
        by_cases hkx : k = x.2
        · simp [hkx] at hk
        · exact ⟨hkx, by rwa [Function.update_of_ne hkx] at hk⟩
      apply Prog.wp_mono (ih hboth ⟨hnodup.2, fun y hy => ?_⟩
        fun k s hk => hbounded k s (hrest k s hk).2)
      · rintro r' d'' ⟨hexpires, hok⟩
        refine ⟨hexpires, fun hclean => hok fun k s hk c hc => ?_⟩
        obtain ⟨hkx, hmk⟩ := hrest k s hk
        by_cases hreserved : Reserved k
        · -- The reserved names held buckets before.
          obtain ⟨L, D, hL, -, hD, -⟩ := h
          obtain rfl | rfl := hreserved
          · exact hclean _ s hmk L hL
          · exact hclean _ s hmk D hD
        · exact hclean k s hmk c (by rwa [hsame k hreserved, if_neg hkx] at hc)
      · obtain ⟨s, hs, hs64, hykey⟩ := hall y (List.mem_cons_of_mem _ hy)
        have hyx : y.2 ≠ x.2 := by
          intro heq
          exact hnodup.1 (heq ▸ List.mem_map.mpr ⟨y, hy, rfl⟩)
        exact ⟨s, by rwa [Function.update_of_ne hyx], hs64, hykey⟩

/-- The records of a scan are in its order. -/
theorem kvPair_keys_sublist (l : List Data) :
    ((l.filterMap Data.kvPair).map Prod.fst).Sublist (l.map Data.key) := by
  induction l with
  | nil => exact .refl _
  | cons x l ih =>
    cases x with
    | bucket name => exact ih.cons _
    | keyValue k v => exact ih.cons_cons _

theorem filterMap_kvPair_nodup {l : List Data} (h : (l.map Data.key).Pairwise (· < ·)) :
    ((l.filterMap Data.kvPair).map Prod.fst).Nodup :=
  (h.imp ne_of_lt).sublist (kvPair_keys_sublist l)

/-- `purge_expired` keeps the indexes, and fails only at a nested bucket under a key that
expires. -/
theorem Expires.purgeExpired {m : Expirations} {d : Dir} (h : Expires m d)
    (hseen : ∀ c l, seen c l → Shows c l) (time : SystemTime) (limit : Nat) :
    Prog.wp (Dir.serve seen) (Program.purgeExpired time limit) d fun r d' =>
      (∃ m', Expires m' d') ∧
      ((∀ k t, m k = some t → ∀ c, d.entries k ≠ some (.bucket c)) →
        ∀ now, epochMillis time = .ok now → ∃ n, r = .ok n) := by
  unfold Program.purgeExpired
  by_cases hlimit : limit = 0
  · simp only [hlimit, if_true, Prog.wp_pure]
    exact ⟨⟨m, h⟩, fun _ _ _ => ⟨0, rfl⟩⟩
  simp only [hlimit, if_false, Prog.wp_bind, Prog.wp_ofExcept]
  cases hnow : epochMillis time with
  | error e =>
    simp only [Prog.andThen_error]
    exact ⟨⟨m, h⟩, fun _ now hok => by cases hok⟩
  | ok now =>
    simp only [Prog.andThen_ok, Program.openIndexes, Prog.wp_bind, wp_attempt]
    obtain ⟨rfl, hL, hD⟩ | ⟨L, D, hL, hD, hindexes⟩ := id h
    · have hget : Dir.run (.getBucket ttlBucket) d = (.error .bucketMissing, d) := by
        simp [Dir.run, hL]
      simp only [hget, Prog.wp_pure, Prog.andThen_ok]
      exact ⟨⟨_, h⟩, fun _ _ _ => ⟨0, rfl⟩⟩
    have hget : Dir.run (.getBucket ttlBucket) d = (.ok .unit, d) := by
      simp [Dir.run, hL]
    have hindex : Dir.run (.getBucket ttlDeadlinesBucket) d = (.ok .unit, d) := by
      simp [Dir.run, hD]
    simp only [hget, Prog.wp_bind, Program.deadlineIndex, wp_attempt, hindex, Prog.andThen_ok,
      Prog.wp_pure, if_true, Program.purgeDue]
    rw [wp_inside hD, Program.kvPairs, Prog.wp_bind, wp_items]
    intro l hl
    simp only [Prog.andThen_ok, Prog.wp_pure, Prog.wp_bind, Prog.wp_ofExcept]
    have hshows := hseen D l hl
    obtain ⟨expired, htake, hdue, -⟩ := takeExpired_due now limit
      (filterMap_kvPair_nodup hshows.sorted)
      fun pair hpair => shown_deadline hindexes.deadlines hindexes.bounded hshows hpair
    rw [htake, Prog.andThen_ok, Prog.wp_bind, Dir.set_self hD]
    have hboth : Both m m d := ⟨L, D, hL, hindexes.lookup, hD, hindexes.deadlines⟩
    apply Prog.wp_mono (hboth.purgeAll hdue hindexes.bounded)
    rintro r d' ⟨hexpires, hok⟩
    cases r with
    | ok _ => exact ⟨hexpires, fun _ _ _ => ⟨_, rfl⟩⟩
    | error e => exact ⟨hexpires, fun hclean => by cases hok hclean⟩

/-! ## Records -/

/-- `put` writes a record, unless there is a nested bucket. -/
theorem wp_put (k v : Bytes) (d : Dir) (post : Except Error (Option Bytes) → Dir → Prop) :
    Prog.wp (Dir.serve seen) (Program.put k v) d post ↔
      match d.entries k with
      | some (.bucket _) => post (.error .incompatibleValue) d
      | _ => post (.ok (rawValue d k)) (d.insert k (.value v)) := by
  rcases hd : d.entries k with - | w | c <;>
    simp [Program.put, Dir.run, hd, Program.valueOf, rawValue]

/-- `put` keeps the expirations. -/
theorem Expires.put {m : Expirations} {d : Dir} (h : Expires m d) {k : Bytes} (hk : ¬ Reserved k)
    (v : Bytes) :
    Prog.wp (Dir.serve seen) (Program.put k v) d fun _ d' => Expires m d' := by
  rw [wp_put]
  split
  · exact h
  · exact h.insert hk _

/-- `delete` keeps the expirations. -/
theorem Expires.delete {m : Expirations} {d : Dir} (h : Expires m d) {k : Bytes}
    (hk : ¬ Reserved k) :
    Prog.wp (Dir.serve seen) (Program.perform (.delete k)) d fun _ d' => Expires m d' := by
  rw [wp_perform]
  rcases hd : d.entries k with - | v | c <;> simp only [Dir.run, hd]
  · exact h
  · exact h.set hk _
  · exact h

theorem epochMillis_lt {time : SystemTime} {now : Nat} (h : epochMillis time = .ok now) :
    now < 2 ^ 64 := by
  unfold epochMillis at h
  split at h
  · cases h
  · split at h
    · obtain rfl := Except.ok.inj h
      assumption
    · cases h

/-- `put_with_ttl` writes the record and binds the key. -/
theorem Expires.putWithTtl_value {m : Expirations} {d : Dir} (h : Expires m d) {k : Bytes}
    (hk : ¬ Reserved k) (hfree : ∀ c, d.entries k ≠ some (.bucket c)) (v : Bytes)
    {time : SystemTime} {now : Nat} (hnow : epochMillis time = .ok now) :
    Prog.wp (Dir.serve seen) (Program.putWithTtl k v time) d fun r d' =>
      r = .ok ⟨rawValue d k, now⟩ ∧ Expires (Function.update m k (some now)) d' ∧
        SameRecords (d.insert k (.value v)) d' := by
  unfold Program.putWithTtl
  rw [Prog.wp_bind, Prog.wp_ofExcept, hnow, Prog.andThen_ok, Prog.wp_bind, wp_put]
  split
  · exact absurd ‹_› (hfree _)
  · apply Prog.wp_seq ((h.insert hk (.value v)).setExpirationMillis k (epochMillis_lt hnow))
    · rintro _ d' ⟨-, hexpires, hsame⟩
      exact ⟨rfl, hexpires, hsame⟩
    · rintro e d' ⟨hfailed, -⟩
      cases hfailed

/-- `put_with_ttl` keeps the two indexes. -/
theorem Expires.putWithTtl {m : Expirations} {d : Dir} (h : Expires m d) {k : Bytes}
    (hk : ¬ Reserved k) (v : Bytes) (time : SystemTime) :
    Prog.wp (Dir.serve seen) (Program.putWithTtl k v time) d fun _ d' => ∃ m', Expires m' d' := by
  unfold Program.putWithTtl
  rw [Prog.wp_bind, Prog.wp_ofExcept]
  cases hnow : epochMillis time with
  | error e => exact ⟨m, h⟩
  | ok now =>
    rw [Prog.andThen_ok]
    apply Prog.wp_seq (h.put hk v)
    · intro previous d₁ h₁
      apply Prog.wp_seq (h₁.setExpirationMillis k (epochMillis_lt hnow))
      · rintro _ d₂ ⟨-, h₂, -⟩
        exact ⟨_, h₂⟩
      · rintro e d₂ ⟨-, h₂, -⟩
        exact ⟨_, h₂⟩
    · intro e d₁ h₁
      exact ⟨m, h₁⟩

/-- Anything after which the key is cleared. -/
theorem Expires.thenClear {α β : Type} {m : Expirations} {d : Dir} {k : Bytes} {p : Program α}
    (hp : Prog.wp (Dir.serve seen) p d fun _ d' => Expires m d') (f : Bool → β) :
    Prog.wp (Dir.serve seen) (do let _ ← p; let b ← Program.clearTtl k; return f b) d
      fun _ d' => ∃ m', Expires m' d' := by
  apply Prog.wp_seq hp
  · intro _ d₁ h₁
    apply Prog.wp_seq (h₁.clearTtl k)
    · rintro _ d₂ ⟨-, h₂, -⟩
      exact ⟨_, h₂⟩
    · rintro e d₂ ⟨-, h₂, -⟩
      exact ⟨_, h₂⟩
  · intro e d₁ h₁
    exact ⟨m, h₁⟩

/-- `update_value` clears the key when it changes the record. -/
theorem Expires.updateValue {m : Expirations} {d : Dir} (h : Expires m d) {k : Bytes}
    (hk : ¬ Reserved k) (update : Option Bytes → Option Bytes) :
    Prog.wp (Dir.serve seen) (Program.updateValue k update) d
      fun _ d' => ∃ m', Expires m' d' := by
  unfold Program.updateValue
  rw [Prog.wp_bind, wp_getKv, Prog.andThen_ok]
  cases update (rawValue d k) with
  | some v => exact Expires.thenClear (h.put hk v) fun _ => rawValue d k
  | none =>
    simp only
    split
    · exact Expires.thenClear (h.delete hk) fun _ => rawValue d k
    · exact ⟨m, h⟩

end Operations

end Tagdata.Analysis
