import Tagdata.Model.Bucket

/-!
# Buckets as nested maps

What the operations of a bucket mean, without pages and nodes.  A bucket is a counter and a
map from keys to entries; an entry is a value or another bucket.  Every operation answers with
what the caller is told and with the bucket afterwards.
-/

set_option autoImplicit false

namespace Tagdata.Interface

open Tagdata.Model

/-- A counter and a map from keys. -/
structure Directory (E : Type) where
  counter : Nat
  entries : Bytes → Option E

/-- What a key is bound to. -/
inductive Entry where
  | value (v : Bytes)
  | bucket (d : Directory Entry)

/-- The meaning of a bucket. -/
abbrev Dir := Directory Entry

namespace Dir

/-- A bucket that was just created. -/
def empty : Dir := ⟨0, fun _ => none⟩

/-- Rebinds or removes a key. -/
def set (d : Dir) (k : Bytes) (e : Option Entry) : Dir :=
  ⟨d.counter, Function.update d.entries k e⟩

/-- Binds a key, counting the keys that were absent. -/
def insert (d : Dir) (k : Bytes) (e : Entry) : Dir :=
  ⟨if (d.entries k).isSome then d.counter else d.counter + 1,
    Function.update d.entries k (some e)⟩

/-- An entry as the caller sees it. -/
def dataOf (k : Bytes) : Entry → Data
  | .value v => .keyValue k v
  | .bucket _ => .bucket k

/-- The pair a key with a value stands for. -/
def pairOf (k : Bytes) : Entry → Option (Bytes × Bytes)
  | .value v => some (k, v)
  | .bucket _ => none

/-- The value of a key, for the conditional operations. -/
def observe (d : Dir) (k : Bytes) : Except Error (Option Bytes) :=
  match d.entries k with
  | some (.bucket _) => .error .incompatibleValue
  | some (.value v) => .ok (some v)
  | none => .ok none

/-- One operation. -/
def run : Op → Dir → Except Error Output × Dir
  | .put k v, d =>
      match d.entries k with
      | some (.bucket _) => (.error .incompatibleValue, d)
      | some (.value old) => (.ok (.pair (some (k, old))), d.insert k (.value v))
      | none => (.ok (.pair none), d.insert k (.value v))
  | .get k, d => (.ok (.data ((d.entries k).map (dataOf k))), d)
  | .getKv k, d => (.ok (.pair ((d.entries k).bind (pairOf k))), d)
  | .delete k, d =>
      match d.entries k with
      | some (.bucket _) => (.error .incompatibleValue, d)
      | some (.value old) => (.ok (.pair (some (k, old))), d.set k none)
      | none => (.error .keyValueMissing, d)
  | .createBucket k, d =>
      match d.entries k with
      | some (.bucket _) => (.error .bucketExists, d)
      | some (.value _) => (.error .incompatibleValue, d)
      | none => (.ok .unit, d.insert k (.bucket empty))
  | .getOrCreateBucket k, d =>
      match d.entries k with
      | some (.bucket _) => (.ok .unit, d)
      | some (.value _) => (.error .incompatibleValue, d)
      | none => (.ok .unit, d.insert k (.bucket empty))
  | .getBucket k, d =>
      match d.entries k with
      | some (.bucket _) => (.ok .unit, d)
      | some (.value _) => (.error .incompatibleValue, d)
      | none => (.error .bucketMissing, d)
  | .deleteBucket k, d =>
      match d.entries k with
      | some (.bucket _) => (.ok .unit, d.set k none)
      | some (.value _) => (.error .incompatibleValue, d)
      | none => (.error .bucketMissing, d)
  | .putIfAbsent k v, d =>
      match d.observe k with
      | .error e => (.error e, d)
      | .ok (some old) => (.ok (.atomic ⟨false, some old, some old⟩), d)
      | .ok none => (.ok (.atomic ⟨true, none, some v⟩), d.insert k (.value v))
  | .compareExchange k expected v, d =>
      match d.observe k with
      | .error e => (.error e, d)
      | .ok observed =>
          if observed = expected then
            (.ok (.atomic ⟨true, observed, some v⟩), d.insert k (.value v))
          else (.ok (.atomic ⟨false, observed, observed⟩), d)
  | .deleteIfValue k expected, d =>
      match d.observe k with
      | .error e => (.error e, d)
      | .ok observed =>
          if observed = some expected then (.ok (.atomic ⟨true, observed, none⟩), d.set k none)
          else (.ok (.atomic ⟨false, observed, observed⟩), d)
  | .nextInt, d => (.ok (.int d.counter), d)

/-- The operations that may bind an absent key. -/
def binds : Op → Bool
  | .put _ _ | .createBucket _ | .getOrCreateBucket _ | .putIfAbsent _ _
  | .compareExchange _ _ _ => true
  | _ => false

/-- Something done to the bucket at a path. -/
def atPath (f : Dir → Except Error Output × Dir) :
    List Bytes → Dir → Except Error Output × Dir
  | [], d => f d
  | name :: path, d =>
      match d.entries name with
      | none => (.error .bucketMissing, d)
      | some (.value _) => (.error .incompatibleValue, d)
      | some (.bucket c) =>
          ((atPath f path c).1, d.set name (some (.bucket (atPath f path c).2)))

/-- The bucket at a path. -/
def find : List Bytes → Dir → Option Dir
  | [], d => some d
  | name :: path, d =>
      match d.entries name with
      | some (.bucket c) => find path c
      | _ => none

/-- The bucket without the values whose keys pass a test. -/
def without (d : Dir) (test : Bytes → Bool) : Dir :=
  ⟨d.counter, fun k =>
    match d.entries k with
    | some (.value v) => if test k then none else some (.value v)
    | e => e⟩

/-- Operations one after another. -/
def runAll : List Bucket.PathOp → Dir → List (Except Error Output) × Dir
  | [], d => ([], d)
  | (path, op) :: ops, d =>
      ((atPath (run op) path d).1 :: (runAll ops (atPath (run op) path d).2).1,
        (runAll ops (atPath (run op) path d).2).2)

/-- An operation counts a key although the counter is the largest word. -/
def Overflows (op : Op) (d : Dir) : Prop := (run op d).2.counter ≠ d.counter ∧
    2 ^ 64 ≤ d.counter + 1

/-- The same for an operation at a path. -/
def OverflowsAt (op : Op) (path : List Bytes) (d : Dir) : Prop :=
  ∃ c, find path d = some c ∧ Overflows op c

/-- The counters stay words while operations are done one after another. -/
def Fits : List Bucket.PathOp → Dir → Prop
  | [], _ => True
  | (path, op) :: ops, d => ¬ OverflowsAt op path d ∧ Fits ops (atPath (run op) path d).2

/-! ## What an operation may change -/

/-- The answers after which nothing has changed. -/
def refused : Except Error Output → Bool
  | .error _ => true
  | .ok (.atomic r) => !r.applied
  | .ok _ => false

theorem set_self {d : Dir} {k : Bytes} {e : Option Entry} (h : d.entries k = e) :
    d.set k e = d := by
  subst h
  rw [set, Function.update_eq_self]

@[simp] theorem set_entries_self (d : Dir) (k : Bytes) (e : Option Entry) :
    (d.set k e).entries k = e := by
  simp [set]

theorem set_entries_ne (d : Dir) {j k : Bytes} (h : j ≠ k) (e : Option Entry) :
    (d.set k e).entries j = d.entries j := by
  simp [set, Function.update_of_ne h]

theorem set_set (d : Dir) (k : Bytes) (e e' : Option Entry) :
    (d.set k e).set k e' = d.set k e' := by
  simp [set]

theorem insert_eq_self {d : Dir} {k : Bytes} {e : Entry} (h : d.entries k = some e) :
    d.insert k e = d := by
  rw [insert, ← h, Function.update_eq_self, h]
  rfl

@[simp] theorem insert_entries_self (d : Dir) (k : Bytes) (e : Entry) :
    (d.insert k e).entries k = some e := by
  simp [insert]

theorem insert_entries_ne (d : Dir) {j k : Bytes} (h : j ≠ k) (e : Entry) :
    (d.insert k e).entries j = d.entries j := by
  simp [insert, Function.update_of_ne h]

/-- An operation that returns an error or was not applied changes nothing. -/
theorem run_refused (op : Op) (d : Dir) (h : refused (run op d).1 = true) :
    (run op d).2 = d := by
  revert h
  cases op with
  | put k v | delete k | createBucket k | getOrCreateBucket k | getBucket k | deleteBucket k =>
    simp only [run]
    rcases d.entries k with - | v | c <;> simp [refused]
  | putIfAbsent k v =>
    simp only [run]
    rcases d.observe k with e | - | old <;> simp [refused]
  | compareExchange k expected v =>
    simp only [run]
    rcases d.observe k with e | observed
    · exact fun _ => rfl
    · by_cases heq : observed = expected <;> simp [heq, refused]
  | deleteIfValue k expected =>
    simp only [run]
    rcases d.observe k with e | observed
    · exact fun _ => rfl
    · by_cases heq : observed = some expected <;> simp [heq, refused]
  | get k | getKv k | nextInt => exact fun _ => rfl

/-- The same at any path. -/
theorem atPath_refused (op : Op) (path : List Bytes) (d : Dir)
    (h : refused (atPath (run op) path d).1 = true) : (atPath (run op) path d).2 = d := by
  induction path generalizing d with
  | nil => exact run_refused op d h
  | cons name path ih =>
    rw [atPath] at h ⊢
    cases hentry : d.entries name with
    | none => rfl
    | some e =>
      cases e with
      | value v => rfl
      | bucket c =>
        simp only [hentry] at h
        simp only
        rw [ih c h]
        exact set_self hentry

/-- What an operation does to the bucket: nothing, or one key is removed or bound. -/
theorem run_cases (op : Op) (d : Dir) :
    (run op d).2 = d ∨ (∃ k, (run op d).2 = d.set k none) ∨
      ∃ k e, (run op d).2 = d.insert k e := by
  cases op with
  | put k v | createBucket k | getOrCreateBucket k =>
    simp only [run]
    rcases d.entries k with - | v | c <;> first | exact .inl rfl | exact .inr (.inr ⟨k, _, rfl⟩)
  | delete k | getBucket k | deleteBucket k =>
    simp only [run]
    rcases d.entries k with - | v | c <;> first | exact .inl rfl | exact .inr (.inl ⟨k, rfl⟩)
  | putIfAbsent k v =>
    simp only [run]
    rcases d.observe k with e | - | old <;> first | exact .inl rfl | exact .inr (.inr ⟨k, _, rfl⟩)
  | compareExchange k expected v =>
    simp only [run]
    rcases d.observe k with e | observed
    · exact .inl rfl
    · by_cases heq : observed = expected
      · simp only [heq, if_true]
        exact .inr (.inr ⟨k, _, rfl⟩)
      · simp [heq]
  | deleteIfValue k expected =>
    simp only [run]
    rcases d.observe k with e | observed
    · exact .inl rfl
    · by_cases heq : observed = some expected
      · simp only [heq, if_true]
        exact .inr (.inl ⟨k, rfl⟩)
      · simp [heq]
  | get k | getKv k | nextInt => exact .inl rfl

open Classical in
/-- The counter grows by one when an operation binds a key that was absent, and stays when it
binds none. -/
theorem run_counter (op : Op) (d : Dir) :
    (run op d).2.counter =
      d.counter + if ∃ k, d.entries k = none ∧ (run op d).2.entries k ≠ none then 1 else 0 := by
  rcases run_cases op d with heq | ⟨k, heq⟩ | ⟨k, e, heq⟩
  · rw [heq, if_neg fun ⟨k, hnone, hne⟩ => hne hnone, Nat.add_zero]
  · rw [heq, if_neg, Nat.add_zero]
    · rfl
    · rintro ⟨x, hnone, hne⟩
      by_cases hx : x = k
      · simp [set, hx] at hne
      · exact hne (by simpa [set, Function.update_of_ne hx] using hnone)
  · rw [heq]
    cases hk : d.entries k with
    | none =>
      rw [if_pos ⟨k, hk, by simp [insert]⟩]
      simp [insert, hk]
    | some old =>
      rw [if_neg]
      · simp [insert, hk]
      · rintro ⟨x, hnone, hne⟩
        have hx : x ≠ k := by
          rintro rfl
          rw [hk] at hnone
          cases hnone
        exact hne (by simpa [insert, Function.update_of_ne hx] using hnone)

/-! ## The room of a counter -/

/-- An operation that counts, and does not overflow, has room. -/
theorem room_of_counts {op : Op} {d : Dir} (h : ¬ Overflows op d)
    (hcounts : (run op d).2.counter ≠ d.counter) : d.counter + 1 < 2 ^ 64 :=
  not_le.mp fun hfull => h ⟨hcounts, hfull⟩

/-- A counter that is far from the largest word has room. -/
theorem fits_step {op : Op} {path : List Bytes} {d : Dir}
    (h : ((find path d).all fun c => c.counter + 1 < 2 ^ 64) = true) : ¬ OverflowsAt op path d := by
  rintro ⟨c, hc, -, hfull⟩
  rw [hc] at h
  exact absurd hfull (not_le.mpr (of_decide_eq_true h))

/-- The operations that count, each on a key that is absent. -/
theorem key_of_counts {op : Op} {d : Dir} (hcounts : (run op d).2.counter ≠ d.counter) :
    ∃ k, d.entries k = none ∧
      ((∃ v, op = .put k v) ∨ op = .createBucket k ∨ op = .getOrCreateBucket k ∨
        (∃ v, op = .putIfAbsent k v) ∨ ∃ v, op = .compareExchange k none v) := by
  cases op with
  | get k | getKv k | nextInt => exact absurd rfl hcounts
  | delete k | getBucket k | deleteBucket k =>
    simp only [run] at hcounts
    rcases hk : d.entries k with - | v | c <;> rw [hk] at hcounts <;> exact absurd rfl hcounts
  | put k v | createBucket k | getOrCreateBucket k =>
    refine ⟨k, ?_, by simp⟩
    simp only [run] at hcounts
    rcases hk : d.entries k with - | v | c
    · rfl
    all_goals
      rw [hk] at hcounts
      simp [insert, hk] at hcounts
  | putIfAbsent k v =>
    refine ⟨k, ?_, by simp⟩
    simp only [run, observe] at hcounts
    rcases hk : d.entries k with - | w | c
    · rfl
    all_goals
      rw [hk] at hcounts
      exact absurd rfl hcounts
  | compareExchange k expected v =>
    simp only [run, observe] at hcounts
    rcases hk : d.entries k with - | w | c <;> rw [hk] at hcounts
    · by_cases heq : none = expected
      · exact ⟨k, hk, by simp [← heq]⟩
      · simp [heq] at hcounts
    · by_cases heq : some w = expected
      · simp [heq, insert, hk] at hcounts
      · simp [heq] at hcounts
    · exact absurd rfl hcounts
  | deleteIfValue k expected =>
    simp only [run] at hcounts
    rcases hobserve : d.observe k with e | observed <;> rw [hobserve] at hcounts
    · exact absurd rfl hcounts
    · by_cases heq : observed = some expected
      · simp [heq, set] at hcounts
      · simp [heq] at hcounts

/-- An operation that binds nothing has room. -/
theorem not_overflowsAt {op : Op} (h : binds op = false) (path : List Bytes) (d : Dir) :
    ¬ OverflowsAt op path d := by
  rintro ⟨c, -, hcounts, -⟩
  obtain ⟨k, -, ⟨v, rfl⟩ | rfl | rfl | ⟨v, rfl⟩ | ⟨v, rfl⟩⟩ := key_of_counts hcounts <;> cases h

end Dir

end Tagdata.Interface
