import Tagdata.Analysis.TtlIndexes
import Tagdata.Model.Merge

/-!
# The steps of a merge

What happens to one key when a source entry meets the destination: the policy resolves it, the
record is written or kept, and the expiration follows the record.
-/

set_option autoImplicit false

namespace Tagdata.Analysis

open Tagdata.Library Tagdata.Model Tagdata.Interface

/-! ## Resolving a conflict -/

/-- What becomes of a source value: it is written with its expiration, only its expiration is
taken over, the destination entry is kept, or the merge ends. -/
inductive Resolution where
  | write
  | retime
  | keep
  | conflict
deriving DecidableEq, Repr

/-- What the policy makes of a conflict that overwriting would resolve as `r`. -/
def Resolution.under (policy : MergeConflictPolicy) (r : Resolution) : Resolution :=
  match policy with
  | .overwrite => r
  | .keepExisting => .keep
  | .error => .conflict

/-- The resolution for a source value under a key with the given entry and expiration. -/
def resolveValue (policy : MergeConflictPolicy) (old : Option Entry) (oldExpiration : Option Nat)
    (value : Bytes) (expiration : Option Nat) : Resolution :=
  match old with
  | none => .write
  | some (.value existing) =>
      if existing = value then
        if oldExpiration = expiration then .keep else Resolution.retime.under policy
      else Resolution.write.under policy
  | some (.bucket _) => Resolution.write.under policy

/-- The bucket a source bucket is merged into: the one that is there, or a new one; none when the
entry is kept. -/
def target (policy : MergeConflictPolicy) : Option Entry → Option Dir
  | none => some .empty
  | some (.bucket c) => some c
  | some (.value _) => if policy = .keepExisting then none else some .empty

/-- A source bucket meets a value under the policy `Error`. -/
def bucketConflict (policy : MergeConflictPolicy) : Option Entry → Bool
  | some (.value _) => policy = .error
  | _ => false

/-- One key is bound. -/
structure Writes (k : Bytes) (e : Entry) (d d' : Dir) : Prop where
  entries : d'.entries = Function.update d.entries k (some e)

theorem Writes.insert (k : Bytes) (e : Entry) (d : Dir) : Writes k e d (d.insert k e) := ⟨rfl⟩

theorem Writes.set_insert (k : Bytes) (e : Entry) (d : Dir) :
    Writes k e d ((d.set k none).insert k e) :=
  ⟨by simp [Dir.insert, Dir.set]⟩

theorem Writes.expires {m : Expirations} {k : Bytes} {e : Entry} {d d' : Dir}
    (h : Writes k e d d') (hm : Expires m d) (hk : ¬ Reserved k) : Expires m d' := by
  apply hm.congr
  · rw [h.entries, Function.update_of_ne fun heq => hk (.inl heq.symm)]
  · rw [h.entries, Function.update_of_ne fun heq => hk (.inr heq.symm)]

section Steps

variable {seen : Dir → List Data → Prop}

/-- The record of a merged value. -/
def RecordMerged (policy : MergeConflictPolicy) (m : Expirations) (expiration : Option Nat)
    (path : List Bytes) (key value : Bytes) (d : Dir)
    (r : Except Error (Bool × MergeReport)) (d' : Dir) : Prop :=
  match resolveValue policy (d.entries key) (m key) value expiration with
  | .write => (∃ report, r = .ok (true, report)) ∧ Writes key (.value value) d d'
  | .retime => (∃ report, r = .ok (true, report)) ∧ d' = d
  | .keep => (∃ report, r = .ok (false, report)) ∧ d' = d
  | .conflict => r = .error (mergeConflict path key) ∧ d' = d

theorem Expires.mergeRecord {m : Expirations} {d : Dir} (h : Expires m d)
    (policy : MergeConflictPolicy) (expiration : Option Nat) (path : List Bytes)
    (key value : Bytes) (report : MergeReport) :
    Prog.wp (Dir.serve seen) (Program.mergeRecord policy expiration path key value report) d
      (RecordMerged policy m expiration path key value d) := by
  unfold Program.mergeRecord Program.get
  rcases hd : d.entries key with - | existing | c
  · simp only [Prog.wp_bind, wp_perform, Dir.run, hd, Prog.andThen_ok, Prog.wp_pure,
      Option.map_none, Program.dataOf, wp_put]
    simp only [RecordMerged, resolveValue, hd]
    exact ⟨⟨_, rfl⟩, .insert key _ d⟩
  · simp only [Prog.wp_bind, wp_perform, Dir.run, hd, Prog.andThen_ok, Prog.wp_pure,
      Option.map_some, Program.dataOf, Dir.dataOf]
    by_cases hvalue : existing = value
    · simp only [hvalue, if_true, Prog.wp_bind]
      apply Prog.wp_mono (h.expiration key)
      rintro r d' ⟨rfl, rfl⟩
      by_cases hexp : m key = expiration
      · simp [RecordMerged, resolveValue, hd, hvalue, hexp]
      · cases policy <;>
          simp [RecordMerged, resolveValue, hd, hvalue, hexp, Resolution.under]
    · cases policy with
      | overwrite =>
        simp only [hvalue, if_false, Prog.wp_bind, wp_put, hd, Prog.andThen_ok, Prog.wp_pure]
        simp only [RecordMerged, resolveValue, hd, hvalue, if_false, Resolution.under]
        exact ⟨⟨_, rfl⟩, .insert key _ d⟩
      | keepExisting => simp [RecordMerged, resolveValue, hd, hvalue, Resolution.under]
      | error => simp [RecordMerged, resolveValue, hd, hvalue, Resolution.under]
  · simp only [Prog.wp_bind, wp_perform, Dir.run, hd, Prog.andThen_ok, Prog.wp_pure,
      Option.map_some, Program.dataOf, Dir.dataOf]
    cases policy with
    | overwrite =>
      simp only [Prog.wp_bind, wp_perform, Dir.run, hd, Prog.andThen_ok, Prog.wp_pure, wp_put,
        Dir.set_entries_self]
      simp only [RecordMerged, resolveValue, hd, Resolution.under]
      exact ⟨⟨_, rfl⟩, .set_insert key _ d⟩
    | keepExisting => simp [RecordMerged, resolveValue, hd, Resolution.under]
    | error => simp [RecordMerged, resolveValue, hd, Resolution.under]

/-- The expiration of a merged value follows the source. -/
theorem Expires.mergeExpiration {m : Expirations} {d : Dir} (h : Expires m d)
    {expiration : Option Nat} (hbounded : ∀ t, expiration = some t → t < 2 ^ 64) {manage : Bool}
    {key : Bytes} (hmanage : manage = false → expiration = none → m key = none) :
    Prog.wp (Dir.serve seen) (Program.mergeExpiration expiration manage key) d fun r d' =>
      r = .ok () ∧ Expires (Function.update m key expiration) d' ∧ SameRecords d d' := by
  unfold Program.mergeExpiration
  cases expiration with
  | some t => exact h.setExpirationMillis key (hbounded t rfl)
  | none =>
    cases manage with
    | false =>
      simp only [Bool.false_eq_true, if_false, Prog.wp_pure, true_and]
      have hnone : m key = none := hmanage rfl rfl
      rw [← hnone, Function.update_eq_self]
      exact ⟨h, .refl d⟩
    | true =>
      simp only [if_true, Prog.wp_bind]
      apply Prog.wp_mono (h.clearTtl key)
      rintro r d' ⟨rfl, hexpires, hsame⟩
      exact ⟨rfl, hexpires, hsame⟩

/-- What the key of a source value is bound to afterwards. -/
def mergedEntry (res : Resolution) (old : Option Entry) (value : Bytes) : Option Entry :=
  match res with
  | .write | .retime => some (.value value)
  | .keep | .conflict => old

/-- When it expires afterwards. -/
def mergedExpiration (res : Resolution) (old expiration : Option Nat) : Option Nat :=
  match res with
  | .write | .retime => expiration
  | .keep | .conflict => old

/-- A key got a new entry and a new expiration, and all else stayed. -/
structure KeyMerged (key : Bytes) (entry : Option Entry) (m' : Expirations) (d d' : Dir) :
    Prop where
  expires : Expires m' d'
  entries : ∀ k, ¬ Reserved k → d'.entries k = Function.update d.entries key entry k

theorem KeyMerged.keep {m : Expirations} {d : Dir} (h : Expires m d) (key : Bytes) :
    KeyMerged key (d.entries key) (Function.update m key (m key)) d d := by
  refine ⟨?_, fun k _ => ?_⟩
  · rwa [Function.update_eq_self]
  · rw [Function.update_eq_self]

/-- `merge_key_value`. -/
theorem Expires.mergeKeyValue {m : Expirations} {d : Dir} (h : Expires m d)
    {expirations : Option Contents} {key : Bytes} {expiration : Option Nat}
    (hexp : Contents.expirationIn expirations key = .ok expiration)
    (hbounded : ∀ t, expiration = some t → t < 2 ^ 64) {manage : Bool}
    (hmanage : manage = false → expiration = none → m key = none) (hkey : ¬ Reserved key)
    (policy : MergeConflictPolicy) (path : List Bytes) (value : Bytes) (report : MergeReport)
    {res : Resolution} (hres : resolveValue policy (d.entries key) (m key) value expiration = res) :
    Prog.wp (Dir.serve seen)
      (Program.mergeKeyValue policy expirations manage path key value report) d fun r d' =>
        (if res = .conflict then r = .error (mergeConflict path key)
          else ∃ report, r = .ok report) ∧
        KeyMerged key (mergedEntry res (d.entries key) value)
          (Function.update m key (mergedExpiration res (m key) expiration)) d d' := by
  unfold Program.mergeKeyValue
  rw [Prog.wp_bind, Prog.wp_ofExcept, hexp, Prog.andThen_ok, Prog.wp_bind]
  apply Prog.wp_mono (h.mergeRecord policy expiration path key value report)
  intro r d₁ hrecord
  unfold RecordMerged at hrecord
  rw [hres] at hrecord
  cases res with
  | write =>
    obtain ⟨⟨report₁, rfl⟩, hwrites⟩ := hrecord
    simp only [Prog.andThen_ok, if_true]
    apply Prog.wp_seq ((hwrites.expires h hkey).mergeExpiration hbounded hmanage)
    · rintro _ d' ⟨-, hexpires, hsame⟩
      refine ⟨⟨report₁, rfl⟩, hexpires, fun k hk => ?_⟩
      rw [hsame.entries k hk, hwrites.entries]
      rfl
    · rintro e d' ⟨hfailed, -⟩
      cases hfailed
  | retime =>
    obtain ⟨⟨report₁, rfl⟩, rfl⟩ := hrecord
    have hold : d₁.entries key = some (.value value) := by
      unfold resolveValue at hres
      rcases hd : d₁.entries key with - | existing | c
      · simp [hd] at hres
      · by_cases heq : existing = value
        · rw [heq]
        · cases policy <;> simp [hd, heq, Resolution.under] at hres
      · cases policy <;> simp [hd, Resolution.under] at hres
    simp only [Prog.andThen_ok, if_true]
    apply Prog.wp_seq (h.mergeExpiration hbounded hmanage)
    · rintro _ d' ⟨-, hexpires, hsame⟩
      refine ⟨⟨report₁, rfl⟩, hexpires, fun k hk => ?_⟩
      rw [hsame.entries k hk]
      simp only [mergedEntry]
      rw [← hold, Function.update_eq_self]
    · rintro e d' ⟨hfailed, -⟩
      cases hfailed
  | keep =>
    obtain ⟨⟨report₁, rfl⟩, rfl⟩ := hrecord
    exact ⟨⟨report₁, rfl⟩, .keep h key⟩
  | conflict =>
    obtain ⟨rfl, rfl⟩ := hrecord
    exact ⟨rfl, .keep h key⟩

/-- The bucket to merge into. -/
theorem mergeTarget_spec (policy : MergeConflictPolicy) (path : List Bytes) (name : Bytes)
    (report : MergeReport) (d : Dir) :
    Prog.wp (Dir.serve seen) (Program.mergeTarget policy path name report) d fun r d' =>
      if bucketConflict policy (d.entries name) then r = .error (mergeConflict path name) ∧ d' = d
      else
        match target policy (d.entries name) with
        | none => (∃ report, r = .ok (false, report)) ∧ d' = d
        | some c => (∃ report, r = .ok (true, report)) ∧ Writes name (.bucket c) d d' := by
  unfold Program.mergeTarget Program.get
  rcases hd : d.entries name with - | v | c
  · simp only [Prog.wp_bind, wp_perform, Dir.run, hd, Prog.andThen_ok, Prog.wp_pure,
      Option.map_none, Program.dataOf, bucketConflict, target]
    exact ⟨⟨_, rfl⟩, .insert name _ d⟩
  · cases policy with
    | overwrite =>
      simp only [Prog.wp_bind, wp_perform, Dir.run, hd, Prog.andThen_ok, Prog.wp_pure,
        Option.map_some, Program.dataOf, Dir.dataOf, Dir.set_entries_self, bucketConflict, target]
      exact ⟨⟨_, rfl⟩, .set_insert name _ d⟩
    | keepExisting =>
      simp [Dir.run, hd, Program.dataOf, Dir.dataOf, bucketConflict, target]
    | error =>
      simp [Dir.run, hd, Program.dataOf, Dir.dataOf, bucketConflict]
  · simp only [Prog.wp_bind, wp_perform, Dir.run, hd, Prog.andThen_ok, Prog.wp_pure,
      Option.map_some, Program.dataOf, Dir.dataOf, bucketConflict, target]
    refine ⟨⟨_, rfl⟩, ⟨?_⟩⟩
    rw [← hd, Function.update_eq_self]

/-- Whether there is a lookup bucket. -/
theorem Expires.expirationBucket {m : Expirations} {d : Dir} (h : Expires m d) :
    Prog.wp (Dir.serve seen) Program.expirationBucket d fun r d' =>
      d' = d ∧ ∃ present, r = .ok present ∧ (present = false → ∀ k, m k = none) := by
  unfold Program.expirationBucket
  obtain ⟨rfl, hL, -⟩ | ⟨L, D, hL, -, -⟩ := h
  · have hget : Dir.run (.getBucket ttlBucket) d = (.error .bucketMissing, d) := by
      simp [Dir.run, hL]
    simp [hget]
  · have hget : Dir.run (.getBucket ttlBucket) d = (.ok .unit, d) := by
      simp [Dir.run, hL]
    simp [hget]

/-! ## Expirations during a merge -/

theorem expirationIn_lt {expirations : Option Contents} {key : Bytes} {expiration : Option Nat}
    (h : Contents.expirationIn expirations key = .ok expiration) :
    ∀ t, expiration = some t → t < 2 ^ 64 := by
  intro t ht
  subst ht
  unfold Contents.expirationIn at h
  cases expirations with
  | none => simp at h
  | some e =>
    simp only at h
    split at h
    · rename_i bytes _
      unfold decodeExpiration at h
      split at h
      · rename_i hlen
        simp only [Except.map, Except.ok.injEq, Option.some.injEq] at h
        have hlt := ofBeBytes_lt bytes
        rw [hlen, h] at hlt
        simpa using hlt
      · cases h
    · simp at h

/-- `merge_key_value` keeps the two indexes, whatever the source holds. -/
theorem Expires.keepsKeyValue {m : Expirations} {d : Dir} (h : Expires m d)
    (policy : MergeConflictPolicy) (expirations : Option Contents) (manage : Bool)
    (path : List Bytes) {key : Bytes} (hkey : ¬ Reserved key) (value : Bytes)
    (report : MergeReport) :
    Prog.wp (Dir.serve seen)
      (Program.mergeKeyValue policy expirations manage path key value report) d fun _ d' =>
        ∃ m', Expires m' d' := by
  unfold Program.mergeKeyValue
  rw [Prog.wp_bind, Prog.wp_ofExcept]
  cases hexp : Contents.expirationIn expirations key with
  | error e => exact ⟨m, h⟩
  | ok expiration =>
    rw [Prog.andThen_ok, Prog.wp_bind]
    apply Prog.wp_mono (h.mergeRecord policy expiration path key value report)
    intro r d₁ hrecord
    have h₁ : Expires m d₁ := by
      unfold RecordMerged at hrecord
      split at hrecord
      · exact hrecord.2.expires h hkey
      all_goals
        rw [hrecord.2]
        exact h
    rcases r with e | ⟨applyTtl, report₁⟩
    · exact ⟨m, h₁⟩
    · cases applyTtl with
      | false => exact ⟨m, h₁⟩
      | true =>
        simp only [Prog.andThen_ok, if_true, Prog.wp_bind]
        by_cases hskip : expiration = none ∧ manage = false
        · obtain ⟨rfl, rfl⟩ := hskip
          exact ⟨m, h₁⟩
        · apply Prog.wp_mono (h₁.mergeExpiration (expirationIn_lt hexp)
            fun hmanage hnone => absurd ⟨hnone, hmanage⟩ hskip)
          rintro r d' ⟨rfl, hexpires, -⟩
          exact ⟨_, hexpires⟩

theorem not_reserved {name : Bytes} (h : isTtlBucket name = false) : ¬ Reserved name := by
  simpa [isTtlBucket, Reserved] using h

/-- The keys of the values of a source bucket. -/
def valueKeys : Contents → List Bytes
  | .done _ => []
  | .value key _ rest => key :: valueKeys rest
  | .bucket _ _ rest => valueKeys rest

/-- The loop of `merge_bucket` keeps the two indexes. -/
theorem Expires.keepsEntries (policy : MergeConflictPolicy) (expirations : Option Contents)
    (manage : Bool) (path : List Bytes) {source : Contents}
    (hkeys : ∀ k ∈ valueKeys source, ¬ Reserved k) {m : Expirations} {d : Dir} (h : Expires m d)
    (report : MergeReport) :
    Prog.wp (Dir.serve seen)
      (Program.mergeEntries policy expirations manage path source report) d fun _ d' =>
        ∃ m', Expires m' d' := by
  -- A nested merge only touches the entry of its own name, so nothing is asked of it.
  induction source generalizing m d report with
  | done nextInt =>
    simp only [Program.mergeEntries, Prog.wp_bind, wp_mergeNextInt, Prog.andThen_ok, Prog.wp_pure]
    exact ⟨m, h.congr rfl rfl⟩
  | value key value rest ih =>
    simp only [Program.mergeEntries]
    apply Prog.wp_seq (h.keepsKeyValue policy expirations manage path (hkeys key (by
      simp [valueKeys])) value report)
    · rintro report₁ d₁ ⟨m₁, h₁⟩
      exact ih (fun k hk => hkeys k (List.mem_cons_of_mem _ hk)) h₁ report₁
    · intro e d₁ h₁
      exact h₁
  | bucket name inner rest ihinner ih =>
    simp only [Program.mergeEntries]
    cases hname : isTtlBucket name with
    | true =>
      simp only [if_true]
      exact ih hkeys h report
    | false =>
      simp only [Bool.false_eq_true, if_false, Prog.wp_bind]
      apply Prog.wp_mono (mergeTarget_spec policy path name report d)
      intro r d₁ htarget
      split at htarget
      · obtain ⟨rfl, rfl⟩ := htarget
        exact ⟨m, h⟩
      split at htarget
      · obtain ⟨⟨report₁, rfl⟩, rfl⟩ := htarget
        exact ih hkeys h report₁
      · rename_i c _
        obtain ⟨⟨report₁, rfl⟩, hwrites⟩ := htarget
        have hbucket : d₁.entries name = some (.bucket c) := by
          rw [hwrites.entries, Function.update_self]
        have h₁ := hwrites.expires h (not_reserved hname)
        simp only [Prog.andThen_ok, if_true, Prog.wp_bind]
        rw [wp_inside hbucket]
        apply Prog.wp_mono (Prog.wp_true _ _)
        intro r c' _
        cases r with
        | error e => exact ⟨m, h₁.set (not_reserved hname) _⟩
        | ok report₂ => exact ih hkeys (h₁.set (not_reserved hname) _) report₂

/-- `Bucket::merge_from` keeps the two indexes. -/
theorem Expires.keepsMerge (policy : MergeConflictPolicy) (path : List Bytes) {source : Contents}
    (hkeys : ∀ k ∈ valueKeys source, ¬ Reserved k) {m : Expirations} {d : Dir} (h : Expires m d)
    (report : MergeReport) :
    Prog.wp (Dir.serve seen) (Program.mergeBucket policy path source report) d fun _ d' =>
      ∃ m', Expires m' d' := by
  unfold Program.mergeBucket
  have hstart : Prog.wp (Dir.serve seen) (Program.mergeStart source) d fun _ d' => d' = d := by
    unfold Program.mergeStart
    rw [Prog.wp_bind, Prog.wp_ofExcept]
    cases source.expirationBucket with
    | error e => rfl
    | ok expirations =>
      cases expirations with
      | some e => rfl
      | none =>
        simp only [Prog.andThen_ok, Option.isSome_none, Bool.false_eq_true, if_false, Prog.wp_bind]
        apply Prog.wp_mono h.expirationBucket
        rintro r d' ⟨rfl, present, rfl, -⟩
        rfl
  apply Prog.wp_seq hstart
  · rintro ⟨expirations, manage⟩ d₁ rfl
    exact h.keepsEntries policy expirations manage path hkeys report
  · rintro e d₁ rfl
    exact ⟨m, h⟩

end Steps

end Tagdata.Analysis
