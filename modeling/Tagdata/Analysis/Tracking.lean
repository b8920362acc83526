import Tagdata.Analysis.Scans
import Tagdata.Analysis.JournalRuns
import Tagdata.Model.Tracking

/-!
# What a tracker holds

Every successful operation of a transaction is offered to the tracker once, a failed one never.
The tracker takes what fits its two budgets.  It does not stop: a change that is too large is
left out, and a smaller one after it is taken.  So the list is a prefix of the operations exactly
when nothing fits after the first change that was left out.
-/

set_option autoImplicit false

namespace Tagdata.Analysis

open Tagdata.Library Tagdata.Model Tagdata.Interface

/-! ## The operations of a transaction -/

/-- The change that a call has made, when it returned this.  `existed` says whether there was a
bucket with the name before. -/
def changeOf (path : List Bytes) (existed : Bool) : TrackedOp → Output → Option Model.Change
  | .op (.put key _), _ => some ⟨path, key, .put⟩
  | .op (.delete key), _ => some ⟨path, key, .delete⟩
  | .op (.createBucket name), _ => some ⟨path, name, .bucketCreate⟩
  | .op (.getOrCreateBucket name), _ => if existed then none else some ⟨path, name, .bucketCreate⟩
  | .op (.deleteBucket name), _ => some ⟨path, name, .bucketDelete⟩
  | .op (.putIfAbsent key _), .atomic r => if r.applied then some ⟨path, key, .put⟩ else none
  | .op (.compareExchange key _ _), .atomic r => if r.applied then some ⟨path, key, .put⟩ else none
  | .op (.deleteIfValue key _), .atomic r => if r.applied then some ⟨path, key, .delete⟩ else none
  | .expire key, .pair (some _) => some ⟨path, key, .expire⟩
  | _, _ => none

/-- A computation returned `Ok`. -/
def succeeds {σ α : Type} (m : EStateM Fault σ α) (s : σ) : Bool :=
  match m s with
  | .ok _ _ => true
  | .error _ _ => false

/-- The name that `get_or_create_bucket` is called with. -/
def createdName : TrackedOp → Bytes
  | .op (.getOrCreateBucket name) => name
  | _ => []

section Calls

variable (P : Pages) (fuel : Nat)

/-- The change that a call makes. -/
def performed (path : List Bytes) (op : TrackedOp) (s : TrackedTx) : Option Model.Change :=
  match (Tracked.call P fuel path op s).1 with
  | .ok out => changeOf path
      (succeeds (Bucket.atPath P fuel (onBucket (InnerBucket.getBucket P fuel (createdName op)))
        path) s.1)
      op out
  | .error _ => none

/-- The calls of a write transaction, with the changes they made, in order. -/
inductive Transaction (tx : BucketTx) : List Model.Change → TrackedTx → Prop
  | start : Transaction tx [] (tx, .new true)
  | call {events : List Model.Change} {s : TrackedTx} (path : List Bytes) (op : TrackedOp)
      (h : Transaction tx events s) :
      Transaction tx (events ++ (performed P fuel path op s).toList)
        (Tracked.call P fuel path op s).2

end Calls

/-! ## Every successful operation is offered once -/

section Steps

variable {P : Pages} {fuel : Nat} {path : List Bytes}

/-- What a computation on a handle leaves in the tracker, if it makes the change. -/
def Tracks (t : ChangeTracker) (change : Output → Option Model.Change)
    (r : EStateM.Result Fault TrackedTx Output) : Prop :=
  match r with
  | .ok out s => s.2 = recordAll t (change out).toList
  | .error _ s => s.2 = t

theorem tracks_untracked {m : EStateM Fault BucketTx Output} (s : TrackedTx)
    {change : Output → Option Model.Change} (h : ∀ out, change out = none) :
    Tracks s.2 change (Tracked.untracked m s) := by
  unfold Tracked.untracked
  cases m s.1 with
  | ok out tx => simp [Tracks, h, recordAll]
  | error e tx => rfl

/-- A method that records after its work. -/
theorem tracks_recorded {α : Type} {m : EStateM Fault BucketTx α} (s : TrackedTx) {key : Bytes}
    {operation : ChangeOperation} {out : α → Output} {change : Output → Option Model.Change}
    (h : ∀ a, change (out a) = some ⟨path, key, operation⟩) :
    Tracks s.2 change ((do
      let a ← Tracked.untracked m
      Tracked.record path key operation
      return out a) s) := by
  simp only [estate_bind, Tracked.untracked]
  cases m s.1 with
  | ok a tx =>
    show s.2.record path key operation = recordAll s.2 (change (out a)).toList
    rw [h]
    rfl
  | error e tx => rfl

/-- What comes before the work does not touch the tracker. -/
theorem tracks_after {α : Type} {m : EStateM Fault BucketTx α}
    {f : α → EStateM Fault TrackedTx Output}
    (s : TrackedTx) {change : Output → Option Model.Change}
    (h : ∀ a tx, Tracks s.2 change (f a (tx, s.2))) :
    Tracks s.2 change ((Tracked.untracked m >>= f) s) := by
  simp only [estate_bind, Tracked.untracked]
  cases m s.1 with
  | ok a tx => exact h a tx
  | error e tx => rfl

/-- `get_or_create_bucket` records when there was no bucket before. -/
theorem getOrCreate_tracks (name : Bytes) (s : TrackedTx) :
    Tracks s.2 (changeOf path (succeeds (onBucket (InnerBucket.getBucket P fuel name)) s.1)
      (.op (.getOrCreateBucket name))) (Tracked.getOrCreateBucket P fuel path name s) := by
  unfold Tracked.getOrCreateBucket
  have halive : Tracked.untracked
      (Bucket.alive "Cannot get or create bucket from a deleted bucket.") s =
      if s.1.1.deleted then
        .error (.panic "Cannot get or create bucket from a deleted bucket.") s
      else .ok () s := by
    cases hdeleted : s.1.1.deleted <;>
      simp [Tracked.untracked, Bucket.alive, estate_bind, hdeleted]
  rw [estate_bind, halive]
  cases s.1.1.deleted with
  | true => rfl
  | false =>
    simp only [Bool.false_eq_true, if_false, estate_bind, Tracked.isOk, succeeds]
    cases onBucket (InnerBucket.getBucket P fuel name) s.1 with
    | ok _ tx =>
      show Tracks s.2 _ ((Tracked.untracked (Bucket.getOrCreateBucket P fuel name) >>= fun inner =>
        pure inner) (tx, s.2))
      exact tracks_after (tx, s.2) fun out tx => rfl
    | error fault tx =>
      cases fault with
      | error e => exact tracks_recorded (tx, s.2) fun _ => rfl
      | panic text => rfl
      | diverge => rfl

/-- Every method records what it has done. -/
theorem run_tracks (op : TrackedOp) (s : TrackedTx) :
    Tracks s.2 (changeOf path
      (succeeds (onBucket (InnerBucket.getBucket P fuel (createdName op))) s.1) op)
      (Tracked.run P fuel path op s) := by
  cases op with
  | expire key =>
    refine tracks_after s fun leaf tx => ?_
    rcases leaf with - | ⟨name, m⟩ | ⟨key', value⟩
    · rfl
    · rfl
    · exact tracks_recorded (tx, s.2) fun _ => rfl
  | op op =>
    cases op with
    | put key value => exact tracks_recorded s fun _ => rfl
    | delete key => exact tracks_recorded s fun _ => rfl
    | createBucket name => exact tracks_recorded s fun _ => rfl
    | deleteBucket name => exact tracks_recorded s fun _ => rfl
    | get key => exact tracks_untracked s fun _ => rfl
    | getKv key => exact tracks_untracked s fun _ => rfl
    | getBucket name => exact tracks_untracked s fun _ => rfl
    | nextInt => exact tracks_untracked s fun _ => rfl
    | putIfAbsent key value =>
      refine tracks_after s fun _ tx => tracks_after (tx, s.2) fun leaf tx => ?_
      rcases leaf with - | ⟨name, m⟩ | ⟨key', current⟩
      · exact tracks_recorded (tx, s.2) fun _ => rfl
      · rfl
      · rfl
    | compareExchange key expected value =>
      refine tracks_after s fun observed tx => ?_
      by_cases heq : observed = expected
      · rw [if_neg (not_not.mpr heq)]
        exact tracks_recorded (tx, s.2) fun _ => rfl
      · rw [if_pos heq]
        rfl
    | deleteIfValue key expected =>
      refine tracks_after s fun observed tx => ?_
      by_cases heq : observed = some expected
      · rw [if_neg (not_not.mpr heq)]
        exact tracks_recorded (tx, s.2) fun _ => rfl
      · rw [if_pos heq]
        rfl
    | getOrCreateBucket name => exact getOrCreate_tracks name s

/-- Opening the buckets on a path fails, whatever is to be done there, or leads to a bucket. -/
theorem atPath_cases (path : List Bytes) (tx : BucketTx) :
    (∃ e tx', ∀ (α : Type) (m : EStateM Fault BucketTx α),
      Bucket.atPath P fuel m path tx = .error e tx') ∨
    ∃ at' : BucketTx, ∃ back : BucketTx → BucketTx,
      ∀ (α : Type) (m : EStateM Fault BucketTx α), Bucket.atPath P fuel m path tx =
        match m at' with
        | .ok a s => .ok a (back s)
        | .error e s => .error e (back s) := by
  induction path generalizing tx with
  | nil =>
    refine .inr ⟨tx, id, fun α m => ?_⟩
    show m tx = _
    cases m tx <;> rfl
  | cons name path ih =>
    cases hopen : onBucket (InnerBucket.getBucket P fuel name) tx with
    | error e tx' =>
      refine .inl ⟨e, tx', fun α m => ?_⟩
      simp only [Bucket.atPath, hopen]
    | ok u s =>
      obtain ⟨b, fl⟩ := s
      cases hchild : b.buckets.lookup name with
      | none =>
        refine .inl ⟨.panic "called Option::unwrap() on a None value", (b, fl), fun α m => ?_⟩
        simp only [Bucket.atPath, hopen, hchild]
      | some child =>
        rcases ih (child, fl) with ⟨e, s, hfail⟩ | ⟨at', back, hreach⟩
        · refine .inl ⟨e, (b.setBucket name s.1, s.2), fun α m => ?_⟩
          simp only [Bucket.atPath, hopen, hchild, hfail]
        · refine .inr ⟨at', fun s => (b.setBucket name (back s).1, (back s).2), fun α m => ?_⟩
          simp only [Bucket.atPath, hopen, hchild, hreach]
          cases m at' <;> rfl

/-- A call offers the change it made to the tracker, and nothing else. -/
theorem call_tracks (op : TrackedOp) (s : TrackedTx) :
    (Tracked.call P fuel path op s).2.2 = recordAll s.2 (performed P fuel path op s).toList := by
  unfold performed Tracked.call
  rcases @atPath_cases P fuel path s.1 with ⟨e, tx, hfail⟩ | ⟨at', back, hreach⟩
  · simp only [hfail]
    rfl
  · have hrun := @run_tracks P fuel path op (at', s.2)
    simp only [hreach, succeeds, Tracked.onHandle] at hrun ⊢
    cases hcall : Tracked.run P fuel path op (at', s.2) with
    | error e s' =>
      rw [hcall] at hrun
      exact hrun
    | ok out s' =>
      rw [hcall] at hrun
      cases hexists : onBucket (InnerBucket.getBucket P fuel (createdName op)) at' with
      | ok _ _ =>
        simp only [hexists] at hrun ⊢
        exact hrun
      | error _ _ =>
        simp only [hexists] at hrun ⊢
        exact hrun

/-- The tracker of a transaction was offered the changes of its operations. -/
theorem Transaction.tracker {tx : BucketTx} {events : List Model.Change} {s : TrackedTx}
    (h : Transaction P fuel tx events s) : s.2 = recordAll (.new true) events := by
  induction h with
  | start => rfl
  | call path op h ih =>
    rw [call_tracks, ih]
    simp [recordAll, List.foldl_append]

end Steps

/-! ## What fits -/

/-- The bytes that a change counts for. -/
def sizeOf (change : Model.Change) : Nat :=
  (change.bucketPath.map List.length).sum + change.key.length

/-- The operation is about a reserved bucket: inside one, or on the bucket itself. -/
def inReserved (change : Model.Change) : Bool :=
  change.bucketPath.any ChangeTracker.reserved ||
    ((change.operation = .bucketCreate || change.operation = .bucketDelete) &&
      ChangeTracker.reserved change.key)

/-- The operations outside reserved buckets. -/
def outside (events : List Model.Change) : List Model.Change :=
  events.filter fun change => !inReserved change

/-- The tracker takes the change: its key is not a reserved name, and it fits both budgets. -/
def Takes (t : ChangeTracker) (change : Model.Change) : Prop :=
  ChangeTracker.reserved change.key = false ∧ t.changes.length < maxChanges ∧
    t.bytes + sizeOf change ≤ maxChangeBytes

/-- The tracker takes the changes one after another. -/
def TakesAll : ChangeTracker → List Model.Change → Prop
  | _, [] => True
  | t, change :: changes => Takes t change ∧ TakesAll (recordAll t [change]) changes

/-- The documented contract of a change set: the list is a prefix of the operations, it is marked
exactly when something is missing, and it stays within the budgets. -/
structure HonestPrefix (events : List Model.Change) (t : ChangeTracker) : Prop where
  isPrefix : t.changes <+: events
  truncated : t.truncated = true ↔ t.changes ≠ events
  count : t.changes.length ≤ maxChanges
  bytes : (t.changes.map sizeOf).sum ≤ maxChangeBytes

/-- From the first operation that is not taken on none is taken, and one of those that are not
taken does not fit. -/
def StopsForGood (events : List Model.Change) : Prop :=
  ∃ taken left, events = taken ++ left ∧ TakesAll (.new true) taken ∧
    (∀ change ∈ left, ¬ Takes (recordAll (.new true) taken) change) ∧
    (left ≠ [] → ∃ change ∈ left, ChangeTracker.reserved change.key = false)

section Budgets

variable {t : ChangeTracker} {change : Model.Change} {events left : List Model.Change}

theorem recordAll_append (t : ChangeTracker) (xs ys : List Model.Change) :
    recordAll t (xs ++ ys) = recordAll (recordAll t xs) ys := List.foldl_append

theorem recordAll_cons (t : ChangeTracker) (x : Model.Change) (xs : List Model.Change) :
    recordAll t (x :: xs) = recordAll (recordAll t [x]) xs := rfl

/-- A tracker that is on, with the bytes of its changes, within the budgets. -/
structure Balanced (t : ChangeTracker) : Prop where
  enabled : t.enabled = true
  bytes : t.bytes = (t.changes.map sizeOf).sum
  count : t.changes.length ≤ maxChanges
  budget : t.bytes ≤ maxChangeBytes

/-- The path of the change does not go through a reserved bucket. -/
def Open (change : Model.Change) : Prop := change.bucketPath.any ChangeTracker.reserved = false

theorem record_takes (ht : t.enabled = true) (hopen : Open change) (h : Takes t change) :
    recordAll t [change] =
      { t with bytes := t.bytes + sizeOf change, changes := t.changes ++ [change] } := by
  obtain ⟨hkey, hcount, hbytes⟩ := h
  have hfull : ¬ (t.changes.length = maxChanges ∨ t.bytes + sizeOf change > maxChangeBytes) := by
    omega
  show t.record change.bucketPath change.key change.operation = _
  unfold ChangeTracker.record
  rw [if_neg (by rw [ht, hkey, hopen]; decide)]
  exact if_neg hfull

theorem record_leaves (ht : t.enabled = true) (hcount : t.changes.length ≤ maxChanges)
    (hopen : Open change) (h : ¬ Takes t change) :
    recordAll t [change] =
      { t with truncated := t.truncated || !ChangeTracker.reserved change.key } := by
  show t.record change.bucketPath change.key change.operation = _
  unfold ChangeTracker.record
  cases hkey : ChangeTracker.reserved change.key with
  | true =>
    rw [if_pos (by rw [ht]; rfl)]
    simp
  | false =>
    have hfull : t.changes.length = maxChanges ∨ t.bytes + sizeOf change > maxChangeBytes := by
      by_contra hfits
      exact h ⟨hkey, by omega, by omega⟩
    rw [if_neg (by rw [ht, hopen]; decide)]
    simp only [Bool.not_false, Bool.or_true]
    exact if_pos hfull

theorem Balanced.new : Balanced (.new true) := ⟨rfl, rfl, by decide, by decide⟩

theorem Balanced.step (h : Balanced t) (hopen : Open change) : Balanced (recordAll t [change]) := by
  by_cases htakes : Takes t change
  · rw [record_takes h.enabled hopen htakes]
    refine ⟨h.enabled, ?_, ?_, htakes.2.2⟩
    · simp [h.bytes]
    · simpa using htakes.2.1
  · rw [record_leaves h.enabled h.count hopen htakes]
    exact ⟨h.enabled, h.bytes, h.count, h.budget⟩

theorem Balanced.recordAll (h : Balanced t) (hopen : ∀ change ∈ events, Open change) :
    Balanced (recordAll t events) := by
  induction events generalizing t with
  | nil => exact h
  | cons x events ih =>
    exact ih (h.step (hopen x (by simp))) fun c hc => hopen c (List.mem_cons_of_mem _ hc)

theorem TakesAll.changes (h : Balanced t) (hopen : ∀ change ∈ events, Open change)
    (htakes : TakesAll t events) :
    (Analysis.recordAll t events).changes = t.changes ++ events ∧
      (Analysis.recordAll t events).truncated = t.truncated := by
  induction events generalizing t with
  | nil => simp [Analysis.recordAll]
  | cons x events ih =>
    have hx := hopen x (by simp)
    have hrest := ih (h.step hx) (fun c hc => hopen c (List.mem_cons_of_mem _ hc)) htakes.2
    rw [recordAll_cons, hrest.1, hrest.2, record_takes h.enabled hx htakes.1]
    simp

/-- Nothing of the list is taken. -/
theorem recordAll_left (h : Balanced t) (hopen : ∀ change ∈ left, Open change)
    (hleft : ∀ change ∈ left, ¬ Takes t change) :
    recordAll t left = { t with
      truncated := t.truncated || left.any fun change => !ChangeTracker.reserved change.key } := by
  induction left generalizing t with
  | nil => simp [recordAll]
  | cons x left ih =>
    have hx := hopen x (by simp)
    have hstep := record_leaves h.enabled h.count hx (hleft x (by simp))
    have hsound := h.step hx
    rw [hstep] at hsound
    rw [recordAll_cons, hstep, ih hsound (fun c hc => hopen c (List.mem_cons_of_mem _ hc))
      fun c hc =>
      hleft c (List.mem_cons_of_mem _ hc)]
    simp [Bool.or_assoc]

/-- The changes of a tracker only grow. -/
theorem recordAll_grows (h : Balanced t) (hopen : ∀ change ∈ events, Open change) :
    t.changes <+: (recordAll t events).changes := by
  induction events generalizing t with
  | nil => exact List.prefix_refl _
  | cons x events ih =>
    have hx := hopen x (by simp)
    have hstep : t.changes <+: (recordAll t [x]).changes := by
      by_cases htakes : Takes t x
      · rw [record_takes h.enabled hx htakes]
        exact List.prefix_append _ _
      · rw [record_leaves h.enabled h.count hx htakes]
    exact hstep.trans (ih (h.step hx) fun c hc => hopen c (List.mem_cons_of_mem _ hc))

/-- The longest part of a list that is taken from its start. -/
theorem exists_taken (t : ChangeTracker) (events : List Model.Change) :
    ∃ taken left, events = taken ++ left ∧ TakesAll t taken ∧
      ∀ change rest, left = change :: rest → ¬ Takes (recordAll t taken) change := by
  induction events generalizing t with
  | nil => exact ⟨[], [], rfl, trivial, by simp⟩
  | cons x events ih =>
    by_cases htakes : Takes t x
    · obtain ⟨taken, left, rfl, hall, hfirst⟩ := ih (recordAll t [x])
      exact ⟨x :: taken, left, rfl, ⟨htakes, hall⟩, hfirst⟩
    · refine ⟨[], x :: events, rfl, trivial, fun change rest heq => ?_⟩
      obtain ⟨rfl, -⟩ := List.cons.inj heq
      exact htakes

/-- The first change of a list that is taken comes next in the tracker. -/
theorem exists_next (h : Balanced t) (hopen : ∀ change ∈ left, Open change)
    (hsome : ∃ change ∈ left, Takes t change) :
    ∃ next, Takes t next ∧ (t.changes ++ [next]) <+: (recordAll t left).changes := by
  induction left generalizing t with
  | nil =>
    obtain ⟨change, hmem, -⟩ := hsome
    cases hmem
  | cons x left ih =>
    have hx := hopen x (by simp)
    have hrest : ∀ c ∈ left, Open c := fun c hc => hopen c (List.mem_cons_of_mem _ hc)
    by_cases htakes : Takes t x
    · refine ⟨x, htakes, ?_⟩
      have hstep : (recordAll t [x]).changes = t.changes ++ [x] := by
        rw [record_takes h.enabled hx htakes]
      rw [← hstep, recordAll_cons]
      exact recordAll_grows (h.step hx) hrest
    · have hstep := record_leaves h.enabled h.count hx htakes
      obtain ⟨change, hmem, hchange⟩ := hsome
      have hchange' : change ∈ left := by
        rcases List.mem_cons.mp hmem with rfl | hmem
        · exact absurd hchange htakes
        · exact hmem
      have hsound := h.step hx
      rw [recordAll_cons]
      rw [hstep] at hsound ⊢
      exact ih hsound hrest ⟨change, hchange', hchange⟩

/-- The tracker of a list of operations is an honest prefix if and only if it stops for good. -/
theorem honestPrefix_iff (hopen : ∀ change ∈ events, Open change) :
    HonestPrefix events (recordAll (.new true) events) ↔ StopsForGood events := by
  have hsplit : ∀ taken left, events = taken ++ left →
      (∀ c ∈ taken, Open c) ∧ ∀ c ∈ left, Open c := by
    rintro taken left rfl
    exact ⟨fun c hc => hopen c (by simp [hc]), fun c hc => hopen c (by simp [hc])⟩
  constructor
  · intro hhonest
    obtain ⟨taken, left, heq, hall, hfirst⟩ := exists_taken (.new true) events
    obtain ⟨hopenTaken, hopenLeft⟩ := hsplit taken left heq
    have hsound := Balanced.new.recordAll hopenTaken
    obtain ⟨hchanges, htruncated⟩ := hall.changes Balanced.new hopenTaken
    have hchanges : (recordAll (.new true) taken).changes = taken := hchanges
    have hprefix := hhonest.isPrefix
    have hmarked := hhonest.truncated
    rw [heq, recordAll_append] at hprefix hmarked
    -- a change that is taken later would stand in the place of the first that is not
    have hnone : ∀ change ∈ left, ¬ Takes (recordAll (.new true) taken) change := by
      intro change hmem htakes
      obtain ⟨next, hnext, hin⟩ := exists_next hsound hopenLeft ⟨change, hmem, htakes⟩
      rw [hchanges] at hin
      cases left with
      | nil => cases hmem
      | cons x left =>
        have hplace : [next] <+: x :: left := by
          rw [← List.prefix_append_right_inj taken]
          exact hin.trans hprefix
        obtain rfl : next = x := by simpa using hplace
        exact hfirst next left rfl hnext
    refine ⟨taken, left, heq, hall, hnone, fun hne => ?_⟩
    rw [recordAll_left hsound hopenLeft hnone] at hmarked
    simp only [hchanges, htruncated] at hmarked
    have hproper : taken ≠ taken ++ left := by simpa using hne
    have hany := hmarked.mpr hproper
    simpa [ChangeTracker.new] using hany
  · rintro ⟨taken, left, rfl, hall, hnone, hfull⟩
    obtain ⟨hopenTaken, hopenLeft⟩ := hsplit taken left rfl
    have hsound := Balanced.new.recordAll hopenTaken
    have hfinal := Balanced.new.recordAll hopen
    obtain ⟨hchanges, htruncated⟩ := hall.changes Balanced.new hopenTaken
    have hchanges : (recordAll (.new true) taken).changes = taken := hchanges
    refine ⟨?_, ?_, hfinal.count, ?_⟩
    · rw [recordAll_append, recordAll_left hsound hopenLeft hnone]
      simp only [hchanges]
      exact List.prefix_append _ _
    · rw [recordAll_append, recordAll_left hsound hopenLeft hnone]
      simp only [hchanges, htruncated]
      have hiff : (left.any fun change => !ChangeTracker.reserved change.key) = true ↔
          left ≠ [] := by
        rw [List.any_eq_true]
        constructor
        · rintro ⟨change, hmem, -⟩ rfl
          cases hmem
        · intro hne
          obtain ⟨change, hmem, hkey⟩ := hfull hne
          exact ⟨change, hmem, by rw [hkey]; rfl⟩
      simpa [ChangeTracker.new] using hiff
    · rw [← hfinal.bytes]
      exact hfinal.budget

/-- What is done to reserved buckets is not recorded. -/
theorem recordAll_outside (t : ChangeTracker) (events : List Model.Change) :
    recordAll t events = recordAll t (outside events) := by
  induction events generalizing t with
  | nil => rfl
  | cons x events ih =>
    unfold outside
    by_cases hx : inReserved x = true
    · rw [List.filter_cons_of_neg (by simp [hx]), recordAll_cons]
      have hskip : recordAll t [x] = t := by
        show t.record x.bucketPath x.key x.operation = t
        unfold ChangeTracker.record
        refine if_pos ?_
        rcases Bool.or_eq_true_iff.mp hx with hpath | hname
        · simp [hpath]
        · simp [(Bool.and_eq_true_iff.mp hname).2]
      rw [hskip]
      exact ih t
    · rw [List.filter_cons_of_pos (by simp [hx]), recordAll_cons, recordAll_cons]
      exact ih _

theorem open_outside (events : List Model.Change) : ∀ change ∈ outside events, Open change := by
  intro change hmem
  have hnot := (List.mem_filter.mp hmem).2
  simp only [inReserved, Bool.not_or, Bool.and_eq_true_iff, Bool.not_eq_true'] at hnot
  exact hnot.1

end Budgets

/-- **Change tracking.**  The changes of a transaction are an honest prefix of its successful
operations outside reserved buckets if and only if the tracker stops for good. -/
theorem tracking_honest_iff {P : Pages} {fuel : Nat} {tx : BucketTx} {events : List Model.Change}
    {s : TrackedTx} (h : Transaction P fuel tx events s) :
    HonestPrefix (outside events) s.2 ↔ StopsForGood (outside events) := by
  rw [h.tracker, recordAll_outside]
  exact honestPrefix_iff (open_outside events)

/-- A bucket is created in the root of a database. -/
theorem Overlay.call_create {P : Pages} {origin : Option Nest} {b : InnerBucket} {T : Nest}
    {N fuel : Nat} (h : Overlay P origin b T) (hN : Within N origin) (hfuel : N ≤ fuel)
    {name : Bytes} (hname : T.dir.entries name = none) (hroom : T.dir.counter + 1 < 2 ^ 64)
    (fl : TxFreelist) (t : ChangeTracker) :
    ∃ b' fl' T', Tracked.call P fuel [] (.op (.createBucket name)) ((b, fl), t) =
        (.ok .unit, (b', fl'), t.record [] name .bucketCreate) ∧
      Overlay P origin b' T' ∧ T'.dir = T.dir.insert name (.bucket Dir.empty) := by
  obtain ⟨⟨b', fl'⟩, hsettle, T', -, -, hover, hdir, -⟩ :=
    h.runAt fl hN hfuel (.createBucket name) [] (Dir.fits_step (decide_eq_true hroom))
  have hrun : Dir.atPath (Dir.run (.createBucket name)) [] T.dir =
      (.ok .unit, T.dir.insert name (.bucket Dir.empty)) := by
    simp [Dir.atPath, Dir.run, hname]
  rw [hrun] at hsettle hdir
  have hcreate : Bucket.createBucket P fuel name (b, fl) = .ok .unit (b', fl') := by
    have hsettled : settle (Bucket.createBucket P fuel name (b, fl)) = .ok (.ok .unit, (b', fl')) :=
      hsettle
    cases hresult : Bucket.createBucket P fuel name (b, fl) with
    | ok out s =>
      rw [hresult] at hsettled
      obtain ⟨hout, hs⟩ := Prod.mk.inj (Except.ok.inj hsettled)
      rw [Except.ok.inj hout, hs]
    | error fault s =>
      rw [hresult] at hsettled
      cases fault <;> cases hsettled
  refine ⟨b', fl', T', ?_, hover, hdir⟩
  unfold Tracked.call Bucket.atPath Tracked.onHandle Tracked.run Tracked.createBucket
  simp only [estate_bind, Tracked.untracked, hcreate]
  rfl

/-- The calls that create the buckets with these names, in the root of the sample database. -/
theorem exists_creations (names : List Bytes) (hnodup : names.Nodup) (hnew : [98] ∉ names)
    (hfew : names.length + 1 < 2 ^ 64) :
    ∃ s, Transaction twoLeafBucketPages twoLeafBucketNest.size
      (.fromMeta ⟨2, 1⟩, twoLeafBucketFreelist)
      (names.map fun name => ⟨[], name, .bucketCreate⟩) s := by
  have hwithin := twoLeafBucket_committed.within
  suffices hall : ∀ names : List Bytes, names.Nodup → [98] ∉ names → names.length + 1 < 2 ^ 64 →
      ∃ s T,
      Transaction twoLeafBucketPages twoLeafBucketNest.size
        (.fromMeta ⟨2, 1⟩, twoLeafBucketFreelist)
        (names.map fun name => ⟨[], name, .bucketCreate⟩) s ∧
      Overlay twoLeafBucketPages (some twoLeafBucketNest) s.1.1 T ∧
      T.dir.counter = names.length + 1 ∧
      ∀ k, k ≠ [98] → k ∉ names → T.dir.entries k = none by
    obtain ⟨s, T, h, -⟩ := hall names hnodup hnew hfew
    exact ⟨s, h⟩
  intro names
  induction names using List.reverseRecOn with
  | nil =>
    intro _ _ _
    refine ⟨_, _, .start, twoLeafBucket_committed.overlay, rfl, fun k hk _ => ?_⟩
    have hentry : entryAt k twoLeafBucketNest.tree.content = none := by
      simp [entryAt, twoLeafBucketNest, Nest.tree, SearchTree.content_leaf, Leaf.key, Ne.symm hk]
    rw [Nest.dir_entries, hentry]
    rfl
  | append_singleton names name ih =>
    intro hnodup hnew hfew
    rw [List.length_append, List.length_singleton] at hfew
    obtain ⟨hnodup', -, hdisjoint⟩ := List.nodup_append.mp hnodup
    obtain ⟨⟨⟨b, fl⟩, t⟩, T, h, hover, hcounter, hfree⟩ :=
      ih hnodup' (fun hmem => hnew (by simp [hmem])) (by omega)
    have hname : T.dir.entries name = none :=
      hfree name (fun heq => hnew (by simp [heq])) fun hmem =>
        absurd rfl (hdisjoint name hmem name (by simp))
    obtain ⟨b', fl', T', hcall, hover', hdir⟩ :=
      hover.call_create hwithin le_rfl hname (by omega) fl t
    have hstep := Transaction.call [] (.op (.createBucket name)) h
    have hperformed : performed twoLeafBucketPages twoLeafBucketNest.size []
        (.op (.createBucket name)) ((b, fl), t) = some ⟨[], name, .bucketCreate⟩ := by
      unfold performed
      rw [hcall]
      rfl
    rw [hperformed, hcall] at hstep
    refine ⟨_, T', by simpa using hstep, hover', ?_, fun k hk hmem => ?_⟩
    · rw [hdir, Dir.insert, hname, hcounter, List.length_append, List.length_singleton]
      rfl
    rw [List.mem_append, List.mem_singleton, not_or] at hmem
    rw [hdir, Dir.insert_entries_ne _ hmem.2]
    exact hfree k hk hmem.1

section LongName

variable {name : Bytes}

theorem long_ne (hlength : maxChangeBytes < name.length) {other : Bytes}
    (hother : other.length ≤ maxChangeBytes) : name ≠ other := by
  rintro rfl
  omega

theorem long_not_reserved (hlength : maxChangeBytes < name.length) :
    ChangeTracker.reserved name = false := by
  have hlookup := long_ne hlength (show ttlBucket.length ≤ maxChangeBytes by decide)
  have hdeadlines := long_ne hlength (show ttlDeadlinesBucket.length ≤ maxChangeBytes by decide)
  have hjournal := long_ne hlength (show journalBucket.length ≤ maxChangeBytes by decide)
  simp [ChangeTracker.reserved, hlookup, hdeadlines, hjournal]

/-- A name that does not fit is never taken. -/
theorem long_not_takes (hlength : maxChangeBytes < name.length) (t : ChangeTracker) :
    ¬ Takes t ⟨[], name, .bucketCreate⟩ := by
  rintro ⟨-, -, hbytes⟩
  have hsize : sizeOf ⟨[], name, .bucketCreate⟩ = name.length := Nat.zero_add _
  rw [hsize] at hbytes
  omega

/-- A name that does not fit is left out, and the next one is taken. -/
theorem recordAll_long (hlength : maxChangeBytes < name.length) :
    (recordAll (.new true) [⟨[], name, .bucketCreate⟩, ⟨[], [99], .bucketCreate⟩]).changes =
      [⟨[], [99], .bucketCreate⟩] := by
  have hopen : Open ⟨[], name, .bucketCreate⟩ := rfl
  have hfirst := long_not_takes hlength (.new true)
  have hcount : (ChangeTracker.new true).changes.length ≤ maxChanges := by decide
  rw [recordAll_cons, record_leaves rfl hcount hopen hfirst]
  rfl

theorem outside_long (hlength : maxChangeBytes < name.length) :
    outside [⟨[], name, .bucketCreate⟩, ⟨[], [99], .bucketCreate⟩] =
      [⟨[], name, .bucketCreate⟩, ⟨[], [99], .bucketCreate⟩] := by
  have hshort : ChangeTracker.reserved [99] = false := by decide
  simp [outside, inReserved, long_not_reserved hlength, hshort]

end LongName

/-- Two buckets are created and then one whose name does not fit: the first two changes are kept,
and the list is marked. -/
theorem tracking_honest_truncated :
    ∃ name : Bytes, name.length = maxChangeBytes + 1 ∧ ∃ s,
      Transaction twoLeafBucketPages twoLeafBucketNest.size
        (.fromMeta ⟨2, 1⟩, twoLeafBucketFreelist)
        [⟨[], [99], .bucketCreate⟩, ⟨[], [100], .bucketCreate⟩, ⟨[], name, .bucketCreate⟩] s ∧
      HonestPrefix (outside
        [⟨[], [99], .bucketCreate⟩, ⟨[], [100], .bucketCreate⟩, ⟨[], name, .bucketCreate⟩])
        s.2 := by
  suffices hall : ∀ name : Bytes, name.length = maxChangeBytes + 1 → ∃ s,
      Transaction twoLeafBucketPages twoLeafBucketNest.size
        (.fromMeta ⟨2, 1⟩, twoLeafBucketFreelist)
        [⟨[], [99], .bucketCreate⟩, ⟨[], [100], .bucketCreate⟩, ⟨[], name, .bucketCreate⟩] s ∧
      HonestPrefix (outside
        [⟨[], [99], .bucketCreate⟩, ⟨[], [100], .bucketCreate⟩, ⟨[], name, .bucketCreate⟩]) s.2 by
    have hlength : (List.replicate (maxChangeBytes + 1) (0 : UInt8)).length = maxChangeBytes + 1 :=
      List.length_replicate
    exact ⟨_, hlength, hall _ hlength⟩
  intro name hname
  have hlength : maxChangeBytes < name.length := by omega
  have hshort : ∀ x : UInt8, [x] ≠ name := fun x =>
    (long_ne hlength (show ([x] : Bytes).length ≤ maxChangeBytes by simp [maxChangeBytes])).symm
  obtain ⟨s, h⟩ := exists_creations [[99], [100], name] (by simp [hshort]) (by simp [hshort])
    (by simp)
  refine ⟨s, h, (tracking_honest_iff h).mpr
    ⟨[⟨[], [99], .bucketCreate⟩, ⟨[], [100], .bucketCreate⟩], [⟨[], name, .bucketCreate⟩],
      ?_, ⟨⟨by decide, by decide, by decide⟩, ⟨by decide, by decide, by decide⟩, trivial⟩, ?_, ?_⟩⟩
  · have hfirst : ChangeTracker.reserved [99] = false := by decide
    have hsecond : ChangeTracker.reserved [100] = false := by decide
    simp [outside, inReserved, long_not_reserved hlength, hfirst, hsecond]
  · intro change hmem
    rw [List.mem_singleton.mp hmem]
    exact long_not_takes hlength _
  · exact fun _ => ⟨_, List.mem_singleton_self _, long_not_reserved hlength⟩

/-- A bucket with a name of more than 4 MiB is created and then one with a short name: the tracker
holds the second change without the first. -/
theorem tracking_goes_on :
    ∃ name : Bytes, name.length = maxChangeBytes + 1 ∧ ∃ s,
      Transaction twoLeafBucketPages twoLeafBucketNest.size
        (.fromMeta ⟨2, 1⟩, twoLeafBucketFreelist)
        [⟨[], name, .bucketCreate⟩, ⟨[], [99], .bucketCreate⟩] s ∧
      s.2.changes = [⟨[], [99], .bucketCreate⟩] ∧
      ¬ HonestPrefix (outside [⟨[], name, .bucketCreate⟩, ⟨[], [99], .bucketCreate⟩]) s.2 := by
  suffices hall : ∀ name : Bytes, name.length = maxChangeBytes + 1 → ∃ s,
      Transaction twoLeafBucketPages twoLeafBucketNest.size
        (.fromMeta ⟨2, 1⟩, twoLeafBucketFreelist)
        [⟨[], name, .bucketCreate⟩, ⟨[], [99], .bucketCreate⟩] s ∧
      s.2.changes = [⟨[], [99], .bucketCreate⟩] ∧
      ¬ HonestPrefix (outside [⟨[], name, .bucketCreate⟩, ⟨[], [99], .bucketCreate⟩]) s.2 by
    have hlength : (List.replicate (maxChangeBytes + 1) (0 : UInt8)).length = maxChangeBytes + 1 :=
      List.length_replicate
    exact ⟨_, hlength, hall _ hlength⟩
  intro name hname
  have hlength : maxChangeBytes < name.length := by omega
  have hshort := long_ne hlength (show ([99] : Bytes).length ≤ maxChangeBytes by decide)
  have hold := long_ne hlength (show ([98] : Bytes).length ≤ maxChangeBytes by decide)
  obtain ⟨s, h⟩ := exists_creations [name, [99]] (by simp [hshort]) (by simp [hold.symm])
    (by simp)
  have hchanges : s.2.changes = [⟨[], [99], .bucketCreate⟩] := by
    rw [h.tracker]
    exact recordAll_long hlength
  refine ⟨s, h, hchanges, fun hhonest => ?_⟩
  have hprefix := hhonest.isPrefix
  rw [hchanges, outside_long hlength] at hprefix
  have heq : ([99] : Bytes) = name := by simpa using hprefix
  exact hshort heq.symm

end Tagdata.Analysis
