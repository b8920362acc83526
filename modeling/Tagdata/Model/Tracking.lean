import Tagdata.Model.Changes
import Tagdata.Model.Cursor

/-!
# Recording

The methods of `Bucket` and `Tx` that change something, with the calls of `record` they make in a
write transaction.  The path is the one a handle was opened by; a method of `Tx` has the empty
path.  Every other method that changes something (the bulk operations, expirations, merges, the
journal) calls these.
-/

set_option autoImplicit false

namespace Tagdata.Model

/-- A bucket with the freelist and the tracker of its transaction. -/
abbrev TrackedTx := BucketTx × ChangeTracker

/-- What a transaction does to a bucket: a method, or the removal of an expired record in
`purge_expired`. -/
inductive TrackedOp where
  | op (op : Op)
  | expire (key : Bytes)
deriving DecidableEq, Repr

namespace Tracked

variable {α : Type}

/-- A part of a method that records nothing. -/
def untracked (m : EStateM Fault BucketTx α) : EStateM Fault TrackedTx α := fun s =>
  match m s.1 with
  | .ok a tx => .ok a (tx, s.2)
  | .error e tx => .error e (tx, s.2)

/-- `self.changes.record(&self.path, key, operation)`. -/
def record (path : List Bytes) (key : Bytes) (operation : ChangeOperation) :
    EStateM Fault TrackedTx Unit := fun s =>
  .ok () (s.1, s.2.record path key operation)

/-- `is_ok()`: an error is dropped, a panic is not. -/
def isOk (m : EStateM Fault BucketTx α) : EStateM Fault TrackedTx Bool := fun s =>
  match m s.1 with
  | .ok _ tx => .ok true (tx, s.2)
  | .error (.error _) tx => .ok false (tx, s.2)
  | .error fault tx => .error fault (tx, s.2)

section Methods

variable (P : Pages) (fuel : Nat) (path : List Bytes)

def put (key value : Bytes) : EStateM Fault TrackedTx Output := do
  let previous ← untracked (Bucket.put P fuel key value)
  record path key .put
  return previous

def delete (key : Bytes) : EStateM Fault TrackedTx Output := do
  let previous ← untracked (Bucket.delete P fuel key)
  record path key .delete
  return previous

def createBucket (name : Bytes) : EStateM Fault TrackedTx Output := do
  let inner ← untracked (Bucket.createBucket P fuel name)
  record path name .bucketCreate
  return inner

def getOrCreateBucket (name : Bytes) : EStateM Fault TrackedTx Output := do
  untracked (Bucket.alive "Cannot get or create bucket from a deleted bucket.")
  let existed ← isOk (onBucket (InnerBucket.getBucket P fuel name))
  let inner ← untracked (Bucket.getOrCreateBucket P fuel name)
  if !existed then record path name .bucketCreate
  return inner

def deleteBucket (name : Bytes) : EStateM Fault TrackedTx Output := do
  let done ← untracked (Bucket.deleteBucket P fuel name)
  record path name .bucketDelete
  return done

/-- `put_if_absent`. -/
def putIfAbsent (key value : Bytes) : EStateM Fault TrackedTx Output := do
  untracked (Bucket.alive "Cannot mutate data in a deleted bucket.")
  match ← untracked (Bucket.lookup P fuel key) with
  | some (.bucket _ _) => throw (.error .incompatibleValue)
  | some (.kv _ current) => return .atomic ⟨false, some current, some current⟩
  | none => do
      let _ ← untracked (onBucket (InnerBucket.put P fuel key value))
      record path key .put
      return .atomic ⟨true, none, some value⟩

/-- `compare_exchange`. -/
def compareExchange (key : Bytes) (expected : Option Bytes) (value : Bytes) :
    EStateM Fault TrackedTx Output := do
  let observed ← untracked (Bucket.observe P fuel key)
  if observed ≠ expected then
    return .atomic ⟨false, observed, observed⟩
  else do
    let _ ← untracked (onBucket (InnerBucket.put P fuel key value))
    record path key .put
    return .atomic ⟨true, observed, some value⟩

/-- `delete_if_value`. -/
def deleteIfValue (key expected : Bytes) : EStateM Fault TrackedTx Output := do
  let observed ← untracked (Bucket.observe P fuel key)
  if observed ≠ some expected then
    return .atomic ⟨false, observed, observed⟩
  else do
    let _ ← untracked (onBucket (InnerBucket.delete P fuel key))
    record path key .delete
    return .atomic ⟨true, observed, none⟩

/-- The removal of an expired record in `purge_expired`; it answers what was removed. -/
def expire (key : Bytes) : EStateM Fault TrackedTx Output := do
  match ← untracked (Bucket.lookup P fuel key) with
  | some (.kv _ _) => do
      let previous ← untracked (onBucket (InnerBucket.delete P fuel key))
      record path key .expire
      return .pair (some previous)
  | some (.bucket _ _) => throw (.error .incompatibleValue)
  | none => return .pair none

/-- One operation of a bucket. -/
def run : TrackedOp → EStateM Fault TrackedTx Output
  | .op (.put key value) => put P fuel path key value
  | .op (.delete key) => delete P fuel path key
  | .op (.createBucket name) => createBucket P fuel path name
  | .op (.getOrCreateBucket name) => getOrCreateBucket P fuel path name
  | .op (.deleteBucket name) => deleteBucket P fuel path name
  | .op (.putIfAbsent key value) => putIfAbsent P fuel path key value
  | .op (.compareExchange key expected value) => compareExchange P fuel path key expected value
  | .op (.deleteIfValue key expected) => deleteIfValue P fuel path key expected
  | .op (.get key) => untracked (Bucket.getData P fuel key)
  | .op (.getKv key) => untracked (Bucket.getKv P fuel key)
  | .op (.getBucket name) => untracked (Bucket.getBucket P fuel name)
  | .op .nextInt => untracked Bucket.nextInt
  | .expire key => expire P fuel path key

/-- The method on a bucket, with the tracker in its answer. -/
def onHandle (op : TrackedOp) (t : ChangeTracker) :
    EStateM Fault BucketTx (Except Fault Output × ChangeTracker) := fun tx =>
  match run P fuel path op (tx, t) with
  | .ok a (tx, t) => .ok (.ok a, t) tx
  | .error e (tx, t) => .ok (.error e, t) tx

/-- One operation of a transaction, on the bucket at a path. -/
def call (op : TrackedOp) (s : TrackedTx) : Except Fault Output × TrackedTx :=
  match Bucket.atPath P fuel (onHandle P fuel path op s.2) path s.1 with
  | .ok (r, t) tx => (r, tx, t)
  | .error e tx => (.error e, tx, s.2)

end Methods

end Tracked

end Tagdata.Model
