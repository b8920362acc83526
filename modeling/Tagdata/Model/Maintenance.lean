import Tagdata.Model.Merge

/-!
# Copies of a snapshot

`maintenance.rs`: a backup and a compaction copy the buckets of a read transaction into a new
database, in one write transaction of that database.
-/

set_option autoImplicit false

namespace Tagdata.Model

open Tagdata.Library

namespace Program

/-- `copy_bucket`. -/
def copyBucket : Contents → Program Unit
  | .done nextInt => setNextInt nextInt
  | .value key value rest => do
      let _ ← put key value
      copyBucket rest
  | .bucket name inner rest => do
      let _ ← perform (.createBucket name)
      (copyBucket inner).inside name
      copyBucket rest

/-- The loop of `copy_snapshot` and the assignment after it. -/
def copyBuckets : Contents → Program Unit
  | .done nextInt => setNextInt nextInt
  | .value _ _ rest => copyBuckets rest
  | .bucket name inner rest => do
      let _ ← perform (.createBucket name)
      (copyBucket inner).inside name
      copyBuckets rest

end Program

namespace ChangeTracker

/-- What the calls of `copy_bucket` record. -/
def copyBucket (path : List Bytes) : Contents → ChangeTracker → ChangeTracker
  | .done _, t => t
  | .value key _ rest, t => copyBucket path rest (t.record path key .put)
  | .bucket name inner rest, t =>
      copyBucket path rest (copyBucket (path ++ [name]) inner (t.record path name .bucketCreate))

/-- What the calls of `copy_snapshot` record. -/
def copyBuckets : Contents → ChangeTracker → ChangeTracker
  | .done _, t => t
  | .value _ _ rest, t => copyBuckets rest t
  | .bucket name inner rest, t =>
      copyBuckets rest (copyBucket [name] inner (t.record [] name .bucketCreate))

end ChangeTracker

/-- The id of the first transaction of a new database. -/
def firstTxId : Nat := 1

/-- The changes of the transaction that copies a snapshot. -/
def copyChanges (source : Contents) : ChangeSet :=
  (ChangeTracker.copyBuckets source (.new true)).snapshot firstTxId

/-- `copy_snapshot` up to the point where its transaction is written. -/
def Program.copySnapshot (source : Contents) : Program Unit := do
  copyBuckets source
  Journal.persist (copyChanges source)

end Tagdata.Model
