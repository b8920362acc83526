import Tagdata.Library.Digits
import Tagdata.Library.Parsers
import Tagdata.Model.Changes
import Tagdata.Model.Requests

/-!
# The durable journal

`journal.rs`: every commit stores its change set in a reserved root bucket, under a key made of
the transaction id, and deletes the oldest records beyond the configured number.  The bucket also
holds the configuration and the checkpoints of consumers.
-/

set_option autoImplicit false

namespace Tagdata.Model

open Tagdata.Library

structure JournalConfig where
  maxTransactions : Nat
deriving DecidableEq, Repr

structure JournalGap where
  requestedAfter : Nat
  oldestAvailable : Nat
deriving DecidableEq, Repr

structure JournalReplay where
  transactions : List ChangeSet
  gap : Option JournalGap
  oldestAvailable : Option Nat
  newestAvailable : Option Nat
deriving DecidableEq, Repr

/-- `JournalReplay::default`. -/
def JournalReplay.default : JournalReplay := ⟨[], none, none, none⟩

namespace Journal

/-- `CONFIG_KEY`. -/
def configKey : Bytes := ascii "config"

/-- `TX_PREFIX`. -/
def txPrefix : UInt8 := 116

/-- `CHECKPOINT_PREFIX`. -/
def checkpointPrefix : UInt8 := 99

/-- `MAGIC`. -/
def magic : Bytes := ascii "ISJR"

/-- `u64::MAX`, also the largest `usize`. -/
def maxU64 : Nat := 2 ^ 64 - 1

/-! ## Keys -/

/-- `tx_key`. -/
def txKey (txId : Nat) : Bytes := txPrefix :: beBytes 8 txId

/-- `decode_tx_key`. -/
def decodeTxKey (key : Bytes) : Option Nat :=
  if key.length = 9 ∧ key.head? = some txPrefix then some (ofBeBytes key.tail) else none

/-- `checkpoint_key`. -/
def checkpointKey (consumer : Bytes) : Except Error Bytes :=
  if consumer.isEmpty || consumer.length > 255 then
    .error (.invalidDB "journal consumer name must contain 1..=255 bytes")
  else .ok (checkpointPrefix :: consumer)

/-- `decode_u64`. -/
def decodeU64 (bytes : Bytes) : Except Error Nat :=
  if bytes.length = 8 then .ok (ofBeBytes bytes)
  else .error (.invalidDB "journal integer must contain eight bytes")

/-! ## Records -/

/-- `push_u16`: the bytes that are appended. -/
def pushU16 (value : Nat) : Except Error Bytes :=
  if value < 2 ^ 16 then .ok (beBytes 2 value)
  else .error (.invalidDB "journal path is too deep")

/-- `push_u32`. -/
def pushU32 (value : Nat) : Except Error Bytes :=
  if value < 2 ^ 32 then .ok (beBytes 4 value)
  else .error (.invalidDB "journal record is too large")

/-- `push_bytes`. -/
def pushBytes (bytes : Bytes) : Except Error Bytes := do
  let length ← pushU32 bytes.length
  return length ++ bytes

/-- `encode_operation`. -/
def encodeOperation : ChangeOperation → UInt8
  | .put => 1
  | .delete => 2
  | .bucketCreate => 3
  | .bucketDelete => 4
  | .expire => 5

/-- `decode_operation`. -/
def decodeOperation (value : UInt8) : Except Error ChangeOperation :=
  if value = 1 then .ok .put
  else if value = 2 then .ok .delete
  else if value = 3 then .ok .bucketCreate
  else if value = 4 then .ok .bucketDelete
  else if value = 5 then .ok .expire
  else .error (.invalidDB "journal operation is invalid")

/-- A round of the loop of `encode_change_set`. -/
def encodeChange (change : Change) : Except Error Bytes := do
  let depth ← pushU16 change.bucketPath.length
  let path ← encodeAll pushBytes change.bucketPath
  let key ← pushBytes change.key
  return encodeOperation change.operation :: (depth ++ (path ++ key))

/-- `encode_change_set`. -/
def encodeChangeSet (set : ChangeSet) : Except Error Bytes := do
  let count ← pushU32 set.changes.length
  let changes ← encodeAll encodeChange set.changes
  return magic ++ (if set.truncated then 1 else 0) :: (count ++ changes)

/-- `Input`: the bytes that remain. -/
abbrev Input := Parser Error

namespace Input

/-- `take`. -/
def take (count : Nat) : Input Bytes := fun remaining =>
  if remaining.length < count then .error (.invalidDB "journal record is truncated")
  else .ok (remaining.take count, remaining.drop count)

/-- `byte`. -/
def byte : Input UInt8 := do
  let taken ← take 1
  return taken.headD 0

/-- `u16`. -/
def u16 : Input Nat := do
  let taken ← take 2
  return ofBeBytes taken

/-- `u32`. -/
def u32 : Input Nat := do
  let taken ← take 4
  return ofBeBytes taken

/-- `bytes`. -/
def bytes : Input Bytes := do
  let length ← u32
  take length

end Input

/-- A round of the loop of `decode_change_set`. -/
def decodeChange : Input Change := do
  let operation ← Input.byte
  let operation ← decodeOperation operation
  let pathCount ← Input.u16
  let bucketPath ← times Input.bytes pathCount
  let key ← Input.bytes
  return ⟨bucketPath, key, operation⟩

/-- The magic at the start of a record. -/
def decodeMagic : Input Unit := do
  let taken ← Input.take 4
  if taken ≠ magic then throw (.invalidDB "journal record magic is invalid")

/-- The fields of a record. -/
def decodeRecord : Input (Bool × List Change) := do
  decodeMagic
  let truncated ← Input.byte
  let count ← Input.u32
  let changes ← times decodeChange count
  return (truncated ≠ 0, changes)

/-- `decode_change_set`. -/
def decodeChangeSet (transactionId : Nat) (bytes : Bytes) : Except Error ChangeSet := do
  let ((truncated, changes), remaining) ← decodeRecord.run bytes
  if remaining.isEmpty then return ⟨transactionId, changes, truncated⟩
  else throw (.invalidDB "journal record has trailing bytes")

/-! ## Writing -/

/-- `enable_journal`. -/
def enableJournal (config : JournalConfig) : Program Unit :=
  if config.maxTransactions = 0 then
    .fail (.invalidDB "journal retention must be non-zero")
  else do
    let _ ← Program.perform (.getOrCreateBucket journalBucket)
    let _ ← (Program.put configKey (beBytes 8 config.maxTransactions)).inside journalBucket
    return ()

/-- The number of records that `persist` keeps. -/
def retention : Program Nat := do
  match ← Program.getKv configKey with
  | some value => .ofExcept (decodeU64 value)
  | none => .fail (.invalidDB "journal configuration is missing")

/-- The keys of the records among the pairs of the journal. -/
def recordKeys (pairs : List (Bytes × Bytes)) : List Bytes :=
  (pairs.map Prod.fst).filter fun key => (decodeTxKey key).isSome

/-- The part of `persist` that deletes the oldest records. -/
def trim (retention : Nat) : Program Unit := do
  let pairs ← Program.kvPairs
  let keys := recordKeys pairs
  let remove := keys.length - retention
  .forEach (fun key => do let _ ← Program.perform (.delete key)) (keys.take remove)

/-- What `persist` does in the journal bucket. -/
def append (changes : ChangeSet) : Program Unit := do
  let retention ← retention
  let record ← .ofExcept (encodeChangeSet changes)
  let _ ← Program.put (txKey changes.transactionId) record
  trim retention

/-- `persist`. -/
def persist (changes : ChangeSet) : Program Unit := do
  match ← Program.attempt (.getBucket journalBucket) with
  | .ok _ => (append changes).inside journalBucket
  | .error .bucketMissing => return ()
  | .error e => .fail e

/-- `checkpoint_journal`. -/
def checkpointJournal (consumer : Bytes) (txId : Nat) : Program Unit := do
  let key ← .ofExcept (checkpointKey consumer)
  let _ ← Program.perform (.getBucket journalBucket)
  let _ ← (Program.put key (beBytes 8 txId)).inside journalBucket
  return ()

/-- `checkpoint_journal` with its commit.  The write is offered to the tracker. -/
def checkpointTransaction (transactionId : Nat) (consumer : Bytes) (txId : Nat) :
    Program Unit := do
  checkpointJournal consumer txId
  persist (((ChangeTracker.new true).record [journalBucket] (checkpointPrefix :: consumer)
    .put).snapshot transactionId)

/-! ## Reading -/

/-- The records among the pairs of the journal, with their transaction ids. -/
def records (pairs : List (Bytes × Bytes)) : List (Nat × Bytes) :=
  pairs.filterMap fun pair => (decodeTxKey pair.1).map fun id => (id, pair.2)

/-- The changes that a filter selects. -/
def retain (filter : Option WatchFilter) (set : ChangeSet) : ChangeSet :=
  match filter with
  | none => set
  | some filter => { set with changes := set.changes.filter filter.matches }

/-- The loop of `replay_journal`. -/
def replay (transactionId limit : Nat) (filter : Option WatchFilter) :
    List (Nat × Bytes) → List ChangeSet → Except Error (List ChangeSet)
  | [], transactions => .ok transactions
  | (id, bytes) :: records, transactions =>
      if id ≤ transactionId ∨ transactions.length = limit then
        replay transactionId limit filter records transactions
      else do
        let set ← decodeChangeSet id bytes
        replay transactionId limit filter records (transactions ++ [retain filter set])

/-- The gap that `replay_journal` reports. -/
def gap (transactionId : Nat) (oldestAvailable : Option Nat) : Option JournalGap :=
  (oldestAvailable.filter fun oldest => min (transactionId + 1) maxU64 < oldest).map
    fun oldest => ⟨transactionId, oldest⟩

/-- What `replay_journal` makes of the pairs of the journal. -/
def replayPairs (transactionId limit : Nat) (filter : Option WatchFilter)
    (pairs : List (Bytes × Bytes)) : Except Error JournalReplay := do
  let records := records pairs
  let oldestAvailable := records.head?.map Prod.fst
  let newestAvailable := records.getLast?.map Prod.fst
  let transactions ← replay transactionId limit filter records []
  return ⟨transactions, gap transactionId oldestAvailable, oldestAvailable, newestAvailable⟩

/-- `replay_journal`. -/
def replayJournal (transactionId limit : Nat) (filter : Option WatchFilter) :
    Program JournalReplay := do
  match ← Program.attempt (.getBucket journalBucket) with
  | .ok _ => do
      let pairs ← Program.kvPairs.inside journalBucket
      .ofExcept (replayPairs transactionId limit filter pairs)
  | .error .bucketMissing => return JournalReplay.default
  | .error e => .fail e

/-- The value under the key of a checkpoint. -/
def checkpointAt (key : Bytes) : Program (Option Nat) := do
  match ← Program.getKv key with
  | some value => do
      let id ← .ofExcept (decodeU64 value)
      return some id
  | none => return none

/-- `journal_checkpoint`. -/
def journalCheckpoint (consumer : Bytes) : Program (Option Nat) := do
  let key ← .ofExcept (checkpointKey consumer)
  match ← Program.attempt (.getBucket journalBucket) with
  | .ok _ => (checkpointAt key).inside journalBucket
  | .error .bucketMissing => return none
  | .error e => .fail e

end Journal

end Tagdata.Model
