import Tagdata.Library.Digits
import Tagdata.Model.Changes
import Tagdata.Model.Requests

/-!
# Expirations

`ttl.rs` and `update_value` of `map.rs`: the lookup bucket maps a key to its deadline, the
deadline bucket holds the same pairs ordered by deadline.  Both are nested in the bucket whose
records they are about, under reserved names.
-/

set_option autoImplicit false

namespace Tagdata.Model

open Tagdata.Library

/-- Milliseconds since the epoch; negative before it. -/
abbrev SystemTime := Int

/-- `epoch_millis`. -/
def epochMillis (time : SystemTime) : Except Error Nat :=
  if time < 0 then .error .io
  else if time.toNat < 2 ^ 64 then .ok time.toNat
  else .error .io

/-- `decode_expiration`. -/
def decodeExpiration (bytes : Bytes) : Except Error Nat :=
  if bytes.length = 8 then .ok (ofBeBytes bytes)
  else .error (.invalidDB "TTL expiration must contain eight bytes")

/-- `deadline_key`. -/
def deadlineKey (deadline : Nat) (key : Bytes) : Bytes := beBytes 8 deadline ++ key

/-- `decode_deadline_key`. -/
def decodeDeadlineKey (encoded : Bytes) : Except Error (Nat × Bytes) :=
  if 8 ≤ encoded.length then do
    let deadline ← decodeExpiration (encoded.take 8)
    return (deadline, encoded.drop 8)
  else .error (.invalidDB "TTL deadline key is shorter than eight bytes")

/-- `is_ttl_bucket`. -/
def isTtlBucket (name : Bytes) : Bool := name = ttlBucket || name = ttlDeadlinesBucket

structure TtlWriteResult where
  previous : Option Bytes
  expiresAtMillis : Nat
deriving DecidableEq, Repr

namespace Program

/-- `expiration_bucket`: whether there is one. -/
def expirationBucket : Program Bool := do
  match ← attempt (.getBucket ttlBucket) with
  | .ok _ => return true
  | .error .bucketMissing => return false
  | .error e => .fail e

/-- `remove_deadline`. -/
def removeDeadline (deadline : Nat) (key : Bytes) : Program Unit := do
  match ← attempt (.getBucket ttlDeadlinesBucket) with
  | .ok _ =>
      match ← (attempt (.delete (deadlineKey deadline key))).inside ttlDeadlinesBucket with
      | .ok _ => return ()
      | .error .keyValueMissing => return ()
      | .error e => .fail e
  | .error .bucketMissing => return ()
  | .error e => .fail e

/-- The first part of `set_expiration_millis`: the deadline the key had is retired. -/
def retireDeadline (key : Bytes) : Program Unit := do
  match ← (getKv key).inside ttlBucket with
  | some previousDeadline => do
      let previousDeadline ← .ofExcept (decodeExpiration previousDeadline)
      removeDeadline previousDeadline key
  | none => return ()

/-- `set_expiration_millis`. -/
def setExpirationMillis (key : Bytes) (expiresAtMillis : Nat) : Program Unit := do
  let _ ← perform (.getOrCreateBucket ttlBucket)
  retireDeadline key
  let _ ← (put key (beBytes 8 expiresAtMillis)).inside ttlBucket
  let _ ← perform (.getOrCreateBucket ttlDeadlinesBucket)
  let _ ← (put (deadlineKey expiresAtMillis key) []).inside ttlDeadlinesBucket
  return ()

/-- `put_with_ttl`. -/
def putWithTtl (key value : Bytes) (expiresAt : SystemTime) : Program TtlWriteResult := do
  let expiresAtMillis ← .ofExcept (epochMillis expiresAt)
  let previous ← put key value
  setExpirationMillis key expiresAtMillis
  return ⟨previous, expiresAtMillis⟩

/-- `expiration`. -/
def expiration (key : Bytes) : Program (Option Nat) := do
  match ← expirationBucket with
  | true =>
      match ← (getKv key).inside ttlBucket with
      | some bytes => return some (← .ofExcept (decodeExpiration bytes))
      | none => return none
  | false => return none

/-- `get_live_at`. -/
def getLiveAt (key : Bytes) (now : SystemTime) : Program (Option Bytes) := do
  match ← expiration key with
  | none => getKv key
  | some expiration => do
      if expiration ≤ (← .ofExcept (epochMillis now)) then return none
      else getKv key

/-- `clear_ttl`. -/
def clearTtl (key : Bytes) : Program Bool := do
  match ← attempt (.getBucket ttlBucket) with
  | .ok _ =>
      match ← (attempt (.delete key)).inside ttlBucket with
      | .ok previous => do
          let deadline ← .ofExcept (decodeExpiration ((valueOf previous).getD []))
          removeDeadline deadline key
          return true
      | .error .keyValueMissing => return false
      | .error e => .fail e
  | .error .bucketMissing => return false
  | .error e => .fail e

/-- `deadline_index`: makes sure the deadline bucket is there. -/
def deadlineIndex : Program Unit := do
  match ← attempt (.getBucket ttlDeadlinesBucket) with
  | .ok _ => return ()
  | .error .bucketMissing => do
      let _ ← perform (.createBucket ttlDeadlinesBucket)
      let pairs ← kvPairs.inside ttlBucket
      .forEach (fun (pair : Bytes × Bytes) => do
        let deadline ← .ofExcept (decodeExpiration pair.2)
        let _ ← (put (deadlineKey deadline pair.1) []).inside ttlDeadlinesBucket
        return ()) pairs
  | .error e => .fail e

/-- The scan of `purge_expired`: the deadline keys up to `now`, each with its key. -/
def takeExpired (now : Nat) : Nat → List (Bytes × Bytes) → Except Error (List (Bytes × Bytes))
  | 0, _ => .ok []
  | _ + 1, [] => .ok []
  | limit + 1, pair :: pairs => do
      let (deadline, key) ← decodeDeadlineKey pair.1
      if now < deadline then return []
      else return (pair.1, key) :: (← takeExpired now limit pairs)

/-- The record of an expired key is deleted; a nested bucket in its place is an error. -/
def purgeRecord (key : Bytes) : Program Unit := do
  match ← get key with
  | some (.keyValue _ _) => do
      let _ ← perform (.delete key)
      return ()
  | some (.bucket _) => .fail .incompatibleValue
  | none => return ()

/-- The round of `purge_expired` for one deadline key. -/
def purgeOne (expired : Bytes × Bytes) : Program Unit := do
  purgeRecord expired.2
  let _ ← (perform (.delete expired.2)).inside ttlBucket
  let _ ← (perform (.delete expired.1)).inside ttlDeadlinesBucket
  return ()

/-- The part of `purge_expired` up to its allocation: whether there is a lookup bucket; if so
the deadline bucket is there, too. -/
def openIndexes : Program Bool := do
  match ← attempt (.getBucket ttlBucket) with
  | .ok _ => do
      deadlineIndex
      return true
  | .error .bucketMissing => return false
  | .error e => .fail e

/-- The part of `purge_expired` after its allocation. -/
def purgeDue (now limit : Nat) : Program Nat := do
  let pairs ← kvPairs.inside ttlDeadlinesBucket
  let expired ← .ofExcept (takeExpired now limit pairs)
  .forEach purgeOne expired
  return expired.length

/-- `purge_expired`, where the allocation for `limit` keys is given. -/
def purgeExpired (now : SystemTime) (limit : Nat) : Program Nat := do
  if limit = 0 then return 0
  else
    let now ← .ofExcept (epochMillis now)
    if ← openIndexes then purgeDue now limit else return 0

/-- `update_value`. -/
def updateValue (key : Bytes) (update : Option Bytes → Option Bytes) :
    Program (Option Bytes) := do
  let previous ← getKv key
  match update previous with
  | some value => do
      let _ ← put key value
      let _ ← clearTtl key
      return previous
  | none =>
      if previous.isSome then do
        let _ ← perform (.delete key)
        let _ ← clearTtl key
        return previous
      else return previous

end Program

/-- Runs a program on the bucket of a handle. -/
def Program.runs {α : Type} (P : Pages) (fuel : Nat) (p : Program α) :
    EStateM Fault BucketTx (Except Error α) := fun s =>
  match p.exec P fuel s with
  | .ok (r, s) => .ok r s
  | .error fault => .error fault s

/-- `purge_expired` with its `Vec::with_capacity(limit)`; `maxCapacity` is the largest capacity
that can be given. -/
def Bucket.purgeExpired (P : Pages) (fuel maxCapacity : Nat) (time : SystemTime) (limit : Nat) :
    EStateM Fault BucketTx (Except Error Nat) :=
  if limit = 0 then return .ok 0
  else
    match epochMillis time with
    | .error e => return .error e
    | .ok now => do
        match ← Program.openIndexes.runs P fuel with
        | .error e => return .error e
        | .ok false => return .ok 0
        | .ok true =>
            if maxCapacity < limit then throw (.panic "capacity overflow")
            else (Program.purgeDue now limit).runs P fuel

end Tagdata.Model
