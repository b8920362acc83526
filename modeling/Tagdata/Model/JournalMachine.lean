import Tagdata.Model.Journal

/-!
# Decoding a record on a machine

`decode_change_set` and `Input` once more, with what can end a call other than its result: the
panics of slices and arrays, and the two allocations whose size is read from the record.
`maxCapacity` is the largest capacity that `Vec::with_capacity` can give.
-/

set_option autoImplicit false

namespace Tagdata.Model.Journal.Machine

open Tagdata.Library

/-- `Input`, where a read may also panic. -/
abbrev Input := Parser Fault

/-- `split_at`. -/
def splitAt (count : Nat) (bytes : Bytes) : Except Fault (Bytes × Bytes) :=
  if count ≤ bytes.length then .ok (bytes.take count, bytes.drop count)
  else .error (.panic "mid > len")

/-- `try_into().unwrap()`, for an array of this length. -/
def array (length : Nat) (bytes : Bytes) : Except Fault Bytes :=
  if bytes.length = length then .ok bytes
  else .error (.panic "called Result::unwrap() on an Err value")

/-- `Vec::with_capacity`.  A capacity that cannot be given panics or ends the process. -/
def withCapacity (maxCapacity count : Nat) : Except Fault Unit :=
  if maxCapacity < count then .error (.panic "memory allocation failed") else .ok ()

/-- `take`. -/
def take (count : Nat) : Input Bytes := fun remaining =>
  if remaining.length < count then .error (.error (.invalidDB "journal record is truncated"))
  else splitAt count remaining

/-- `byte`. -/
def byte : Input UInt8 := do
  match ← take 1 with
  | value :: _ => return value
  | [] => throw (.panic "index out of bounds")

/-- `u16`. -/
def u16 : Input Nat := do
  let taken ← take 2
  let taken ← array 2 taken
  return ofBeBytes taken

/-- `u32`. -/
def u32 : Input Nat := do
  let taken ← take 4
  let taken ← array 4 taken
  return ofBeBytes taken

/-- `bytes`. -/
def bytes : Input Bytes := do
  let length ← u32
  take length

/-- A round of the loop of `decode_change_set`. -/
def decodeChange (maxCapacity : Nat) : Input Change := do
  let operation ← byte
  let operation ← (decodeOperation operation).mapError Fault.error
  let pathCount ← u16
  withCapacity maxCapacity pathCount
  let bucketPath ← times bytes pathCount
  let key ← bytes
  return ⟨bucketPath, key, operation⟩

/-- The magic at the start of a record. -/
def decodeMagic : Input Unit := do
  let taken ← take 4
  if taken ≠ magic then throw (.error (.invalidDB "journal record magic is invalid"))

/-- The fields of a record. -/
def decodeRecord (maxCapacity : Nat) : Input (Bool × List Change) := do
  decodeMagic
  let truncated ← byte
  let count ← u32
  withCapacity maxCapacity count
  let changes ← times (decodeChange maxCapacity) count
  return (truncated ≠ 0, changes)

/-- `decode_change_set`. -/
def decodeChangeSet (maxCapacity transactionId : Nat) (bytes : Bytes) : Except Fault ChangeSet := do
  let ((truncated, changes), remaining) ← (decodeRecord maxCapacity).run bytes
  if remaining.isEmpty then return ⟨transactionId, changes, truncated⟩
  else throw (.error (.invalidDB "journal record has trailing bytes"))

end Tagdata.Model.Journal.Machine
