import Tagdata.Model.Journal
import Tagdata.Model.Ttl

/-!
# Merging one database into another

`merge.rs`.  The source is read in a read transaction: its content is fixed, and a cursor yields
it in the order of the keys.  The destination is changed by a program in a write transaction.
-/

set_option autoImplicit false

namespace Tagdata.Model

open Tagdata.Library

/-- The content of a committed bucket as a cursor yields it, ending with its `next_int`. -/
inductive Contents where
  | done (nextInt : Nat)
  | value (key value : Bytes) (rest : Contents)
  | bucket (name : Bytes) (inner rest : Contents)
deriving DecidableEq, Repr

/-- What a key of the source is bound to. -/
inductive Content where
  | value (v : Bytes)
  | bucket (c : Contents)
deriving DecidableEq, Repr

namespace Contents

/-- `next_int`. -/
def nextInt : Contents → Nat
  | .done n => n
  | .value _ _ rest => rest.nextInt
  | .bucket _ _ rest => rest.nextInt

/-- `get` and `get_bucket`. -/
def find (k : Bytes) : Contents → Option Content
  | .done _ => none
  | .value key v rest => if k = key then some (.value v) else rest.find k
  | .bucket name inner rest => if k = name then some (.bucket inner) else rest.find k

/-- The keys in order. -/
def keys : Contents → List Bytes
  | .done _ => []
  | .value key _ rest => key :: rest.keys
  | .bucket name _ rest => name :: rest.keys

/-- `expiration_bucket`. -/
def expirationBucket (c : Contents) : Except Error (Option Contents) :=
  match c.find ttlBucket with
  | none => .ok none
  | some (.bucket e) => .ok (some e)
  | some (.value _) => .error .incompatibleValue

/-- The expiration of a key in the lookup bucket of the source. -/
def expirationIn (expirations : Option Contents) (key : Bytes) : Except Error (Option Nat) :=
  match expirations with
  | none => .ok none
  | some e =>
      match e.find key with
      | some (.value bytes) => (decodeExpiration bytes).map some
      | _ => .ok none

end Contents

/-- `MergeConflictPolicy`. -/
inductive MergeConflictPolicy where
  | overwrite
  | keepExisting
  | error
deriving DecidableEq, Repr

structure MergeReport where
  keysInserted : Nat
  keysUpdated : Nat
  keysUnchanged : Nat
  entriesSkipped : Nat
  bucketsCreated : Nat
  bucketsMerged : Nat
  typeConflictsResolved : Nat
deriving DecidableEq, Repr

/-- `MergeReport::default`. -/
def MergeReport.default : MergeReport := ⟨0, 0, 0, 0, 0, 0, 0⟩

/-- `merge_conflict`. -/
def mergeConflict (path : List Bytes) (key : Bytes) : Error := .mergeConflict (path ++ [key])

namespace Program

/-- What `merge_key_value` does with the record: whether the expiration follows, and the
report. -/
def mergeRecord (policy : MergeConflictPolicy) (sourceExpiration : Option Nat) (path : List Bytes)
    (key value : Bytes) (report : MergeReport) : Program (Bool × MergeReport) := do
  match ← get key with
  | none => do
      let _ ← put key value
      return (true, { report with keysInserted := report.keysInserted + 1 })
  | some (.keyValue _ existing) =>
      if existing = value then do
        if (← expiration key) = sourceExpiration then
          return (false, { report with keysUnchanged := report.keysUnchanged + 1 })
        else
          match policy with
          | .overwrite => return (true, { report with keysUpdated := report.keysUpdated + 1 })
          | .keepExisting =>
              return (false, { report with entriesSkipped := report.entriesSkipped + 1 })
          | .error => .fail (mergeConflict path key)
      else
        match policy with
        | .overwrite => do
            let _ ← put key value
            return (true, { report with keysUpdated := report.keysUpdated + 1 })
        | .keepExisting =>
            return (false, { report with entriesSkipped := report.entriesSkipped + 1 })
        | .error => .fail (mergeConflict path key)
  | some (.bucket _) =>
      match policy with
      | .overwrite => do
          let _ ← perform (.deleteBucket key)
          let _ ← put key value
          return (true, { report with
            keysInserted := report.keysInserted + 1
            typeConflictsResolved := report.typeConflictsResolved + 1 })
      | .keepExisting =>
          return (false, { report with entriesSkipped := report.entriesSkipped + 1 })
      | .error => .fail (mergeConflict path key)

/-- What `merge_key_value` does with the expiration. -/
def mergeExpiration (sourceExpiration : Option Nat) (manageMissingTtl : Bool) (key : Bytes) :
    Program Unit :=
  match sourceExpiration with
  | some expiresAtMillis => setExpirationMillis key expiresAtMillis
  | none =>
      if manageMissingTtl then do
        let _ ← clearTtl key
        return ()
      else return ()

/-- `merge_key_value`. -/
def mergeKeyValue (policy : MergeConflictPolicy) (sourceExpirations : Option Contents)
    (manageMissingTtl : Bool) (path : List Bytes) (key value : Bytes) (report : MergeReport) :
    Program MergeReport := do
  let sourceExpiration ← .ofExcept (Contents.expirationIn sourceExpirations key)
  let (applyTtl, report) ← mergeRecord policy sourceExpiration path key value report
  if applyTtl then do
    mergeExpiration sourceExpiration manageMissingTtl key
    return report
  else return report

/-- The first part of `merge_nested_bucket`: the bucket to merge into is there afterwards, unless
the entry is skipped. -/
def mergeTarget (policy : MergeConflictPolicy) (path : List Bytes) (name : Bytes)
    (report : MergeReport) : Program (Bool × MergeReport) := do
  match ← get name with
  | none => do
      let _ ← perform (.createBucket name)
      return (true, { report with bucketsCreated := report.bucketsCreated + 1 })
  | some (.bucket _) => do
      let _ ← perform (.getBucket name)
      return (true, { report with bucketsMerged := report.bucketsMerged + 1 })
  | some (.keyValue _ _) =>
      match policy with
      | .overwrite => do
          let _ ← perform (.delete name)
          let _ ← perform (.createBucket name)
          return (true, { report with
            bucketsCreated := report.bucketsCreated + 1
            typeConflictsResolved := report.typeConflictsResolved + 1 })
      | .keepExisting =>
          return (false, { report with entriesSkipped := report.entriesSkipped + 1 })
      | .error => .fail (mergeConflict path name)

/-- The start of `merge_bucket`: the lookup bucket of the source, and whether expirations that
the source does not have are cleared. -/
def mergeStart (source : Contents) : Program (Option Contents × Bool) := do
  let sourceExpirations ← .ofExcept source.expirationBucket
  if sourceExpirations.isSome then return (sourceExpirations, true)
  else return (sourceExpirations, ← expirationBucket)

/-- The loop and the end of `merge_bucket`. -/
def mergeEntries (policy : MergeConflictPolicy) (sourceExpirations : Option Contents)
    (manageMissingTtl : Bool) (path : List Bytes) :
    Contents → MergeReport → Program MergeReport
  | .done nextInt, report => do
      mergeNextInt nextInt
      return report
  | .value key value rest, report => do
      let report ←
        mergeKeyValue policy sourceExpirations manageMissingTtl path key value report
      mergeEntries policy sourceExpirations manageMissingTtl path rest report
  | .bucket name inner rest, report =>
      if isTtlBucket name then
        mergeEntries policy sourceExpirations manageMissingTtl path rest report
      else do
        let (merge, report) ← mergeTarget policy path name report
        let report ←
          if merge then
            inside name (do
              let (innerExpirations, manageInner) ← mergeStart inner
              mergeEntries policy innerExpirations manageInner (path ++ [name]) inner report)
          else pure report
        mergeEntries policy sourceExpirations manageMissingTtl path rest report

/-- `merge_bucket`. -/
def mergeBucket (policy : MergeConflictPolicy) (path : List Bytes) (source : Contents)
    (report : MergeReport) : Program MergeReport := do
  let (sourceExpirations, manageMissingTtl) ← mergeStart source
  mergeEntries policy sourceExpirations manageMissingTtl path source report

/-- The destination bucket of a round of `merge_transactions`. -/
def mergeRoot (name : Bytes) (report : MergeReport) : Program MergeReport := do
  match ← attempt (.getBucket name) with
  | .ok _ => return { report with bucketsMerged := report.bucketsMerged + 1 }
  | .error .bucketMissing => do
      let _ ← perform (.createBucket name)
      return { report with bucketsCreated := report.bucketsCreated + 1 }
  | .error e => .fail e

/-- `merge_transactions`: the root buckets of the source but its journal. -/
def mergeTransactions (policy : MergeConflictPolicy) :
    Contents → MergeReport → Program MergeReport
  | .done _, report => return report
  | .value _ _ rest, report => mergeTransactions policy rest report
  | .bucket name inner rest, report =>
      if name = journalBucket then mergeTransactions policy rest report
      else do
        let report ← mergeRoot name report
        let report ← inside name (mergeBucket policy [name] inner report)
        mergeTransactions policy rest report

end Program

end Tagdata.Model
