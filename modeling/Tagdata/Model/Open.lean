import Tagdata.Model.Layout

/-!
# Opening a file

`format.rs` finds the page size of a file, and `DBInner` in `db.rs` selects the metadata page and
loads the freelist.  The file is its bytes; reading it does not fail.
-/

set_option autoImplicit false

namespace Tagdata.Model

open Tagdata.Library

/-- The page sizes that `OpenOptions::open` accepts. -/
def checkPageSize (pagesize : Nat) : Except Fault Unit :=
  if pagesize < 1024 ∨ pagesize % 8 ≠ 0 then invalidDB s!"invalid page size {pagesize}"
  else .ok ()

/-- `.ok()`: an error is dropped, a panic is not. -/
def okOrNone {α : Type} : Except Fault α → Except Fault (Option α)
  | .ok a => .ok (some a)
  | .error (.error _) => .ok none
  | .error fault => .error fault

/-- What makes a metadata page current. -/
def Meta.usable (m : Meta) (pagesize : Nat) : Bool :=
  m.valid && m.magic == magicValue && m.version == formatVersion && m.pagesize == pagesize

/-- The metadata page with an id, when it validates. -/
def metaAt (digest : Digest) (data : Bytes) (pagesize id : Nat) : Except Fault (Option Meta) := do
  let block ← okOrNone (RawPage.validateBlock digest data id pagesize)
  match block with
  | none => return none
  | some page => do
      let m ← page.metaOf
      return some m

/-! ## The page size of a file -/

/-- `MAX_BOOTSTRAP_SCAN`. -/
def maxBootstrapScan : Nat := 16 * 1024 * 1024

/-- `FormatInfo`. -/
structure FormatInfo where
  pageSize : Nat
  version : Nat
  transactionId : Nat
  metadataPage : Nat
  fileBytes : Nat
deriving DecidableEq, Repr

/-- `metadata_page_size`. -/
def metadataPageSize (bytes : Bytes) (offset expectedId : Nat) : Option Nat :=
  let data := offset + RawPage.dataOffset
  if offset + headerSize > bytes.length ∨ data + metadataSize > bytes.length then none
  else if readU64 bytes offset ≠ expectedId ∨ readU8 bytes (offset + 8) ≠ RawPage.typeMeta then none
  else if readU32 bytes (data + 4) ≠ magicValue then none
  else
    let pageSize := readU64 bytes (data + 16)
    if 1024 ≤ pageSize ∧ pageSize ≤ maxBootstrapScan then some pageSize else none

/-- `max_by_key` on the transaction: the last of the greatest. -/
def latest : List Meta → Option Meta
  | [] => none
  | m :: rest =>
      match latest rest with
      | none => some m
      | some n => some (if m.txId ≤ n.txId then n else m)

/-- A round of the loop of `inspect_candidate`. -/
def candidateMeta (digest : Digest) (bytes : Bytes) (pageSize id : Nat) :
    Except Fault (List Meta) := do
  let found ← metaAt digest bytes pageSize id
  return found.toList.filter (·.usable pageSize)

/-- `inspect_candidate`: what the metadata pages say, and how many of them are valid. -/
def inspectCandidate (digest : Digest) (file : Bytes) (pageSize : Nat) :
    Except Fault (FormatInfo × Nat) := do
  let bootstrapLen ← orInvalid (checkedMul pageSize 2) "bootstrap length overflow"
  if bootstrapLen > file.length then invalidDB "metadata pages exceed the file"
  else do
    let bytes := file.take bootstrapLen
    let first ← candidateMeta digest bytes pageSize 0
    let second ← candidateMeta digest bytes pageSize 1
    let valid := first ++ second
    let m ← orInvalid (latest valid) "no valid metadata pages"
    return (⟨pageSize, m.version, m.txId, m.metaPage, file.length⟩, valid.length)

/-- The page sizes that the scan of `inspect` collects, ascending. -/
def candidates (scanned : Bytes) : List Nat :=
  let declared := (metadataPageSize scanned 0 0).toList
  (List.range' 1024 (scanned.length - (headerSize + metadataSize) - 1024)).foldl
    (fun found offset =>
      if metadataPageSize scanned offset 1 = some offset then Freelist.insertFree offset found
      else found)
    declared

/-- The candidates that inspect well. -/
def inspectAll (digest : Digest) (file : Bytes) : List Nat → Except Fault (List FormatInfo)
  | [] => .ok []
  | pageSize :: rest => do
      let found ← okOrNone (inspectCandidate digest file pageSize)
      let valid ← inspectAll digest file rest
      return (found.map Prod.fst).toList ++ valid

/-- The candidate that page 0 declares, when both metadata pages authenticate under it. -/
def inspectPrimary (digest : Digest) (file : Bytes) : Except Fault (Option FormatInfo) :=
  match metadataPageSize (file.take (RawPage.dataOffset + metadataSize)) 0 0 with
  | none => .ok none
  | some pageSize => do
      let found ← okOrNone (inspectCandidate digest file pageSize)
      match found with
      | some (info, 2) => return some info
      | _ => return none

/-- The bounded scan of `inspect`. -/
def inspectScan (digest : Digest) (file : Bytes) : Except Fault FormatInfo := do
  let valid ← inspectAll digest file (candidates (file.take maxBootstrapScan))
  match valid with
  | [info] => return info
  | [] => invalidDB "could not identify a valid metadata page size"
  | _ => invalidDB "ambiguous metadata page sizes; use the forensic override"

/-- `FormatInfo::inspect`. -/
def inspect (digest : Digest) (file : Bytes) : Except Fault FormatInfo := do
  let declared ← inspectPrimary digest file
  match declared with
  | some info => return info
  | none => inspectScan digest file

/-! ## The metadata and the freelist of an open database -/

/-- The choice of `check_meta!`. -/
def selectMeta (pagesize : Nat) (meta1 meta2 : Option Meta) : Option Meta :=
  match meta1.filter (·.usable pagesize), meta2.filter (·.usable pagesize) with
  | some m1, some m2 => some (if m1.txId > m2.txId then m1 else m2)
  | some m1, none => some m1
  | none, found => found

/-- `DBInner::meta`. -/
def currentMeta (digest : Digest) (data : Bytes) (pagesize : Nat) : Except Fault Meta := do
  let meta1 ← metaAt digest data pagesize 0
  let meta2 ← metaAt digest data pagesize 1
  orInvalid (selectMeta pagesize meta1 meta2) "no valid metadata pages for the current format"

/-- The freelist that the current metadata names, added to a freelist. -/
def loadFreelist (digest : Digest) (data : Bytes) (pagesize : Nat) (freelist : Freelist) :
    Except Fault Freelist := do
  let m ← currentMeta digest data pagesize
  let page ← RawPage.validateBlock digest data m.freelistPage pagesize
  let entries ← page.retiredPages
  return freelist.init entries

/-- The freelist that `DBInner::open` loads. -/
def openFreelist (digest : Digest) (data : Bytes) (pagesize : Nat) : Except Fault Freelist :=
  loadFreelist digest data pagesize Freelist.new

/-- `reload_freelist`. -/
def reloadFreelist (digest : Digest) (data : Bytes) (pagesize : Nat) : Except Fault Freelist :=
  loadFreelist digest data pagesize Freelist.new

end Tagdata.Model
