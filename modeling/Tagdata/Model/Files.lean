import Tagdata.Model.Coordination
import Tagdata.Model.Open

/-!
# Writing a file

`OpenOptions::open` and `init_file` in `db.rs` create a file of four pages, and the second half of
`write_data` in `tx.rs` makes room for the blocks of a transaction, writes them and publishes the
metadata page.  Writing to the file does not fail.
-/

set_option autoImplicit false

namespace Tagdata.Model

open Tagdata.Library

/-- `MAX_DATA_FILE_BYTES`. -/
def maxDataFileBytes : Nat := Coordination.lockBase

/-- `m.hash = m.hash_self()`. -/
def Meta.hashed (m : Meta) : Meta := { m with hash := m.hashSelf }

namespace RawPage

/-- The fields of a metadata page, those of its header first.  The id of the page and the
`meta_page` of its metadata are one number. -/
def metaFields (m : Meta) : List (Nat × Bytes) :=
  [(0, leBytes 8 m.metaPage), (8, leBytes 1 typeMeta), (32, leBytes 4 m.metaPage),
    (36, leBytes 4 m.magic), (40, leBytes 4 m.version), (48, leBytes 8 m.pagesize),
    (56, leBytes 8 m.root.rootPage), (64, leBytes 8 m.root.nextInt), (72, leBytes 8 m.numPages),
    (80, leBytes 8 m.freelistPage), (88, leBytes 8 m.txId), (96, leBytes 8 m.hash)]

/-- Fills in a metadata page. -/
def writeMeta (m : Meta) : Bytes → Bytes := storeFields 0 (metaFields m)

end RawPage

/-! ## A new file -/

/-- The metadata that `init_file` writes into page `i`. -/
def initMeta (pagesize i : Nat) : Meta :=
  Meta.hashed
    { metaPage := i
      magic := magicValue
      version := formatVersion
      pagesize := pagesize
      root := ⟨3, 0⟩
      numPages := 4
      freelistPage := 2
      txId := 0
      hash := 0 }

/-- A page without elements. -/
def emptyPage (pagesize id type : Nat) : Bytes :=
  storeFields 0 [(0, leBytes 8 id), (8, leBytes 1 type), (16, leBytes 8 0)]
    (List.replicate pagesize 0)

/-- The pages of a new file before they are sealed. -/
def initPages (pagesize : Nat) : List Bytes :=
  [RawPage.writeMeta (initMeta pagesize 0) (List.replicate pagesize 0),
    RawPage.writeMeta (initMeta pagesize 1) (List.replicate pagesize 0),
    emptyPage pagesize 2 RawPage.typeFreelist, emptyPage pagesize 3 RawPage.typeLeaf]

/-- `init_file`. -/
def initFile (digest : Digest) (pagesize numPages : Nat) : Except Fault Bytes := do
  let pages ← (initPages pagesize).mapM (RawPage.sealBlock digest)
  return store (List.replicate (pagesize * numPages) 0) 0 pages.flatten

/-- `OpenOptions::open` on a path without a file, up to the mapping of the new file. -/
def createFile (digest : Digest) (pagesize numPages maxFileBytes : Nat) : Except Fault Bytes := do
  checkPageSize pagesize
  let maximum := min maxFileBytes maxDataFileBytes
  let initialBytes := min (pagesize * numPages) (2 ^ 64 - 1)
  if initialBytes > maximum then
    .error (.error (.capacityExceeded initialBytes maximum))
  else do
    let file ← initFile digest pagesize numPages
    if file.length > maximum then
      .error (.error (.capacityExceeded file.length maximum))
    else return file

/-! ## A commit -/

/-- Grows the file, if needed, for the pages of a transaction. -/
def growFile (pagesize increment maximum numPages : Nat) (file : Bytes) : Except Fault Bytes := do
  let required ← orInvalid (checkedMul numPages pagesize) "required file size overflow"
  if required > maximum then .error (.error (.capacityExceeded required maximum))
  else if file.length < required then do
    let increments := (required - file.length + increment - 1) / increment
    let newSize ← orInvalid (checkedAdd file.length (min (increments * increment) (2 ^ 64 - 1)))
      "file growth overflow"
    return file ++ List.replicate (min newSize maximum - file.length) 0
  else return file

/-- Seals the blocks of a transaction and writes each at its page. -/
def writeBlocks (digest : Digest) (pagesize : Nat) :
    List (Nat × Bytes) → Bytes → Except Fault Bytes
  | [], file => .ok file
  | (id, block) :: blocks, file => do
      let buf ← RawPage.sealBlock digest block
      writeBlocks digest pagesize blocks (store file (id * pagesize) buf)

/-- The metadata that `write_data` publishes, for the page that does not hold the current one. -/
def publishedMeta (m : Meta) : Meta :=
  Meta.hashed { m with metaPage := if m.metaPage = 0 then 1 else 0, version := formatVersion }

/-- Writes the metadata page. -/
def writeMetaPage (digest : Digest) (pagesize : Nat) (m : Meta) (file : Bytes) :
    Except Fault Bytes := do
  let buf ← RawPage.sealBlock digest (RawPage.writeMeta m (List.replicate pagesize 0))
  return store file (m.metaPage * pagesize) buf

/-- `write_data` from the growth of the file on, for the metadata of the transaction and its
blocks. -/
def writeCommit (digest : Digest) (pagesize increment maximum : Nat) (m : Meta)
    (blocks : List (Nat × Bytes)) (file : Bytes) : Except Fault Bytes := do
  let grown ← growFile pagesize increment maximum m.numPages file
  let written ← writeBlocks digest pagesize blocks grown
  writeMetaPage digest pagesize (publishedMeta m) written

end Tagdata.Model
