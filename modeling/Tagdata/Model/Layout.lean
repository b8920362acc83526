import Tagdata.Library.Digits
import Tagdata.Library.Memory
import Tagdata.Model.Node

/-!
# The bytes of a page

`page.rs`: how a block lies in the mapped file, how it is validated before it is read, how a node
is written into a block and sealed with a checksum, and how it is read back.  `u64` and `usize`
are 64-bit words and native integers are little-endian.
-/

set_option autoImplicit false

namespace Tagdata.Model

open Tagdata.Library

/-! ## Words -/

/-- `checked_add`. -/
def checkedAdd (a b : Nat) : Option Nat := if a + b < 2 ^ 64 then some (a + b) else none

/-- `checked_mul`. -/
def checkedMul (a b : Nat) : Option Nat := if a * b < 2 ^ 64 then some (a * b) else none

/-- A plain `*` on words. -/
def mulU64 (a b : Nat) : Except Fault Nat :=
  if a * b < 2 ^ 64 then .ok (a * b) else .error (.panic "attempt to multiply with overflow")

/-- A plain `-` on words. -/
def subU64 (a b : Nat) : Except Fault Nat :=
  if b ≤ a then .ok (a - b) else .error (.panic "attempt to subtract with overflow")

/-- `Error::InvalidDB`. -/
def invalidDB {α : Type} (text : String) : Except Fault α := .error (.error (.invalidDB text))

/-- `ok_or_else` with an `InvalidDB` error. -/
def orInvalid {α : Type} (x : Option α) (text : String) : Except Fault α :=
  match x with
  | some a => .ok a
  | none => invalidDB text

def readU8 (bytes : Bytes) (offset : Nat) : Nat := ofLeBytes (load bytes offset 1)

def readU32 (bytes : Bytes) (offset : Nat) : Nat := ofLeBytes (load bytes offset 4)

def readU64 (bytes : Bytes) (offset : Nat) : Nat := ofLeBytes (load bytes offset 8)

/-- The checksum of a block, `Sha3_256::digest` in the source. -/
structure Digest where
  hash : Bytes → Bytes
  length : ∀ bytes, (hash bytes).length = checksumSize

/-! ## A page in memory -/

/-- A reference to a page: the memory from its first byte on. -/
structure RawPage where
  bytes : Bytes
deriving DecidableEq, Repr

/-- `BranchElement`, with its position among the elements of its page. -/
structure BranchElement where
  index : Nat
  page : Nat
  keySize : Nat
  pos : Nat
deriving DecidableEq, Repr

/-- `LeafElement`, with its position among the elements of its page. -/
structure LeafElement where
  index : Nat
  nodeType : Nat
  pos : Nat
  keySize : Nat
  valueSize : Nat
deriving DecidableEq, Repr

/-- The bytes that `BranchElement::key` takes, counted from the element. -/
def BranchElement.keyRange (e : BranchElement) : Except Fault (Nat × Nat) := do
  let stop ← addU64 e.pos e.keySize
  return (e.pos, stop)

/-- The bytes that `LeafElement::key` takes, counted from the element. -/
def LeafElement.keyRange (e : LeafElement) : Except Fault (Nat × Nat) := do
  let stop ← addU64 e.pos e.keySize
  return (e.pos, stop)

/-- The bytes that `LeafElement::value` takes, counted from the element. -/
def LeafElement.valueRange (e : LeafElement) : Except Fault (Nat × Nat) := do
  let pos ← addU64 e.pos e.keySize
  let stop ← addU64 pos e.valueSize
  return (pos, stop)

/-- `Node::TYPE_DATA`. -/
def typeData : Nat := 0

/-- `Node::TYPE_BUCKET`. -/
def typeBucket : Nat := 1

/-- `size_of::<Meta>()`. -/
def metadataSize : Nat := 72

/-- `size_of::<RetiredPage>()`. -/
def retiredSize : Nat := 16

/-- The bytes of a `BucketMeta`. -/
def BucketMeta.bytes (m : BucketMeta) : Bytes := leBytes 8 m.rootPage ++ leBytes 8 m.nextInt

/-- `BucketMeta::from`. -/
def BucketMeta.ofBytes (value : Bytes) : BucketMeta := ⟨readU64 value 0, readU64 value 8⟩

/-- `Leaf::node_type`. -/
def Leaf.nodeType : Leaf → Nat
  | .bucket _ _ => typeBucket
  | .kv _ _ => typeData

/-- `Leaf::value`. -/
def Leaf.value : Leaf → Bytes
  | .bucket _ m => m.bytes
  | .kv _ value => value

namespace RawPage

/-- `TYPE_BRANCH`. -/
def typeBranch : Nat := 1

/-- `TYPE_LEAF`. -/
def typeLeaf : Nat := 2

/-- `TYPE_META`. -/
def typeMeta : Nat := 3

/-- `TYPE_FREELIST`. -/
def typeFreelist : Nat := 4

/-- `offset_of!(Page, ptr)`. -/
def dataOffset : Nat := 32

variable (p : RawPage)

def id : Nat := readU64 p.bytes 0

def pageType : Nat := readU8 p.bytes 8

def count : Nat := readU64 p.bytes 16

def overflow : Nat := readU64 p.bytes 24

/-- Where an element lies in its page, for elements of the given size. -/
def elementOffset (size index : Nat) : Nat := dataOffset + index * size

/-- The `BranchElement` at an index. -/
def branchElement (index : Nat) : BranchElement :=
  let offset := elementOffset branchSize index
  { index := index
    page := readU64 p.bytes offset
    keySize := readU64 p.bytes (offset + 8)
    pos := readU64 p.bytes (offset + 16) }

/-- The `LeafElement` at an index. -/
def leafElement (index : Nat) : LeafElement :=
  let offset := elementOffset leafSize index
  { index := index
    nodeType := readU8 p.bytes offset
    pos := readU64 p.bytes (offset + 8)
    keySize := readU64 p.bytes (offset + 16)
    valueSize := readU64 p.bytes (offset + 24) }

/-- `branch_elements`. -/
def branchElements : List BranchElement := (List.range p.count).map p.branchElement

/-- `leaf_elements`. -/
def leafElements : List LeafElement := (List.range p.count).map p.leafElement

/-- `BranchElement::key`; the position is counted from the element itself. -/
def branchKey (e : BranchElement) : Bytes :=
  load p.bytes (elementOffset branchSize e.index + e.pos) e.keySize

/-- `LeafElement::key`. -/
def leafKey (e : LeafElement) : Bytes :=
  load p.bytes (elementOffset leafSize e.index + e.pos) e.keySize

/-- `LeafElement::value`. -/
def leafValue (e : LeafElement) : Bytes :=
  load p.bytes (elementOffset leafSize e.index + (e.pos + e.keySize)) e.valueSize

/-- The place of an element, as the loops of `validate_layout` compute it. -/
def elementOffset64 (size index : Nat) : Except Fault Nat := do
  let bytes ← mulU64 index size
  addU64 dataOffset bytes

/-! ## Validation -/

/-- `ensure_end`. -/
def ensureEnd (id offset len limit : Nat) : Except Fault Unit := do
  let stop ← orInvalid (checkedAdd offset len) s!"page {id} data offset overflow"
  if stop > limit then invalidDB s!"page {id} data exceeds its block" else return ()

/-- `checked_size`. -/
def checkedSize (id count elementSize : Nat) : Except Fault Nat :=
  orInvalid (checkedMul count elementSize) s!"page {id} element count overflow"

/-- A round of the loop of `validate_layout` over a branch. -/
def validateBranch (dataLimit : Nat) (e : BranchElement) : Except Fault Unit := do
  let id := p.id
  let elementOffset ← elementOffset64 branchSize e.index
  let relativeEnd ← orInvalid (checkedAdd e.pos e.keySize) s!"page {id} branch key overflow"
  ensureEnd id elementOffset relativeEnd dataLimit

/-- A round of the loop of `validate_layout` over a leaf. -/
def validateLeaf (dataLimit : Nat) (e : LeafElement) : Except Fault Unit := do
  let id := p.id
  let index := e.index
  if e.nodeType ≠ typeBucket ∧ e.nodeType ≠ typeData then
    let nodeType := e.nodeType
    invalidDB s!"page {id} leaf {index} has invalid node type {nodeType}"
  else if e.nodeType = typeBucket ∧ e.valueSize ≠ metaSize then
    let valueSize := e.valueSize
    invalidDB s!"page {id} leaf {index} is a bucket with a {valueSize} byte value"
  else
    let elementOffset ← elementOffset64 leafSize e.index
    let relativeEnd ← orInvalid ((checkedAdd e.pos e.keySize).bind (checkedAdd · e.valueSize))
      s!"page {id} leaf data overflow"
    ensureEnd id elementOffset relativeEnd dataLimit

/-- Runs a check on every element, up to the first that fails. -/
def validateAll {ε : Type} (check : ε → Except Fault Unit) : List ε → Except Fault Unit
  | [] => .ok ()
  | e :: es => do
      check e
      validateAll check es

/-- `validate_layout`. -/
def validateLayout (dataLimit : Nat) : Except Fault Unit :=
  let id := p.id
  if p.pageType = typeMeta then ensureEnd id dataOffset metadataSize dataLimit
  else if p.pageType = typeFreelist then do
    let size ← checkedSize id p.count retiredSize
    ensureEnd id dataOffset size dataLimit
  else if p.pageType = typeBranch then do
    let size ← checkedSize id p.count branchSize
    ensureEnd id dataOffset size dataLimit
    validateAll (p.validateBranch dataLimit) p.branchElements
  else if p.pageType = typeLeaf then do
    let size ← checkedSize id p.count leafSize
    ensureEnd id dataOffset size dataLimit
    validateAll (p.validateLeaf dataLimit) p.leafElements
  else .error (.panic "internal error: entered unreachable code")

/-- The bounds of the block in `validate_span`: its length. -/
def validateBlockEnd (fileLength id pagesize offset : Nat) : Except Fault Nat := do
  let blockPages ← orInvalid (checkedAdd p.overflow 1) s!"page {id} overflow count overflow"
  let blockLen ← orInvalid (checkedMul blockPages pagesize) s!"page {id} block length overflow"
  let blockEnd ← orInvalid (checkedAdd offset blockLen) s!"page {id} block end overflow"
  if blockEnd > fileLength then invalidDB s!"page {id} overflow block exceeds the file"
  else if blockLen < headerSize + checksumSize then invalidDB s!"page {id} block is too small"
  else return blockLen

/-- The checks of the header in `validate_span`. -/
def validateHeader (id : Nat) : Except Fault Unit :=
  if p.id ≠ id then
    let found := p.id
    invalidDB s!"page {id} contains page id {found}"
  else if p.pageType ≠ typeBranch ∧ p.pageType ≠ typeLeaf ∧ p.pageType ≠ typeMeta ∧
      p.pageType ≠ typeFreelist then
    let type := p.pageType
    invalidDB s!"page {id} has invalid type {type}"
  else .ok ()

/-- `from_buf`. -/
def fromBuf (buf : Bytes) (id pagesize : Nat) : Except Fault RawPage := do
  let offset ← mulU64 id pagesize
  if offset < buf.length then return ⟨buf.drop offset⟩
  else .error (.panic "index out of bounds")

/-- `validate_span`: the page, its offset and the length of its block. -/
def validateSpan (buf : Bytes) (id pagesize : Nat) : Except Fault (RawPage × Nat × Nat) := do
  let offset ← orInvalid (checkedMul id pagesize) s!"page {id} offset overflow"
  let headerEnd ← orInvalid (checkedAdd offset headerSize) s!"page {id} header overflow"
  if headerEnd > buf.length then invalidDB s!"page {id} is outside the mapped file"
  else if offset % 8 ≠ 0 then invalidDB s!"page {id} starts at unaligned offset {offset}"
  else do
    let page ← fromBuf buf id pagesize
    page.validateHeader id
    let blockLen ← page.validateBlockEnd buf.length id pagesize offset
    return (page, offset, blockLen)

/-- `verify_checksum`. -/
def verifyChecksum (digest : Digest) (block : Bytes) (id : Nat) : Except Fault Unit := do
  let checksumAt ← subU64 block.length checksumSize
  if digest.hash (block.take checksumAt) ≠ block.drop checksumAt then
    invalidDB s!"page {id} checksum mismatch"
  else return ()

/-- `&buf[offset..offset + len]`. -/
def sliceOf (buf : Bytes) (offset len : Nat) : Except Fault Bytes := do
  let stop ← addU64 offset len
  if stop ≤ buf.length then return load buf offset len
  else .error (.panic "range end index out of range")

/-- `validate_structure`. -/
def validateStructure (buf : Bytes) (id pagesize : Nat) : Except Fault RawPage := do
  let (page, _, blockLen) ← validateSpan buf id pagesize
  let dataLimit ← subU64 blockLen checksumSize
  page.validateLayout dataLimit
  return page

/-- `validate_block`. -/
def validateBlock (digest : Digest) (buf : Bytes) (id pagesize : Nat) : Except Fault RawPage := do
  let (page, offset, blockLen) ← validateSpan buf id pagesize
  let block ← sliceOf buf offset blockLen
  verifyChecksum digest block id
  let dataLimit ← subU64 blockLen checksumSize
  page.validateLayout dataLimit
  return page

/-! ## Reading -/

/-- The `Branch` of an element. -/
def branchOf (e : BranchElement) : Branch := ⟨p.branchKey e, e.page⟩

/-- `Leaf::from_leaf`. -/
def leafOf (e : LeafElement) : Except Fault Leaf :=
  if e.nodeType = typeData then .ok (.kv (p.leafKey e) (p.leafValue e))
  else if e.nodeType = typeBucket then
    .ok (.bucket (p.leafKey e) (BucketMeta.ofBytes (p.leafValue e)))
  else .error (.panic "INVALID NODE TYPE")

/-- The data that `Node::from_page` takes from a page. -/
def nodeData : Except Fault NodeData :=
  if p.pageType = typeBranch then .ok (.branches (p.branchElements.map p.branchOf))
  else if p.pageType = typeLeaf then do
    let leaves ← p.leafElements.mapM p.leafOf
    return .leaves leaves
  else .error (.panic "INVALID PAGE TYPE FOR FROM_PAGE")

/-- The `Meta` that lies in a page. -/
def metadata : Meta where
  metaPage := readU32 p.bytes dataOffset
  magic := readU32 p.bytes (dataOffset + 4)
  version := readU32 p.bytes (dataOffset + 8)
  pagesize := readU64 p.bytes (dataOffset + 16)
  root := ⟨readU64 p.bytes (dataOffset + 24), readU64 p.bytes (dataOffset + 32)⟩
  numPages := readU64 p.bytes (dataOffset + 40)
  freelistPage := readU64 p.bytes (dataOffset + 48)
  txId := readU64 p.bytes (dataOffset + 56)
  hash := readU64 p.bytes (dataOffset + 64)

/-- `Page::meta`. -/
def metaOf : Except Fault Meta :=
  if p.pageType = typeMeta then .ok p.metadata
  else
    let type := p.pageType
    .error (.panic s!"Did not find meta page, found {type}")

/-- The entry of a freelist page at an index. -/
def retiredPage (index : Nat) : RetiredPage where
  pageId := readU64 p.bytes (dataOffset + index * retiredSize)
  retiredTxId := readU64 p.bytes (dataOffset + index * retiredSize + 8)

/-- `retired_pages`. -/
def retiredPages : Except Fault (List RetiredPage) :=
  if p.pageType = typeFreelist then .ok ((List.range p.count).map p.retiredPage)
  else .error (.panic "assertion failed: (left == right)")

/-- What lies in a page, by its type. -/
def body : PageBody :=
  if p.pageType = typeMeta then .metadata p.metadata
  else if p.pageType = typeFreelist then .freelist ((List.range p.count).map p.retiredPage)
  else
    match p.nodeData with
    | .ok data => .ofNodeData data
    | .error _ => .zeroed

/-- The page, decoded. -/
def page : Page := ⟨p.id, p.overflow, p.body⟩

end RawPage

/-- The mapped file as the tree code sees it. -/
def Pages.ofFile (file : Bytes) (pagesize : Nat) : Pages where
  validate id :=
    match RawPage.validateStructure file id pagesize with
    | .ok page => .ok page.page
    | .error (.error (.invalidDB text)) => .error text
    | .error _ => .error ""
  pagesize := pagesize

/-! ## Writing -/

namespace RawPage

/-- The memory of a block that `TxFreelist::allocate` has set up. -/
def allocated (pagesize id overflow : Nat) : Bytes :=
  storeFields 0 [(0, leBytes 8 id), (24, leBytes 8 overflow)]
    (List.replicate ((overflow + 1) * pagesize) 0)

/-- The largest size of which `Layout::from_size_align` makes a layout of alignment 8. -/
def maxLayout : Nat := 2 ^ 63 - 8

/-- `TxFreelist::allocate` with the memory of the block. -/
def allocateBlock (fl : TxFreelist) (bytes : Nat) : Except Fault (Page × Bytes × TxFreelist) := do
  let (page, fl') ← fl.allocate bytes
  if (page.overflow + 1) * fl.txMeta.pagesize > maxLayout then throw (.error .alloc)
  else return (page, allocated fl.txMeta.pagesize page.id page.overflow, fl')

/-- Fills in a `BranchElement`. -/
def putBranch (index pos : Nat) (b : Branch) : Bytes → Bytes :=
  storeFields (elementOffset branchSize index)
    [(0, leBytes 8 b.page), (8, leBytes 8 b.keySize), (16, leBytes 8 pos)]

/-- Fills in a `LeafElement`. -/
def putLeaf (index pos : Nat) (l : Leaf) : Bytes → Bytes :=
  storeFields (elementOffset leafSize index)
    [(0, leBytes 1 l.nodeType), (16, leBytes 8 l.key.length), (24, leBytes 8 l.value.length),
      (8, leBytes 8 pos)]

/-- The two loops of `write_node`: each header is filled in, with the position of its data counted
from the header itself.  `headerOffsets` are the bytes of the headers that are left and `dataSize`
the bytes of the data so far. -/
def writeElements {ε : Type} (size : Nat) (put : Nat → Nat → ε → Bytes → Bytes)
    (data : ε → Bytes) : Nat → Nat → Nat → List ε → Bytes → Bytes
  | _, _, _, [], block => block
  | index, headerOffsets, dataSize, e :: es, block =>
      writeElements size put data (index + 1) (headerOffsets - size)
        (dataSize + (data e).length) es (put index (headerOffsets + dataSize) e block)

/-- The data of a leaf: its key and its value. -/
def leafData (l : Leaf) : Bytes := l.key ++ l.value

/-- `write_all` for one piece of data after another. -/
def writeData : Nat → List Bytes → Bytes → Bytes
  | _, [], block => block
  | offset, data :: pieces, block =>
      writeData (offset + data.length) pieces (store block offset data)

/-- `write_node`. -/
def writeNode (data : NodeData) (block : Bytes) : Bytes :=
  match data with
  | .branches branches =>
      let total := branchSize * branches.length
      let block := storeFields 0 [(16, leBytes 8 branches.length), (8, leBytes 1 typeBranch)] block
      let block := writeElements branchSize putBranch Branch.key 0 total 0 branches block
      writeData (dataOffset + total) (branches.map Branch.key) block
  | .leaves leaves =>
      let total := leafSize * leaves.length
      let block := storeFields 0 [(16, leBytes 8 leaves.length), (8, leBytes 1 typeLeaf)] block
      let block := writeElements leafSize putLeaf leafData 0 total 0 leaves block
      writeData (dataOffset + total) (leaves.flatMap fun l => [l.key, l.value]) block

/-- `seal_block`. -/
def sealBlock (digest : Digest) (block : Bytes) : Except Fault Bytes :=
  if block.length < checksumSize then invalidDB "cannot checksum a short page block"
  else
    let checksumAt := block.length - checksumSize
    .ok (store block checksumAt (digest.hash (block.take checksumAt)))

end RawPage

end Tagdata.Model
