import Tagdata.Model.Data

/-!
# Pages, metadata and the mapped file

A page block is kept decoded: its id, its overflow count and its elements.  `Pages` is the
mapped file as the tree code sees it, through `Page::validate_structure`: an id either
resolves to a block or to the text of an `InvalidDB` error.
-/

set_option autoImplicit false

namespace Tagdata.Model

/-- `freelist.rs`: a freed page and the transaction that retired it (0 when free). -/
structure RetiredPage where
  pageId : Nat
  retiredTxId : Nat
deriving DecidableEq, Repr

/-- `MAGIC_VALUE`. -/
def magicValue : Nat := 0x00ABCDEF

/-- `FORMAT_VERSION`. -/
def formatVersion : Nat := 4

/-- `meta.rs`: the root of a snapshot. -/
structure Meta where
  metaPage : Nat
  magic : Nat
  version : Nat
  pagesize : Nat
  root : BucketMeta
  numPages : Nat
  freelistPage : Nat
  txId : Nat
  hash : Nat
deriving DecidableEq, Repr

namespace Meta

/-- The `n` big-endian bytes of a number. -/
def toBeBytes : Nat → Nat → List Nat
  | 0, _ => []
  | n + 1, x => x / 256 ^ n % 256 :: toBeBytes n x

/-- `fnv1a`, in 64-bit words. -/
def fnv1a (hash : Nat) (bytes : List Nat) : Nat :=
  bytes.foldl (fun h b => (h ^^^ b) * 0x00000100000001b3 % 2 ^ 64) hash

/-- `hash_self`: every field but the hash. -/
def hashSelf (m : Meta) : Nat :=
  let h := fnv1a 0xcbf29ce484222325 (toBeBytes 4 m.metaPage)
  let h := fnv1a h (toBeBytes 4 m.magic)
  let h := fnv1a h (toBeBytes 4 m.version)
  let h := fnv1a h (toBeBytes 8 m.pagesize)
  let h := fnv1a h (toBeBytes 8 m.root.rootPage)
  let h := fnv1a h (toBeBytes 8 m.root.nextInt)
  let h := fnv1a h (toBeBytes 8 m.numPages)
  let h := fnv1a h (toBeBytes 8 m.freelistPage)
  fnv1a h (toBeBytes 8 m.txId)

def valid (m : Meta) : Bool := m.hash == m.hashSelf

end Meta

/-- The elements of a block; `zeroed` is a block whose type byte is still 0. -/
inductive PageBody where
  | zeroed
  | branch (elements : List Branch)
  | leaf (elements : List Leaf)
  | metadata (m : Meta)
  | freelist (entries : List RetiredPage)
deriving DecidableEq, Repr

namespace PageBody

/-- `page_type`. -/
def pageType : PageBody → Nat
  | .zeroed => 0
  | .branch _ => 1
  | .leaf _ => 2
  | .metadata _ => 3
  | .freelist _ => 4

/-- The elements of a branch or leaf block. -/
def nodeData : PageBody → Option NodeData
  | .branch b => some (.branches b)
  | .leaf l => some (.leaves l)
  | _ => none

/-- The pages a block points to: the children of a branch, the roots of the nested buckets
of a leaf. -/
def below : PageBody → List Nat
  | .branch b => b.map Branch.page
  | .leaf l => l.filterMap Leaf.subRoot
  | _ => []

/-- The block `write_node` leaves for some node data. -/
def ofNodeData : NodeData → PageBody
  | .branches b => .branch b
  | .leaves l => .leaf l

end PageBody

/-- `page.rs`: a block of `overflow + 1` pages starting at page `id`. -/
structure Page where
  id : Nat
  overflow : Nat
  body : PageBody
deriving DecidableEq, Repr

/-- The mapped file: what `Page::validate_structure` answers for each page id. -/
structure Pages where
  validate : Nat → Except String Page
  pagesize : Nat

/-- `Pages::node_page`: a page that is safe to interpret as a branch or leaf. -/
def Pages.nodePage (P : Pages) (id : Nat) : Except Fault Page :=
  match P.validate id with
  | .error text => throw (.error (.invalidDB text))
  | .ok page =>
      match page.body.nodeData with
      | some _ => pure page
      | none =>
          let type := page.body.pageType
          throw (.error (.invalidDB
            s!"page {id} is type {type} where a branch or leaf was expected"))

/-- `node.rs`: a page loaded for modification. -/
structure Node where
  id : Nat
  pageId : Nat
  numPages : Nat
  children : List Nat
  data : NodeData
  deleted : Bool
  originalKey : Option Bytes
  parent : Option Nat
  spilled : Bool
deriving DecidableEq, Repr

/-- `page_node.rs`: how a traversal names a page or a node. -/
inductive PageNodeID where
  | page (id : Nat)
  | node (id : Nat)
deriving DecidableEq, Repr

/-- `page_node.rs`: a page of the file or the node that shadows it. -/
inductive PageNode where
  | page (p : Page)
  | node (n : Node)
deriving DecidableEq, Repr

namespace PageNode

def id : PageNode → PageNodeID
  | .page p => .page p.id
  | .node n => .node n.id

/-- The elements, when this is a branch or leaf. -/
def data : PageNode → Option NodeData
  | .page p => p.body.nodeData
  | .node n => some n.data

/-- What the panics of the accessors below call it. -/
def word : PageNode → String
  | .page _ => "PAGE"
  | .node _ => "NODE"

/-- The panic of an accessor that does not apply to this type of page or node. -/
def invalidType (pn : PageNode) (use : String) : Fault :=
  .panic ("INVALID " ++ pn.word ++ " TYPE FOR " ++ use)

/-- The `page_type` of the page, or the one the node is written with. -/
def pageType : PageNode → Nat
  | .page p => p.body.pageType
  | .node n => if n.data.isLeaves then 2 else 1

def leaf (pn : PageNode) : Bool :=
  match pn.data with
  | some d => d.isLeaves
  | none => false

def len (pn : PageNode) : Nat :=
  match pn.data with
  | some d => d.len
  | none => 0

/-- The child page of a branch element; 0 past the end. -/
def indexPage (pn : PageNode) (index : Nat) : Except Fault Nat :=
  if pn.len ≤ index then pure 0
  else
    match pn.data with
    | some (.branches b) =>
        match b[index]? with
        | some e => pure e.page
        | none => pure 0
    | _ => throw (pn.invalidType "INDEX_PAGE")

/-- The position of a key: its own index, or the index just before where it would be. -/
def index (pn : PageNode) (key : Bytes) : Except Fault (Nat × Bool) :=
  match pn.data with
  | none => throw (pn.invalidType ("INDEX: " ++ toString pn.pageType))
  | some d =>
      match Library.binarySearchByKey key (fun k => k) d.keys with
      | .ok i => pure (i, true)
      | .error i => pure (i - 1, false)

/-- The leaf element at an index. -/
def val (pn : PageNode) (index : Nat) : Except Fault (Option Leaf) :=
  match pn.data with
  | some (.leaves l) => pure l[index]?
  | _ => throw (pn.invalidType "VAL")

end PageNode

end Tagdata.Model
