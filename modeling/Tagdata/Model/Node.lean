import Tagdata.Model.Freelist

/-!
# Nodes

A `Node` is a page loaded for modification.  This file has the operations on one node:
loading, inserting and deleting elements, deciding whether it must be merged, cutting
oversized data into pieces, and writing it to a fresh block.
-/

set_option autoImplicit false

namespace Tagdata.Model

open Tagdata.Library

namespace Node

/-- `Node::new` with `TYPE_LEAF`: the root node of a bucket that was just created. -/
def newLeaf (id : Nat) : Node :=
  ⟨id, 0, 0, [], .leaves [], false, none, none, false⟩

/-- `Node::from_page`: the node of a branch or leaf page; its parent is set afterwards. -/
def fromPage (id : Nat) (p : Page) : Except Fault Node :=
  match p.body.nodeData with
  | some data => pure ⟨id, p.id, p.overflow + 1, [], data, false, data.keys.head?, none, false⟩
  | none => throw (.panic "INVALID PAGE TYPE FOR FROM_PAGE")

/-- `Node::with_data`: a node split off from another one. -/
def withData (id : Nat) (data : NodeData) : Except Fault Node := do
  let originalKey ← data.firstKey
  pure ⟨id, 0, 0, [], data, false, some originalKey, none, false⟩

/-- `insert_child`. -/
def insertChild (n : Node) (id : Nat) : Except Fault Node :=
  match n.data with
  | .branches _ => pure { n with children := n.children ++ [id] }
  | .leaves _ => throw (.panic "CANNOT INSERT BRANCH INTO A LEAF NODE")

/-- `insert_data`: replaces the element with this key, or inserts it in order. -/
def insertData (n : Node) (leaf : Leaf) : Except Fault Node :=
  match n.data with
  | .branches _ => throw (.panic "CANNOT INSERT DATA INTO A BRANCH NODE")
  | .leaves l =>
      match binarySearchByKey leaf.key Leaf.key l with
      | .ok i => pure { n with data := .leaves (l.set i leaf) }
      | .error i => pure { n with data := .leaves (l.insertIdx i leaf) }

/-- `insert_branch`: replaces the element with the child's original key, or inserts a new
child's element. -/
def insertBranch (n : Node) (originalKey : Option Bytes) (branch : Branch) :
    Except Fault Node :=
  match n.data with
  | .leaves _ => throw (.panic "CANNOT INSERT BRANCH INTO A LEAF NODE")
  | .branches b =>
      match binarySearchByKey (originalKey.getD branch.key) Branch.key b with
      | .ok i =>
          if originalKey.isSome then pure { n with data := .branches (b.set i branch) }
          else throw (.panic "assertion failed: original_key.is_some()")
      | .error i =>
          if originalKey.isNone then pure { n with data := .branches (b.insertIdx i branch) }
          else throw (.panic "assertion failed: original_key.is_none()")

/-- `Node::delete`: removes the leaf element at an index. -/
def delete (n : Node) (index : Nat) : Except Fault (Leaf × Node) :=
  match n.data with
  | .branches _ => throw (.panic "CANNOT DELETE DATA FROM A BRANCH NODE")
  | .leaves l =>
      match l[index]? with
      | some leaf => pure (leaf, { n with data := .leaves (l.eraseIdx index) })
      | none => throw (.panic "removal index is out of bounds")

/-- `Node::leaf`. -/
def leaf (n : Node) : Bool := n.data.isLeaves

/-- `Node::size`. -/
def size (n : Node) : Nat := headerSize + n.data.size

/-- `needs_merging`: fewer than two elements, or under a quarter of a page. -/
def needsMerging (pagesize : Nat) (n : Node) : Bool :=
  n.data.len < minKeysPerNode || n.size < pagesize / 4

/-- `Branch::from_node`. -/
def toBranch (n : Node) : Except Fault Branch := do
  let key ← n.data.firstKey
  pure ⟨key, n.pageId⟩

/-- `free_page`: gives the node's page back to the freelist, if it has one. -/
def freePage (n : Node) (fl : TxFreelist) : Node × TxFreelist :=
  if n.pageId ≠ 0 then ({ n with pageId := 0 }, fl.free n.pageId n.numPages) else (n, fl)

/-- `Node::write`: frees the old page, allocates a new block and fills it. -/
def write (n : Node) (fl : TxFreelist) : Except Fault (Node × TxFreelist) :=
  if n.deleted then pure (n, fl)
  else do
    let (n, fl) := ({ n with spilled := true }).freePage fl
    let (page, fl) ← fl.allocate n.size
    let n := { n with pageId := page.id, numPages := page.overflow + 1 }
    pure (n, fl.fill { page with body := .ofNodeData n.data })

end Node

/-- The `f32` nearest to a number, ties to even. -/
def f32OfNat (n : Nat) : Nat :=
  if n < 2 ^ 24 then n
  else
    let e := Nat.log2 n - 23
    let q := n / 2 ^ e
    let r := n % 2 ^ e
    (if 2 ^ (e - 1) < r ∨ (r = 2 ^ (e - 1) ∧ q % 2 = 1) then q + 1 else q) * 2 ^ e

/-- `((pagesize as f32) * FILL_PERCENT) as u64`. -/
def splitThreshold (pagesize : Nat) : Nat := f32OfNat pagesize / 2

namespace NodeData

/-- The bytes each element takes. -/
def elementSizes : NodeData → List Nat
  | .branches b => b.map fun e => branchSize + e.keySize
  | .leaves l => l.map fun e => leafSize + e.size

/-- The loop of `split` over the elements but the last two: the indexes to cut at. -/
def splitIndexes (threshold : Nat) : Nat → Nat → Nat → List Nat → List Nat
  | _, _, _, [] => []
  | i, count, current, size :: rest =>
      let count := count + 1
      let newSize := current + size
      if minKeysPerNode ≤ count ∧ threshold < newSize then
        (i + 1) :: splitIndexes threshold (i + 1) 0 (headerSize + size) rest
      else splitIndexes threshold (i + 1) count newSize rest

/-- Cuts at the given indexes from the right; the first piece and the ones after it. -/
def splitOff (d : NodeData) (indexes : List Nat) : NodeData × List NodeData :=
  indexes.reverse.foldl
    (fun acc i => ((acc.1.splitAt i).1, (acc.1.splitAt i).2 :: acc.2)) (d, [])

/-- `Node::split` on the data: `none` when it stays in one piece. -/
def split (pagesize : Nat) (d : NodeData) : Option (NodeData × List NodeData) :=
  if d.len ≤ minKeysPerNode * 2 ∨ headerSize + d.size < pagesize then none
  else
    let indexes := splitIndexes (splitThreshold pagesize) 0 0 headerSize
      (d.elementSizes.take (d.len - 2))
    if indexes.isEmpty then none else some (d.splitOff indexes)

end NodeData

end Tagdata.Model
