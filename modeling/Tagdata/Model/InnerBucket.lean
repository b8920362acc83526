import Tagdata.Model.Node

/-!
# Buckets inside a transaction

`InnerBucket` is a bucket opened by a transaction: its meta, the nodes it has loaded with
the maps from page ids to nodes and to parent pages, and the nested buckets it has opened.
The file and the page size are the same for every bucket of a transaction and are passed
along as `Pages`; loops over page pointers take the number of rounds they may run.
-/

set_option autoImplicit false

namespace Tagdata.Model

open Tagdata.Library

/-- `bucket/inner.rs`. -/
structure InnerBucket where
  bucketMeta : BucketMeta
  deleted : Bool
  dirty : Bool
  buckets : List (Bytes × InnerBucket)
  nodes : List Node
  pageNodeIds : List (Nat × Nat)
  pageParents : List (Nat × Nat)

/-- `cursor.rs`: one step of a path, the element taken in a page or node. -/
structure SearchPath where
  index : Nat
  id : PageNodeID
deriving DecidableEq, Repr

namespace InnerBucket

/-- `from_meta`: a committed bucket with nothing loaded. -/
def fromMeta (m : BucketMeta) : InnerBucket := ⟨m, false, false, [], [], [], []⟩

/-- The bucket `new_child` creates: one empty leaf node standing for page 0. -/
def newBucket : InnerBucket :=
  ⟨BucketMeta.default, false, true, [], [Node.newLeaf 0], [(0, 0)], []⟩

/-- `self.nodes[id]`. -/
def getNode (b : InnerBucket) (id : Nat) : Except Fault Node :=
  match b.nodes[id]? with
  | some n => pure n
  | none => throw (.panic "index out of bounds")

/-- Writes a node back to its slot. -/
def setNode (b : InnerBucket) (n : Node) : InnerBucket :=
  { b with nodes := b.nodes.set n.id n }

/-- Writes a nested bucket back to the map. -/
def setBucket (b : InnerBucket) (name : Bytes) (c : InnerBucket) : InnerBucket :=
  { b with buckets := Assoc.insert name c b.buckets }

/-- `add_page_parent`. -/
def addPageParent (b : InnerBucket) (page parent : Nat) : InnerBucket :=
  { b with pageParents := (page, parent) :: b.pageParents }

/-- `page_node`: the node that shadows a page, or else the page itself. -/
def pageNode (P : Pages) (b : InnerBucket) : PageNodeID → Except Fault PageNode
  | .page page =>
      match b.pageNodeIds.lookup page with
      | some nodeId => do
          let n ← b.getNode nodeId
          pure (.node n)
      | none => do
          let p ← P.nodePage page
          pure (.page p)
  | .node node => do
      let n ← b.getNode node
      pure (.node n)

end InnerBucket

/-- `cursor.rs: search`: the path to a key, innermost step first; it records the parent of
every page it descends to. -/
def search (P : Pages) (key : Bytes) :
    Nat → Nat → List SearchPath → EStateM Fault InnerBucket (Bool × List SearchPath)
  | 0, _, _ => throw .diverge
  | fuel + 1, pageId, stack => do
      let b ← get
      let pageNode ← ofExcept (b.pageNode P (.page pageId))
      let (index, exact) ← ofExcept (pageNode.index key)
      let stack := ⟨index, pageNode.id⟩ :: stack
      if pageNode.leaf then
        return (exact, stack)
      else
        let nextPageId ← ofExcept (pageNode.indexPage index)
        if nextPageId = 0 then
          return (false, stack)
        else
          set (b.addPageParent nextPageId pageId)
          search P key fuel nextPageId stack

/-- `cursor.rs: search_leaf`: the same descent, keeping the last step only. -/
def searchLeaf (P : Pages) (key : Bytes) (b : InnerBucket) :
    Nat → Nat → Except Fault (Bool × SearchPath)
  | 0, _ => throw .diverge
  | fuel + 1, pageId => do
      let pageNode ← b.pageNode P (.page pageId)
      let (index, exact) ← pageNode.index key
      if pageNode.leaf then
        return (exact, ⟨index, pageNode.id⟩)
      else
        let nextPageId ← pageNode.indexPage index
        if nextPageId = 0 then
          return (false, ⟨index, pageNode.id⟩)
        else
          searchLeaf P key b fuel nextPageId

namespace InnerBucket

/-- `get`. -/
def get (P : Pages) (fuel : Nat) (b : InnerBucket) (key : Bytes) :
    Except Fault (Option Leaf) := do
  let (found, leaf) ← searchLeaf P key b fuel b.bucketMeta.rootPage
  if found then
    let pageNode ← b.pageNode P leaf.id
    pageNode.val leaf.index
  else
    return none

/-- `node`: the node of a page, loading it and the nodes above it when necessary.  With
`parent` the new node is attached to that node instead. -/
def node (P : Pages) : Nat → PageNodeID → Option Nat → EStateM Fault InnerBucket Nat
  | 0, _, _ => throw .diverge
  | _ + 1, .node id, _ => do
      let b ← MonadState.get
      let _ ← ofExcept (b.getNode id)
      return id
  | fuel + 1, .page pageId, parent => do
      let b ← MonadState.get
      match b.pageNodeIds.lookup pageId with
      | some nodeId =>
          let _ ← ofExcept (b.getNode nodeId)
          return nodeId
      | none =>
          if b.bucketMeta.rootPage ≠ pageId ∧ (b.pageParents.lookup pageId).isNone then
            throw (.error (.invalidDB s!"cannot find reference to page {pageId}"))
          else
            let page ← ofExcept (P.nodePage pageId)
            let nodeId := b.nodes.length
            let n ← ofExcept (Node.fromPage nodeId page)
            set { b with
              pageNodeIds := (pageId, nodeId) :: b.pageNodeIds
              nodes := b.nodes ++ [n] }
            if b.bucketMeta.rootPage ≠ pageId then
              let _ ← ofExcept n.data.firstKey
              let parentId ← match parent with
                | some parentId => pure parentId
                | none =>
                    match b.pageParents.lookup pageId with
                    | some parentPage => node P fuel (.page parentPage) none
                    | none => throw (.panic "no entry found for key")
              let b ← MonadState.get
              let parentNode ← ofExcept (b.getNode parentId)
              let parentNode ← ofExcept (parentNode.insertChild nodeId)
              let b := b.setNode parentNode
              let n ← ofExcept (b.getNode nodeId)
              set (b.setNode { n with parent := some parentId })
              return nodeId
            else
              return nodeId

/-- `put_leaf`: the element the key had before, with `next_int` counting new keys. -/
def putLeaf (P : Pages) (fuel : Nat) (leaf : Leaf) :
    EStateM Fault InnerBucket (Option Leaf) := do
  let b ← MonadState.get
  let (found, stack) ← search P leaf.key fuel b.bucketMeta.rootPage []
  match stack with
  | [] => throw (.panic "called Option::unwrap() on a None value")
  | last :: _ =>
      let b ← MonadState.get
      let currentData ←
        if found then
          let pageNode ← ofExcept (b.pageNode P last.id)
          match ← ofExcept (pageNode.val last.index) with
          | none => throw (.panic "called Option::unwrap() on a None value")
          | some current =>
              if current.isKv ≠ leaf.isKv then throw (.error .incompatibleValue)
              else pure (some current)
        else
          let bucketMeta ← ofExcept b.bucketMeta.countKey
          set { b with bucketMeta := bucketMeta }
          pure none
      let nodeId ← node P fuel last.id none
      let b ← MonadState.get
      let n ← ofExcept (b.getNode nodeId)
      let n ← ofExcept (n.insertData leaf)
      set { b.setNode n with dirty := true }
      return currentData

/-- `put`. -/
def put (P : Pages) (fuel : Nat) (key value : Bytes) :
    EStateM Fault InnerBucket (Option (Bytes × Bytes)) := do
  match ← putLeaf P fuel (.kv key value) with
  | some (.kv k v) => return some (k, v)
  | some (.bucket _ _) => throw (.panic "Unexpected data")
  | none => return none

/-- `delete`. -/
def delete (P : Pages) (fuel : Nat) (key : Bytes) :
    EStateM Fault InnerBucket (Bytes × Bytes) := do
  let b ← MonadState.get
  let (found, stack) ← search P key fuel b.bucketMeta.rootPage []
  match stack with
  | [] => throw (.panic "called Option::unwrap() on a None value")
  | last :: _ =>
      if found then
        let b ← MonadState.get
        let pageNode ← ofExcept (b.pageNode P last.id)
        match ← ofExcept (pageNode.val last.index) with
        | none => throw (.panic "called Option::unwrap() on a None value")
        | some data =>
            if data.isKv then
              set { b with dirty := true }
              let nodeId ← node P fuel last.id none
              let b ← MonadState.get
              let n ← ofExcept (b.getNode nodeId)
              let (leaf, n) ← ofExcept (n.delete last.index)
              set (b.setNode n)
              match leaf with
              | .kv k v => return (k, v)
              | .bucket _ _ => throw (.panic "Unexpected data")
            else throw (.error .incompatibleValue)
      else throw (.error .keyValueMissing)

/-- `bucket_getter`: makes sure the named bucket is in the map of opened buckets. -/
def bucketGetter (P : Pages) (fuel : Nat) (name : Bytes) (shouldCreate mustCreate : Bool) :
    EStateM Fault InnerBucket Unit := do
  let b ← MonadState.get
  if (b.buckets.lookup name).isNone then
    let (found, stack) ← search P name fuel b.bucketMeta.rootPage []
    match stack with
    | [] => throw (.panic "called Option::unwrap() on a None value")
    | last :: _ =>
        let b ← MonadState.get
        if ¬ found then
          if shouldCreate then
            let bucketMeta ← ofExcept b.bucketMeta.countKey
            let b := { b with bucketMeta := bucketMeta }
            set { b.setBucket name newBucket with dirty := true }
            let nodeId ← node P fuel last.id none
            let b ← MonadState.get
            let n ← ofExcept (b.getNode nodeId)
            let n ← ofExcept (n.insertData (.bucket name newBucket.bucketMeta))
            set (b.setNode n)
          else throw (.error .bucketMissing)
        else
          let pageNode ← ofExcept (b.pageNode P last.id)
          match ← ofExcept (pageNode.val last.index) with
          | some (.bucket name m) =>
              if mustCreate then throw (.error .bucketExists)
              else set (b.setBucket name (fromMeta m))
          | some (.kv _ _) => throw (.error .incompatibleValue)
          | none => throw (.error .bucketMissing)
  else if mustCreate then throw (.error .bucketExists)
  else pure ()

/-- `create_bucket`. -/
def createBucket (P : Pages) (fuel : Nat) (name : Bytes) : EStateM Fault InnerBucket Unit :=
  bucketGetter P fuel name true true

/-- `get_bucket`. -/
def getBucket (P : Pages) (fuel : Nat) (name : Bytes) : EStateM Fault InnerBucket Unit :=
  bucketGetter P fuel name false false

/-- `get_or_create_bucket`. -/
def getOrCreateBucket (P : Pages) (fuel : Nat) (name : Bytes) :
    EStateM Fault InnerBucket Unit :=
  bucketGetter P fuel name true false

end InnerBucket

/-- A bucket together with the freelist of its transaction. -/
abbrev BucketTx := InnerBucket × TxFreelist

/-- Runs an operation of a bucket that does not touch the freelist. -/
def onBucket {α : Type} (m : EStateM Fault InnerBucket α) : EStateM Fault BucketTx α :=
  fun s =>
    match m s.1 with
    | .ok a b => .ok a (b, s.2)
    | .error e b => .error e (b, s.2)

/-- The page walk of `delete_bucket`: frees every block below the pages on the stack. -/
def freePages (P : Pages) : Nat → List Nat → TxFreelist → EStateM.Result Fault TxFreelist Unit
  | _, [], fl => .ok () fl
  | 0, _ :: _, fl => .error .diverge fl
  | fuel + 1, pageId :: remaining, fl =>
      match P.nodePage pageId with
      | .error e => .error e fl
      | .ok page =>
          freePages P fuel (page.body.below.reverse ++ remaining)
            (fl.free pageId (page.overflow + 1))

/-- `delete_bucket`. -/
def InnerBucket.deleteBucket (P : Pages) (fuel : Nat) (name : Bytes) :
    EStateM Fault BucketTx Unit := do
  onBucket (InnerBucket.getBucket P fuel name)
  let (b, fl) ← MonadState.get
  match b.buckets.lookup name with
  | none => throw (.panic "called Option::unwrap() on a None value")
  | some child =>
      let b := { b with buckets := Assoc.erase name b.buckets }
      set (b, fl)
      if child.bucketMeta.rootPage ≠ 0 then
        match freePages P fuel [child.bucketMeta.rootPage] fl with
        | .ok _ fl => set (b, fl)
        | .error e fl => do
            set (b, fl)
            throw e
      let (found, stack) ← onBucket (search P name fuel b.bucketMeta.rootPage [])
      match stack with
      | [] => throw (.panic "called Option::unwrap() on a None value")
      | last :: _ =>
          if found then
            let (b, fl) ← MonadState.get
            let pageNode ← ofExcept (b.pageNode P last.id)
            match ← ofExcept (pageNode.val last.index) with
            | none => throw (.panic "called Option::unwrap() on a None value")
            | some data =>
                if ¬ data.isKv then
                  set ({ b with dirty := true }, fl)
                  let nodeId ← onBucket (InnerBucket.node P fuel last.id none)
                  let (b, fl) ← MonadState.get
                  let n ← ofExcept (b.getNode nodeId)
                  let (_, n) ← ofExcept (n.delete last.index)
                  set (b.setNode n, fl)
                else throw (.error .incompatibleValue)
          else throw (.panic "Did not find data for bucket we already deleted")

end Tagdata.Model
