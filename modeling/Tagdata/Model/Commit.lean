import Tagdata.Model.Cursor

/-!
# Rebalancing and spilling

What a commit does to the buckets of the transaction.  `rebalance` merges the nodes that
have become too small, bucket by bucket; `spill` then writes every loaded node to fresh
blocks, splitting what has become too large, and hands the new root pages upwards.

The opened buckets of a bucket are visited in the iteration order of a hash map, which the
code does not choose: `HashOrder` stands for any such order.
-/

set_option autoImplicit false

namespace Tagdata.Model

open Tagdata.Library

/-- The iteration order of the maps of opened buckets and of their new metas, for the
bucket at a path. -/
structure HashOrder where
  buckets : List Bytes → List Bytes → List Bytes
  metas : List Bytes → List Bytes → List Bytes
  bucketsPerm : ∀ path names, (buckets path names).Perm names
  metasPerm : ∀ path names, (metas path names).Perm names

namespace InnerBucket

mutual

/-- `is_dirty`: the bucket or one it has opened was changed. -/
def isDirty : InnerBucket → Bool
  | ⟨_, _, dirty, buckets, _, _, _⟩ => dirty || anyDirty buckets

/-- One of the opened buckets was changed. -/
def anyDirty : List (Bytes × InnerBucket) → Bool
  | [] => false
  | (_, b) :: rest => b.isDirty || anyDirty rest

end

/-- Points the nodes with the given ids to a new parent. -/
def reparent (b : InnerBucket) (parentId : Nat) : List Nat → Except Fault InnerBucket
  | [] => pure b
  | child :: rest => do
      let c ← b.getNode child
      reparent (b.setNode { c with parent := some parentId }) parentId rest

/-- The elements of a node whose data was moved away. -/
def emptied : NodeData → NodeData
  | .branches _ => .branches []
  | .leaves _ => .leaves []

/-- `merge_nodes`: copies a node's data and children to the sibling at `siblingPage`,
loading the sibling below `parentId` when necessary. -/
def moveToSibling (P : Pages) (fuel : Nat) (nodeId parentId : Nat) (siblingPage : Nat)
    (b : InnerBucket) : Except Fault InnerBucket := do
  let parent ← b.getNode parentId
  let b := { b with pageParents := (siblingPage, parent.pageId) :: b.pageParents }
  match node P fuel (.page siblingPage) (some parentId) b with
  | .error e _ => throw e
  | .ok siblingId b => do
      let n ← b.getNode nodeId
      let sibling ← b.getNode siblingId
      let data ← sibling.data.merge n.data
      let b ← reparent b siblingId n.children
      let b := b.setNode { sibling with
        data := data, children := sibling.children ++ n.children }
      pure (b.setNode { n with data := emptied n.data, children := [] })

/-- `merge_nodes`: frees the page of a node, marks it as deleted and takes it out of its
parent, where its element stands at `index`. -/
def takeOut (nodeId parentId index : Nat) (s : BucketTx) : Except Fault BucketTx := do
  let (b, fl) := s
  let n ← b.getNode nodeId
  let (n, fl) := n.freePage fl
  let b := b.setNode { n with deleted := true }
  let parent ← b.getNode parentId
  let data := match parent.data with
    | .branches branches => .branches (branches.eraseIdx index)
    | .leaves l => .leaves l
  pure (b.setNode { parent with data := data, children := parent.children.erase nodeId }, fl)

/-- `merge_nodes`: what is done to a leaf, or to a branch whose children are done. -/
def mergeVisit (P : Pages) (fuel : Nat) (nodeId : Nat) (s : BucketTx) :
    Except Fault BucketTx := do
  let (b, fl) := s
  let n ← b.getNode nodeId
  if ¬ n.needsMerging P.pagesize then pure (b, fl)
  else if n.pageId = b.bucketMeta.rootPage then
    -- a root branch with a single element is replaced by its child page
    match n.data with
    | .branches [e] =>
        let (n, fl) := n.freePage fl
        let b := b.setNode { n with deleted := true }
        pure ({ b with bucketMeta := { b.bucketMeta with rootPage := e.page } }, fl)
    | _ => pure (b, fl)
  else
    match n.parent with
    | none => throw (.panic "non root node must have parent")
    | some parentId => do
        let parent ← b.getNode parentId
        match parent.data with
        | .leaves _ => pure (b, fl)
        | .branches branches =>
            -- an only child has no sibling to move its data to
            if branches.length = 1 then pure (b, fl)
            else
              match n.originalKey with
              | none => throw (.panic "called Option::unwrap() on a None value")
              | some key =>
                  match binarySearchByKey key Branch.key branches with
                  | .error _ => throw (.panic "child branch not found")
                  | .ok index => do
                      let b ←
                        if 0 < n.data.len ∧ 1 < branches.length then
                          match branches[if index = 0 then index + 1 else index - 1]? with
                          | none => throw (.panic "index out of bounds")
                          | some e => moveToSibling P fuel nodeId parentId e.page b
                        else pure b
                      takeOut nodeId parentId index (b, fl)

/-- `merge_nodes`: the walk over the loaded nodes, children before parents. -/
def mergeLoop (P : Pages) (fuel : Nat) :
    Nat → List (Bool × Nat) → BucketTx → Except Fault BucketTx
  | _, [], s => pure s
  | 0, _ :: _, _ => throw .diverge
  | rounds + 1, (visited, nodeId) :: stack, s => do
      let n ← s.1.getNode nodeId
      if visited || n.leaf then do
        let s ← mergeVisit P fuel nodeId s
        mergeLoop P fuel rounds stack s
      else
        mergeLoop P fuel rounds (n.children.map (fun id => (false, id)) ++ (true, nodeId) :: stack)
          s

/-- `merge_nodes`: loads the root when nothing is loaded yet, and walks from it. -/
def mergeNodes (P : Pages) (fuel : Nat) (s : BucketTx) : Except Fault BucketTx := do
  let (b, fl) := s
  let b ←
    if b.pageNodeIds.isEmpty then
      match node P fuel (.page b.bucketMeta.rootPage) none b with
      | .ok _ b => pure b
      | .error e _ => throw e
    else pure b
  match b.pageNodeIds.lookup b.bucketMeta.rootPage with
  | none => throw (.panic "no entry found for key")
  | some rootId => mergeLoop P fuel fuel [(false, rootId)] (b, fl)

/-- `rebalance`: opened buckets first, then the bucket's own nodes. -/
def rebalance (P : Pages) (ord : HashOrder) (fuel : Nat) :
    Nat → List Bytes → BucketTx → Except Fault BucketTx
  | 0, _, _ => throw .diverge
  | depth + 1, path, (b, fl) =>
      if ¬ b.isDirty then pure (b, fl)
      else do
        let s ← (ord.buckets path (Assoc.keys b.buckets)).foldlM
          (fun (s : BucketTx) name =>
            match s.1.buckets.lookup name with
            | none => pure s
            | some c => do
                let (c, fl) ← rebalance P ord fuel depth (path ++ [name]) (c, s.2)
                pure (s.1.setBucket name c, fl))
          ({ b with dirty := true }, fl)
        mergeNodes P fuel s

/-- `new_node`. -/
def newNode (b : InnerBucket) (data : NodeData) : Except Fault (Nat × InnerBucket) := do
  let n ← Node.withData b.nodes.length data
  pure (b.nodes.length, { b with nodes := b.nodes ++ [n] })

/-- Creates nodes for the pieces that were split off. -/
def newNodes (b : InnerBucket) : List NodeData → Except Fault (List Nat × InnerBucket)
  | [] => pure ([], b)
  | d :: rest => do
      let (id, b) ← b.newNode d
      let (ids, b) ← newNodes b rest
      pure (id :: ids, b)

/-- `Node::split`. -/
def splitNode (P : Pages) (b : InnerBucket) (nodeId : Nat) :
    Except Fault (Option (List Nat) × InnerBucket) := do
  let n ← b.getNode nodeId
  match n.data.split P.pagesize with
  | none => pure (none, b)
  | some (kept, rest) => do
      let (ids, b) ← (b.setNode { n with data := kept }).newNodes rest
      pure (some ids, b)

/-- `Node::write` on a node of the bucket. -/
def writeNode (nodeId : Nat) (s : BucketTx) : Except Fault BucketTx := do
  let n ← s.1.getNode nodeId
  let (n, fl) ← n.write s.2
  pure (s.1.setNode n, fl)

/-- Writes several nodes in order. -/
def writeNodes : List Nat → BucketTx → Except Fault BucketTx
  | [], s => pure s
  | id :: ids, s => do
      let s ← writeNode id s
      writeNodes ids s

/-- The branch elements of several nodes. -/
def branchesOf (b : InnerBucket) : List Nat → Except Fault (List Branch)
  | [] => pure []
  | id :: ids => do
      let n ← b.getNode id
      let e ← n.toBranch
      let rest ← branchesOf b ids
      pure (e :: rest)

/-- Tells a parent about a child that was written: `insert_branch`. -/
def tellParent (b : InnerBucket) (parentId : Nat) (originalKey : Option Bytes)
    (e : Branch) : Except Fault InnerBucket := do
  let parent ← b.getNode parentId
  let parent ← parent.insertBranch originalKey e
  pure (b.setNode parent)

/-- Tells a parent about nodes that were split off. -/
def tellParentAll (b : InnerBucket) (parentId : Nat) :
    List Branch → Except Fault InnerBucket
  | [] => pure b
  | e :: es => do
      let b ← b.tellParent parentId none e
      tellParentAll b parentId es

/-- The children of a node ordered by their first keys (`sort_by_cached_key`, which computes
no key for fewer than two elements). -/
def sortChildren (b : InnerBucket) (children : List Nat) : Except Fault (List Nat) :=
  if children.length < 2 then pure children
  else do
    let keyed ← children.mapM fun id => do
      let n ← b.getNode id
      let key ← n.data.firstKey
      pure (key, id)
    pure ((keyed.insertionSort fun x y => x.1 ≤ y.1).map Prod.snd)

/-- `Node::spill`: writes the children, then the node and what is split off from it; a root
that was split gets a new root above it. -/
def spillNode (P : Pages) :
    Nat → Nat → Option Nat → BucketTx → Except Fault (Option Nat × BucketTx)
  | 0, _, _, _ => throw .diverge
  | fuel + 1, nodeId, parent, (b, fl) => do
      let self ← b.getNode nodeId
      if self.spilled then pure (none, (b, fl))
      else do
        let children ← b.sortChildren self.children
        let s ← children.foldlM
          (fun (s : BucketTx) child => do
            let (_, s) ← spillNode P fuel child (some nodeId) s
            pure s)
          (b.setNode { self with children := children }, fl)
        let (siblings, b) ← splitNode P s.1 nodeId
        let s ← writeNode nodeId (b, s.2)
        -- a node that was split is written a second time, before its new siblings
        let s ← match siblings with
          | none => pure s
          | some ids => do
              let s ← writeNode nodeId s
              writeNodes ids s
        match parent with
        | some parentId => do
            let e ← branchesOf s.1 [nodeId]
            let es ← branchesOf s.1 (siblings.getD [])
            let b ← match e with
              | [e] => s.1.tellParent parentId self.originalKey e
              | _ => pure s.1
            let b ← b.tellParentAll parentId es
            pure (none, (b, s.2))
        | none =>
            match siblings with
            | none => do
                let self ← s.1.getNode nodeId
                pure (some self.pageId, s)
            | some ids => do
                let branches ← branchesOf s.1 (nodeId :: ids)
                let (newParent, b) ← s.1.newNode (.branches branches)
                match ← spillNode P fuel newParent none (b, s.2) with
                | (some pageId, s) => pure (some pageId, s)
                | (none, _) => throw (.panic "New parent did not return a new root_page_id")

/-- Writes the new metas of the opened buckets into the bucket's leaves. -/
def putMetas (P : Pages) (fuel : Nat) (metas : List (Bytes × BucketMeta)) :
    List Bytes → InnerBucket → Except Fault InnerBucket
  | [], b => pure b
  | name :: names, b =>
      match metas.lookup name with
      | none => putMetas P fuel metas names b
      | some m =>
          match putLeaf P fuel (.bucket name m) b with
          | .ok _ b => putMetas P fuel metas names b
          | .error e _ => throw e

/-- `InnerBucket::spill`: opened buckets first, then their metas, then the nodes. -/
def spill (P : Pages) (ord : HashOrder) (fuel : Nat) :
    Nat → List Bytes → BucketTx → Except Fault (BucketMeta × BucketTx)
  | 0, _, _ => throw .diverge
  | depth + 1, path, (b, fl) =>
      if ¬ b.isDirty then pure (b.bucketMeta, (b, fl))
      else do
        let (metas, b, fl) ← (ord.buckets path (Assoc.keys b.buckets)).foldlM
          (fun (s : List (Bytes × BucketMeta) × BucketTx) name =>
            match s.2.1.buckets.lookup name with
            | none => pure s
            | some c => do
                let (m, c, fl) ← spill P ord fuel depth (path ++ [name]) (c, s.2.2)
                pure (Assoc.insert name m s.1, (s.2.1.setBucket name c, fl)))
          ([], ({ b with dirty := true }, fl))
        let b ← putMetas P fuel metas (ord.metas path (Assoc.keys metas)) b
        match b.pageNodeIds.lookup b.bucketMeta.rootPage with
        | none => throw (.panic "no entry found for key")
        | some rootId => do
            let (page, b, fl) ← spillNode P fuel rootId none (b, fl)
            match page with
            | none => throw (.panic "root node did not return a new page_id")
            | some pageId =>
                let m := { b.bucketMeta with rootPage := pageId }
                pure (m, ({ b with bucketMeta := m }, fl))

end InnerBucket

end Tagdata.Model
