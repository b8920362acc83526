import Tagdata.Library.SearchOrder
import Tagdata.Library.Results
import Tagdata.Model.Commit

/-!
# The tree a bucket stands for

A bucket of a transaction is a mixture of blocks of the file and of loaded nodes that
shadow them.  `NodeTree` is the tree this mixture stands for: every label carries the page
of the node and, when the node is loaded, what the arena records about it.

Two local properties connect the two levels.  `stored` says that every label of the tree is
found in the bucket with the elements the tree gives it.  `linked` says that the ids
and keys by which loaded nodes refer to each other are those of the tree, that what is not
loaded is as it was committed, and that no branch is empty.
-/

set_option autoImplicit false

namespace Tagdata.Analysis

open Tagdata.Library Tagdata.Library.SearchTree Tagdata.Model

/-- What a loaded node records besides its page and its elements. -/
structure NodeRec where
  id : Nat
  children : List Nat
  originalKey : Option Bytes
  parent : Option Nat
deriving DecidableEq, Repr

/-- The label of a node: its block, and its record when it is loaded. -/
structure Info where
  page : Nat
  span : Nat
  loaded : Option NodeRec
deriving DecidableEq, Repr

/-- The tree of a bucket. -/
abbrev NodeTree := SearchTree Bytes Info Leaf

/-- The children of a branch of the tree. -/
abbrev Kids := List (Bytes × NodeTree)

namespace Info

/-- The id of a loaded node. -/
def id? (i : Info) : Option Nat := i.loaded.map NodeRec.id

/-- The pages of the block; a node that was never written has none. -/
def block (i : Info) : List Nat := if i.page = 0 then [] else List.range' i.page i.span

/-- The node a record stands for. -/
def nodeOf (i : Info) (r : NodeRec) (data : NodeData) : Node :=
  ⟨r.id, i.page, i.span, r.children, data, false, r.originalKey, r.parent, false⟩

end Info

/-- The elements of a branch with the given children pages. -/
def branchData (ks : List (Bytes × Nat)) : NodeData :=
  .branches (ks.map fun e => ⟨e.1, e.2⟩)

/-- A node refers to its children by their pages. -/
def pageTag : Tagging Bytes Info Leaf Nat where
  leaf i _ := i.page
  branch i _ := i.page

@[simp] theorem tag_page (t : NodeTree) : tag pageTag t = t.info.page := by
  cases t <;> rfl

/-- The elements of the root of a tree. -/
def nodeData : NodeTree → NodeData
  | .leaf _ d => .leaves d
  | .branch _ ks => branchData (tags pageTag ks)

@[simp] theorem nodeData_leaf (i : Info) (d : List Leaf) :
    nodeData (leaf i d) = .leaves d := rfl

@[simp] theorem nodeData_branch (i : Info) (ks : Kids) :
    nodeData (branch i ks) = branchData (tags pageTag ks) := rfl

/-- A label is found in the bucket: as a node of the arena when it is loaded, as a block of
the file otherwise. -/
def StoredAt (P : Pages) (b : InnerBucket) (i : Info) (data : NodeData) : Prop :=
  match i.loaded with
  | some r =>
      b.pageNodeIds.lookup i.page = some r.id ∧ b.nodes[r.id]? = some (i.nodeOf r data)
  | none =>
      b.pageNodeIds.lookup i.page = none ∧
      ∃ overflow, i.span = overflow + 1 ∧
        P.nodePage i.page = .ok ⟨i.page, overflow, .ofNodeData data⟩

/-- Every label of a tree is found in the bucket. -/
def stored (P : Pages) (b : InnerBucket) : LocalPred Bytes Info Leaf Nat where
  onLeaf i d := StoredAt P b i (.leaves d)
  onBranch i ks := StoredAt P b i (branchData ks) ∧ ∀ e ∈ ks, 2 ≤ e.2

/-- What a branch knows about a child: of a loaded one its id, its parent and its original
key, of a block its first key. -/
inductive Link where
  | loaded (id : Nat) (parent : Option Nat) (originalKey : Option Bytes)
  | onDisk (first : Option Bytes)
deriving DecidableEq, Repr

/-- The id of a loaded child. -/
def Link.id? : Link → Option Nat
  | .loaded id _ _ => some id
  | .onDisk _ => none

/-- The link of a label whose first key is given. -/
def Info.link (i : Info) (first : Option Bytes) : Link :=
  match i.loaded with
  | some r => .loaded r.id r.parent r.originalKey
  | none => .onDisk first

/-- Children as their parents refer to them. -/
def linkTag : Tagging Bytes Info Leaf Link where
  leaf i d := i.link (d.map Leaf.key).head?
  branch i ks := i.link ks.head?

/-- Loaded nodes refer to each other as the tree says; below a block there are only blocks;
separators of blocks are their first keys. -/
def linked : LocalPred Bytes Info Leaf Link where
  onLeaf i _ := ∀ r, i.loaded = some r → r.children = []
  onBranch i ks :=
    ks ≠ [] ∧
    match i.loaded with
    | none => ∀ e ∈ ks, e.2 = .onDisk (some e.1)
    | some r =>
        r.children.Perm (ks.filterMap fun e => e.2.id?) ∧
        ∀ e ∈ ks, e.2 = .onDisk (some e.1) ∨ ∃ id, e.2 = .loaded id (some r.id) (some e.1)

/-! ## What a traversal sees -/

/-- A traversal that resolves `id` sees the elements of `u`. -/
def Sees (P : Pages) (b : InnerBucket) (id : PageNodeID) (u : NodeTree) : Prop :=
  ∃ pn, b.pageNode P id = .ok pn ∧ pn.data = some (nodeData u)

theorem nodeData_ofNodeData (d : NodeData) : (PageBody.ofNodeData d).nodeData = some d := by
  cases d <;> rfl

theorem pageNode_of_loaded {P : Pages} {b : InnerBucket} {page : Nat} {id : Nat} {n : Node}
    (hlookup : b.pageNodeIds.lookup page = some id) (hnode : b.nodes[id]? = some n) :
    b.pageNode P (.page page) = .ok (.node n) ∧ b.pageNode P (.node id) = .ok (.node n) := by
  simp [InnerBucket.pageNode, InnerBucket.getNode, hlookup, hnode]

theorem pageNode_of_unloaded {P : Pages} {b : InnerBucket} {page : Nat} {p : Page}
    (hlookup : b.pageNodeIds.lookup page = none) (hpage : P.nodePage page = .ok p) :
    b.pageNode P (.page page) = .ok (.page p) := by
  simp [InnerBucket.pageNode, hlookup, hpage]

/-- A stored label resolves to its elements, by its page and by the id it answers with. -/
theorem StoredAt.pageNode {P : Pages} {b : InnerBucket} {i : Info} {data : NodeData}
    (h : StoredAt P b i data) :
    ∃ pn, b.pageNode P (.page i.page) = .ok pn ∧ b.pageNode P pn.id = .ok pn ∧
      pn.data = some data ∧
      (pn.id = match i.loaded with | some r => .node r.id | none => .page i.page) := by
  unfold StoredAt at h
  cases hl : i.loaded with
  | some r =>
    simp only [hl] at h
    obtain ⟨hp, hn⟩ := pageNode_of_loaded (P := P) h.1 h.2
    exact ⟨_, hp, hn, rfl, rfl⟩
  | none =>
    simp only [hl] at h
    obtain ⟨hlookup, overflow, -, hpage⟩ := h
    have hp := pageNode_of_unloaded hlookup hpage
    exact ⟨_, hp, hp, nodeData_ofNodeData data, rfl⟩

/-- The elements of the root of a stored tree. -/
theorem stored_root {P : Pages} {b : InnerBucket} {t : NodeTree}
    (h : Holds pageTag (stored P b) t) : StoredAt P b t.info (nodeData t) := by
  cases t with
  | leaf i d => exact (holds_leaf i d).mp h
  | branch i ks => exact ((holds_branch i ks).mp h).1.1

end Tagdata.Analysis
