import Tagdata.Analysis.Represent

/-!
# Descents and cursors over the tree of a bucket

The read paths of the code (`search`, `search_leaf`, the forward and backward cursor) are
walks over the tree a bucket stands for.  A stack of search steps is a place in that tree:
`AtPath` reads it as a context.  Everything is proved for trees that mix blocks and loaded
nodes and whose leaves may be empty, so that it serves committed trees and the trees inside
a write transaction alike.
-/

set_option autoImplicit false

namespace Tagdata.Analysis

open Tagdata.Library Tagdata.Library.SearchTree Tagdata.Model

/-- Contexts in the tree of a bucket. -/
abbrev TreeCtx := Ctx Bytes Info Leaf

/-- What a traversal needs to know of a tree. -/
structure Readable (P : Pages) (b : InnerBucket) (t : NodeTree) : Prop where
  stored : Holds pageTag (stored P b) t
  separated : Separated Leaf.key t
  routable : Routable Leaf.key t
  bushy : ∀ u ∈ t.subs, u.isLeaf = false → u.kids ≠ []

namespace Readable

variable {P : Pages} {b : InnerBucket}

theorem sub {s t : NodeTree} (h : Readable P b t) (hs : s ∈ t.subs) : Readable P b s where
  stored := fun u hu => h.stored u (subs_trans hu hs)
  separated := h.separated.sub hs
  routable := h.routable.sub hs
  bushy := fun u hu => h.bushy u (subs_trans hu hs)

/-- The page of a node resolves to its elements. -/
theorem sees {t : NodeTree} (h : Readable P b t) : Sees P b (.page t.info.page) t := by
  obtain ⟨pn, hp, -, hd, -⟩ := (stored_root h.stored).pageNode
  exact ⟨pn, hp, hd⟩

/-- Children have proper pages. -/
theorem kid_page {i : Info} {ks : Kids} (h : Readable P b (branch i ks)) {e : Bytes × NodeTree}
    (he : e ∈ ks) : e.2.info.page ≠ 0 := by
  have hpages := ((holds_branch i ks).mp h.stored).1.2
  have hpage : 2 ≤ tag pageTag e.2 := hpages (e.1, tag pageTag e.2) (List.mem_map_of_mem he)
  rw [tag_page] at hpage
  omega

end Readable

/-- A stack of search steps leads to a place of the tree. -/
def AtPath (P : Pages) (b : InnerBucket) : List SearchPath → TreeCtx → NodeTree → Prop
  | [], [], _ => True
  | e :: st, f :: C, s =>
      e.index = f.pre.length ∧ Sees P b e.id (f.fill s) ∧ AtPath P b st C (f.fill s)
  | _, _, _ => False

/-- The parents that a descent to a place records. -/
def parentLinks : TreeCtx → Nat → List (Nat × Nat)
  | [], _ => []
  | f :: C, page => (page, f.info.page) :: parentLinks C f.info.page

/-- How a traversal names a node. -/
def Info.nodeId (i : Info) : PageNodeID :=
  match i.loaded with
  | some r => .node r.id
  | none => .page i.page

/-- The position `index` answers in a leaf. -/
def leafIndex (d : List Leaf) (k : Bytes) : Nat × Bool :=
  match binarySearchByKey k Leaf.key d with
  | .ok j => (j, true)
  | .error j => (j - 1, false)

/-! ## One page or node -/

section PageNodes

variable {pn : PageNode}

theorem leaf_of_leaves {d : List Leaf} (h : pn.data = some (.leaves d)) : pn.leaf = true := by
  simp [PageNode.leaf, h, NodeData.isLeaves]

theorem leaf_of_branches {ks : List (Bytes × Nat)} (h : pn.data = some (branchData ks)) :
    pn.leaf = false := by
  simp [PageNode.leaf, h, branchData, NodeData.isLeaves]

theorem len_of_leaves {d : List Leaf} (h : pn.data = some (.leaves d)) : pn.len = d.length := by
  simp [PageNode.len, h, NodeData.len]

theorem len_of_branches {ks : Kids} (h : pn.data = some (branchData (tags pageTag ks))) :
    pn.len = ks.length := by
  simp [PageNode.len, h, branchData, NodeData.len, tags]

theorem index_of_leaves {d : List Leaf} (h : pn.data = some (.leaves d)) (k : Bytes) :
    pn.index k = .ok (leafIndex d k) := by
  simp only [PageNode.index, h, NodeData.keys, binary_search_map, leafIndex]
  cases binarySearchByKey k Leaf.key d <;> rfl

theorem val_of_leaves {d : List Leaf} (h : pn.data = some (.leaves d)) (j : Nat) :
    pn.val j = .ok d[j]? := by
  simp [PageNode.val, h]

theorem val_of_branches {ks : List (Bytes × Nat)} (h : pn.data = some (branchData ks))
    (j : Nat) : pn.val j = .error (pn.invalidType "VAL") := by
  simp [PageNode.val, h, branchData]

/-- The page of the child at a place of a branch. -/
theorem indexPage_of_branches {pre post : Kids} {e : Bytes × NodeTree}
    (h : pn.data = some (branchData (tags pageTag (pre ++ e :: post)))) :
    pn.indexPage pre.length = .ok e.2.info.page := by
  have hlen : ¬ pn.len ≤ pre.length := by rw [len_of_branches h]; simp
  simp [PageNode.indexPage, hlen, h, branchData, tags]

/-- `index` on a branch takes the child a descent takes. -/
theorem index_of_branches {ks : Kids} (h : pn.data = some (branchData (tags pageTag ks)))
    (hsorted : SortedBy Prod.fst ks) (hne : ks ≠ []) (k : Bytes) :
    ∃ pre e post found, Taken ks k pre e post ∧ pn.index k = .ok (pre.length, found) := by
  obtain ⟨pre, e, post, htaken, hsearch⟩ := exists_taken hsorted hne k
  have hkeys : (branchData (tags pageTag ks)).keys = ks.map Prod.fst := by
    simp [branchData, NodeData.keys, tags]
  rcases hsearch with hfound | ⟨j, hfound, hj⟩
  · exact ⟨pre, e, post, true, htaken, by
      simp [PageNode.index, h, hkeys, binary_search_map, hfound]⟩
  · exact ⟨pre, e, post, false, htaken, by
      simp [PageNode.index, h, hkeys, binary_search_map, hfound, hj]⟩

end PageNodes

/-! ## The descents -/

section Search

variable {P : Pages} {k : Bytes}

theorem search_leaf_step {b : InnerBucket} {pn : PageNode} {page : Nat} {d : List Leaf}
    {stack : List SearchPath} (fuel : Nat) (hpn : b.pageNode P (.page page) = .ok pn)
    (hd : pn.data = some (.leaves d)) :
    search P k (fuel + 1) page stack b =
      .ok ((leafIndex d k).2, ⟨(leafIndex d k).1, pn.id⟩ :: stack) b := by
  simp [search, estate_bind, hpn, index_of_leaves hd, leaf_of_leaves hd]

theorem search_branch_step {b : InnerBucket} {pn : PageNode} {page next : Nat}
    {ks : List (Bytes × Nat)} {stack : List SearchPath} {j : Nat} {found : Bool} (fuel : Nat)
    (hpn : b.pageNode P (.page page) = .ok pn) (hd : pn.data = some (branchData ks))
    (hindex : pn.index k = .ok (j, found)) (hnext : pn.indexPage j = .ok next) (h0 : next ≠ 0) :
    search P k (fuel + 1) page stack b =
      search P k fuel next (⟨j, pn.id⟩ :: stack) (b.addPageParent next page) := by
  simp [search, estate_bind, hpn, hindex, hnext, h0, leaf_of_branches hd]

theorem searchLeaf_leaf_step {b : InnerBucket} {pn : PageNode} {page : Nat} {d : List Leaf}
    (fuel : Nat) (hpn : b.pageNode P (.page page) = .ok pn) (hd : pn.data = some (.leaves d)) :
    searchLeaf P k b (fuel + 1) page =
      .ok ((leafIndex d k).2, ⟨(leafIndex d k).1, pn.id⟩) := by
  simp [searchLeaf, hpn, index_of_leaves hd, leaf_of_leaves hd]

theorem searchLeaf_branch_step {b : InnerBucket} {pn : PageNode} {page next : Nat}
    {ks : List (Bytes × Nat)} {j : Nat} {found : Bool} (fuel : Nat)
    (hpn : b.pageNode P (.page page) = .ok pn) (hd : pn.data = some (branchData ks))
    (hindex : pn.index k = .ok (j, found)) (hnext : pn.indexPage j = .ok next) (h0 : next ≠ 0) :
    searchLeaf P k b (fuel + 1) page = searchLeaf P k b fuel next := by
  simp [searchLeaf, hpn, hindex, hnext, h0, leaf_of_branches hd]

/-- The bucket with other recorded parents. -/
def withParents (b : InnerBucket) (links : List (Nat × Nat)) : InnerBucket :=
  { b with pageParents := links }

theorem pageNode_withParents (b : InnerBucket) (links : List (Nat × Nat))
    (id : PageNodeID) : (withParents b links).pageNode P id = b.pageNode P id := by
  cases id <;> rfl

@[simp] theorem withParents_self (b : InnerBucket) : withParents b b.pageParents = b := by
  cases b; rfl

/-- Where a descent for a key ends: a leaf, at a place where the key fits, reached by the
stack the descent left. -/
structure Descent (P : Pages) (b : InnerBucket) (k : Bytes) (t : NodeTree)
    (C : TreeCtx) (i : Info) (d : List Leaf) (stack : List SearchPath) : Prop where
  place : plug C (leaf i d) = t
  gap : Gap Leaf.key C k
  above : Above C k
  path : AtPath P b stack C (leaf i d)

/-- `search` from a place of the tree. -/
theorem search_from {b : InnerBucket} {u : NodeTree} (hu : Readable P b u) :
    ∀ {D : TreeCtx} {stack : List SearchPath} (old : List (Nat × Nat)),
      Gap Leaf.key D k → Above D k → AtPath P b stack D u → ∀ fuel, u.subs.length ≤ fuel →
      ∃ C i d stack', Descent P b k (plug D u) C i d stack' ∧
        search P k fuel u.info.page stack (withParents b (parentLinks D u.info.page ++ old)) =
          .ok ((leafIndex d k).2, ⟨(leafIndex d k).1, i.nodeId⟩ :: stack')
            (withParents b (parentLinks C i.page ++ old)) ∧
        searchLeaf P k b fuel u.info.page =
          .ok ((leafIndex d k).2, ⟨(leafIndex d k).1, i.nodeId⟩) := by
  induction u using SearchTree.induct with
  | leaf i d =>
    intro D stack old hgap habove hpath fuel hfuel
    obtain ⟨fuel, rfl⟩ : ∃ n, fuel = n + 1 := ⟨fuel - 1, by simp at hfuel; omega⟩
    obtain ⟨pn, hpn, -, hd, hid⟩ := (stored_root hu.stored).pageNode
    have hid : pn.id = i.nodeId := hid
    refine ⟨D, i, d, stack, ⟨rfl, hgap, habove, hpath⟩, ?_, ?_⟩
    · have hpn' : (withParents b (parentLinks D i.page ++ old)).pageNode P (.page i.page) =
          .ok pn := by rw [pageNode_withParents]; exact hpn
      exact hid ▸ search_leaf_step fuel hpn' hd
    · exact hid ▸ searchLeaf_leaf_step fuel hpn hd
  | branch i ks ih =>
    intro D stack old hgap habove hpath fuel hfuel
    obtain ⟨fuel, rfl⟩ : ∃ n, fuel = n + 1 := ⟨fuel - 1, by simp at hfuel; omega⟩
    obtain ⟨pn, hpn, hself, hd, -⟩ := (stored_root hu.stored).pageNode
    have hapart := ((separated_branch Leaf.key i ks).mp hu.separated).1
    have hbound := ((routable_branch Leaf.key i ks).mp hu.routable).1
    have hne : ks ≠ [] := hu.bushy _ (self_mem_subs _) rfl
    obtain ⟨pre, e, post, found, htaken, hindex⟩ := index_of_branches hd hapart.sorted hne k
    obtain ⟨hgap', habove'⟩ := htaken.room (i := i) hapart hbound hgap habove
    obtain ⟨rfl, -, -⟩ := htaken
    have he : e ∈ pre ++ e :: post := by simp
    have hnext := indexPage_of_branches hd
    have h0 := hu.kid_page he
    have hkid := hu.sub (kid_mem_subs (t := branch i (pre ++ e :: post)) he)
    have hfuel' : e.2.subs.length ≤ fuel := by
      have hlen := hfuel
      simp only [subs_branch, List.flatMap_append, List.flatMap_cons, List.length_cons,
        List.length_append] at hlen
      omega
    have hpath' : AtPath P b (⟨pre.length, pn.id⟩ :: stack) (⟨i, pre, e.1, post⟩ :: D) e.2 :=
      ⟨rfl, ⟨pn, hself, hd⟩, hpath⟩
    obtain ⟨C, j, d, stack', hdesc, hsearch, hleaf⟩ :=
      ih e he hkid old hgap' habove' hpath' fuel hfuel'
    refine ⟨C, j, d, stack', hdesc, ?_, ?_⟩
    · have hpn' : (withParents b (parentLinks D i.page ++ old)).pageNode P (.page i.page) =
          .ok pn := by rw [pageNode_withParents]; exact hpn
      exact (search_branch_step fuel hpn' hd hindex hnext h0).trans hsearch
    · exact (searchLeaf_branch_step fuel hpn hd hindex hnext h0).trans hleaf

/-- `search` and `search_leaf` from the root. -/
theorem search_root {b : InnerBucket} {t : NodeTree} (ht : Readable P b t) (fuel : Nat)
    (hfuel : t.subs.length ≤ fuel) :
    ∃ C i d stack, Descent P b k t C i d stack ∧
      search P k fuel t.info.page [] b =
        .ok ((leafIndex d k).2, ⟨(leafIndex d k).1, i.nodeId⟩ :: stack)
          (withParents b (parentLinks C i.page ++ b.pageParents)) ∧
      searchLeaf P k b fuel t.info.page =
        .ok ((leafIndex d k).2, ⟨(leafIndex d k).1, i.nodeId⟩) := by
  obtain ⟨C, i, d, stack, h⟩ := search_from (k := k) (D := []) ht b.pageParents trivial trivial
    (show AtPath P b [] [] t from trivial) fuel hfuel
  rw [parentLinks, List.nil_append, withParents_self] at h
  exact ⟨C, i, d, stack, h⟩

/-- The leaf a descent ends in resolves by the id the stack names. -/
theorem Descent.sees {b : InnerBucket} {t : NodeTree} {C : TreeCtx} {i : Info} {d : List Leaf}
    {stack : List SearchPath} (h : Descent P b k t C i d stack) (ht : Readable P b t) :
    ∃ pn, b.pageNode P i.nodeId = .ok pn ∧ pn.data = some (.leaves d) := by
  have hmem : leaf i d ∈ t.subs := h.place ▸ mem_subs_plug C (leaf i d)
  obtain ⟨pn, -, hself, hd, hid⟩ := (stored_root (ht.sub hmem).stored).pageNode
  have hid : pn.id = i.nodeId := hid
  exact ⟨pn, hid ▸ hself, hd⟩

end Search

end Tagdata.Analysis
