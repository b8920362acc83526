import Tagdata.Library.Walks
import Tagdata.Analysis.PageBounds
import Tagdata.Analysis.PageRoundTrip
import Tagdata.Analysis.ReadPaths

/-!
# Traversals of an arbitrary file

`search`, `search_leaf` and the page walk of `delete_bucket` follow page ids that were read from the
file.  Each of them is a walk with a stack, and the pages of a file are finitely many, so it ends
exactly when it never takes a page that it reached through that page.
-/

set_option autoImplicit false

namespace Tagdata.Analysis

open Tagdata.Library Tagdata.Model

/-! ## The pages that are followed -/

/-- Where the search for a key goes on from a page: nowhere from a leaf, and nowhere from a branch
element that names page 0. -/
def descends (key : Bytes) (pn : PageNode) : List Nat :=
  if pn.leaf then []
  else
    match pn.index key with
    | .error _ => []
    | .ok (index, _) =>
        match pn.indexPage index with
        | .error _ => []
        | .ok next => if next = 0 then [] else [next]

/-- The pages that `search` and `search_leaf` follow. -/
def searchPages (P : Pages) (key : Bytes) (id : Nat) : Option (List Nat) :=
  match P.nodePage id with
  | .error _ => none
  | .ok page => some (descends key (.page page))

/-- The pages that the walk of `delete_bucket` follows, the last element of a page first. -/
def deletedPages (P : Pages) (id : Nat) : Option (List Nat) :=
  match P.nodePage id with
  | .error _ => none
  | .ok page => some page.body.below.reverse

/-! ## How a traversal ends -/

/-- The fault of a stateful operation. -/
def faultOf {σ α : Type} : EStateM.Result Fault σ α → Option Fault
  | .ok _ _ => none
  | .error fault _ => some fault

/-- The fault of an operation without a state. -/
def errorOf {α : Type} : Except Fault α → Option Fault
  | .ok _ => none
  | .error fault => some fault

/-- Given enough rounds the traversal returns `Ok` or `Err(InvalidDB)`. -/
def EndsWell (traversal : Nat → Option Fault) : Prop :=
  ∃ bound, ∀ fuel, bound ≤ fuel →
    traversal fuel = none ∨ ∃ text, traversal fuel = some (.error (.invalidDB text))

/-- No number of rounds is enough. -/
def RunsForever (traversal : Nat → Option Fault) : Prop :=
  ∀ fuel, traversal fuel = some .diverge

/-- A traversal stands where a walk does. -/
def Follows (walked : Option Bool) (fault : Option Fault) : Prop :=
  match walked with
  | none => fault = some .diverge
  | some true => fault = none
  | some false => ∃ text, fault = some (.error (.invalidDB text))

section ends

variable {below : Nat → Option (List Nat)} {root : Nat} {traversal : Nat → Option Fault}

theorem endsWell_iff (h : ∀ fuel, Follows (walk below fuel [root]) (traversal fuel)) :
    EndsWell traversal ↔ WalkEnds below [root] := by
  constructor
  · rintro ⟨bound, hbound⟩
    refine ⟨bound, ?_⟩
    intro hwalk
    have hfollows := h bound
    rw [hwalk] at hfollows
    rcases hbound bound le_rfl with hok | ⟨text, herror⟩
    · rw [hok] at hfollows
      cases hfollows
    · rw [herror] at hfollows
      cases hfollows
  · rintro ⟨bound, hbound⟩
    refine ⟨bound, ?_⟩
    intro fuel hfuel
    obtain ⟨result, hresult⟩ :=
      Option.ne_none_iff_exists'.mp (walk_ne_none_mono hbound hfuel)
    have hfollows := h fuel
    rw [hresult] at hfollows
    cases result with
    | true => exact .inl hfollows
    | false => exact .inr hfollows

theorem runsForever_iff (h : ∀ fuel, Follows (walk below fuel [root]) (traversal fuel)) :
    RunsForever traversal ↔ ¬ WalkEnds below [root] := by
  constructor
  · intro hforever hends
    obtain ⟨bound, hbound⟩ := (endsWell_iff h).mpr hends
    rcases hbound bound le_rfl with hok | ⟨text, herror⟩
    · rw [hforever bound] at hok
      cases hok
    · rw [hforever bound] at herror
      cases herror
  · intro hnever fuel
    have hfollows := h fuel
    rw [show walk below fuel [root] = none from
      not_not.mp fun hends => hnever ⟨fuel, hends⟩] at hfollows
    exact hfollows

end ends

/-! ## Each traversal is a walk -/

section walks

variable {P : Pages} {key : Bytes} {id : Nat}

theorem nodePage_data {page : Page} (h : P.nodePage id = .ok page) :
    ∃ data, (PageNode.page page).data = some data := by
  unfold Pages.nodePage at h
  cases hvalidate : P.validate id with
  | error text => rw [hvalidate] at h; cases h
  | ok found =>
    rw [hvalidate] at h
    cases hdata : found.body.nodeData with
    | none => simp [hdata] at h
    | some data =>
      have hpage : found = page := by simpa [hdata] using h
      exact ⟨data, by rw [← hpage]; exact hdata⟩

theorem nodePage_error {fault : Fault} (h : P.nodePage id = .error fault) :
    ∃ text, fault = .error (.invalidDB text) := by
  unfold Pages.nodePage at h
  cases hvalidate : P.validate id with
  | error text =>
    rw [hvalidate] at h
    cases h
    exact ⟨text, rfl⟩
  | ok found =>
    rw [hvalidate] at h
    cases hdata : found.body.nodeData with
    | none =>
      simp only [hdata] at h
      cases h
      exact ⟨_, rfl⟩
    | some data => simp [hdata] at h

theorem exists_index {pn : PageNode} {data : NodeData} (h : pn.data = some data) (key : Bytes) :
    ∃ index found, pn.index key = .ok (index, found) := by
  unfold PageNode.index
  rw [h]
  dsimp only
  cases binarySearchByKey key (fun k => k) data.keys with
  | ok i => exact ⟨i, true, rfl⟩
  | error i => exact ⟨i - 1, false, rfl⟩

theorem exists_indexPage {pn : PageNode} {b : List Branch} (h : pn.data = some (.branches b))
    (index : Nat) : ∃ next, pn.indexPage index = .ok next := by
  unfold PageNode.indexPage
  split_ifs
  · exact ⟨0, rfl⟩
  · rw [h]
    dsimp only
    cases b[index]? with
    | none => exact ⟨0, rfl⟩
    | some e => exact ⟨e.page, rfl⟩

/-- One round of a search at a page: it stops there, or it goes on to one page. -/
theorem descends_cases {page : Page} (h : P.nodePage id = .ok page) (key : Bytes) :
    ((PageNode.page page).leaf = true ∧ descends key (.page page) = []) ∨
      ∃ index found next, (PageNode.page page).leaf = false ∧
        (PageNode.page page).index key = .ok (index, found) ∧
        (PageNode.page page).indexPage index = .ok next ∧
        descends key (.page page) = if next = 0 then [] else [next] := by
  obtain ⟨data, hdata⟩ := nodePage_data h
  cases data with
  | leaves l =>
    have hleaf := leaf_of_leaves hdata
    exact .inl ⟨hleaf, if_pos hleaf⟩
  | branches b =>
    have hleaf : (PageNode.page page).leaf = false := by
      simp [PageNode.leaf, hdata, NodeData.isLeaves]
    obtain ⟨index, found, hindex⟩ := exists_index hdata key
    obtain ⟨next, hnext⟩ := exists_indexPage hdata index
    refine .inr ⟨index, found, next, hleaf, hindex, hnext, ?_⟩
    simp [descends, hleaf, hindex, hnext]

/-- A bucket that has loaded no node resolves every page through `node_page`. -/
theorem pageNode_unloaded {b : InnerBucket} (hb : b.pageNodeIds = []) :
    b.pageNode P (.page id) = (P.nodePage id).map .page := by
  simp only [InnerBucket.pageNode, hb, List.lookup_nil]
  cases P.nodePage id <;> rfl

theorem searchLeaf_follows {b : InnerBucket} (hb : b.pageNodeIds = []) (fuel id : Nat) :
    Follows (walk (searchPages P key) fuel [id]) (errorOf (searchLeaf P key b fuel id)) := by
  induction fuel generalizing id with
  | zero => exact rfl
  | succ fuel ih =>
    rw [walk, searchPages, searchLeaf, pageNode_unloaded hb]
    cases hpage : P.nodePage id with
    | error fault =>
      obtain ⟨text, rfl⟩ := nodePage_error hpage
      exact ⟨text, rfl⟩
    | ok page =>
      rcases descends_cases hpage key with
        ⟨hleaf, hstop⟩ | ⟨index, found, next, hleaf, hindex, hnext, hgo⟩
      · obtain ⟨data, hdata⟩ := nodePage_data hpage
        obtain ⟨index, found, hindex⟩ := exists_index hdata key
        simp [Except.map, hstop, hindex, hleaf, walk_nil, Follows, errorOf]
      · rcases eq_or_ne next 0 with hzero | hne
        · simp [Except.map, hgo, hindex, hleaf, hnext, hzero, walk_nil, Follows, errorOf]
        · have hrest := ih next
          simpa [Except.map, hgo, hindex, hleaf, hnext, hne] using hrest

theorem search_follows {b : InnerBucket} (hb : b.pageNodeIds = []) (fuel id : Nat)
    (stack : List SearchPath) :
    Follows (walk (searchPages P key) fuel [id]) (faultOf (search P key fuel id stack b)) := by
  induction fuel generalizing id stack b with
  | zero => exact rfl
  | succ fuel ih =>
    rw [walk, searchPages, search, estate_bind_ok (estate_get b), estate_bind,
      pageNode_unloaded hb]
    cases hpage : P.nodePage id with
    | error fault =>
      obtain ⟨text, rfl⟩ := nodePage_error hpage
      exact ⟨text, rfl⟩
    | ok page =>
      rcases descends_cases hpage key with
        ⟨hleaf, hstop⟩ | ⟨index, found, next, hleaf, hindex, hnext, hgo⟩
      · obtain ⟨data, hdata⟩ := nodePage_data hpage
        obtain ⟨index, found, hindex⟩ := exists_index hdata key
        simp [Except.map, estate_bind, hstop, hindex, hleaf, walk_nil, Follows, faultOf]
      · rcases eq_or_ne next 0 with hzero | hne
        · simp [Except.map, estate_bind, hgo, hindex, hleaf, hnext, hzero, walk_nil, Follows,
            faultOf]
        · have hrest := ih (b := b.addPageParent next id) hb next
            (⟨index, (PageNode.page page).id⟩ :: stack)
          simpa [Except.map, estate_bind, hgo, hindex, hleaf, hnext, hne] using hrest

theorem freePages_follows (fuel : Nat) (stack : List Nat) (fl : TxFreelist) :
    Follows (walk (deletedPages P) fuel stack) (faultOf (freePages P fuel stack fl)) := by
  induction fuel generalizing stack fl with
  | zero =>
    cases stack with
    | nil => exact rfl
    | cons id rest => exact rfl
  | succ fuel ih =>
    cases stack with
    | nil => exact rfl
    | cons id rest =>
      rw [walk, deletedPages, freePages]
      cases hpage : P.nodePage id with
      | error fault =>
        obtain ⟨text, rfl⟩ := nodePage_error hpage
        exact ⟨text, rfl⟩
      | ok page => exact ih _ _

end walks

/-! ## The pages of a file -/

section files

variable {file : Bytes} {pagesize id : Nat}

/-- What the tree code sees of a page id. -/
theorem validate_ofFile {page : Page} (h : (Pages.ofFile file pagesize).validate id = .ok page) :
    ∃ p, PageInside file id pagesize p ∧ p.page = page := by
  have hchecks := checks_validateStructure file id pagesize
  unfold Pages.ofFile at h
  dsimp only at h
  cases hvalid : RawPage.validateStructure file id pagesize with
  | ok p =>
    rw [hvalid] at h hchecks
    exact ⟨p, hchecks, Except.ok.inj h⟩
  | error fault =>
    rw [hvalid] at h hchecks
    obtain ⟨text, rfl⟩ := hchecks
    cases h

/-- A page that resolves lies in the file. -/
theorem nodePage_lt {page : Page} (h : (Pages.ofFile file pagesize).nodePage id = .ok page) :
    id < file.length := by
  unfold Pages.nodePage at h
  cases hvalidate : (Pages.ofFile file pagesize).validate id with
  | error text => rw [hvalidate] at h; cases h
  | ok found =>
    obtain ⟨p, hp, _⟩ := validate_ofFile hvalidate
    have hblock := hp.block
    have hroom := hp.room
    have hpos : 0 < pagesize := by
      apply Nat.pos_of_ne_zero
      intro hzero
      rw [blockLen, hzero, mul_zero, headerSize] at hroom
      omega
    have hle : id ≤ id * pagesize := Nat.le_mul_of_pos_right id hpos
    rw [headerSize] at hroom
    omega

theorem finite_below {β : Type} {f : Page → β} :
    {id | (match (Pages.ofFile file pagesize).nodePage id with
      | .error _ => none
      | .ok page => some (f page)) ≠ none}.Finite := by
  apply (Set.finite_lt_nat file.length).subset
  intro id hid
  rw [Set.mem_ofPred_eq] at hid
  cases hpage : (Pages.ofFile file pagesize).nodePage id with
  | error fault => simp [hpage] at hid
  | ok page => exact nodePage_lt hpage

end files

/-! ## Files with one node -/

/-- Structural validation leaves out the checksum only. -/
theorem validateStructure_of_block {digest : Digest} {buf : Bytes} {id pagesize : Nat} {p : RawPage}
    (h : RawPage.validateBlock digest buf id pagesize = .ok p) :
    RawPage.validateStructure buf id pagesize = .ok p := by
  obtain ⟨found, hspan, h⟩ := except_bind_eq_ok.mp h
  obtain ⟨block, _, h⟩ := except_bind_eq_ok.mp h
  obtain ⟨_, _, h⟩ := except_bind_eq_ok.mp h
  rw [RawPage.validateStructure, hspan, except_bind_ok]
  exact h

/-- A node that fits on one page of 1024 bytes. -/
def OnePage (data : NodeData) : Prop :=
  Words data ∧ RawPage.dataOffset + data.size + checksumSize ≤ (0 + 1) * 1024

/-- Nodes on the pages of a file, from page `id` on. -/
def nodeBlocks (id : Nat) (nodes : List NodeData) : Bytes :=
  (nodes.zipIdx id).flatMap fun e => nodeOnDisk zeroDigest 1024 e.2 0 e.1

/-- A file whose pages from 3 on hold nodes. -/
def nodeFile (nodes : List NodeData) : Bytes := List.replicate 3072 0 ++ nodeBlocks 3 nodes

theorem length_nodeBlocks {nodes : List NodeData} (h : ∀ data ∈ nodes, OnePage data) (id : Nat) :
    (nodeBlocks id nodes).length = nodes.length * 1024 := by
  induction nodes generalizing id with
  | nil => rfl
  | cons data nodes ih =>
    have hlength : (nodeOnDisk zeroDigest 1024 id 0 data).length = (0 + 1) * 1024 :=
      length_nodeOnDisk (h data List.mem_cons_self).2
    have hrest := ih (fun d hd => h d (List.mem_cons_of_mem _ hd)) (id + 1)
    rw [nodeBlocks, List.zipIdx_cons, List.flatMap_cons, List.length_append, hlength]
    rw [nodeBlocks] at hrest
    rw [hrest, List.length_cons]
    omega

theorem nodePage_nodeFile (pre : List NodeData) (data : NodeData) (post : List NodeData)
    (h : ∀ d ∈ pre ++ data :: post, OnePage d) (hshort : (pre ++ data :: post).length < 2 ^ 32) :
    (Pages.ofFile (nodeFile (pre ++ data :: post)) 1024).nodePage (3 + pre.length) =
      .ok ⟨3 + pre.length, 0, .ofNodeData data⟩ := by
  obtain ⟨hwords, hfits⟩ := h data (by simp)
  have hfile : nodeFile (pre ++ data :: post) =
      (List.replicate 3072 0 ++ nodeBlocks 3 pre) ++
        nodeOnDisk zeroDigest 1024 (3 + pre.length) 0 data ++
        nodeBlocks (3 + pre.length + 1) post := by
    simp only [nodeFile, nodeBlocks, List.zipIdx_append, List.zipIdx_cons, List.flatMap_append,
      List.flatMap_cons, List.append_assoc]
  have hplaced : Placed 1024 (3 + pre.length) 0 (List.replicate 3072 0 ++ nodeBlocks 3 pre)
      (nodeOnDisk zeroDigest 1024 (3 + pre.length) 0 data)
      (nodeBlocks (3 + pre.length + 1) post) := by
    refine ⟨rfl, ?_, length_nodeOnDisk hfits, ?_⟩
    · rw [List.length_append, List.length_replicate,
        length_nodeBlocks fun d hd => h d (List.mem_append_left _ hd)]
      omega
    · rw [← hfile, nodeFile, List.length_append, List.length_replicate, length_nodeBlocks h]
      omega
  obtain ⟨p, hp, _, _, hpage⟩ := nodeOnDisk_validates hwords hfits hplaced
  rw [← hfile] at hp
  have hvalid : (Pages.ofFile (nodeFile (pre ++ data :: post)) 1024).validate (3 + pre.length) =
      .ok ⟨3 + pre.length, 0, .ofNodeData data⟩ := by
    unfold Pages.ofFile
    dsimp only
    rw [validateStructure_of_block hp]
    dsimp only
    rw [hpage]
  rw [Pages.nodePage, hvalid]
  cases data <;> rfl

/-- A branch whose only element points to page 3. -/
def loopData : NodeData := .branches [⟨[0], 3⟩]

theorem nodePage_loop :
    (Pages.ofFile (nodeFile [loopData]) 1024).nodePage 3 = .ok ⟨3, 0, .branch [⟨[0], 3⟩]⟩ := by
  apply nodePage_nodeFile [] loopData []
  · intro d hd
    rw [List.mem_singleton.mp hd]
    exact ⟨by simp [Words, loopData], by decide⟩
  · decide

/-- Every key is searched in the only element there is. -/
theorem searchPages_loop (key : Bytes) :
    searchPages (Pages.ofFile (nodeFile [loopData]) 1024) key 3 = some [3] := by
  rw [searchPages, nodePage_loop]
  rcases descends_cases nodePage_loop key with
    ⟨hleaf, _⟩ | ⟨index, found, next, _, hindex, hnext, hgo⟩
  · cases hleaf
  · have hfirst : index = 0 := by
      have hkeys : (NodeData.branches [⟨[0], 3⟩]).keys = [[(0 : UInt8)]] := rfl
      have hdata : (PageNode.page ⟨3, 0, .branch [⟨[0], 3⟩]⟩).data =
          some (.branches [⟨[0], 3⟩]) := rfl
      rw [PageNode.index, hdata] at hindex
      simp only [hkeys, binary_search_singleton] at hindex
      split_ifs at hindex <;> cases hindex <;> rfl
    rw [hfirst] at hnext
    cases hnext
    simpa using hgo

/-- A page that points to itself is taken below itself. -/
theorem not_neverBelowItself {below : Nat → Option (List Nat)} {id : Nat}
    (h : below id = some [id]) : ¬ NeverBelowItself below id := by
  intro hnever
  have hbelow : below id = some ([] ++ id :: []) := h
  have htakes : Takes below id id [id] := Takes.root.down hbelow (by simp)
  exact hnever id [id] htakes List.mem_cons_self

/-- Every traversal of a file ends, with `Ok` or `Err(InvalidDB)`, exactly when it takes no page
that it reached through that page, and otherwise it runs forever. -/
theorem traversals_end_iff (file : Bytes) (pagesize root : Nat) (key : Bytes) (b : InnerBucket)
    (hb : b.pageNodeIds = []) (fl : TxFreelist) :
    let P := Pages.ofFile file pagesize
    let searching := fun fuel => faultOf (search P key fuel root [] b)
    let searchingLeaf := fun fuel => errorOf (searchLeaf P key b fuel root)
    let deleting := fun fuel => faultOf (freePages P fuel [root] fl)
    ((EndsWell searching ↔ NeverBelowItself (searchPages P key) root) ∧
      (RunsForever searching ↔ ¬ NeverBelowItself (searchPages P key) root)) ∧
    ((EndsWell searchingLeaf ↔ NeverBelowItself (searchPages P key) root) ∧
      (RunsForever searchingLeaf ↔ ¬ NeverBelowItself (searchPages P key) root)) ∧
    ((EndsWell deleting ↔ NeverBelowItself (deletedPages P) root) ∧
      (RunsForever deleting ↔ ¬ NeverBelowItself (deletedPages P) root)) := by
  intro P searching searchingLeaf deleting
  have hsearch : WalkEnds (searchPages P key) [root] ↔ NeverBelowItself (searchPages P key) root :=
    walkEnds_iff finite_below root
  have hdelete : WalkEnds (deletedPages P) [root] ↔ NeverBelowItself (deletedPages P) root :=
    walkEnds_iff finite_below root
  refine ⟨⟨?_, ?_⟩, ⟨?_, ?_⟩, ?_, ?_⟩
  · exact (endsWell_iff fun fuel => search_follows hb fuel root []).trans hsearch
  · exact (runsForever_iff fun fuel => search_follows hb fuel root []).trans hsearch.not
  · exact (endsWell_iff fun fuel => searchLeaf_follows hb fuel root).trans hsearch
  · exact (runsForever_iff fun fuel => searchLeaf_follows hb fuel root).trans hsearch.not
  · exact (endsWell_iff fun fuel => freePages_follows fuel [root] fl).trans hdelete
  · exact (runsForever_iff fun fuel => freePages_follows fuel [root] fl).trans hdelete.not

/-- A branch over two leaves. -/
def twoLeafNodes : List NodeData :=
  [.branches [⟨[1], 4⟩, ⟨[5], 5⟩], .leaves [.kv [1] [2]], .leaves [.kv [5] [6]]]

theorem nodePage_twoLeafNodes :
    let P := Pages.ofFile (nodeFile twoLeafNodes) 1024
    P.nodePage 3 = .ok ⟨3, 0, .branch [⟨[1], 4⟩, ⟨[5], 5⟩]⟩ ∧
    P.nodePage 4 = .ok ⟨4, 0, .leaf [.kv [1] [2]]⟩ ∧
    P.nodePage 5 = .ok ⟨5, 0, .leaf [.kv [5] [6]]⟩ := by
  have hpages : ∀ d ∈ twoLeafNodes, OnePage d := by
    intro d hd
    simp only [twoLeafNodes, List.mem_cons, List.not_mem_nil, or_false] at hd
    rcases hd with rfl | rfl | rfl <;> exact ⟨by simp [Words], by decide⟩
  exact ⟨nodePage_nodeFile [] _ _ hpages (by decide), nodePage_nodeFile [_] _ _ hpages (by decide),
    nodePage_nodeFile [_, _] _ _ hpages (by decide)⟩

/-- The traversals of a branch over two leaves end. -/
theorem traversals_end_two_leaves :
    EndsWell (fun fuel => errorOf (searchLeaf (Pages.ofFile (nodeFile twoLeafNodes) 1024) [5]
      (.fromMeta ⟨3, 0⟩) fuel 3)) ∧
    EndsWell fun fuel => faultOf
      (freePages (Pages.ofFile (nodeFile twoLeafNodes) 1024) fuel [3] smallFreelist) := by
  obtain ⟨h3, h4, h5⟩ := nodePage_twoLeafNodes
  have hall := traversals_end_iff (nodeFile twoLeafNodes) 1024 3 [5] (.fromMeta ⟨3, 0⟩) rfl
    smallFreelist
  refine ⟨hall.2.1.1.mpr (neverBelowItself_of_ends ⟨2, ?_⟩),
    hall.2.2.1.mpr (neverBelowItself_of_ends ⟨3, ?_⟩)⟩
  · have hroot : searchPages (Pages.ofFile (nodeFile twoLeafNodes) 1024) [5] 3 = some [5] := by
      rw [searchPages, h3]
      rfl
    have hleaf : searchPages (Pages.ofFile (nodeFile twoLeafNodes) 1024) [5] 5 = some [] := by
      rw [searchPages, h5]
      rfl
    simp [walk, hroot, hleaf]
  · have hroot : deletedPages (Pages.ofFile (nodeFile twoLeafNodes) 1024) 3 = some [5, 4] := by
      rw [deletedPages, h3]
      rfl
    have hlast : deletedPages (Pages.ofFile (nodeFile twoLeafNodes) 1024) 5 = some [] := by
      rw [deletedPages, h5]
      rfl
    have hfirst : deletedPages (Pages.ofFile (nodeFile twoLeafNodes) 1024) 4 = some [] := by
      rw [deletedPages, h4]
      rfl
    simp [walk, hroot, hlast, hfirst]

/-- A branch page that points to itself holds every traversal: no number of rounds is enough. -/
theorem self_pointing_branch_runs_forever : ∃ file, ∀ key fl,
    RunsForever (fun fuel => faultOf
      (search (Pages.ofFile file 1024) key fuel 3 [] (.fromMeta ⟨3, 0⟩))) ∧
    RunsForever (fun fuel => errorOf
      (searchLeaf (Pages.ofFile file 1024) key (.fromMeta ⟨3, 0⟩) fuel 3)) ∧
    RunsForever (fun fuel => faultOf (freePages (Pages.ofFile file 1024) fuel [3] fl)) := by
  refine ⟨nodeFile [loopData], ?_⟩
  intro key fl
  have hsearch : ¬ WalkEnds (searchPages (Pages.ofFile (nodeFile [loopData]) 1024) key) [3] :=
    fun hends => not_neverBelowItself (searchPages_loop key) (neverBelowItself_of_ends hends)
  have hdelete : ¬ WalkEnds (deletedPages (Pages.ofFile (nodeFile [loopData]) 1024)) [3] := by
    have hbelow : deletedPages (Pages.ofFile (nodeFile [loopData]) 1024) 3 = some [3] := by
      rw [deletedPages, nodePage_loop]
      rfl
    exact fun hends => not_neverBelowItself hbelow (neverBelowItself_of_ends hends)
  refine ⟨?_, ?_, ?_⟩
  · exact (runsForever_iff fun fuel => search_follows rfl fuel 3 []).mpr hsearch
  · exact (runsForever_iff fun fuel => searchLeaf_follows rfl fuel 3).mpr hsearch
  · exact (runsForever_iff fun fuel => freePages_follows fuel [3] fl).mpr hdelete

end Tagdata.Analysis
