import Tagdata.Analysis.CommittedReads

/-!
# Loading nodes

`node` turns a page into a node of the arena, together with the pages above it that are not
loaded yet.  The tree of the bucket stays the same but for its labels: `loadCtx` says how the
labels on the way to the root change.

The frame rule for the arena is `Agrees`: a part of the tree is stored in a changed bucket
as soon as the slots and pages its labels name were not touched.
-/

set_option autoImplicit false

namespace Tagdata.Analysis

open Tagdata.Library Tagdata.Library.SearchTree Tagdata.Model

/-! ## The frame rule -/

/-- Two buckets agree about the slot and the page of a label. -/
def Agrees (b b' : InnerBucket) (i : Info) : Prop :=
  b'.pageNodeIds.lookup i.page = b.pageNodeIds.lookup i.page ∧
    ∀ r, i.loaded = some r → b'.nodes[r.id]? = b.nodes[r.id]?

section Frame

variable {P : Pages} {b b' : InnerBucket}

theorem StoredAt.agrees {i : Info} {data : NodeData} (h : StoredAt P b i data)
    (ha : Agrees b b' i) : StoredAt P b' i data := by
  unfold StoredAt at h ⊢
  cases hl : i.loaded with
  | none =>
    simp only [hl] at h ⊢
    exact ⟨ha.1.trans h.1, h.2⟩
  | some r =>
    simp only [hl] at h ⊢
    exact ⟨ha.1.trans h.1, (ha.2 r hl).trans h.2⟩

/-- A tree stays stored when nothing it names was touched. -/
theorem holds_agrees {t : NodeTree} (h : Holds pageTag (stored P b) t)
    (ha : ∀ i ∈ t.infos, Agrees b b' i) : Holds pageTag (stored P b') t :=
  h.mono (fun i hi _ hd => hd.agrees (ha i hi)) fun i hi _ hks => ⟨hks.1.agrees (ha i hi), hks.2⟩

/-- The surroundings of a place stay stored when nothing they name was touched. -/
theorem around_agrees {C : TreeCtx} {page : Nat} (h : Around pageTag (stored P b) C page)
    (ha : ∀ i ∈ ctxInfos C, Agrees b b' i) : Around pageTag (stored P b') C page :=
  h.mono (fun i hi _ hd => hd.agrees (ha i hi)) fun i hi _ hks => ⟨hks.1.agrees (ha i hi), hks.2⟩

/-- Every label of a stored tree is stored. -/
theorem stored_info {t : NodeTree} (h : Holds pageTag (stored P b) t) {i : Info}
    (hi : i ∈ t.infos) : ∃ data, StoredAt P b i data := by
  obtain ⟨u, hu, rfl⟩ := List.mem_map.mp hi
  cases u with
  | leaf i d => exact ⟨_, h _ hu⟩
  | branch i ks => exact ⟨_, (h _ hu).1⟩

/-- The id of a stored label is a slot of the arena. -/
theorem stored_id_lt {t : NodeTree} (h : Holds pageTag (stored P b) t) {i : Info}
    (hi : i ∈ t.infos) {r : NodeRec} (hr : i.loaded = some r) : r.id < b.nodes.length := by
  obtain ⟨data, hs⟩ := stored_info h hi
  simp only [StoredAt, hr] at hs
  exact (List.getElem?_eq_some_iff.mp hs.2).1

theorem agrees_setNode {n : Node} {i : Info} (h : i.id? ≠ some n.id) :
    Agrees b (b.setNode n) i := by
  refine ⟨rfl, fun r hr => ?_⟩
  have hne : n.id ≠ r.id := fun heq => h (by simp [Info.id?, hr, heq])
  simp [InnerBucket.setNode, hne]

/-- The bucket with a new node for a page. -/
def push (b : InnerBucket) (page : Nat) (n : Node) : InnerBucket :=
  { b with
    pageNodeIds := (page, b.nodes.length) :: b.pageNodeIds
    nodes := b.nodes ++ [n] }

theorem agrees_push {n : Node} {i : Info} {page : Nat} (hpage : i.page ≠ page)
    (hid : ∀ r, i.loaded = some r → r.id < b.nodes.length) : Agrees b (push b page n) i := by
  refine ⟨?_, fun r hr => ?_⟩
  · exact Assoc.lookup_cons_ne hpage _ _
  · simp [push, List.getElem?_append_left (hid r hr)]

end Frame

/-! ## The ids and pages of a tree -/

/-- The ids of the loaded nodes. -/
def ids (t : NodeTree) : List Nat := t.infos.filterMap Info.id?

/-- The ids around a place. -/
def ctxIds (C : TreeCtx) : List Nat := (ctxInfos C).filterMap Info.id?

/-- The first pages of all nodes. -/
def heads (t : NodeTree) : List Nat := t.infos.map Info.page

theorem ids_plug (C : TreeCtx) (s : NodeTree) : (ids (plug C s)).Perm (ctxIds C ++ ids s) := by
  rw [ids, ids, ctxIds, ← List.filterMap_append]
  exact (infos_plug C s).filterMap _

theorem heads_plug (C : TreeCtx) (s : NodeTree) :
    (heads (plug C s)).Perm ((ctxInfos C).map Info.page ++ heads s) := by
  rw [heads, heads, ← List.map_append]
  exact (infos_plug C s).map _

theorem infos_root (s : NodeTree) :
    s.infos = s.info :: s.kids.flatMap fun e => e.2.infos := by
  cases s <;> simp

/-- Labels without their records. -/
def Info.strip (i : Info) : Info := { i with loaded := none }

/-! ## Changing one node -/

section Change

variable {P : Pages} {b : InnerBucket}

/-- Writing a node of the arena changes the tree at the place of that node only. -/
theorem stored_replace {C : TreeCtx} {s : NodeTree} {r : NodeRec}
    (hC : Around pageTag (stored P b) C s.info.page)
    (hkids : ∀ e ∈ s.kids, Holds pageTag (stored P b) e.2 ∧ 2 ≤ e.2.info.page)
    (hr : s.info.loaded = some r) (hlookup : b.pageNodeIds.lookup s.info.page = some r.id)
    (hlt : r.id < b.nodes.length)
    (hids : r.id ∉ ctxIds C ∧ ∀ e ∈ s.kids, r.id ∉ ids e.2) :
    Holds pageTag (stored P (b.setNode (s.info.nodeOf r (nodeData s)))) (plug C s) := by
  have hagree : ∀ i : Info, i.id? ≠ some r.id →
      Agrees b (b.setNode (s.info.nodeOf r (nodeData s))) i := fun i hi => agrees_setNode hi
  have hroot : StoredAt P (b.setNode (s.info.nodeOf r (nodeData s))) s.info (nodeData s) := by
    simp only [StoredAt, hr]
    exact ⟨hlookup, by simp [InnerBucket.setNode, Info.nodeOf, hlt]⟩
  refine (holds_plug C s).mpr ⟨?_, ?_⟩
  · rw [tag_page]
    refine around_agrees hC fun i hi => hagree i fun hid => hids.1 ?_
    exact List.mem_filterMap.mpr ⟨i, hi, hid⟩
  · cases s with
    | leaf i d => exact (holds_leaf i d).mpr hroot
    | branch i ks =>
      refine (holds_branch i ks).mpr ⟨⟨hroot, ?_⟩, fun e he => ?_⟩
      · simp only [tags, List.forall_mem_map, tag_page]
        exact fun e he => (hkids e he).2
      · refine holds_agrees (hkids e he).1 fun i hi => hagree i fun hid => hids.2 e he ?_
        exact List.mem_filterMap.mpr ⟨i, hi, hid⟩

/-- The parts of a stored tree at a place. -/
theorem stored_parts {C : TreeCtx} {s : NodeTree} (h : Holds pageTag (stored P b) (plug C s)) :
    Around pageTag (stored P b) C s.info.page ∧
      (∀ e ∈ s.kids, Holds pageTag (stored P b) e.2 ∧ 2 ≤ e.2.info.page) ∧
      StoredAt P b s.info (nodeData s) := by
  obtain ⟨hC, hs⟩ := (holds_plug C s).mp h
  rw [tag_page] at hC
  refine ⟨hC, ?_, stored_root hs⟩
  cases s with
  | leaf i d => simp
  | branch i ks =>
    obtain ⟨⟨-, hpages⟩, hkids⟩ := (holds_branch i ks).mp hs
    intro e he
    refine ⟨hkids e he, ?_⟩
    have hpage := hpages (e.1, tag pageTag e.2) (List.mem_map_of_mem he)
    rwa [tag_page] at hpage

/-- The id of a place does not occur elsewhere in a tree without repeated ids. -/
theorem id_not_elsewhere {C : TreeCtx} {s : NodeTree} {r : NodeRec}
    (hnodup : (ids (plug C s)).Nodup) (hr : s.info.loaded = some r) :
    r.id ∉ ctxIds C ∧ ∀ e ∈ s.kids, r.id ∉ ids e.2 := by
  have hperm := (ids_plug C s).nodup_iff.mp hnodup
  have hs : ids s = r.id :: s.kids.flatMap fun e => ids e.2 := by
    simp [ids, infos_root s, Info.id?, hr, List.filterMap_flatMap]
  rw [hs, List.nodup_append'] at hperm
  obtain ⟨-, hin, hdisj⟩ := hperm
  refine ⟨fun h => hdisj h List.mem_cons_self, fun e he h => ?_⟩
  exact (List.nodup_cons.mp hin).1 (List.mem_flatMap.mpr ⟨e, he, h⟩)

@[simp] theorem info_setInfo (i : Info) (s : NodeTree) : (s.setInfo i).info = i := by
  cases s <;> rfl

@[simp] theorem kids_setInfo (i : Info) (s : NodeTree) : (s.setInfo i).kids = s.kids := by
  cases s <;> rfl

@[simp] theorem nodeData_setInfo (i : Info) (s : NodeTree) :
    nodeData (s.setInfo i) = nodeData s := by
  cases s <;> rfl

/-- Changing the record of one loaded node. -/
theorem stored_setInfo {C : TreeCtx} {s : NodeTree} {r q : NodeRec} {j : Info}
    (h : Holds pageTag (stored P b) (plug C s)) (hnodup : (ids (plug C s)).Nodup)
    (hr : s.info.loaded = some r) (hpage : j.page = s.info.page) (hq : j.loaded = some q)
    (hid : q.id = r.id) :
    Holds pageTag (stored P (b.setNode (j.nodeOf q (nodeData s)))) (plug C (s.setInfo j)) := by
  obtain ⟨hC, hkids, hroot⟩ := stored_parts h
  simp only [StoredAt, hr] at hroot
  have hlt : q.id < b.nodes.length := by
    rw [hid]; exact (List.getElem?_eq_some_iff.mp hroot.2).1
  have hne := id_not_elsewhere hnodup hr
  rw [← hid] at hne
  have hset := stored_replace (C := C) (s := s.setInfo j) (r := q) (b := b)
    (by simpa [hpage] using hC) (by simpa using hkids) (by simpa using hq)
    (by simpa [hpage, hid] using hroot.1) hlt (by simpa using hne)
  simpa using hset

theorem ids_setInfo {s : NodeTree} {j : Info} (h : j.id? = s.info.id?) :
    ids (s.setInfo j) = ids s := by
  simp [ids, infos_root s, infos_root (s.setInfo j), h, List.filterMap_cons]

theorem ids_plug_setInfo {C : TreeCtx} {s : NodeTree} {j : Info} (h : j.id? = s.info.id?) :
    (ids (plug C (s.setInfo j))).Perm (ids (plug C s)) := by
  refine (ids_plug C _).trans ?_
  rw [ids_setInfo h]
  exact (ids_plug C s).symm

/-- The parent's `insert_child` and the child's reference to its parent. -/
def attach (b : InnerBucket) (parentId nodeId : Nat) : Except Fault InnerBucket := do
  let parentNode ← b.getNode parentId
  let parentNode ← parentNode.insertChild nodeId
  let b := b.setNode parentNode
  let n ← b.getNode nodeId
  pure (b.setNode { n with parent := some parentId })

theorem getNode_of_stored {i : Info} {r : NodeRec} {data : NodeData} (h : StoredAt P b i data)
    (hr : i.loaded = some r) : b.getNode r.id = .ok (i.nodeOf r data) := by
  simp only [StoredAt, hr] at h
  simp [InnerBucket.getNode, h.2]

/-- The label of a parent that got a child. -/
def Info.addChild (i : Info) (r : NodeRec) (kid : Nat) : Info :=
  { i with loaded := some { r with children := r.children ++ [kid] } }

/-- The label of a node that got its parent. -/
def Info.setParent (i : Info) (r : NodeRec) (parent : Option Nat) : Info :=
  { i with loaded := some { r with parent := parent } }

/-- Attaching a loaded node to the loaded node above it. -/
theorem stored_attach {C : TreeCtx} {f : Frame Bytes Info Leaf} {s : NodeTree} {rf rs : NodeRec}
    (h : Holds pageTag (stored P b) (plug (f :: C) s)) (hnodup : (ids (plug (f :: C) s)).Nodup)
    (hf : f.info.loaded = some rf) (hs : s.info.loaded = some rs) :
    ∃ nodes, attach b rf.id rs.id = .ok { b with nodes := nodes } ∧
      nodes.length = b.nodes.length ∧
      Holds pageTag (stored P { b with nodes := nodes })
        (plug ({ f with info := f.info.addChild rf rs.id } :: C)
          (s.setInfo (s.info.setParent rs (some rf.id)))) := by
  have hfroot := (stored_parts (C := C) (s := f.fill s) h).2.2
  have hget : b.getNode rf.id = .ok (f.info.nodeOf rf (nodeData (f.fill s))) :=
    getNode_of_stored hfroot hf
  have hset := stored_setInfo (C := C) (s := f.fill s) (j := f.info.addChild rf rs.id)
    (q := { rf with children := rf.children ++ [rs.id] }) h hnodup hf rfl rfl rfl
  have hnodup' := (ids_plug_setInfo (C := C) (s := f.fill s) (j := f.info.addChild rf rs.id)
    (by simp [Info.id?, Info.addChild, Frame.fill, hf])).nodup_iff.mpr hnodup
  -- the parent now has the child in its list; the child's own slot is still the old one
  have hsroot := (stored_parts (C := { f with info := f.info.addChild rf rs.id } :: C) (s := s)
    hset).2.2
  have hget' := getNode_of_stored hsroot hs
  have hset' := stored_setInfo (C := { f with info := f.info.addChild rf rs.id } :: C) (s := s)
    (j := s.info.setParent rs (some rf.id)) (q := { rs with parent := some rf.id })
    hset hnodup' hs rfl rfl rfl
  refine ⟨_, ?_, ?_, hset'⟩
  · have hinsert : (f.info.nodeOf rf (nodeData (f.fill s))).insertChild rs.id =
        .ok ((f.info.addChild rf rs.id).nodeOf { rf with children := rf.children ++ [rs.id] }
          (nodeData (f.fill s))) := by
      simp [Node.insertChild, Info.nodeOf, Frame.fill, branchData, Info.addChild]
    simp only [attach, hget, except_bind_ok, hinsert, hget', except_pure]
    rfl
  · simp [InnerBucket.setNode]

end Change

/-! ## `node` -/

section NodeEquations

variable {P : Pages} {b : InnerBucket}

theorem node_loaded (fuel : Nat) {page id : Nat} {n : Node} (parent : Option Nat)
    (hlookup : b.pageNodeIds.lookup page = some id) (hn : b.nodes[id]? = some n) :
    InnerBucket.node P (fuel + 1) (.page page) parent b = .ok id b := by
  simp [InnerBucket.node, estate_bind, estate_map, hlookup, InnerBucket.getNode, hn]

theorem node_id (fuel : Nat) {id : Nat} {n : Node} (parent : Option Nat)
    (hn : b.nodes[id]? = some n) :
    InnerBucket.node P (fuel + 1) (.node id) parent b = .ok id b := by
  simp [InnerBucket.node, estate_bind, estate_map, InnerBucket.getNode, hn]

/-- The node `from_page` makes of a block. -/
def blockNode (id page overflow : Nat) (data : NodeData) : Node :=
  ⟨id, page, overflow + 1, [], data, false, data.keys.head?, none, false⟩

theorem node_root (fuel : Nat) {page overflow : Nat} {data : NodeData} (parent : Option Nat)
    (hlookup : b.pageNodeIds.lookup page = none) (hroot : b.bucketMeta.rootPage = page)
    (hpage : P.nodePage page = .ok ⟨page, overflow, .ofNodeData data⟩) :
    InnerBucket.node P (fuel + 1) (.page page) parent b =
      .ok b.nodes.length (push b page (blockNode b.nodes.length page overflow data)) := by
  simp [InnerBucket.node, estate_bind, estate_map, hlookup, hroot, hpage, Node.fromPage,
    nodeData_ofNodeData, push, blockNode]

theorem node_kid {fuel page overflow parentPage parentId : Nat} {data : NodeData} {key : Bytes}
    {b₁ b₂ : InnerBucket}
    (hlookup : b.pageNodeIds.lookup page = none) (hroot : b.bucketMeta.rootPage ≠ page)
    (hparent : b.pageParents.lookup page = some parentPage)
    (hpage : P.nodePage page = .ok ⟨page, overflow, .ofNodeData data⟩)
    (hkey : data.firstKey = .ok key)
    (hrec : InnerBucket.node P fuel (.page parentPage) none
      (push b page (blockNode b.nodes.length page overflow data)) = .ok parentId b₁)
    (hattach : attach b₁ parentId b.nodes.length = .ok b₂) :
    InnerBucket.node P (fuel + 1) (.page page) none b = .ok b.nodes.length b₂ := by
  simp only [attach, except_bind_eq_ok] at hattach
  obtain ⟨pn, hpn, pn', hinsert, n, hn, hb₂⟩ := hattach
  obtain rfl := Except.ok.inj hb₂
  simp only [push, blockNode] at hrec
  rw [InnerBucket.node]
  simp [estate_bind, estate_map, hlookup, hroot, hparent, hpage, Node.fromPage,
    nodeData_ofNodeData, hkey, hrec, hpn, hinsert, hn]

end NodeEquations

/-! ## Loading a place -/

/-- The id the node above a place has, or gets as the next one. -/
def ctxId : TreeCtx → Nat → Option Nat
  | [], _ => none
  | f :: _, next => some (match f.info.loaded with | some r => r.id | none => next)

/-- The first key of the branch around a place. -/
def frameFirst (f : Frame Bytes Info Leaf) : Option Bytes := (f.pre.map Prod.fst ++ [f.key]).head?

/-- The surroundings of a place that was loaded as `kid`: everything up to the first loaded
branch is loaded with ids from `next` on. -/
def loadCtx : TreeCtx → Nat → Nat → TreeCtx
  | [], _, _ => []
  | f :: C, kid, next =>
      match f.info.loaded with
      | some r => { f with info := f.info.addChild r kid } :: C
      | none =>
          { f with info := { f.info with
              loaded := some ⟨next, [kid], frameFirst f, ctxId C (next + 1)⟩ } } ::
            loadCtx C next (next + 1)

/-- The label of a block that was loaded. -/
def Info.fresh (i : Info) (first : Option Bytes) (id : Nat) (parent : Option Nat) : Info :=
  { i with loaded := some ⟨id, [], first, parent⟩ }

/-- The parents that `node` follows are recorded. -/
def Recorded (b : InnerBucket) : TreeCtx → Nat → Prop
  | [], _ => True
  | f :: C, page => b.pageParents.lookup page = some f.info.page ∧ Recorded b C f.info.page

theorem nodeData_keys (t : NodeTree) : (nodeData t).keys = ownKeys Leaf.key t := by
  cases t with
  | leaf i d => rfl
  | branch i ks => simp [NodeData.keys, branchData, ownKeys, tags]

theorem firstKey_nodeData {t : NodeTree} {k : Bytes} (h : firstKey? Leaf.key t = some k) :
    (nodeData t).firstKey = .ok k := by
  have hkeys : (nodeData t).keys.head? = some k := by rw [nodeData_keys]; exact h
  cases hk : (nodeData t).keys with
  | nil => simp [hk] at hkeys
  | cons a l =>
    obtain rfl : a = k := by simpa [hk] using hkeys
    simp [NodeData.firstKey, hk]

section Load

variable {P : Pages}

/-- A block of a stored tree, loaded into the arena. -/
theorem stored_push {b : InnerBucket} {C : TreeCtx} {s : NodeTree}
    (h : Holds pageTag (stored P b) (plug C s)) (hheads : (heads (plug C s)).Nodup)
    (hun : s.info.loaded = none) :
    ∃ overflow, P.nodePage s.info.page = .ok ⟨s.info.page, overflow, .ofNodeData (nodeData s)⟩ ∧
      b.pageNodeIds.lookup s.info.page = none ∧
      Holds pageTag
        (stored P (push b s.info.page
          (blockNode b.nodes.length s.info.page overflow (nodeData s))))
        (plug C (s.setInfo (s.info.fresh (firstKey? Leaf.key s) b.nodes.length none))) := by
  obtain ⟨hC, hkids, hroot⟩ := stored_parts h
  simp only [StoredAt, hun] at hroot
  obtain ⟨hlookup, overflow, hspan, hpage⟩ := hroot
  refine ⟨overflow, hpage, hlookup, ?_⟩
  have hall : ∀ i ∈ ctxInfos C ++ s.kids.flatMap (fun e => e.2.infos), i.page ≠ s.info.page := by
    have hnodup := (heads_plug C s).nodup_iff.mp hheads
    rw [heads, infos_root s, List.map_cons] at hnodup
    intro i hi heq
    have hcons := (List.perm_middle.nodup_iff.mp hnodup)
    rw [List.nodup_cons, ← List.map_append] at hcons
    exact hcons.1 (heq ▸ List.mem_map_of_mem hi)
  have hagree : ∀ i ∈ ctxInfos C ++ s.kids.flatMap (fun e => e.2.infos),
      Agrees b (push b s.info.page
        (blockNode b.nodes.length s.info.page overflow (nodeData s))) i := by
    intro i hi
    refine agrees_push (hall i hi) fun r hr => stored_id_lt h ?_ hr
    refine (infos_plug C s).mem_iff.mpr ?_
    rw [infos_root s]
    rcases List.mem_append.mp hi with hi | hi
    · exact List.mem_append_left _ hi
    · exact List.mem_append_right _ (List.mem_cons_of_mem _ hi)
  have hnew : StoredAt P (push b s.info.page
        (blockNode b.nodes.length s.info.page overflow (nodeData s)))
      (s.info.fresh (firstKey? Leaf.key s) b.nodes.length none) (nodeData s) := by
    simp only [StoredAt, Info.fresh]
    refine ⟨Assoc.lookup_cons_self _ _ _, ?_⟩
    simp [push, blockNode, Info.nodeOf, hspan, nodeData_keys, firstKey?]
  refine (holds_plug C _).mpr ⟨?_, ?_⟩
  · rw [tag_page, info_setInfo]
    exact around_agrees hC fun i hi => hagree i (List.mem_append_left _ hi)
  · cases s with
    | leaf i d => exact (holds_leaf _ d).mpr hnew
    | branch i ks =>
      refine (holds_branch _ ks).mpr ⟨⟨hnew, ?_⟩, fun e he => ?_⟩
      · simp only [tags, List.forall_mem_map, tag_page]
        exact fun e he => (hkids e he).2
      · refine holds_agrees (hkids e he).1 fun i hi => hagree i (List.mem_append_right _ ?_)
        exact List.mem_flatMap.mpr ⟨e, he, hi⟩

/-- Above a place the label of the root does not depend on what stands there. -/
theorem info_plug_cons (f : Frame Bytes Info Leaf) (C : TreeCtx) (s s' : NodeTree) :
    (plug (f :: C) s).info = (plug (f :: C) s').info := by
  induction C generalizing f s s' with
  | nil => rfl
  | cons g C ih => exact ih g (f.fill s) (f.fill s')

theorem info_plug_mem (f : Frame Bytes Info Leaf) (C : TreeCtx) (s : NodeTree) :
    (plug (f :: C) s).info ∈ ctxInfos (f :: C) := by
  induction C generalizing f s with
  | nil => simp [Frame.fill]
  | cons g C ih =>
    rw [ctxInfos_cons f (g :: C)]
    exact List.mem_append_right _ (ih g (f.fill s))

theorem ids_fresh {s : NodeTree} (hun : s.info.loaded = none) (first : Option Bytes) (id : Nat)
    (parent : Option Nat) : ids (s.setInfo (s.info.fresh first id parent)) = id :: ids s := by
  simp [ids, infos_root s, infos_root (s.setInfo _), Info.id?, Info.fresh, hun]

theorem ids_plug_fresh {C : TreeCtx} {s : NodeTree} (hun : s.info.loaded = none)
    (first : Option Bytes) (id : Nat) (parent : Option Nat) :
    (ids (plug C (s.setInfo (s.info.fresh first id parent)))).Perm (ids (plug C s) ++ [id]) := by
  refine (ids_plug C _).trans ?_
  rw [ids_fresh hun]
  refine List.perm_middle.trans ?_
  refine ((ids_plug C s).symm.cons id).trans ?_
  exact (List.perm_append_singleton id _).symm

theorem ids_attach {C : TreeCtx} {f : Frame Bytes Info Leaf} {s : NodeTree} {i j : Info}
    (hi : i.id? = f.info.id?) (hj : j.id? = s.info.id?) :
    (ids (plug ({ f with info := i } :: C) (s.setInfo j))).Perm (ids (plug (f :: C) s)) := by
  refine (ids_plug_setInfo hj).trans ?_
  exact ids_plug_setInfo (C := C) (s := f.fill s) (j := i) hi

theorem heads_setInfo {C : TreeCtx} {s : NodeTree} {i : Info} (h : i.page = s.info.page) :
    (heads (plug C (s.setInfo i))).Perm (heads (plug C s)) := by
  refine (heads_plug C _).trans ((List.Perm.append_left _ ?_).trans (heads_plug C s).symm)
  rw [heads, heads, infos_root s, infos_root (s.setInfo i), kids_setInfo, info_setInfo]
  simp [h]

/-- Below the root the page of a place is not the root page. -/
theorem page_ne_root {f : Frame Bytes Info Leaf} {C : TreeCtx} {s : NodeTree}
    (h : (heads (plug (f :: C) s)).Nodup) : (plug (f :: C) s).info.page ≠ s.info.page := by
  intro heq
  have hnodup := (heads_plug (f :: C) s).nodup_iff.mp h
  rw [heads, infos_root s, List.map_cons] at hnodup
  have hcons := List.perm_middle.nodup_iff.mp hnodup
  rw [List.nodup_cons] at hcons
  exact hcons.1 (List.mem_append_left _ (heq ▸ List.mem_map_of_mem (info_plug_mem f C s)))

theorem ids_lt {b : InnerBucket} {t : NodeTree} (h : Holds pageTag (stored P b) t) :
    ∀ x ∈ ids t, x < b.nodes.length := by
  intro x hx
  obtain ⟨i, hi, hid⟩ := List.mem_filterMap.mp hx
  obtain ⟨r, hr, rfl⟩ := Option.map_eq_some_iff.mp hid
  exact stored_id_lt h hi hr

theorem nodup_fresh {b : InnerBucket} {t t' : NodeTree} (h : Holds pageTag (stored P b) t)
    (hids : (ids t).Nodup) (hperm : (ids t').Perm (ids t ++ [b.nodes.length])) :
    (ids t').Nodup := by
  rw [hperm.nodup_iff, List.nodup_append']
  refine ⟨hids, by simp, fun x hx hmem => ?_⟩
  have hlt := ids_lt h x hx
  rw [List.mem_singleton] at hmem
  omega

theorem nodup_range {b : InnerBucket} {t t₁ t₂ : NodeTree} {count : Nat}
    (hnodup : (ids t₁).Nodup) (hids : (ids t₁).Perm (ids t ++ [b.nodes.length]))
    (h : Holds pageTag (stored P b) t)
    (hperm : (ids t₂).Perm (ids t₁ ++ List.range' (b.nodes.length + 1) count)) :
    (ids t₂).Nodup := by
  rw [hperm.nodup_iff, List.nodup_append']
  refine ⟨hnodup, List.nodup_range', fun x hx hmem => ?_⟩
  have hge := (List.mem_range'_1.mp hmem).1
  rcases List.mem_append.mp (hids.mem_iff.mp hx) with hx | hx
  · have hlt := ids_lt h x hx
    omega
  · rw [List.mem_singleton] at hx
    omega

theorem setParent_id {i : Info} {r : NodeRec} (h : i.loaded = some r) (p : Option Nat) :
    (i.setParent r p).id? = i.id? := by
  simp [Info.id?, Info.setParent, h]

theorem setParent_fresh (s : NodeTree) (first : Option Bytes) (id : Nat) (p : Option Nat) :
    (s.setInfo (s.info.fresh first id none)).setInfo
        ((s.setInfo (s.info.fresh first id none)).info.setParent ⟨id, [], first, none⟩ p) =
      s.setInfo (s.info.fresh first id p) := by
  cases s <;> rfl

theorem firstKey_fill (f : Frame Bytes Info Leaf) (s : NodeTree) :
    firstKey? Leaf.key (f.fill s) = frameFirst f := by
  cases hpre : f.pre <;> simp [firstKey?, ownKeys, Frame.fill, frameFirst, hpre]

theorem frameFirst_some (f : Frame Bytes Info Leaf) : ∃ k, frameFirst f = some k := by
  cases hpre : f.pre <;> simp [frameFirst, hpre]

theorem length_push (b : InnerBucket) (page : Nat) (n : Node) :
    (push b page n).nodes.length = b.nodes.length + 1 := by simp [push]

theorem recorded_push {b : InnerBucket} (page : Nat) (n : Node) (C : TreeCtx) {q : Nat} :
    Recorded (push b page n) C q ↔ Recorded b C q := by
  induction C generalizing q with
  | nil => exact Iff.rfl
  | cons f C ih => exact and_congr Iff.rfl ih

/-- `node` on a block loads it and every block above it up to the first loaded node. -/
theorem node_load {C : TreeCtx} :
    ∀ {s : NodeTree} {b : InnerBucket} {fuel : Nat},
      Holds pageTag (stored P b) (plug C s) → (heads (plug C s)).Nodup → (ids (plug C s)).Nodup →
      s.info.loaded = none → b.bucketMeta.rootPage = (plug C s).info.page →
      Recorded b C s.info.page → (C ≠ [] → ∃ k, firstKey? Leaf.key s = some k) →
      C.length < fuel →
      ∃ nodes pageIds count,
        InnerBucket.node P fuel (.page s.info.page) none b =
          .ok b.nodes.length { b with nodes := nodes, pageNodeIds := pageIds } ∧
        Holds pageTag (stored P { b with nodes := nodes, pageNodeIds := pageIds })
          (plug (loadCtx C b.nodes.length (b.nodes.length + 1))
            (s.setInfo (s.info.fresh (firstKey? Leaf.key s) b.nodes.length
              (ctxId C (b.nodes.length + 1))))) ∧
        nodes.length = b.nodes.length + count ∧
        (ids (plug (loadCtx C b.nodes.length (b.nodes.length + 1))
            (s.setInfo (s.info.fresh (firstKey? Leaf.key s) b.nodes.length
              (ctxId C (b.nodes.length + 1)))))).Perm
          (ids (plug C s) ++ List.range' b.nodes.length count) := by
  induction C with
  | nil =>
    intro s b fuel hstored hheads _ hun hroot _ _ hfuel
    obtain ⟨fuel, rfl⟩ : ∃ n, fuel = n + 1 := ⟨fuel - 1, by omega⟩
    obtain ⟨overflow, hpage, hlookup, hnew⟩ := stored_push hstored hheads hun
    have hnode := node_root fuel none hlookup hroot hpage
    exact ⟨_, _, 1, hnode, hnew, by simp, ids_plug_fresh (C := []) hun _ _ _⟩
  | cons f C ih =>
    intro s b fuel hstored hheads hids hun hroot hrec hfirst hfuel
    obtain ⟨fuel, rfl⟩ : ∃ n, fuel = n + 1 := ⟨fuel - 1, by omega⟩
    obtain ⟨overflow, hpage, hlookup, hnew⟩ := stored_push hstored hheads hun
    obtain ⟨k, hk⟩ := hfirst (by simp)
    have hkey := firstKey_nodeData hk
    have hrootne : b.bucketMeta.rootPage ≠ s.info.page := by
      rw [hroot]
      exact page_ne_root hheads
    have hids₁ := ids_plug_fresh (C := f :: C) hun (firstKey? Leaf.key s) b.nodes.length none
    have hnodup₁ := nodup_fresh hstored hids hids₁
    have hs₁ : (s.setInfo (s.info.fresh (firstKey? Leaf.key s) b.nodes.length none)).info.loaded =
        some ⟨b.nodes.length, [], firstKey? Leaf.key s, none⟩ := by rw [info_setInfo]; rfl
    cases hf : f.info.loaded with
    | some rf =>
      -- the branch above is loaded: attach to it
      have hslot := (stored_parts (C := C) (s := f.fill _) hnew).2.2
      simp only [StoredAt, Frame.fill, info_branch, hf] at hslot
      obtain ⟨fuel, rfl⟩ : ∃ m, fuel = m + 1 := ⟨fuel - 1, by simp at hfuel; omega⟩
      have hparent := node_loaded (P := P) fuel none hslot.1 hslot.2
      obtain ⟨nodes, hattach, hlen, hfinal⟩ := stored_attach hnew hnodup₁ hf hs₁
      have hnode := node_kid hlookup hrootne hrec.1 hpage hkey hparent hattach
      have hperm := (ids_attach (C := C) (f := f) (i := f.info.addChild rf b.nodes.length)
        (by simp [Info.id?, Info.addChild, hf]) (setParent_id hs₁ (some rf.id))).trans hids₁
      rw [setParent_fresh] at hfinal hperm
      refine ⟨nodes, _, 1, hnode, ?_, ?_, ?_⟩
      · simp only [loadCtx, hf, ctxId]
        exact hfinal
      · rw [hlen, length_push]
      · simp only [loadCtx, hf, ctxId]
        exact hperm
    | none =>
      -- the branch above is a block: it is loaded first, with the next id
      have hheads₁ : (heads (plug (f :: C) (s.setInfo
          (s.info.fresh (firstKey? Leaf.key s) b.nodes.length none)))).Nodup :=
        (heads_setInfo (C := f :: C) (s := s)
          (i := s.info.fresh (firstKey? Leaf.key s) b.nodes.length none) rfl).nodup_iff.mpr hheads
      have hfirst₁ := firstKey_fill f
        (s.setInfo (s.info.fresh (firstKey? Leaf.key s) b.nodes.length none))
      obtain ⟨kf, hkf⟩ := frameFirst_some f
      have hroot₁ := hroot.trans (congrArg Info.page (info_plug_cons f C s
        (s.setInfo (s.info.fresh (firstKey? Leaf.key s) b.nodes.length none))))
      obtain ⟨nodes, pageIds, count, hparent, hstored₂, hcount, hperm⟩ :=
        ih hnew hheads₁ hnodup₁ hf hroot₁ ((recorded_push _ _ _).mpr hrec.2)
          (fun _ => ⟨kf, hfirst₁.trans hkf⟩) (Nat.lt_of_succ_lt_succ hfuel)
      rw [length_push] at hparent hcount
      rw [length_push, hfirst₁] at hstored₂ hperm
      let i₂ : Info := f.info.fresh (frameFirst f) (b.nodes.length + 1)
        (ctxId C (b.nodes.length + 1 + 1))
      have hnodup₂ := nodup_range hnodup₁ hids₁ hstored hperm
      obtain ⟨nodes', hattach, hlen, hfinal⟩ := stored_attach
        (C := loadCtx C (b.nodes.length + 1) (b.nodes.length + 1 + 1))
        (f := { f with info := i₂ }) hstored₂ hnodup₂ rfl hs₁
      have hnode := node_kid hlookup hrootne hrec.1 hpage hkey hparent hattach
      have hperm' := (ids_attach (C := loadCtx C (b.nodes.length + 1) (b.nodes.length + 1 + 1))
        (f := { f with info := i₂ }) (i := i₂.addChild ⟨b.nodes.length + 1, [], frameFirst f,
          ctxId C (b.nodes.length + 1 + 1)⟩ b.nodes.length) rfl
        (setParent_id hs₁ (some (b.nodes.length + 1)))).trans hperm
      have hgoal := hperm'.trans (hids₁.append_right _)
      rw [setParent_fresh] at hfinal hgoal
      rw [List.append_assoc] at hgoal
      refine ⟨nodes', pageIds, count + 1, hnode, ?_, ?_, ?_⟩
      · simp only [loadCtx, hf, ctxId]
        exact hfinal
      · rw [hlen]
        show nodes.length = _
        omega
      · rw [List.range'_succ]
        simp only [loadCtx, hf, ctxId]
        exact hgoal

/-! ## Links after loading -/

theorem filterMap_onDisk {ks : List (Bytes × Link)} (h : ∀ e ∈ ks, e.2 = .onDisk (some e.1)) :
    ks.filterMap (fun e => e.2.id?) = [] :=
  List.filterMap_eq_nil_iff.mpr fun e he => by rw [h e he]; rfl

/-- A block of a linked tree is still linked when it is loaded: its children are blocks. -/
theorem linked_fresh {s : NodeTree} (h : Holds linkTag linked s) (hun : s.info.loaded = none)
    (first : Option Bytes) (id : Nat) (parent : Option Nat) :
    Holds linkTag linked (s.setInfo (s.info.fresh first id parent)) := by
  cases s with
  | leaf i d =>
    refine (holds_leaf _ d).mpr fun r hr => ?_
    obtain rfl := Option.some.inj hr
    rfl
  | branch i ks =>
    obtain ⟨⟨hne, hkids⟩, hsub⟩ := (holds_branch i ks).mp h
    simp only [show i.loaded = none from hun] at hkids
    refine (holds_branch _ ks).mpr ⟨⟨hne, ?_, fun e he => .inl (hkids e he)⟩, hsub⟩
    rw [filterMap_onDisk hkids]

/-- The surroundings of a block that was loaded. -/
theorem linked_loadCtx {C : TreeCtx} :
    ∀ {first : Option Bytes} (kid next : Nat), Around linkTag linked C (.onDisk first) →
      Around linkTag linked (loadCtx C kid next) (.loaded kid (ctxId C next) first) := by
  induction C with
  | nil => exact fun _ _ _ => trivial
  | cons f C ih =>
    intro first kid next h
    obtain ⟨⟨hne, hkids⟩, hsides, hC⟩ := h
    cases hf : f.info.loaded with
    | some r =>
      simp only [hf] at hkids
      obtain ⟨hchildren, hall⟩ := hkids
      have hkey : first = some f.key := by
        rcases hall (f.key, .onDisk first) (by simp) with hd | ⟨id, hd⟩
        · exact Link.onDisk.inj hd
        · cases hd
      simp only [loadCtx, hf, ctxId]
      refine ⟨⟨by simp, ?_, ?_⟩, hsides, ?_⟩
      · -- the new child is the last one of the list, wherever its key stands
        simp only [List.filterMap_append, List.filterMap_cons, Link.id?] at hchildren ⊢
        exact (List.perm_append_singleton kid _).trans
          ((hchildren.cons kid).trans List.perm_middle.symm)
      · simp only [List.forall_mem_append, List.forall_mem_cons] at hall ⊢
        exact ⟨hall.1, .inr ⟨kid, by rw [hkey]⟩, hall.2.2⟩
      · simpa [linkTag, Info.link, Info.addChild, hf] using hC
    | none =>
      simp only [hf, List.forall_mem_append, List.forall_mem_cons] at hkids
      obtain ⟨hpre, hkey, hpost⟩ := hkids
      obtain rfl : first = some f.key := Link.onDisk.inj hkey
      have htag : linkTag.branch f.info (f.pre.map Prod.fst ++ f.key :: f.post.map Prod.fst) =
          .onDisk (frameFirst f) := by
        cases hp : f.pre <;> simp [linkTag, Info.link, hf, frameFirst, hp]
      rw [htag] at hC
      simp only [loadCtx, hf, ctxId]
      refine ⟨⟨by simp, ?_, ?_⟩, hsides, ih next (next + 1) hC⟩
      · rw [List.filterMap_append, List.filterMap_cons, filterMap_onDisk hpre,
          filterMap_onDisk hpost]
        exact List.Perm.refl _
      · simp only [List.forall_mem_append, List.forall_mem_cons]
        exact ⟨fun e he => .inl (hpre e he), .inr ⟨kid, rfl⟩, fun e he => .inl (hpost e he)⟩

theorem tag_link_unloaded {s : NodeTree} (hun : s.info.loaded = none) :
    tag linkTag s = .onDisk (firstKey? Leaf.key s) := by
  cases s with
  | leaf i d => simp [linkTag, Info.link, show i.loaded = none from hun, firstKey?, ownKeys]
  | branch i ks => simp [linkTag, Info.link, show i.loaded = none from hun, firstKey?, ownKeys]

/-- The tree after loading a block is linked. -/
theorem linked_load {C : TreeCtx} {s : NodeTree} (h : Holds linkTag linked (plug C s))
    (hun : s.info.loaded = none) (kid next : Nat) :
    Holds linkTag linked (plug (loadCtx C kid next)
      (s.setInfo (s.info.fresh (firstKey? Leaf.key s) kid (ctxId C next)))) := by
  obtain ⟨hC, hs⟩ := (holds_plug C s).mp h
  rw [tag_link_unloaded hun] at hC
  refine (holds_plug _ _).mpr ⟨?_, linked_fresh hs hun _ _ _⟩
  have htag : tag linkTag (s.setInfo (s.info.fresh (firstKey? Leaf.key s) kid (ctxId C next))) =
      .loaded kid (ctxId C next) (firstKey? Leaf.key s) := by
    cases s <;> rfl
  rw [htag]
  exact linked_loadCtx kid next hC

/-- Loading changes records only. -/
theorem map_load (g : List Leaf → List Leaf) (C : TreeCtx) (s : NodeTree) (first : Option Bytes)
    (kid next id : Nat) (parent : Option Nat) :
    (plug (loadCtx C kid next) (s.setInfo (s.info.fresh first id parent))).map Info.strip g =
      (plug C s).map Info.strip g := by
  rw [plug_map, plug_map]
  have hs : (s.setInfo (s.info.fresh first id parent)).map Info.strip g = s.map Info.strip g := by
    cases s <;> simp [setInfo, Info.fresh, Info.strip]
  rw [hs]
  congr 1
  induction C generalizing kid next with
  | nil => rfl
  | cons f C ih =>
    cases hf : f.info.loaded with
    | some r => simp [loadCtx, hf, Info.addChild, Info.strip]
    | none =>
      simp only [loadCtx, hf, List.map_cons, ih next (next + 1)]
      rfl

end Load

end Tagdata.Analysis
