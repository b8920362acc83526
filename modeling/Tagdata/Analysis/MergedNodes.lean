import Tagdata.Analysis.Opened

/-!
# One visit of `merge_nodes`

While a commit merges nodes, the arena of a bucket still stands for a tree: `Arranged` says so.
Unlike the tree of an operation it need not be in order, since the separators of joined branches
are not renewed before the nodes are written; separators of one depth are still different, so a
node finds its own element in its parent.
-/

set_option autoImplicit false

namespace Tagdata.Analysis

open Tagdata.Library Tagdata.Library.SearchTree Tagdata.Model

theorem nodup_of_subperm {α : Type} {l l' : List α} (h : l'.Subperm l) (hl : l.Nodup) :
    l'.Nodup := by
  obtain ⟨m, hm, hsub⟩ := h
  exact hm.nodup_iff.mp (hl.sublist hsub)

/-! ## Separators and their depths -/

mutual

/-- The separators of a tree, each with its depth. -/
def levels : NodeTree → List (Nat × Bytes)
  | .leaf _ _ => []
  | .branch _ ks => kidLevels ks

/-- The separators in a list of children. -/
def kidLevels : Kids → List (Nat × Bytes)
  | [] => []
  | (k, u) :: ks => (0, k) :: (levels u).map (Prod.map Nat.succ id) ++ kidLevels ks

end

@[simp] theorem levels_leaf (i : Info) (d : List Leaf) : levels (leaf i d) = [] := by rw [levels]

@[simp] theorem levels_branch (i : Info) (ks : Kids) : levels (branch i ks) = kidLevels ks := by
  rw [levels]

theorem kidLevels_eq (ks : Kids) :
    kidLevels ks = ks.flatMap fun e => (0, e.1) :: (levels e.2).map (Prod.map Nat.succ id) := by
  induction ks with
  | nil => rw [kidLevels]; rfl
  | cons e ks ih => rw [kidLevels, ih, List.flatMap_cons]

@[simp] theorem levels_setInfo (i : Info) (s : NodeTree) : levels (s.setInfo i) = levels s := by
  cases s <;> simp [setInfo]

/-- Fewer separators at a place, fewer in the tree. -/
theorem levels_plug {C : TreeCtx} {s s' : NodeTree} (h : (levels s').Subperm (levels s)) :
    (levels (plug C s')).Subperm (levels (plug C s)) := by
  induction C generalizing s s' with
  | nil => exact h
  | cons f C ih =>
    refine ih ?_
    simp only [Frame.fill, levels_branch, kidLevels_eq, List.flatMap_append, List.flatMap_cons]
    obtain ⟨l, hl, hsub⟩ := h
    refine ⟨_, ?_, (((hsub.map (Prod.map Nat.succ id)).cons_cons (0, f.key)).append_right _
      |>.append_left _)⟩
    exact (((hl.map _).cons _).append_right _).append_left _

theorem nodup_levels {C : TreeCtx} {s : NodeTree} (h : (levels (plug C s)).Nodup) :
    (levels s).Nodup := by
  induction C generalizing s with
  | nil => exact h
  | cons f C ih =>
    have hfill := ih h
    simp only [Frame.fill, levels_branch, kidLevels_eq, List.flatMap_append, List.flatMap_cons,
      List.nodup_append, List.nodup_cons] at hfill
    exact hfill.2.1.1.2.of_map

/-- The children of one branch have different separators. -/
theorem nodup_separators {C : TreeCtx} {j : Info} {ks : Kids}
    (h : (levels (plug C (branch j ks))).Nodup) : (ks.map Prod.fst).Nodup := by
  have hroots : (ks.map fun e => (0, e.1)).Sublist (kidLevels ks) := by
    rw [kidLevels_eq, List.map_eq_flatMap]
    exact List.Sublist.flatMap_right ks fun e _ => by simp
  have hpairs : ((ks.map Prod.fst).map (Prod.mk 0)).Nodup := by
    rw [List.map_map]
    exact hroots.nodup (nodup_levels h)
  exact hpairs.of_map

/-! ## Slots -/

theorem getNode_ok {b : InnerBucket} {x : Nat} {n : Node} :
    b.getNode x = .ok n ↔ b.nodes[x]? = some n := by
  cases h : b.nodes[x]? <;> simp [InnerBucket.getNode, h]

/-- Every node stands in the slot of its id. -/
def Slotted (b : InnerBucket) : Prop := ∀ (x : Nat) (n : Node), b.nodes[x]? = some n → n.id = x

theorem Slotted.setNode {b : InnerBucket} (h : Slotted b) (m : Node) : Slotted (b.setNode m) := by
  intro x n hx
  rw [InnerBucket.setNode, List.getElem?_set] at hx
  split_ifs at hx with heq hlt
  · rw [← Option.some.inj hx]
    exact heq
  · exact h x n hx

/-- The tree that the nodes and blocks of a bucket stand for during `merge_nodes`; a node that is
not in it any more is deleted. -/
structure Arranged (P : Pages) (b : InnerBucket) (t : NodeTree) : Prop where
  stored : SearchTree.Holds pageTag (stored P b) t
  linked : SearchTree.Holds linkTag linked t
  root : b.bucketMeta.rootPage = t.info.page
  heads : (heads t).Nodup
  ids : (ids t).Nodup
  distinct : (levels t).Nodup
  slots : Slotted b
  alive : ∀ x n, b.nodes[x]? = some n → n.deleted = false → x ∈ Analysis.ids t

/-- The ids in a list of children. -/
def allIds (ks : Kids) : List Nat := ks.flatMap fun e => ids e.2

/-- The first pages in a list of children. -/
def allHeads (ks : Kids) : List Nat := ks.flatMap fun e => heads e.2

theorem ids_eq (u : NodeTree) : ids u = u.info.id?.toList ++ allIds u.kids := by
  cases h : u.info.id? <;> simp [ids, allIds, infos_root u, h, List.filterMap_flatMap]

theorem heads_eq (u : NodeTree) : heads u = u.info.page :: allHeads u.kids := by
  simp [heads, allHeads, infos_root u, List.map_flatMap]

/-- A tree is stored when its root and its children are. -/
theorem stored_of_root {P : Pages} {b : InnerBucket} {u : NodeTree} 
    (h : StoredAt P b u.info (nodeData u))
    (hkids : ∀ e ∈ u.kids, SearchTree.Holds pageTag (stored P b) e.2 ∧ 2 ≤ e.2.info.page) :
    SearchTree.Holds pageTag (stored P b) u := by
  cases u with
  | leaf i d => exact (holds_leaf i d).mpr h
  | branch i ks =>
    refine (holds_branch i ks).mpr ⟨⟨h, ?_⟩, fun e he => (hkids e he).1⟩
    simp only [tags, List.forall_mem_map, tag_page]
    exact fun e he => (hkids e he).2

/-- The label of a branch that lost a child. -/
def Info.dropChild (i : Info) (r : NodeRec) (kid : Nat) : Info :=
  { i with loaded := some { r with children := r.children.erase kid } }

section Rebuild

variable {P : Pages} {b b' : InnerBucket} {C : TreeCtx} {j : Info} {ks ks' : Kids} {r : NodeRec}

theorem ids_branch_loaded (hr : j.loaded = some r) :
    Analysis.ids (branch j ks) = r.id :: allIds ks := by
  simp [ids_eq, Info.id?, hr]

/-- A branch loses the child with the id `gone`, and of the other nodes below it only those in
`touched` change: what has to hold at this branch for the whole tree. -/
theorem Arranged.rebuild {gone : Nat} (touched : List Nat)
    (h : Arranged P b (plug C (branch j ks))) (hr : j.loaded = some r)
    (hpages : b'.pageNodeIds = b.pageNodeIds)
    (hroot : b'.bucketMeta.rootPage = b.bucketMeta.rootPage) (hslots : Slotted b')
    (hself : b'.nodes[r.id]? = some ((j.dropChild r gone).nodeOf
      { r with children := r.children.erase gone } (branchData (tags pageTag ks'))))
    (hsame : ∀ x, x ≠ r.id → x ≠ gone → x ∉ touched → b'.nodes[x]? = b.nodes[x]?)
    (hdead : ∀ m : Node, b'.nodes[gone]? = some m → m.deleted = true)
    (htouched : ∀ x ∈ touched, x ∈ allIds ks)
    (hids : (allIds ks).Perm (gone :: allIds ks')) (hheads : (allHeads ks').Subperm (allHeads ks))
    (hlevels : (kidLevels ks').Subperm (kidLevels ks))
    (hkids : ∀ e ∈ ks', SearchTree.Holds pageTag (Analysis.stored P b') e.2 ∧ 2 ≤ e.2.info.page)
    (hlinked : SearchTree.Holds linkTag Analysis.linked (branch (j.dropChild r gone) ks')) :
    Arranged P b' (plug C (branch (j.dropChild r gone) ks')) := by
  obtain ⟨hC, -, hbranch⟩ := stored_parts h.stored
  simp only [StoredAt, info_branch, hr] at hbranch
  obtain ⟨hlinkC, -⟩ := (holds_plug C _).mp h.linked
  have hstored : SearchTree.Holds pageTag (Analysis.stored P b')
      (branch (j.dropChild r gone) ks') := by
    refine stored_of_root ?_ hkids
    simp only [StoredAt, info_branch, Info.dropChild, hpages]
    exact ⟨hbranch.1, hself⟩
  have htag : tag linkTag (branch (j.dropChild r gone) ks') = tag linkTag (branch j ks) := by
    simp [linkTag, Info.link, hr, Info.dropChild]
  have hnew : Analysis.ids (branch (j.dropChild r gone) ks') = r.id :: allIds ks' := by
    simp [ids_eq, Info.id?, Info.dropChild]
  have hold := (ids_plug C _).nodup_iff.mp h.ids
  rw [ids_branch_loaded hr] at hold
  refine ⟨(holds_plug C _).mpr ⟨?_, hstored⟩, (holds_plug C _).mpr ⟨?_, hlinked⟩, ?_, ?_, ?_, ?_,
    hslots, ?_⟩
  · rw [tag_page]
    refine around_agrees hC fun i hi => ⟨by rw [hpages], fun q hq => ?_⟩
    have hx : q.id ∈ ctxIds C := List.mem_filterMap.mpr ⟨i, hi, by simp [Info.id?, hq]⟩
    have hout : ∀ y ∈ r.id :: allIds ks, q.id ≠ y := (List.nodup_append.mp hold).2.2 _ hx
    refine hsame _ (hout _ List.mem_cons_self) ?_ fun hmem => ?_
    · exact hout _ (List.mem_cons_of_mem _ (hids.mem_iff.mpr List.mem_cons_self))
    · exact hout _ (List.mem_cons_of_mem _ (htouched _ hmem)) rfl
  · rwa [htag]
  · rw [hroot, h.root]
    cases C with
    | nil => rfl
    | cons f C => rw [info_plug_cons f C _ (branch (j.dropChild r gone) ks')]
  · have hold := (heads_plug C _).nodup_iff.mp h.heads
    rw [heads_eq] at hold
    refine (heads_plug C _).nodup_iff.mpr ?_
    rw [heads_eq]
    exact nodup_of_subperm ((List.subperm_append_left _).mpr ((List.subperm_cons _).mpr hheads))
      hold
  · refine (ids_plug C _).nodup_iff.mpr ?_
    rw [hnew]
    refine nodup_of_subperm ((List.subperm_append_left _).mpr ((List.subperm_cons _).mpr ?_)) hold
    exact hids.symm.subperm_left.mp (List.sublist_cons_self _ _).subperm
  · refine nodup_of_subperm (levels_plug ?_) h.distinct
    simpa using hlevels
  · -- a node that is not deleted is the branch itself, around it or below it
    intro x m hx hm
    have hne : x ≠ gone := by
      rintro rfl
      simp [hdead m hx] at hm
    refine (ids_plug C _).mem_iff.mpr ?_
    rw [hnew, List.mem_append, List.mem_cons]
    by_cases hown : x = r.id
    · exact .inr (.inl hown)
    have hin : x ∈ ctxIds C ∨ x ∈ allIds ks := by
      by_cases hmem : x ∈ touched
      · exact .inr (htouched x hmem)
      · have hplace := (ids_plug C _).mem_iff.mp
          (h.alive x m ((hsame x hown hne hmem).symm.trans hx) hm)
        rw [ids_branch_loaded hr, List.mem_append, List.mem_cons] at hplace
        tauto
    rw [hids.mem_iff, List.mem_cons] at hin
    tauto

end Rebuild

theorem Arranged.congr {P : Pages} {b b' : InnerBucket} {t : NodeTree} (h : Arranged P b t)
    (hnodes : b'.nodes = b.nodes) (hids : b'.pageNodeIds = b.pageNodeIds)
    (hroot : b'.bucketMeta.rootPage = b.bucketMeta.rootPage) : Arranged P b' t where
  stored := holds_agrees h.stored fun i _ => ⟨by rw [hids], fun r _ => by rw [hnodes]⟩
  linked := h.linked
  root := hroot.trans h.root
  heads := h.heads
  ids := h.ids
  distinct := h.distinct
  slots := by unfold Slotted; rw [hnodes]; exact h.slots
  alive := by rw [hnodes]; exact h.alive

/-! ## Loading a sibling -/

section Load

variable {P : Pages} {b : InnerBucket} {C : TreeCtx} {f : Frame Bytes Info Leaf} {s : NodeTree}
  {r : NodeRec}

/-- `node` on a block below a node that the caller has at hand. -/
theorem node_below {fuel page overflow parentId : Nat} {data : NodeData} {key : Bytes}
    {b₂ : InnerBucket} (hlookup : b.pageNodeIds.lookup page = none)
    (hroot : b.bucketMeta.rootPage ≠ page) (hparent : (b.pageParents.lookup page).isSome)
    (hpage : P.nodePage page = .ok ⟨page, overflow, .ofNodeData data⟩)
    (hkey : data.firstKey = .ok key)
    (hattach : attach (push b page (blockNode b.nodes.length page overflow data)) parentId
      b.nodes.length = .ok b₂) :
    InnerBucket.node P (fuel + 1) (.page page) (some parentId) b = .ok b.nodes.length b₂ := by
  simp only [attach, except_bind_eq_ok, push, blockNode] at hattach
  obtain ⟨pn, hpn, pn', hinsert, n, hn, hb₂⟩ := hattach
  obtain rfl := Except.ok.inj hb₂
  obtain ⟨parentPage, hparent⟩ := Option.isSome_iff_exists.mp hparent
  rw [InnerBucket.node]
  simp [estate_bind, estate_map, hlookup, hroot, hparent, hpage, Node.fromPage,
    nodeData_ofNodeData, hkey, hpn, hinsert, hn]

/-- Attaching touches the two nodes only. -/
theorem attach_other {b' : InnerBucket} {p c : Nat} (h : attach b p c = .ok b')
    (hslots : Slotted b) : Slotted b' ∧ ∀ x, x ≠ p → x ≠ c → b'.nodes[x]? = b.nodes[x]? := by
  simp only [attach, except_bind_eq_ok] at h
  obtain ⟨pn, hpn, pn', hinsert, n, hn, hb'⟩ := h
  obtain rfl := Except.ok.inj hb'
  have hid : pn'.id = p := by
    have hp := hslots p pn (getNode_ok.mp hpn)
    unfold Node.insertChild at hinsert
    split at hinsert
    · rwa [← Except.ok.inj hinsert]
    · cases hinsert
  have hset := hslots.setNode pn'
  have hidn : n.id = c := hset c n (getNode_ok.mp hn)
  refine ⟨hset.setNode _, fun x hxp hxc => ?_⟩
  simp [InnerBucket.setNode, hid, hidn, hxp.symm, hxc.symm]

/-- The block of a child is loaded below its parent. -/
theorem Arranged.load (h : Arranged P b (plug (f :: C) s)) (hr : f.info.loaded = some r)
    (hun : s.info.loaded = none) (hparent : (b.pageParents.lookup s.info.page).isSome)
    (fuel : Nat) :
    ∃ b', InnerBucket.node P (fuel + 1) (.page s.info.page) (some r.id) b =
        .ok b.nodes.length b' ∧
      Arranged P b' (plug ({ f with info := f.info.addChild r b.nodes.length } :: C)
        (s.setInfo (s.info.fresh (firstKey? Leaf.key s) b.nodes.length (some r.id)))) := by
  obtain ⟨overflow, hpage, hlookup, hnew⟩ := stored_push h.stored h.heads hun
  have hfirst := firstKey_unloaded h.linked hun
  have hids := ids_plug_fresh (C := f :: C) hun (firstKey? Leaf.key s) b.nodes.length none
  have hnodup := nodup_fresh h.stored h.ids hids
  have hs : (s.setInfo (s.info.fresh (firstKey? Leaf.key s) b.nodes.length none)).info.loaded =
      some ⟨b.nodes.length, [], firstKey? Leaf.key s, none⟩ := by rw [info_setInfo]; rfl
  obtain ⟨nodes, hattach, hlen, hstored⟩ := stored_attach hnew hnodup hr hs
  have hperm := (ids_attach (C := C) (f := f) (i := f.info.addChild r b.nodes.length)
    (by simp [Info.id?, Info.addChild, hr]) (setParent_id hs (some r.id))).trans hids
  rw [setParent_fresh] at hstored hperm
  have hlinked := linked_load h.linked hun b.nodes.length 0
  simp only [loadCtx, hr, ctxId] at hlinked
  have hmap := fun g => map_load g (f :: C) s (firstKey? Leaf.key s) b.nodes.length 0
    b.nodes.length (some r.id)
  simp only [loadCtx, hr] at hmap
  have hroot : b.bucketMeta.rootPage ≠ s.info.page := by
    rw [h.root]
    exact page_ne_root h.heads
  have hpushed : Slotted (push b s.info.page (blockNode b.nodes.length s.info.page overflow
      (nodeData s))) := by
    intro x n hx
    rcases Nat.lt_or_ge x b.nodes.length with hlt | hge
    · rw [push, List.getElem?_append_left hlt] at hx
      exact h.slots x n hx
    · obtain rfl : x = b.nodes.length := by
        have hlt := (List.getElem?_eq_some_iff.mp hx).1
        simp only [push, List.length_append, List.length_singleton] at hlt
        omega
      obtain rfl : blockNode b.nodes.length s.info.page overflow (nodeData s) = n := by
        simpa [push] using hx
      rfl
  have hother := attach_other hattach hpushed
  refine ⟨_, node_below hlookup hroot hparent hpage (firstKey_nodeData hfirst) hattach,
    hstored, hlinked, ?_, ?_, ?_, ?_, hother.1, ?_⟩
  · exact h.root.trans (page_of_map (hmap id)).symm
  · rw [heads_of_map (hmap id)]
    exact h.heads
  · exact nodup_fresh h.stored h.ids hperm
  · refine nodup_of_subperm (levels_plug (C := C) (s := f.fill s) ?_) h.distinct
    have hsame : levels (({ f with info := f.info.addChild r b.nodes.length } :
        Frame Bytes Info Leaf).fill (s.setInfo (s.info.fresh (firstKey? Leaf.key s)
          b.nodes.length (some r.id)))) = levels (f.fill s) := by
      simp [Frame.fill, kidLevels_eq]
    rw [hsame]
  · intro x n hx hn
    by_contra hnot
    rw [hperm.mem_iff, List.mem_append, List.mem_singleton, not_or] at hnot
    have hself : x ≠ r.id := by
      rintro rfl
      refine hnot.1 ((ids_plug C _).mem_iff.mpr (List.mem_append_right _ ?_))
      simp [Frame.fill, ids_branch_loaded hr]
    rw [hother.2 x hself hnot.2] at hx
    refine hnot.1 (h.alive x n ?_ hn)
    rcases Nat.lt_trichotomy x b.nodes.length with hx' | hx' | hx'
    · rwa [push, List.getElem?_append_left hx'] at hx
    · exact absurd hx' hnot.2
    · rw [push, List.getElem?_eq_none (by simp; omega)] at hx
      cases hx

end Load

/-! ## Handing children to a sibling -/

/-- A child whose parent is the node with the given id. -/
def adopt (p : Nat) (u : NodeTree) : NodeTree :=
  match u.info.loaded with
  | some r => u.setInfo (u.info.setParent r (some p))
  | none => u

/-- A node with another parent. -/
def rehang (p : Nat) (m : Node) : Node := { m with parent := some p }

/-- The ids of the loaded children. -/
def kidIds (ks : Kids) : List Nat := ks.filterMap fun e => e.2.info.id?

section Adopt

variable {P : Pages} {b b' : InnerBucket} {p : Nat} {u : NodeTree}

theorem adopt_loaded {r : NodeRec} (h : u.info.loaded = some r) :
    adopt p u = u.setInfo (u.info.setParent r (some p)) := by
  rw [adopt, h]

theorem adopt_block (h : u.info.loaded = none) : adopt p u = u := by rw [adopt, h]

@[simp] theorem adopt_page (p : Nat) (u : NodeTree) : (adopt p u).info.page = u.info.page := by
  cases h : u.info.loaded <;> simp [adopt, h, Info.setParent]

@[simp] theorem adopt_id (p : Nat) (u : NodeTree) : (adopt p u).info.id? = u.info.id? := by
  cases h : u.info.loaded <;> simp [adopt, h, Info.setParent, Info.id?]

@[simp] theorem adopt_kids (p : Nat) (u : NodeTree) : (adopt p u).kids = u.kids := by
  cases h : u.info.loaded <;> simp [adopt, h]

@[simp] theorem adopt_levels (p : Nat) (u : NodeTree) : levels (adopt p u) = levels u := by
  cases h : u.info.loaded <;> simp [adopt, h]

@[simp] theorem adopt_ids (p : Nat) (u : NodeTree) : ids (adopt p u) = ids u := by
  rw [ids_eq, ids_eq u, adopt_id, adopt_kids]

@[simp] theorem adopt_heads (p : Nat) (u : NodeTree) : heads (adopt p u) = heads u := by
  rw [heads_eq, heads_eq u, adopt_page, adopt_kids]

/-- The ids of children, roots first. -/
theorem allIds_perm (ks : Kids) :
    (allIds ks).Perm (kidIds ks ++ ks.flatMap fun e => allIds e.2.kids) := by
  have hroots : kidIds ks = ks.flatMap fun e => e.2.info.id?.toList := by
    rw [kidIds, List.filterMap_eq_flatMap_toList]
  rw [hroots]
  refine List.Perm.trans ?_ (List.flatMap_append_perm ks _ _).symm
  rw [allIds, List.flatMap_congr fun e _ => ids_eq e.2]

theorem tag_link_loaded {r : NodeRec} (h : u.info.loaded = some r) :
    tag linkTag u = .loaded r.id r.parent r.originalKey := by
  cases u with
  | leaf i d => simp [linkTag, Info.link, show i.loaded = some r from h]
  | branch i ks => simp [linkTag, Info.link, show i.loaded = some r from h]

/-- A child hangs below the node with the given id under its separator. -/
def Hangs (p : Nat) (e : Bytes × NodeTree) : Prop :=
  tag linkTag e.2 = .onDisk (some e.1) ∨ ∃ id, tag linkTag e.2 = .loaded id (some p) (some e.1)

theorem hangs_adopt {q : Nat} {k : Bytes} (h : Hangs q (k, u)) : Hangs p (k, adopt p u) := by
  unfold Hangs at *
  cases hl : u.info.loaded with
  | none =>
    rw [tag_link_unloaded hl] at h
    rw [adopt_block hl, tag_link_unloaded hl]
    exact .inl (h.resolve_right (by simp))
  | some r =>
    rw [tag_link_loaded hl] at h
    have hkey : r.parent = some q ∧ r.originalKey = some k := by simpa using h
    have hnew : (adopt p u).info.loaded = some { r with parent := some p } := by
      rw [adopt_loaded hl, info_setInfo]
      rfl
    rw [tag_link_loaded hnew]
    exact .inr ⟨r.id, by rw [hkey.2]⟩

theorem linked_adopt (h : SearchTree.Holds linkTag linked u) :
    SearchTree.Holds linkTag linked (adopt p u) := by
  cases hl : u.info.loaded with
  | none => rwa [adopt_block hl]
  | some r =>
    rw [adopt_loaded hl]
    cases u with
    | leaf i d =>
      refine (holds_leaf _ d).mpr fun q hq => ?_
      rw [← Option.some.inj hq]
      exact (holds_leaf i d).mp h r hl
    | branch i ks =>
      obtain ⟨⟨hne, hkids⟩, hsub⟩ := (holds_branch i ks).mp h
      simp only [show i.loaded = some r from hl] at hkids
      exact (holds_branch _ ks).mpr ⟨⟨hne, hkids⟩, hsub⟩

/-- A child stays stored when its slot has the new parent and nothing below it was touched. -/
theorem stored_adopt (h : SearchTree.Holds pageTag (stored P b) u)
    (hids : b'.pageNodeIds = b.pageNodeIds)
    (hroot : ∀ x ∈ u.info.id?, b'.nodes[x]? = (b.nodes[x]?).map (rehang p))
    (hbelow : ∀ x ∈ allIds u.kids, b'.nodes[x]? = b.nodes[x]?) :
    SearchTree.Holds pageTag (stored P b') (adopt p u) := by
  have hdata := stored_root h
  obtain ⟨-, hkids, -⟩ := stored_parts (C := []) (s := u) h
  have hagree : ∀ e ∈ u.kids, SearchTree.Holds pageTag (stored P b') e.2 := fun e he =>
    holds_agrees (hkids e he).1 fun i hi => ⟨by rw [hids], fun r hr => hbelow _
      (List.mem_flatMap.mpr ⟨e, he, List.mem_filterMap.mpr ⟨i, hi, by simp [Info.id?, hr]⟩⟩)⟩
  have hnew : StoredAt P b' (adopt p u).info (nodeData u) := by
    cases hl : u.info.loaded with
    | none =>
      simp only [StoredAt, hl] at hdata
      simp only [adopt_block hl, StoredAt, hl, hids]
      exact hdata
    | some r =>
      simp only [StoredAt, hl] at hdata
      simp only [adopt_loaded hl, info_setInfo, StoredAt, Info.setParent, hids]
      refine ⟨hdata.1, ?_⟩
      rw [hroot r.id (by simp [Info.id?, hl]), hdata.2]
      rfl
  have hsame : nodeData (adopt p u) = nodeData u := by
    cases hl : u.info.loaded <;> simp [adopt, hl]
  refine stored_of_root (by rwa [hsame]) fun e he => ?_
  rw [adopt_kids] at he
  exact ⟨hagree e he, (hkids e he).2⟩

end Adopt

/-- The label of a node that got more children. -/
def Info.join (i : Info) (r : NodeRec) (moved : List Nat) : Info :=
  { i with loaded := some { r with children := r.children ++ moved } }

/-- The node with the record `r` took over the elements and the children `moved` of another. -/
inductive Joined (r : NodeRec) (moved : List Nat) : NodeTree → NodeTree → NodeTree → Prop
  | leaves {i j : Info} {d e d' : List Leaf} (perm : d'.Perm (d ++ e)) :
      Joined r moved (leaf i d) (leaf j e) (leaf (i.join r moved) d')
  | branches {i j : Info} {ks us ws : Kids}
      (perm : ws.Perm (ks ++ us.map fun e => (e.1, adopt r.id e.2))) :
      Joined r moved (branch i ks) (branch j us) (branch (i.join r moved) ws)

section Join

variable {P : Pages} {b b' : InnerBucket} {C : TreeCtx} {j : Info} {ks ks' rest : Kids}
  {n s w u : NodeTree} {kn k : Bytes} {r rn rs : NodeRec} {moved : List Nat}

theorem Joined.info (h : Joined r moved s n w) : w.info = s.info.join r moved := by
  cases h <;> rfl

theorem Joined.kids (h : Joined r moved s n w) :
    w.kids.Perm (s.kids ++ n.kids.map fun e => (e.1, adopt r.id e.2)) := by
  cases h with
  | leaves perm => exact .refl _
  | branches perm => exact perm

theorem levels_eq (u : NodeTree) : levels u = kidLevels u.kids := by
  cases u <;> simp [kidLevels]

theorem kidIds_tags (ks : Kids) :
    (tags linkTag ks).filterMap (fun e => e.2.id?) = kidIds ks := by
  simp only [tags, List.filterMap_map, kidIds]
  refine List.filterMap_congr fun e _ => ?_
  cases hl : e.2.info.loaded with
  | none => simp [tag_link_unloaded hl, Link.id?, Info.id?, hl]
  | some q => simp [tag_link_loaded hl, Link.id?, Info.id?, hl]

/-- What `linked` says of a loaded branch. -/
theorem linked_branch (hr : j.loaded = some r) :
    SearchTree.Holds linkTag linked (branch j ks) ↔ ks ≠ [] ∧ r.children.Perm (kidIds ks) ∧
      ∀ e ∈ ks, Hangs r.id e ∧ SearchTree.Holds linkTag linked e.2 := by
  have htags : ks ≠ [] ↔ tags linkTag ks ≠ [] := by simp [tags]
  simp only [holds_branch, linked, hr, kidIds_tags, htags, and_assoc, forall_and]
  refine and_congr_right fun _ => and_congr_right fun _ => and_congr_left fun _ => ?_
  simp only [tags, List.forall_mem_map]
  rfl

theorem linked_leaf {i : Info} {d : List Leaf} (hr : i.loaded = some r) :
    SearchTree.Holds linkTag linked (leaf i d) ↔ r.children = [] := by
  simp [holds_leaf, linked, hr]

/-- The children a node records are the loaded ones. -/
theorem linked_children (h : SearchTree.Holds linkTag linked u) (hr : u.info.loaded = some r) :
    r.children.Perm (kidIds u.kids) := by
  cases u with
  | leaf i d => rw [(linked_leaf hr).mp h]; rfl
  | branch i ks => exact ((linked_branch hr).mp h).2.1

theorem kidIds_adopt (p : Nat) (us : Kids) :
    kidIds (us.map fun e => (e.1, adopt p e.2)) = kidIds us := by
  simp [kidIds, List.filterMap_map]

theorem linked_joined (hs : SearchTree.Holds linkTag linked s)
    (hn : SearchTree.Holds linkTag linked n)
    (hrs : s.info.loaded = some rs) (hrn : n.info.loaded = some rn)
    (h : Joined rs rn.children s n w) : SearchTree.Holds linkTag linked w := by
  cases h with
  | leaves perm =>
    have hself := (linked_leaf hrs).mp hs
    have hother := (linked_leaf hrn).mp hn
    exact (linked_leaf rfl).mpr (by simp [hself, hother])
  | @branches i j ks us ws perm =>
    obtain ⟨hne, hchildren, hkids⟩ := (linked_branch hrs).mp hs
    obtain ⟨-, hmoved, hkidsn⟩ := (linked_branch hrn).mp hn
    refine (linked_branch rfl).mpr ⟨fun hnil => ?_, ?_, fun e he => ?_⟩
    · rw [hnil, List.nil_perm, List.append_eq_nil_iff] at perm
      exact hne perm.1
    · refine (hchildren.append hmoved).trans (.trans (.of_eq ?_) (perm.filterMap _).symm)
      rw [List.filterMap_append, ← kidIds_adopt rs.id us]
      rfl
    · rcases List.mem_append.mp (perm.mem_iff.mp he) with he | he
      · exact hkids e he
      · obtain ⟨v, hv, rfl⟩ := List.mem_map.mp he
        exact ⟨hangs_adopt (hkidsn v hv).1, linked_adopt (hkidsn v hv).2⟩

/-- What a list of children collects from labels and separators loses the part of the node that
was merged. -/
theorem Joined.flatMap {β : Type} {g : Bytes × NodeTree → List β} {x : Bytes → Info → List β}
    {φ : β → β} (hg : ∀ k u, g (k, u) = x k u.info ++ u.kids.flatMap fun e => (g e).map φ)
    (hadopt : ∀ k p u, g (k, adopt p u) = g (k, u))
    (hx : ∀ k (i : Info) r moved, i.loaded = some r → x k (i.join r moved) = x k i)
    (hks : ks.Perm ((kn, n) :: (k, s) :: rest)) (hks' : ks'.Perm ((k, w) :: rest))
    (hrs : s.info.loaded = some rs) (hw : Joined rs moved s n w) :
    (ks.flatMap g).Perm (x kn n.info ++ ks'.flatMap g) := by
  have hwkids : (w.kids.flatMap fun e => (g e).map φ).Perm
      ((s.kids.flatMap fun e => (g e).map φ) ++ n.kids.flatMap fun e => (g e).map φ) := by
    refine (hw.kids.flatMap_right _).trans (.of_eq ?_)
    simp only [List.flatMap_append, List.flatMap_map, hadopt]
  refine (hks.flatMap_right g).trans (.trans ?_ ((hks'.flatMap_right g).symm.append_left _))
  rw [List.flatMap_cons, List.flatMap_cons, List.flatMap_cons, hg kn n, hg k s, hg k w, hw.info,
    hx k _ _ _ hrs]
  simp only [List.append_assoc]
  refine (List.perm_append_comm_assoc _ _ _).trans ?_ |>.append_left _
  refine List.Perm.append_left _ ((List.perm_append_comm_assoc _ _ _).trans ?_)
  rw [← List.append_assoc]
  exact hwkids.symm.append_right _

theorem Joined.allIds (hks : ks.Perm ((kn, n) :: (k, s) :: rest))
    (hks' : ks'.Perm ((k, w) :: rest)) (hrn : n.info.loaded = some rn)
    (hrs : s.info.loaded = some rs) (hw : Joined rs moved s n w) :
    (allIds ks).Perm (rn.id :: Analysis.allIds ks') := by
  have h := hw.flatMap (g := fun e => ids e.2) (x := fun _ i => i.id?.toList) (φ := id)
    (fun _ u => by simp only [List.map_id]; exact ids_eq u) (fun _ p u => adopt_ids p u)
    (fun _ i r moved hi => by simp [Info.join, Info.id?, hi]) hks hks' hrs
  simpa [Analysis.allIds, Info.id?, hrn] using h

theorem Joined.allHeads (hks : ks.Perm ((kn, n) :: (k, s) :: rest))
    (hks' : ks'.Perm ((k, w) :: rest)) (hrs : s.info.loaded = some rs)
    (hw : Joined rs moved s n w) :
    (allHeads ks).Perm (n.info.page :: Analysis.allHeads ks') :=
  hw.flatMap (g := fun e => heads e.2) (x := fun _ i => [i.page]) (φ := id)
    (fun _ u => by simp only [List.map_id]; exact heads_eq u) (fun _ p u => adopt_heads p u)
    (fun _ i r moved hi => rfl) hks hks' hrs

theorem Joined.kidLevels (hks : ks.Perm ((kn, n) :: (k, s) :: rest))
    (hks' : ks'.Perm ((k, w) :: rest)) (hrs : s.info.loaded = some rs)
    (hw : Joined rs moved s n w) :
    (kidLevels ks).Perm ((0, kn) :: Analysis.kidLevels ks') := by
  rw [kidLevels_eq, kidLevels_eq]
  refine hw.flatMap (x := fun k _ => [(0, k)]) (φ := Prod.map Nat.succ id) (fun k u => ?_)
    (fun k p u => by simp) (fun _ i r moved hi => rfl) hks hks' hrs
  rw [levels_eq, kidLevels_eq, List.map_flatMap]
  rfl

/-- Where every id below a branch stands, for a child and a sibling of it. -/
theorem Arranged.places (h : Arranged P b (plug C (branch j ks))) (hr : j.loaded = some r)
    (hks : ks.Perm ((kn, n) :: (k, s) :: rest)) (hrn : n.info.loaded = some rn)
    (hrs : s.info.loaded = some rs) :
    (allIds ks).Perm (rn.id :: (rs.id :: rn.children ++
      ((n.kids.flatMap fun e => allIds e.2.kids) ++ (allIds s.kids ++ allIds rest)))) := by
  obtain ⟨-, hlinked⟩ := (holds_plug C _).mp h.linked
  have hmovedKids := linked_children
    (((linked_branch hr).mp hlinked).2.2 _ (hks.mem_iff.mpr List.mem_cons_self)).2 hrn
  refine (hks.flatMap_right _).trans ?_
  rw [List.flatMap_cons, List.flatMap_cons, ids_eq n, ids_eq s]
  simp only [Info.id?, hrn, hrs, Option.map_some, Option.toList_some, List.cons_append]
  rw [← List.append_assoc rn.children]
  refine .cons _ (List.perm_middle.trans (.cons _ ?_))
  exact ((allIds_perm n.kids).trans (hmovedKids.symm.append_right _)).append_right _

/-- A node of a branch was merged into another one: the tree after it. -/
theorem Arranged.join (h : Arranged P b (plug C (branch j ks))) (hr : j.loaded = some r)
    (hks : ks.Perm ((kn, n) :: (k, s) :: rest)) (hks' : ks'.Perm ((k, w) :: rest))
    (hrn : n.info.loaded = some rn) (hrs : s.info.loaded = some rs)
    (hw : Joined rs rn.children s n w) (hpages : b'.pageNodeIds = b.pageNodeIds)
    (hroot : b'.bucketMeta.rootPage = b.bucketMeta.rootPage) (hslots : Slotted b')
    (hself : b'.nodes[r.id]? = some ((j.dropChild r rn.id).nodeOf
      { r with children := r.children.erase rn.id } (branchData (tags pageTag ks'))))
    (hsib : b'.nodes[rs.id]? = some (w.info.nodeOf
      { rs with children := rs.children ++ rn.children } (nodeData w)))
    (hmoved : ∀ x ∈ rn.children, b'.nodes[x]? = (b.nodes[x]?).map (rehang rs.id))
    (hsame : ∀ x, x ≠ r.id → x ≠ rn.id → x ∉ rs.id :: rn.children → b'.nodes[x]? = b.nodes[x]?)
    (hdead : ∀ m : Node, b'.nodes[rn.id]? = some m → m.deleted = true) :
    Arranged P b' (plug C (branch (j.dropChild r rn.id) ks')) := by
  obtain ⟨-, hkids, -⟩ := stored_parts h.stored
  obtain ⟨-, hlinked⟩ := (holds_plug C _).mp h.linked
  obtain ⟨-, hchildren, hlinks⟩ := (linked_branch hr).mp hlinked
  have hn : (kn, n) ∈ ks := hks.mem_iff.mpr (by simp)
  have hs : (k, s) ∈ ks := hks.mem_iff.mpr (by simp)
  have hrest : ∀ e ∈ rest, e ∈ ks := fun e he => hks.mem_iff.mpr (by simp [he])
  have hmovedKids := linked_children (hlinks _ hn).2 hrn
  have hnkids := (stored_parts (C := []) (hkids _ hn).1).2.1
  obtain ⟨-, hskids, hsroot⟩ := stored_parts (C := []) (hkids _ hs).1
  simp only [StoredAt, hrs] at hsroot
  have hplaces := h.places hr hks hrn hrs
  have hall := (ids_plug C _).nodup_iff.mp h.ids
  rw [ids_branch_loaded hr, ((hplaces.cons r.id).append_left _).nodup_iff] at hall
  have hfree : ∀ x, (x ∈ n.kids.flatMap fun e => allIds e.2.kids) ∨ x ∈ allIds s.kids ∨
      x ∈ allIds rest → b'.nodes[x]? = b.nodes[x]? := by
    intro x hx
    simp only [List.nodup_append, List.nodup_cons, List.mem_append, List.mem_cons] at hall
    refine hsame x ?_ ?_ ?_ <;> grind
  have hagrees : ∀ (l : Kids), (∀ x ∈ allIds l, b'.nodes[x]? = b.nodes[x]?) → ∀ e ∈ l,
      SearchTree.Holds pageTag (Analysis.stored P b) e.2 →
        SearchTree.Holds pageTag (Analysis.stored P b') e.2 :=
    fun l hl e he hold => holds_agrees hold fun i hi => ⟨by rw [hpages], fun q hq => hl _
      (List.mem_flatMap.mpr ⟨e, he, List.mem_filterMap.mpr ⟨i, hi, by simp [Info.id?, hq]⟩⟩)⟩
  refine h.rebuild (rs.id :: rn.children) hr hpages hroot hslots hself hsame hdead
    (fun x hx => hplaces.mem_iff.mpr (List.mem_cons_of_mem _ (List.mem_append_left _ hx)))
    (hw.allIds hks hks' hrn hrs)
    ((hw.allHeads hks hks' hrs).symm.subperm_left.mp (List.sublist_cons_self _ _).subperm)
    ((hw.kidLevels hks hks' hrs).symm.subperm_left.mp (List.sublist_cons_self _ _).subperm)
    (fun e he => ?_) ((linked_branch rfl).mpr ⟨fun hnil => ?_, ?_, fun e he => ?_⟩)
  · rcases List.mem_cons.mp (hks'.mem_iff.mp he) with rfl | he
    · refine ⟨stored_of_root ?_ fun e he => ?_, ?_⟩
      · simp only [StoredAt, hw.info, Info.join, hpages]
        exact ⟨hsroot.1, by simpa [hw.info, Info.join] using hsib⟩
      · rcases List.mem_append.mp (hw.kids.mem_iff.mp he) with he | he
        · obtain ⟨hold, htwo⟩ := hskids e he
          exact ⟨hagrees s.kids (fun x hx => hfree x (.inr (.inl hx))) e he hold, htwo⟩
        · obtain ⟨v, hv, rfl⟩ := List.mem_map.mp he
          refine ⟨stored_adopt (hnkids v hv).1 hpages (fun x hx => hmoved x ?_)
            fun x hx => hfree x (.inl (List.mem_flatMap.mpr ⟨v, hv, hx⟩)), ?_⟩
          · exact hmovedKids.mem_iff.mpr (List.mem_filterMap.mpr ⟨v, hv, hx⟩)
          · rw [adopt_page]
            exact (hnkids v hv).2
      · rw [hw.info]
        exact (hkids _ hs).2
    · obtain ⟨hold, htwo⟩ := hkids e (hrest e he)
      exact ⟨hagrees rest (fun x hx => hfree x (.inr (.inr hx))) e he hold, htwo⟩
  · rw [hnil, List.nil_perm] at hks'
    cases hks'
  · have hold := hchildren.trans (hks.filterMap _)
    have hnew := hks'.filterMap fun e => e.2.info.id?
    simp only [List.filterMap_cons, Info.id?, hrn, hrs, hw.info, Info.join,
      Option.map_some] at hold hnew
    refine (hold.erase rn.id).trans (.trans (.of_eq ?_) hnew.symm)
    simp
  · rcases List.mem_cons.mp (hks'.mem_iff.mp he) with rfl | he
    · obtain ⟨hhang, hslinked⟩ := hlinks (k, s) hs
      refine ⟨?_, linked_joined hslinked (hlinks _ hn).2 hrs hrn hw⟩
      have htag : tag linkTag w = tag linkTag s := by
        rw [tag_link_loaded hrs, tag_link_loaded (u := w) (by rw [hw.info]; rfl)]
      unfold Hangs
      rw [htag]
      exact hhang
    · exact hlinks e (hrest e he)

end Join

section Drop

variable {P : Pages} {b b' : InnerBucket} {C : TreeCtx} {i j : Info} {pre post : Kids}
  {k : Bytes} {r rn : NodeRec}

/-- An empty leaf was taken out of a branch. -/
theorem Arranged.drop (h : Arranged P b (plug C (branch j (pre ++ (k, leaf i []) :: post))))
    (hr : j.loaded = some r) (hrn : i.loaded = some rn) (hne : pre ++ post ≠ [])
    (hpages : b'.pageNodeIds = b.pageNodeIds)
    (hroot : b'.bucketMeta.rootPage = b.bucketMeta.rootPage) (hslots : Slotted b')
    (hself : b'.nodes[r.id]? = some ((j.dropChild r rn.id).nodeOf
      { r with children := r.children.erase rn.id } (branchData (tags pageTag (pre ++ post)))))
    (hsame : ∀ x, x ≠ r.id → x ≠ rn.id → b'.nodes[x]? = b.nodes[x]?)
    (hdead : ∀ m : Node, b'.nodes[rn.id]? = some m → m.deleted = true) :
    Arranged P b' (plug C (branch (j.dropChild r rn.id) (pre ++ post))) := by
  obtain ⟨-, hkids, -⟩ := stored_parts h.stored
  obtain ⟨-, hlinked⟩ := (holds_plug C _).mp h.linked
  obtain ⟨-, hchildren, hlinks⟩ := (linked_branch hr).mp hlinked
  have hmem : ∀ e ∈ pre ++ post, e ∈ pre ++ (k, leaf i []) :: post := fun e he =>
    List.perm_middle.mem_iff.mpr (List.mem_cons_of_mem _ he)
  have hids : (allIds (pre ++ (k, leaf i []) :: post)).Perm (rn.id :: allIds (pre ++ post)) := by
    refine (List.perm_middle.flatMap_right _).trans (.of_eq ?_)
    rw [List.flatMap_cons, ids_eq]
    simp [Info.id?, hrn, allIds]
  have hall := (ids_plug C _).nodup_iff.mp h.ids
  rw [ids_branch_loaded hr, ((hids.cons r.id).append_left _).nodup_iff] at hall
  have hmiddle : ∀ {β : Type} (g : Bytes × NodeTree → List β), ((pre ++ post).flatMap g).Subperm
      ((pre ++ (k, leaf i []) :: post).flatMap g) := by
    intro β g
    rw [List.flatMap_append, List.flatMap_append, List.flatMap_cons]
    exact ((List.Sublist.refl _).append (List.sublist_append_right _ _)).subperm
  refine h.rebuild [] hr hpages hroot hslots hself (fun x hx hx' _ => hsame x hx hx')
    hdead (by simp) hids (hmiddle _) (by rw [kidLevels_eq, kidLevels_eq]; exact hmiddle _)
    (fun e he => ?_) ((linked_branch (r := { r with children := r.children.erase rn.id }) rfl).mpr
      ⟨hne, ?_, fun e he => hlinks e (hmem e he)⟩)
  · obtain ⟨hstored, htwo⟩ := hkids e (hmem e he)
    refine ⟨holds_agrees hstored fun i hi => ⟨by rw [hpages], fun q hq => ?_⟩, htwo⟩
    have hx : q.id ∈ allIds (pre ++ post) :=
      List.mem_flatMap.mpr ⟨e, he, List.mem_filterMap.mpr ⟨i, hi, by simp [Info.id?, hq]⟩⟩
    simp only [List.nodup_append, List.nodup_cons, List.mem_cons] at hall
    refine hsame _ ?_ ?_ <;> grind
  · have hold := (hchildren.trans (List.perm_middle.filterMap _)).erase rn.id
    simpa [Info.id?, hrn, kidIds] using hold

end Drop

/-! ## The visit -/

/-- The loaded branch with the id `x` stands over the children `ks` at a place. -/
def Arranges (P : Pages) (b : InnerBucket) (C : TreeCtx) (x : Nat) (ks : Kids) : Prop :=
  ∃ j r, Arranged P b (plug C (branch j ks)) ∧ j.loaded = some r ∧ r.id = x

/-- A node that took over another one, being loaded for it when it was not. -/
def TakesOver (s n w : NodeTree) : Prop :=
  ∃ r moved i, Joined r moved (s.setInfo i) n w ∧ ∀ q, s.info.loaded = some q → r.id = q.id

/-- What a visit does to the children of a branch, of which `rest` are not visited: the visited
child stays, is dropped, or is merged into a sibling. -/
inductive Visited (k : Bytes) (n : NodeTree) (rest ks' : Kids) : Prop
  | kept (h : (nodeData n).len ≠ 0 ∨ rest = []) (perm : ks'.Perm ((k, n) :: rest))
  | dropped {i : Info} (empty : n = leaf i []) (others : rest ≠ []) (perm : ks'.Perm rest)
  | merged {k' : Bytes} {s w : NodeTree} {rest' : Kids} (filled : (nodeData n).len ≠ 0)
      (sibling : rest.Perm ((k', s) :: rest')) (perm : ks'.Perm ((k', w) :: rest'))
      (takes : TakesOver s n w)

section Visit

variable {P : Pages} {b b' : InnerBucket} {C : TreeCtx} {j : Info} {n s : NodeTree} {k : Bytes}
  {r rn rs : NodeRec} {pre post : Kids} {fl fl' : TxFreelist} {fuel : Nat}

/-- The nodes after children were handed to another parent. -/
theorem reparent_nodes {p : Nat} {cs : List Nat} (hslots : Slotted b)
    (h : b.reparent p cs = .ok b') :
    b'.pageNodeIds = b.pageNodeIds ∧ b'.bucketMeta = b.bucketMeta ∧ Slotted b' ∧
      ∀ x, b'.nodes[x]? = if x ∈ cs then (b.nodes[x]?).map (rehang p) else b.nodes[x]? := by
  induction cs generalizing b with
  | nil =>
    obtain rfl := Except.ok.inj h
    exact ⟨rfl, rfl, hslots, fun x => by simp⟩
  | cons c cs ih =>
    obtain ⟨m, hm, hrest⟩ := except_bind_eq_ok.mp h
    replace hrest : (b.setNode (rehang p m)).reparent p cs = .ok b' := hrest
    have hid : (rehang p m).id = c := hslots c m (getNode_ok.mp hm)
    obtain ⟨hpages, hmeta, hslots', hnodes⟩ := ih (hslots.setNode _) hrest
    refine ⟨hpages, hmeta, hslots', fun x => ?_⟩
    have hlt := (List.getElem?_eq_some_iff.mp (getNode_ok.mp hm)).1
    rw [hnodes x]
    by_cases hx : x = c
    · subst hx
      have hset : (b.setNode (rehang p m)).nodes[x]? = some (rehang p m) := by
        simp [InnerBucket.setNode, hid, hlt]
      rw [if_pos List.mem_cons_self, getNode_ok.mp hm, hset]
      split_ifs <;> rfl
    · have hne : c ≠ x := fun heq => hx heq.symm
      simp [InnerBucket.setNode, hid, hx, hne]

theorem freePage_id (n : Node) (fl : TxFreelist) : (n.freePage fl).1.id = n.id := by
  rw [Node.freePage]
  split_ifs <;> rfl

/-- The nodes after one was taken out of its parent. -/
theorem takeOut_nodes {x p index : Nat} {pn : Node} {es : List Branch} (hslots : Slotted b)
    (hne : x ≠ p) (hp : b.nodes[p]? = some pn) (hes : pn.data = .branches es)
    (h : InnerBucket.takeOut x p index (b, fl) = .ok (b', fl')) :
    b'.pageNodeIds = b.pageNodeIds ∧ b'.bucketMeta = b.bucketMeta ∧ Slotted b' ∧
      b'.nodes[p]? = some { pn with
        data := .branches (es.eraseIdx index), children := pn.children.erase x } ∧
      (∀ m : Node, b'.nodes[x]? = some m → m.deleted = true) ∧
      ∀ y, y ≠ p → y ≠ x → b'.nodes[y]? = b.nodes[y]? := by
  simp only [InnerBucket.takeOut, except_bind_eq_ok, getNode_ok] at h
  obtain ⟨m, hm, q, hq, h⟩ := h
  obtain ⟨rfl, -⟩ := Prod.mk.inj (Except.ok.inj h)
  have hid : (m.freePage fl).1.id = x := (freePage_id m fl).trans (hslots x m hm)
  have hpid := hslots p pn hp
  have hlt := (List.getElem?_eq_some_iff.mp hp).1
  obtain rfl : pn = q := by
    simp only [InnerBucket.setNode, hid, List.getElem?_set_ne hne, hp] at hq
    exact Option.some.inj hq
  refine ⟨rfl, rfl, (hslots.setNode _).setNode _, ?_, fun d hd => ?_, fun y hyp hyx => ?_⟩
  · simp [InnerBucket.setNode, hid, hpid, hlt, hes]
  · simp only [InnerBucket.setNode, hid, hpid, List.getElem?_set_ne hne.symm] at hd
    rw [List.getElem?_set_self (List.getElem?_eq_some_iff.mp hm).1] at hd
    rw [← Option.some.inj hd]
  · simp [InnerBucket.setNode, hid, hpid, hyp.symm, hyx.symm]

/-- The nodes after the data of one was moved to another. -/
theorem moved_nodes {x y : Nat} {nx ny : Node} {data : NodeData} {b₁ : InnerBucket}
    (hslots : Slotted b) (hx : b.nodes[x]? = some nx) (hy : b.nodes[y]? = some ny) (hne : x ≠ y)
    (hxc : x ∉ nx.children) (hyc : y ∉ nx.children)
    (h : b.reparent y nx.children = .ok b₁)
    (hb' : b' =
      (b₁.setNode { ny with data := data, children := ny.children ++ nx.children }).setNode
      { nx with data := InnerBucket.emptied nx.data, children := [] }) :
    b'.pageNodeIds = b.pageNodeIds ∧ b'.bucketMeta = b.bucketMeta ∧ Slotted b' ∧
      b'.nodes[y]? = some { ny with data := data, children := ny.children ++ nx.children } ∧
      (∀ z ∈ nx.children, b'.nodes[z]? = (b.nodes[z]?).map (rehang y)) ∧
      ∀ z, z ≠ x → z ≠ y → z ∉ nx.children → b'.nodes[z]? = b.nodes[z]? := by
  obtain ⟨hpages, hmeta, hslots₁, hnodes⟩ := reparent_nodes hslots h
  have hxid := hslots x nx hx
  have hyid := hslots y ny hy
  have hlt : y < b₁.nodes.length := by
    have hold := hnodes y
    rw [if_neg hyc, hy] at hold
    exact (List.getElem?_eq_some_iff.mp hold).1
  subst hb'
  refine ⟨hpages, hmeta, (hslots₁.setNode _).setNode _, ?_, fun z hz => ?_, fun z hzx hzy hz => ?_⟩
  · simp [InnerBucket.setNode, hxid, hyid, hne, hlt]
  · have hzx : x ≠ z := fun heq => hxc (heq ▸ hz)
    have hzy : y ≠ z := fun heq => hyc (heq ▸ hz)
    simp [InnerBucket.setNode, hxid, hyid, hzx, hzy, hnodes z, hz]
  · simp [InnerBucket.setNode, hxid, hyid, hzx.symm, hzy.symm, hnodes z, hz]

/-- Loading the sibling at hand, if it is not loaded yet. -/
theorem Arranged.sibling {page sid : Nat} {pre' post' : Kids} {k' : Bytes}
    (h : Arranged P b (plug C (branch j (pre' ++ (k', s) :: post')))) (hr : j.loaded = some r)
    (hnode : InnerBucket.node P fuel (.page s.info.page) (some r.id)
      { b with pageParents := (s.info.page, page) :: b.pageParents } = .ok sid b') :
    ∃ j' r' i rs, Arranged P b' (plug C (branch j' (pre' ++ (k', s.setInfo i) :: post'))) ∧
      j'.loaded = some r' ∧ r'.id = r.id ∧ i.page = s.info.page ∧ i.loaded = some rs ∧
      rs.id = sid ∧ ∀ q, s.info.loaded = some q → rs.id = q.id := by
  obtain ⟨fuel, rfl⟩ : ∃ n, fuel = n + 1 := by
    cases fuel with
    | zero => cases hnode
    | succ n => exact ⟨n, rfl⟩
  replace h : Arranged P { b with pageParents := (s.info.page, page) :: b.pageParents } _ :=
    h.congr rfl rfl rfl
  cases hl : s.info.loaded with
  | some rs =>
    have hs := (stored_parts (C := ⟨j, pre', k', post'⟩ :: C) (s := s) h.stored).2.2
    simp only [StoredAt, hl] at hs
    obtain ⟨rfl, rfl⟩ : rs.id = sid ∧ _ = b' :=
      EStateM.Result.ok.inj ((node_loaded (b := { b with pageParents := _ }) fuel (some r.id)
        hs.1 hs.2).symm.trans hnode)
    have hself : s.setInfo s.info = s := by cases s <;> rfl
    exact ⟨j, r, s.info, rs, by rwa [hself], hr, rfl, rfl, hl, rfl,
      fun q hq => by rw [← Option.some.inj hq]⟩
  | none =>
    obtain ⟨b₂, hrun, hnew⟩ := Arranged.load (f := ⟨j, pre', k', post'⟩) h hr hl
      (by simp) fuel
    rw [hrun] at hnode
    cases hnode
    exact ⟨_, _, _, _, hnew, rfl, rfl, rfl, rfl, rfl, fun q hq => by cases hq⟩

/-- `merge` of the elements of two nodes, as a tree. -/
theorem exists_joined {data : NodeData} (r : NodeRec) (moved : List Nat)
    (h : (nodeData s).merge (nodeData n) = .ok data) :
    ∃ w, Joined r moved s n w ∧ nodeData w = data := by
  cases s with
  | leaf i d =>
    cases n with
    | leaf i' e => exact ⟨_, .leaves (List.perm_insertionSort _ _), Except.ok.inj h⟩
    | branch i' us => cases h
  | branch i ks =>
    cases n with
    | leaf i' e => cases h
    | branch i' us =>
      refine ⟨_, .branches (List.perm_insertionSort (fun x y => x.1 ≤ y.1) _), ?_⟩
      rw [← Except.ok.inj h, nodeData_branch, branchData, tags, List.map_map,
        List.map_insertionSort (fun x y : Bytes × NodeTree => x.1 ≤ y.1)
          (fun x y : Branch => x.key ≤ y.key) _ _ (fun _ _ _ _ => Iff.rfl)]
      simp [tags, Function.comp_def]

/-- A child was merged into a loaded sibling. -/
theorem Arranged.merged {kn k : Bytes} {ks rest : Kids} {ks' : NodeTree → Kids}
    {data : NodeData} {index : Nat} {b₁ : InnerBucket}
    (h : Arranged P b (plug C (branch j ks))) (hr : j.loaded = some r)
    (hks : ks.Perm ((kn, n) :: (k, s) :: rest)) (hks' : ∀ w, (ks' w).Perm ((k, w) :: rest))
    (hindex : ∀ w : NodeTree, w.info.page = s.info.page →
      (tags pageTag ks).eraseIdx index = tags pageTag (ks' w))
    (hrn : n.info.loaded = some rn) (hrs : s.info.loaded = some rs)
    (hmerge : (nodeData s).merge (nodeData n) = .ok data)
    (hmove : b.reparent rs.id rn.children = .ok b₁)
    (htake : InnerBucket.takeOut rn.id r.id index
      ((b₁.setNode { s.info.nodeOf rs (nodeData s) with
          data := data, children := rs.children ++ rn.children }).setNode
        { n.info.nodeOf rn (nodeData n) with
          data := InnerBucket.emptied (nodeData n), children := [] }, fl) = .ok (b', fl')) :
    ∃ w, Joined rs rn.children s n w ∧
      Arranged P b' (plug C (branch (j.dropChild r rn.id) (ks' w))) := by
  obtain ⟨w, hw, rfl⟩ := exists_joined rs rn.children hmerge
  obtain ⟨-, hkids, hroot⟩ := stored_parts h.stored
  have hn := stored_root (hkids _ (hks.mem_iff.mpr List.mem_cons_self)).1
  have hs := stored_root (hkids _ (hks.mem_iff.mpr (.tail _ List.mem_cons_self))).1
  simp only [StoredAt, hrn] at hn
  simp only [StoredAt, hrs] at hs
  simp only [StoredAt, info_branch, hr] at hroot
  have hall := (ids_plug C _).nodup_iff.mp h.ids
  rw [ids_branch_loaded hr, (((h.places hr hks hrn hrs).cons r.id).append_left _).nodup_iff] at hall
  simp only [List.nodup_append, List.nodup_cons, List.mem_append, List.mem_cons] at hall
  obtain ⟨hpages₁, hmeta₁, hslots₁, hsib, hkids₁, hother₁⟩ := moved_nodes h.slots hn.2 hs.2
    (by grind) (by simp only [Info.nodeOf]; grind) (by simp only [Info.nodeOf]; grind) hmove rfl
  have hparent := (hother₁ r.id (by grind) (by grind) (by simp only [Info.nodeOf]; grind)).trans
    hroot.2
  obtain ⟨hpages, hmeta, hslots, hself, hdead, hother⟩ := takeOut_nodes hslots₁ (by grind) hparent
    rfl htake
  refine ⟨w, hw, h.join hr hks (hks' w) hrn hrs hw (hpages.trans hpages₁)
    (by rw [hmeta, hmeta₁]) hslots ?_ ?_ (fun x hx => ?_) (fun x hx hx' hx'' => ?_) hdead⟩
  · rw [hself, branchData, ← hindex w (by rw [hw.info]; rfl), List.eraseIdx_map]
    rfl
  · rw [hother _ (by grind) (by grind), hsib, hw.info]
    rfl
  · rw [hother _ (by grind) (by grind), hkids₁ x hx]
  · rw [List.mem_cons, not_or] at hx''
    rw [hother x hx hx', hother₁ x hx' hx''.1 hx''.2]

/-- The search for the separator of a child finds its place. -/
theorem Arranged.place (h : Arranged P b (plug C (branch j (pre ++ (k, n) :: post)))) {index : Nat}
    (hfound : binarySearchByKey k Branch.key
      ((tags pageTag (pre ++ (k, n) :: post)).map fun e => ⟨e.1, e.2⟩) = .ok index) :
    index = pre.length := by
  obtain ⟨e, he, hkey⟩ := binary_search_sound hfound
  have hnodup := nodup_separators h.distinct
  have hat : ((pre ++ (k, n) :: post).map Prod.fst)[index]? = some k := by
    simp only [tags, List.map_map, List.getElem?_map, Option.map_eq_some_iff] at he ⊢
    obtain ⟨x, hx, rfl⟩ := he
    exact ⟨x, hx, hkey⟩
  have hself : ((pre ++ (k, n) :: post).map Prod.fst)[pre.length]? = some k := by simp
  have hlt := (List.getElem?_eq_some_iff.mp hat).1
  exact (List.getElem?_inj hlt hnodup).mp (hat.trans hself.symm)

/-- A child was merged into a sibling, which was loaded for it if necessary. -/
theorem Arranged.moves {kn k : Bytes} {pre' post' rest : Kids} {ks' : NodeTree → Kids}
    {index : Nat} {b₁ : InnerBucket}
    (h : Arranged P b (plug C (branch j (pre' ++ (k, s) :: post')))) (hr : j.loaded = some r)
    (hn : (pre' ++ post').Perm ((kn, n) :: rest)) (hks' : ∀ w, (ks' w).Perm ((k, w) :: rest))
    (hindex : ∀ w : NodeTree, w.info.page = s.info.page →
      (tags pageTag (pre' ++ (k, s) :: post')).eraseIdx index = tags pageTag (ks' w))
    (hrn : n.info.loaded = some rn)
    (hmove : InnerBucket.moveToSibling P fuel rn.id r.id s.info.page b = .ok b₁)
    (htake : InnerBucket.takeOut rn.id r.id index (b₁, fl) = .ok (b', fl')) :
    ∃ w, TakesOver s n w ∧ Arranges P b' C r.id (ks' w) := by
  obtain ⟨parent, -, hmove⟩ := except_bind_eq_ok.mp hmove
  dsimp only at hmove
  split at hmove
  · cases hmove
  next sid b₀ hnode =>
    obtain ⟨j', r', i, rs, h', hr', hid, hipage, hi, hsid, hsame⟩ :=
      h.sibling hr hnode
    obtain ⟨-, hkids, -⟩ := stored_parts h'.stored
    have hks : (pre' ++ (k, s.setInfo i) :: post').Perm
        ((kn, n) :: (k, s.setInfo i) :: rest) :=
      List.perm_middle.trans ((hn.cons _).trans (.swap _ _ _))
    have hgetn := getNode_of_stored (stored_root
      (hkids _ (hks.mem_iff.mpr List.mem_cons_self)).1) hrn
    have hgets := getNode_of_stored (stored_root
      (hkids _ (hks.mem_iff.mpr (.tail _ List.mem_cons_self))).1) (r := rs) (by simpa using hi)
    subst hsid
    simp only [hgetn, hgets, except_bind_ok, except_bind_eq_ok, nodeData_setInfo] at hmove
    obtain ⟨data, hdata, b₂, hreparent, hb₁⟩ := hmove
    obtain rfl := Except.ok.inj hb₁
    rw [← hid] at htake
    have herase : ∀ w : NodeTree, w.info.page = (s.setInfo i).info.page →
        (tags pageTag (pre' ++ (k, s.setInfo i) :: post')).eraseIdx index =
          tags pageTag (ks' w) := by
      intro w hw
      rw [info_setInfo, hipage] at hw
      rw [← hindex w hw]
      simp [tags, hipage]
    rw [← nodeData_setInfo i s] at hdata htake
    obtain ⟨w, hw, hnew⟩ := h'.merged hr' hks hks' herase hrn (by simpa using hi) hdata hreparent
      htake
    exact ⟨w, ⟨rs, rn.children, i, hw, hsame⟩, _, _, hnew, rfl, hid⟩

/-- `merge_nodes`: the visit of a child. -/
theorem Arranged.visit (h : Arranged P b (plug C (branch j (pre ++ (k, n) :: post))))
    (hr : j.loaded = some r) (hrn : n.info.loaded = some rn)
    (hrun : InnerBucket.mergeVisit P fuel rn.id (b, fl) = .ok (b', fl')) :
    ∃ ks', Visited k n (pre ++ post) ks' ∧ Arranges P b' C r.id ks' := by
  obtain ⟨-, -, hn⟩ := stored_parts (C := ⟨j, pre, k, post⟩ :: C) (s := n) h.stored
  obtain ⟨-, -, hparent⟩ := stored_parts h.stored
  obtain ⟨-, hlinked⟩ := (holds_plug C _).mp h.linked
  obtain ⟨-, -, hkids⟩ := (linked_branch hr).mp hlinked
  obtain ⟨hhangs, hbelow⟩ := hkids (k, n) (by simp)
  have hrec : rn.parent = some r.id ∧ rn.originalKey = some k := by
    simpa [Hangs, tag_link_loaded hrn] using hhangs
  have hroot : n.info.page ≠ b.bucketMeta.rootPage := by
    rw [h.root]
    exact (page_ne_root (f := ⟨j, pre, k, post⟩) (C := C) (s := n) h.heads).symm
  have hkept : ∀ hk : (nodeData n).len ≠ 0 ∨ pre ++ post = [], (b, fl) = (b', fl') →
      ∃ ks', Visited k n (pre ++ post) ks' ∧ Arranges P b' C r.id ks' := by
    rintro hk heq
    obtain ⟨rfl, -⟩ := Prod.mk.inj heq
    exact ⟨_, .kept hk List.perm_middle, j, r, h, hr, rfl⟩
  simp only [InnerBucket.mergeVisit, getNode_of_stored hn hrn, except_bind_ok, Info.nodeOf,
    hrec.1, hrec.2, if_neg hroot, getNode_of_stored hparent hr, nodeData_branch,
    branchData] at hrun
  split at hrun
  next hneeds =>
    exact hkept (.inl fun hlen => hneeds (by simp [Node.needsMerging, hlen, minKeysPerNode]))
      (Except.ok.inj hrun)
  split at hrun
  next hone =>
    refine hkept (.inr ?_) (Except.ok.inj hrun)
    simp only [tags, List.length_map, List.length_append, List.length_cons] at hone
    exact List.eq_nil_of_length_eq_zero (by rw [List.length_append]; omega)
  next hmany =>
  split at hrun
  · cases hrun
  next index hfound =>
    obtain rfl := h.place hfound
    split at hrun
    next hfull =>
      have hlen : (nodeData n).len ≠ 0 := by omega
      split at hrun
      · cases hrun
      next e he =>
      obtain ⟨b₁, hmove, htake⟩ := except_bind_eq_ok.mp hrun
      rcases List.eq_nil_or_concat' pre with rfl | ⟨pre', ⟨k', s⟩, rfl⟩
      · obtain _ | ⟨⟨k', s⟩, post'⟩ := post
        · simp [tags] at hmany
        obtain rfl : (⟨k', s.info.page⟩ : Branch) = e := by simpa [tags] using he
        replace h : Arranged P b (plug C (branch j ([(k, n)] ++ (k', s) :: post'))) := h
        obtain ⟨w, hw, hnew⟩ := h.moves hr (.refl _) (fun w => .refl _)
          (fun w hw => by simp [tags, hw]) hrn hmove htake
        exact ⟨_, .merged hlen (.refl _) (.refl _) hw, hnew⟩
      · rw [List.append_assoc, List.singleton_append] at h
        obtain rfl : (⟨k', s.info.page⟩ : Branch) = e := by simpa [tags] using he
        obtain ⟨w, hw, hnew⟩ := h.moves hr List.perm_middle
          (fun w => List.perm_middle) (fun w hw => by simp [tags, hw, List.eraseIdx_append]) hrn
          hmove htake
        refine ⟨_, .merged hlen ?_ List.perm_middle hw, hnew⟩
        rw [List.append_assoc, List.singleton_append]
        exact List.perm_middle
    next hempty =>
      have hlen : (nodeData n).len = 0 := by
        simp only [tags, List.length_map, List.length_append, List.length_cons] at hempty hmany
        omega
      have hothers : pre ++ post ≠ [] := fun hnil => hmany (by
        simp [tags, List.append_eq_nil_iff.mp hnil])
      have hne : rn.id ≠ r.id := by
        refine fun heq => (id_not_elsewhere h.ids hr).2 (k, n) (by simp) ?_
        simp [ids_eq n, Info.id?, hrn, heq]
      cases n with
      | branch i us =>
        have hus := ((linked_branch hrn).mp hbelow).1
        simp [branchData, tags, NodeData.len, hus] at hlen
      | leaf i d =>
        obtain rfl : d = [] := List.eq_nil_of_length_eq_zero hlen
        simp only [StoredAt, info_branch, hr] at hparent
        obtain ⟨hpages, hmeta, hslots, hself, hdead, hother⟩ :=
          takeOut_nodes h.slots hne hparent.2 rfl hrun
        refine ⟨_, .dropped rfl hothers (.refl _), _, _,
          h.drop hr hrn hothers hpages (by rw [hmeta]) hslots
          ?_ (fun x hx hx' => hother x hx hx') hdead, rfl, rfl⟩
        rw [hself]
        simp [Info.dropChild, Info.nodeOf, branchData, tags, List.eraseIdx_append]

end Visit

end Tagdata.Analysis
