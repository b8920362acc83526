import Tagdata.Analysis.Freelists
import Tagdata.Model.Commit

/-!
# Splitting a node

`Node::split` cuts the elements of a node where enough of them have come together.  The cuts are
at least two elements apart and at least two elements from the end, so every piece has at least
two elements.  A root that was split has therefore at most half as many pieces as elements, and
putting a new root above it comes to an end.
-/

set_option autoImplicit false

namespace Tagdata.Analysis

open Tagdata.Library Tagdata.Model

/-! ## The cuts -/

/-- Cuts that are two apart, begin two after `lo` and end two before `len`. -/
def Spaced (len : Nat) : Nat → List Nat → Prop
  | lo, [] => lo + 2 ≤ len
  | lo, i :: rest => lo + 2 ≤ i ∧ Spaced len i rest

/-- The loop of `split`: `count` elements have come since the last cut. -/
theorem spaced_splitIndexes {len threshold : Nat} (sizes : List Nat) :
    ∀ {i count current : Nat}, count ≤ i → i + sizes.length + 2 ≤ len →
      Spaced len (i - count) (NodeData.splitIndexes threshold i count current sizes) := by
  induction sizes with
  | nil =>
    intro i count current hcount hlen
    rw [List.length_nil] at hlen
    show i - count + 2 ≤ len
    omega
  | cons size sizes ih =>
    intro i count current hcount hlen
    rw [List.length_cons] at hlen
    rw [NodeData.splitIndexes]
    split_ifs with hcut
    · have htwo : 2 ≤ count + 1 := hcut.1
      have hnext : Spaced len (i + 1 - 0)
          (NodeData.splitIndexes threshold (i + 1) 0 (headerSize + size) sizes) :=
        ih (by omega) (by omega)
      exact ⟨by omega, hnext⟩
    · have hnext : Spaced len (i + 1 - (count + 1))
          (NodeData.splitIndexes threshold (i + 1) (count + 1) (current + size) sizes) :=
        ih (by omega) (by omega)
      rwa [Nat.add_sub_add_right] at hnext

/-! ## The pieces -/

/-- The elements of a node. -/
def elementList : NodeData → List (Branch ⊕ Leaf)
  | .branches b => b.map .inl
  | .leaves l => l.map .inr

theorem length_elementList (d : NodeData) : (elementList d).length = d.len := by
  cases d <;> simp [elementList, NodeData.len]

theorem elementList_splitAt (d : NodeData) (i : Nat) :
    elementList (d.splitAt i).1 ++ elementList (d.splitAt i).2 = elementList d := by
  cases d <;> simp [elementList, NodeData.splitAt]

theorem len_splitAt (d : NodeData) (i : Nat) :
    (d.splitAt i).1.len = min i d.len ∧ (d.splitAt i).2.len = d.len - i := by
  cases d <;> simp [NodeData.splitAt, NodeData.len]

theorem isLeaves_splitAt (d : NodeData) (i : Nat) :
    (d.splitAt i).1.isLeaves = d.isLeaves ∧ (d.splitAt i).2.isLeaves = d.isLeaves := by
  cases d <;> exact ⟨rfl, rfl⟩

/-- The pieces of a node: in order they make up its elements, and each has two of them. -/
structure Pieces (d : NodeData) (pieces : List NodeData) : Prop where
  content : pieces.flatMap elementList = elementList d
  kind : ∀ p ∈ pieces, p.isLeaves = d.isLeaves
  two : ∀ p ∈ pieces, 2 ≤ p.len

theorem splitOff_cons (d : NodeData) (i : Nat) (indexes : List Nat) :
    d.splitOff (i :: indexes) =
      (((d.splitOff indexes).1.splitAt i).1,
        ((d.splitOff indexes).1.splitAt i).2 :: (d.splitOff indexes).2) := by
  simp [NodeData.splitOff]

/-- Cutting from the right at spaced indexes. -/
theorem pieces_splitOff {d : NodeData} (indexes : List Nat) :
    ∀ {lo : Nat}, Spaced d.len lo indexes →
      Pieces d ((d.splitOff indexes).1 :: (d.splitOff indexes).2) ∧
        lo + 2 ≤ (d.splitOff indexes).1.len ∧
        (d.splitOff indexes).2.length = indexes.length := by
  induction indexes with
  | nil =>
    intro lo h
    have hlo : lo + 2 ≤ d.len := h
    refine ⟨⟨by simp [NodeData.splitOff], ?_, ?_⟩, hlo, rfl⟩
    · simp [NodeData.splitOff]
    · simp only [NodeData.splitOff, List.reverse_nil, List.foldl_nil, List.mem_singleton]
      rintro p rfl
      omega
  | cons i indexes ih =>
    rintro lo ⟨hi, hrest⟩
    obtain ⟨hpieces, hkept, hlength⟩ := ih hrest
    rw [splitOff_cons]
    generalize (d.splitOff indexes).1 = kept at *
    generalize (d.splitOff indexes).2 = rest at *
    -- the first piece is cut once more, and both halves have two elements
    obtain ⟨hleft, hright⟩ := len_splitAt kept i
    obtain ⟨hkind, hkind'⟩ := isLeaves_splitAt kept i
    have hd := hpieces.kind kept List.mem_cons_self
    have hcontent := hpieces.content
    rw [List.flatMap_cons, ← elementList_splitAt kept i] at hcontent
    refine ⟨⟨?_, ?_, ?_⟩, ?_, ?_⟩
    · rw [List.flatMap_cons, List.flatMap_cons, ← List.append_assoc]
      exact hcontent
    · intro p hp
      rcases List.mem_cons.mp hp with rfl | hp
      · rw [hkind, hd]
      · rcases List.mem_cons.mp hp with rfl | hp
        · rw [hkind', hd]
        · exact hpieces.kind p (List.mem_cons_of_mem _ hp)
    · intro p hp
      rcases List.mem_cons.mp hp with rfl | hp
      · show 2 ≤ (kept.splitAt i).1.len
        omega
      · rcases List.mem_cons.mp hp with rfl | hp
        · omega
        · exact hpieces.two p (List.mem_cons_of_mem _ hp)
    · show lo + 2 ≤ (kept.splitAt i).1.len
      omega
    · simp [hlength]

theorem length_elementSizes (d : NodeData) : d.elementSizes.length = d.len := by
  cases d <;> simp [NodeData.elementSizes, NodeData.len]

/-- What `split` answers is a partition into two pieces or more. -/
theorem pieces_split {pagesize : Nat} {d kept : NodeData} {rest : List NodeData}
    (h : d.split pagesize = some (kept, rest)) : Pieces d (kept :: rest) ∧ 1 ≤ rest.length := by
  rw [NodeData.split] at h
  split at h
  · cases h
  · rename_i hlarge
    have hlen : 4 < d.len := by
      have hmin : minKeysPerNode = 2 := rfl
      omega
    dsimp only at h
    split at h
    · cases h
    · rename_i hsome
      have hsizes : (d.elementSizes.take (d.len - 2)).length = d.len - 2 := by
        rw [List.length_take, length_elementSizes]
        omega
      have hspaced : Spaced d.len (0 - 0) (NodeData.splitIndexes (splitThreshold pagesize) 0 0
          headerSize (d.elementSizes.take (d.len - 2))) :=
        spaced_splitIndexes _ le_rfl (by omega)
      obtain ⟨hpieces, -, hlength⟩ := pieces_splitOff _ hspaced
      rw [Option.some.inj h] at hpieces hlength
      refine ⟨hpieces, ?_⟩
      rw [hlength]
      exact List.length_pos_iff.mpr fun hnil => hsome (by rw [hnil]; rfl)

/-- There are at most half as many pieces as elements. -/
theorem Pieces.length_le {d : NodeData} {pieces : List NodeData} (h : Pieces d pieces) :
    2 * pieces.length ≤ d.len := by
  have hsum : ∀ l : List NodeData, (∀ p ∈ l, 2 ≤ p.len) →
      2 * l.length ≤ (l.flatMap elementList).length := by
    intro l
    induction l with
    | nil => simp
    | cons p l ih =>
      intro hall
      have hp := hall p List.mem_cons_self
      have hl := ih fun q hq => hall q (List.mem_cons_of_mem _ hq)
      rw [List.flatMap_cons, List.length_append, length_elementList, List.length_cons]
      omega
  rw [← length_elementList, ← h.content]
  exact hsum pieces h.two

/-! ## The nodes of a bucket -/

/-- The ids and the data of the loaded nodes. -/
def table (b : InnerBucket) : List (Nat × NodeData) := b.nodes.map fun n => (n.id, n.data)

/-- A node knows its place. -/
def Numbered (b : InnerBucket) : Prop := ∀ (i : Nat) (e : Nat × NodeData), (table b)[i]? = some e →
    e.1 = i

section Nodes

variable {b : InnerBucket} {id : Nat} {n : Node}

theorem table_of_node (h : b.nodes[id]? = some n) : (table b)[id]? = some (n.id, n.data) := by
  rw [table, List.getElem?_map, h]
  rfl

theorem Numbered.self (hb : Numbered b) (hn : b.nodes[id]? = some n) : n.id = id :=
  hb id _ (table_of_node hn)

theorem Numbered.entry (hb : Numbered b) (hn : b.nodes[id]? = some n) :
    (table b)[id]? = some (id, n.data) := by
  rw [table_of_node hn, hb.self hn]

theorem exists_node {d : NodeData} (h : (table b)[id]? = some (id, d)) :
    ∃ n, b.nodes[id]? = some n ∧ n.id = id ∧ n.data = d := by
  rw [table, List.getElem?_map, Option.map_eq_some_iff] at h
  obtain ⟨n, hn, heq⟩ := h
  exact ⟨n, hn, congrArg Prod.fst heq, congrArg Prod.snd heq⟩

theorem getNode_eq (h : b.nodes[id]? = some n) : b.getNode id = .ok n := by
  rw [InnerBucket.getNode, h]
  rfl

theorem of_getNode (h : b.getNode id = .ok n) : b.nodes[id]? = some n := by
  rw [InnerBucket.getNode] at h
  cases hn : b.nodes[id]? with
  | none => rw [hn] at h; cases h
  | some m => rw [hn] at h; cases h; rfl

theorem table_setNode (n : Node) : table (b.setNode n) = (table b).set n.id (n.id, n.data) := by
  rw [table, table, InnerBucket.setNode, List.map_set]

/-- A node that keeps its id and its data changes nothing in the table. -/
theorem table_setNode_same {n' : Node} (h : b.nodes[n.id]? = some n) (hid : n'.id = n.id)
    (hdata : n'.data = n.data) : table (b.setNode n') = table b := by
  rw [table_setNode, hid, hdata]
  refine List.ext_getElem? fun i => ?_
  rw [List.getElem?_set]
  split_ifs with hi hlen
  · rw [← hi, table_of_node h]
  · rw [← hi, List.getElem?_eq_none (by omega)]
  · rfl

theorem write_spec (n : Node) (fl : TxFreelist) :
    ∃ n' fl', n.write fl = .ok (n', fl') ∧ n'.id = n.id ∧ n'.data = n.data := by
  rw [Node.write]
  split_ifs
  · exact ⟨n, fl, rfl, rfl, rfl⟩
  · have hfree : ∀ m : Node, (m.freePage fl).1.id = m.id ∧ (m.freePage fl).1.data = m.data := by
      intro m
      rw [Node.freePage]
      split_ifs <;> exact ⟨rfl, rfl⟩
    obtain ⟨hid, hdata⟩ := hfree { n with spilled := true }
    generalize Node.freePage { n with spilled := true } fl = freed at hid hdata
    have hbytes : headerSize ≤ freed.1.size := Nat.le_add_right _ _
    obtain ⟨page, fl', hrun, -, -⟩ := allocate_block freed.2 hbytes
    refine ⟨{ freed.1 with pageId := page.id, numPages := page.overflow + 1 },
      fl'.fill { page with body := .ofNodeData freed.1.data }, ?_, hid, hdata⟩
    obtain ⟨m, fl₁⟩ := freed
    simp only [hrun]
    rfl

theorem writeNode_spec (hb : Numbered b) (hn : b.nodes[id]? = some n) (fl : TxFreelist) :
    ∃ b' fl', InnerBucket.writeNode id (b, fl) = .ok (b', fl') ∧ table b' = table b := by
  obtain ⟨n', fl', hrun, hid, hdata⟩ := write_spec n fl
  have hself := hb.self hn
  refine ⟨b.setNode n', fl', ?_, table_setNode_same (hself ▸ hn) hid hdata⟩
  rw [InnerBucket.writeNode]
  simp only [getNode_eq hn]
  show (n.write fl >>= fun r => pure (b.setNode r.1, r.2)) = _
  rw [hrun]
  rfl

theorem writeNodes_spec (ids : List Nat) :
    ∀ {b : InnerBucket}, Numbered b → (∀ id ∈ ids, ∃ d, (table b)[id]? = some (id, d)) →
      ∀ fl, ∃ b' fl', InnerBucket.writeNodes ids (b, fl) = .ok (b', fl') ∧ table b' = table b := by
  induction ids with
  | nil => exact fun _ _ fl => ⟨_, fl, rfl, rfl⟩
  | cons id ids ih =>
    intro b hb hids fl
    obtain ⟨d, hd⟩ := hids id List.mem_cons_self
    obtain ⟨n, hn, -, -⟩ := exists_node hd
    obtain ⟨b₁, fl₁, hrun, htable⟩ := writeNode_spec hb hn fl
    have hb₁ : Numbered b₁ := by rwa [Numbered, htable]
    obtain ⟨b₂, fl₂, hrest, htable₂⟩ := ih hb₁
      (fun id' hid' => htable ▸ hids id' (List.mem_cons_of_mem _ hid')) fl₁
    refine ⟨b₂, fl₂, ?_, htable₂.trans htable⟩
    rw [InnerBucket.writeNodes, hrun]
    exact hrest

theorem firstKey_ok {d : NodeData} (h : 1 ≤ d.len) : ∃ key, d.firstKey = .ok key := by
  have hkeys : 1 ≤ d.keys.length := by
    cases d <;> simpa [NodeData.keys, NodeData.len] using h
  rw [NodeData.firstKey]
  cases hd : d.keys with
  | nil => rw [hd] at hkeys; exact absurd hkeys (by simp)
  | cons key keys => exact ⟨key, rfl⟩

theorem branchesOf_spec (ids : List Nat)
    (hids : ∀ id ∈ ids, ∃ d, (table b)[id]? = some (id, d) ∧ 1 ≤ d.len) :
    ∃ es, b.branchesOf ids = .ok es ∧ es.length = ids.length := by
  induction ids with
  | nil => exact ⟨[], rfl, rfl⟩
  | cons id ids ih =>
    obtain ⟨d, hd, hlen⟩ := hids id List.mem_cons_self
    obtain ⟨n, hn, -, rfl⟩ := exists_node hd
    obtain ⟨key, hkey⟩ := firstKey_ok hlen
    obtain ⟨es, hrest, hlength⟩ := ih fun id' hid' => hids id' (List.mem_cons_of_mem _ hid')
    refine ⟨⟨key, n.pageId⟩ :: es, ?_, by rw [List.length_cons, List.length_cons, hlength]⟩
    rw [InnerBucket.branchesOf, getNode_eq hn]
    show (n.toBranch >>= fun e => b.branchesOf ids >>= fun rest => pure (e :: rest)) = _
    rw [Node.toBranch, hkey, hrest]
    rfl

/-- A node that was split off or put above others. -/
theorem newNode_spec (b : InnerBucket) {d : NodeData} (h : 1 ≤ d.len) :
    ∃ n, b.newNode d = .ok (b.nodes.length, { b with nodes := b.nodes ++ [n] }) ∧
      n.id = b.nodes.length ∧ n.data = d ∧ n.children = [] ∧ n.spilled = false := by
  obtain ⟨key, hkey⟩ := firstKey_ok h
  refine ⟨⟨b.nodes.length, 0, 0, [], d, false, some key, none, false⟩, ?_, rfl, rfl, rfl, rfl⟩
  rw [InnerBucket.newNode, Node.withData, hkey]
  rfl

theorem Numbered.append (hb : Numbered b) (hid : n.id = b.nodes.length) :
    Numbered { b with nodes := b.nodes ++ [n] } := by
  intro i e he
  have htable : table { b with nodes := b.nodes ++ [n] } = table b ++ [(n.id, n.data)] := by
    simp [table]
  have hlen : (table b).length = b.nodes.length := List.length_map _
  rw [htable] at he
  by_cases hi : i < b.nodes.length
  · rw [List.getElem?_append_left (by omega)] at he
    exact hb i e he
  · have hbound := (List.getElem?_eq_some_iff.mp he).1
    rw [List.length_append, List.length_singleton] at hbound
    obtain rfl : i = b.nodes.length := by omega
    rw [List.getElem?_append_right (by omega), hlen, Nat.sub_self] at he
    rw [← Option.some.inj he]
    exact hid

theorem newNodes_spec (pieces : List NodeData) :
    ∀ (b : InnerBucket), (∀ p ∈ pieces, 1 ≤ p.len) →
      ∃ b', b.newNodes pieces = .ok (List.range' b.nodes.length pieces.length, b') ∧
        table b' = table b ++ (List.range' b.nodes.length pieces.length).zip pieces := by
  induction pieces with
  | nil => exact fun b _ => ⟨b, rfl, by simp⟩
  | cons p pieces ih =>
    intro b hpieces
    obtain ⟨n, hrun, hid, hdata, -⟩ := newNode_spec b (hpieces p List.mem_cons_self)
    obtain ⟨b', hrest, htable⟩ := ih { b with nodes := b.nodes ++ [n] }
      fun q hq => hpieces q (List.mem_cons_of_mem _ hq)
    rw [List.length_append, List.length_singleton] at hrest htable
    refine ⟨b', ?_, ?_⟩
    · rw [InnerBucket.newNodes, hrun]
      show ((InnerBucket.newNodes { b with nodes := b.nodes ++ [n] } pieces) >>= fun r =>
        pure (b.nodes.length :: r.1, r.2)) = _
      rw [hrest]
      rfl
    · rw [htable, List.length_cons, List.range'_succ, List.zip_cons_cons]
      simp [table, hid, hdata]

end Nodes

/-! ## Splitting a node of a bucket -/

section Growth

variable {P : Pages} {b : InnerBucket} {nodeId : Nat} {n : Node}

/-- The two ways `Node::split` can end. -/
theorem splitNode_cases (hb : Numbered b) (hn : b.nodes[nodeId]? = some n) :
    (InnerBucket.splitNode P b nodeId = .ok (none, b)) ∨
    ∃ kept rest b', Pieces n.data (kept :: rest) ∧ 1 ≤ rest.length ∧
      InnerBucket.splitNode P b nodeId =
        .ok (some (List.range' b.nodes.length rest.length), b') ∧
      table b' = (table b).set nodeId (nodeId, kept) ++
        (List.range' b.nodes.length rest.length).zip rest := by
  have hself := hb.self hn
  rw [InnerBucket.splitNode]
  simp only [getNode_eq hn]
  cases hsplit : n.data.split P.pagesize with
  | none => exact .inl (by simp [hsplit, bind, Except.bind, pure, Except.pure])
  | some pieces =>
    obtain ⟨kept, rest⟩ := pieces
    obtain ⟨hpieces, hlength⟩ := pieces_split hsplit
    obtain ⟨b', hrun, htable⟩ := newNodes_spec rest (b.setNode { n with data := kept })
      fun p hp => (hpieces.two p (List.mem_cons_of_mem _ hp)).trans' (by omega)
    have hsize : (b.setNode { n with data := kept }).nodes.length = b.nodes.length := by
      simp [InnerBucket.setNode]
    rw [hsize] at hrun htable
    rw [table_setNode, hself] at htable
    refine .inr ⟨kept, rest, b', hpieces, hlength, ?_, htable⟩
    simp [hsplit, hrun, bind, Except.bind, pure, Except.pure]

/-- A node is split and written, with the nodes that were split off from it. -/
def splitAndWrite (P : Pages) (nodeId : Nat) (s : BucketTx) :
    Except Fault (Option (List Nat) × BucketTx) := do
  let (siblings, b) ← InnerBucket.splitNode P s.1 nodeId
  let s ← InnerBucket.writeNode nodeId (b, s.2)
  match siblings with
  | none => pure (none, s)
  | some ids => do
      let s ← InnerBucket.writeNode nodeId s
      let s ← InnerBucket.writeNodes ids s
      pure (some ids, s)

/-- The answer of the new root is the answer of the spill. -/
def newRoot : Option Nat × BucketTx → Except Fault (Option Nat × BucketTx)
  | (some pageId, s) => pure (some pageId, s)
  | (none, _) => throw (.panic "New parent did not return a new root_page_id")

/-- A new root is put above a root that was split. -/
def raiseRoot (P : Pages) (fuel nodeId : Nat) (ids : List Nat) (s : BucketTx) :
    Except Fault (Option Nat × BucketTx) := do
  let branches ← s.1.branchesOf (nodeId :: ids)
  let (newParent, b) ← s.1.newNode (.branches branches)
  let r ← InnerBucket.spillNode P fuel newParent none (b, s.2)
  newRoot r

/-- The parent learns where a node and those split off from it are. -/
def tellUp (nodeId parentId : Nat) (originalKey : Option Bytes) (siblings : Option (List Nat))
    (s : BucketTx) : Except Fault (Option Nat × BucketTx) := do
  let e ← s.1.branchesOf [nodeId]
  let es ← s.1.branchesOf (siblings.getD [])
  let b ← match e with
    | [e] => s.1.tellParent parentId originalKey e
    | _ => pure s.1
  let b ← b.tellParentAll parentId es
  pure (none, (b, s.2))

/-- What `Node::spill` does with a node once its children are written. -/
def afterChildren (P : Pages) (fuel nodeId : Nat) (originalKey : Option Bytes) (parent : Option Nat)
    (s : BucketTx) : Except Fault (Option Nat × BucketTx) := do
  let (siblings, s) ← splitAndWrite P nodeId s
  match parent, siblings with
  | some parentId, siblings => tellUp nodeId parentId originalKey siblings s
  | none, none => do
      let self ← s.1.getNode nodeId
      pure (some self.pageId, s)
  | none, some ids => raiseRoot P fuel nodeId ids s

/-- The children of a node, written one after the other. -/
def spillChildren (P : Pages) (fuel nodeId : Nat) (children : List Nat) (s : BucketTx) :
    Except Fault BucketTx :=
  children.foldlM
    (fun s child => do
      let (_, s) ← InnerBucket.spillNode P fuel child (some nodeId) s
      pure s) s

theorem spillNode_eq {fuel : Nat} {fl : TxFreelist} {children : List Nat} {parent : Option Nat}
    (hn : b.getNode nodeId = .ok n) (hspilled : n.spilled = false)
    (hsort : b.sortChildren n.children = .ok children) :
    InnerBucket.spillNode P (fuel + 1) nodeId parent (b, fl) =
      spillChildren P fuel nodeId children (b.setNode { n with children := children }, fl) >>=
        afterChildren P fuel nodeId n.originalKey parent := by
  rw [InnerBucket.spillNode, hn]
  show (if n.spilled = true then _ else _) = _
  rw [if_neg (by rw [hspilled]; exact Bool.false_ne_true), hsort]
  refine congrArg (spillChildren P fuel nodeId children
    (b.setNode { n with children := children }, fl) >>= ·) (funext fun s => ?_)
  simp only [afterChildren, splitAndWrite, bind_assoc]
  refine congrArg (InnerBucket.splitNode P s.1 nodeId >>= ·) (funext fun r => ?_)
  obtain ⟨siblings, b'⟩ := r
  refine congrArg (InnerBucket.writeNode nodeId (b', s.2) >>= ·) (funext fun s' => ?_)
  cases siblings with
  | none => cases parent <;> rfl
  | some ids =>
    cases parent <;> simp only [bind_assoc, pure_bind] <;> rfl

/-- The table after a split numbers its nodes, and holds the pieces. -/
theorem table_split {b' : InnerBucket} {kept : NodeData} {rest : List NodeData} (hb : Numbered b)
    (hn : b.nodes[nodeId]? = some n)
    (htable : table b' = (table b).set nodeId (nodeId, kept) ++
      (List.range' b.nodes.length rest.length).zip rest) :
    Numbered b' ∧ (table b')[nodeId]? = some (nodeId, kept) ∧
      ∀ i (hi : i < rest.length), (table b')[b.nodes.length + i]? =
        some (b.nodes.length + i, rest[i]) := by
  have hlen : (table b).length = b.nodes.length := List.length_map _
  have hlt : nodeId < b.nodes.length := (List.getElem?_eq_some_iff.mp hn).1
  have hnew : ∀ i (hi : i < rest.length), (table b')[b.nodes.length + i]? =
      some (b.nodes.length + i, rest[i]) := by
    intro i hi
    rw [htable, List.getElem?_append_right (by rw [List.length_set]; omega), List.length_set, hlen,
      Nat.add_sub_cancel_left, List.getElem?_zip_eq_some]
    exact ⟨by simp [hi], List.getElem?_eq_getElem hi⟩
  refine ⟨fun i e he => ?_, ?_, hnew⟩
  · by_cases hi : i < b.nodes.length
    · rw [htable, List.getElem?_append_left (by rw [List.length_set]; omega),
        List.getElem?_set] at he
      split_ifs at he with hid
      · rw [← Option.some.inj he]
        exact hid
      · exact hb i e he
    · obtain ⟨j, rfl⟩ := Nat.exists_eq_add_of_le (not_lt.mp hi)
      have hj : j < rest.length := by
        have hbound := (List.getElem?_eq_some_iff.mp he).1
        rw [htable, List.length_append, List.length_set, List.length_zip, List.length_range',
          min_self] at hbound
        omega
      rw [hnew j hj] at he
      rw [← Option.some.inj he]
  · rw [htable, List.getElem?_append_left (by rw [List.length_set]; omega), List.getElem?_set,
      if_pos rfl, if_pos (by omega)]

/-- The two ways a node can be split and written. -/
theorem splitAndWrite_cases (hb : Numbered b) (hn : b.nodes[nodeId]? = some n) (fl : TxFreelist) :
    (∃ b' fl', splitAndWrite P nodeId (b, fl) = .ok (none, (b', fl')) ∧ table b' = table b) ∨
    ∃ ids b' fl', splitAndWrite P nodeId (b, fl) = .ok (some ids, (b', fl')) ∧ Numbered b' ∧
      2 * (ids.length + 1) ≤ n.data.len ∧
      ∀ id ∈ nodeId :: ids, ∃ d, (table b')[id]? = some (id, d) ∧ 1 ≤ d.len := by
  rcases splitNode_cases (P := P) hb hn with hsplit |
    ⟨kept, rest, b', hpieces, -, hsplit, htable⟩
  · obtain ⟨b₁, fl₁, hwrite, htable⟩ := writeNode_spec hb hn fl
    refine .inl ⟨b₁, fl₁, ?_, htable⟩
    rw [splitAndWrite, hsplit]
    show (InnerBucket.writeNode nodeId (b, fl) >>= _) = _
    rw [hwrite]
    rfl
  · obtain ⟨hb', hkept, hnew⟩ := table_split hb hn htable
    have hids : ∀ id ∈ nodeId :: List.range' b.nodes.length rest.length,
        ∃ d, (table b')[id]? = some (id, d) ∧ 1 ≤ d.len := by
      intro id hid
      rcases List.mem_cons.mp hid with rfl | hid
      · exact ⟨kept, hkept, (hpieces.two kept List.mem_cons_self).trans' (by omega)⟩
      · obtain ⟨i, hi, rfl⟩ := List.mem_range'.mp hid
        rw [Nat.one_mul]
        refine ⟨rest[i], hnew i hi, ?_⟩
        exact (hpieces.two _ (List.mem_cons_of_mem _ (List.getElem_mem hi))).trans' (by omega)
    -- the node is written twice, then the new siblings
    obtain ⟨m, hm, -, -⟩ := exists_node hkept
    obtain ⟨b₁, fl₁, hwrite₁, htable₁⟩ := writeNode_spec hb' hm fl
    have hb₁ : Numbered b₁ := by rwa [Numbered, htable₁]
    obtain ⟨m₁, hm₁, -, -⟩ := exists_node (htable₁ ▸ hkept)
    obtain ⟨b₂, fl₂, hwrite₂, htable₂⟩ := writeNode_spec hb₁ hm₁ fl₁
    rw [htable₁] at htable₂
    have hb₂ : Numbered b₂ := by rwa [Numbered, htable₂]
    have hids₂ : ∀ id ∈ List.range' b.nodes.length rest.length,
        ∃ d, (table b₂)[id]? = some (id, d) := by
      intro id hid
      obtain ⟨d, hd, -⟩ := hids id (List.mem_cons_of_mem _ hid)
      exact ⟨d, htable₂ ▸ hd⟩
    obtain ⟨b₃, fl₃, hwrite₃, htable₃⟩ := writeNodes_spec _ hb₂ hids₂ fl₂
    rw [htable₂] at htable₃
    refine .inr ⟨_, b₃, fl₃, ?_, by rwa [Numbered, htable₃], ?_, htable₃ ▸ hids⟩
    · rw [splitAndWrite, hsplit]
      show (InnerBucket.writeNode nodeId (b', fl) >>= _) = _
      rw [hwrite₁]
      show (InnerBucket.writeNode nodeId (b₁, fl₁) >>= _) = _
      rw [hwrite₂]
      show (InnerBucket.writeNodes _ (b₂, fl₂) >>= _) = _
      rw [hwrite₃]
      rfl
    · rw [List.length_range']
      exact hpieces.length_le

/-- A root that stays in one piece is the root. -/
theorem afterChildren_whole {fuel : Nat} {b' : InnerBucket} {fl fl' : TxFreelist}
    {key : Option Bytes} {d : NodeData}
    (hrun : splitAndWrite P nodeId (b, fl) = .ok (none, (b', fl')))
    (hself : (table b')[nodeId]? = some (nodeId, d)) :
    ∃ pageId s', afterChildren P fuel nodeId key none (b, fl) = .ok (some pageId, s') := by
  obtain ⟨m, hm, -, -⟩ := exists_node hself
  refine ⟨m.pageId, (b', fl'), ?_⟩
  rw [afterChildren, hrun]
  show (b'.getNode nodeId >>= _) = _
  rw [getNode_eq hm]
  rfl

/-- The new root has one element for each piece, no children and is not written yet. -/
theorem raiseRoot_eq {ids : List Nat} (hb : Numbered b)
    (hids : ∀ id ∈ nodeId :: ids, ∃ d, (table b)[id]? = some (id, d) ∧ 1 ≤ d.len)
    (fuel : Nat) (fl : TxFreelist) :
    ∃ (b' : InnerBucket) (root : Node), Numbered b' ∧ b'.nodes[root.id]? = some root ∧
      root.children = [] ∧ root.spilled = false ∧ root.data.len = ids.length + 1 ∧
      raiseRoot P fuel nodeId ids (b, fl) =
        InnerBucket.spillNode P fuel root.id none (b', fl) >>= newRoot := by
  obtain ⟨es, hbranches, hlength⟩ := branchesOf_spec (nodeId :: ids) hids
  rw [List.length_cons] at hlength
  obtain ⟨root, hroot, hid, hdata, hchildren, hspilled⟩ := newNode_spec b
    (show 1 ≤ (NodeData.branches es).len by show 1 ≤ es.length; omega)
  refine ⟨{ b with nodes := b.nodes ++ [root] }, root, hb.append hid, ?_, hchildren, hspilled, ?_,
    ?_⟩
  · rw [hid]
    simp
  · rw [hdata, ← hlength]
    rfl
  · rw [raiseRoot, hbranches]
    show (b.newNode _ >>= _) = _
    rw [hroot, ← hid]
    rfl

/-- Putting new roots above a root that was split comes to an end: a new root has at most half as
many elements as the one below it. -/
theorem afterChildren_ends (P : Pages) (fuel : Nat) :
    ∀ {b : InnerBucket} {fl : TxFreelist} {nodeId : Nat} {n : Node} {key : Option Bytes},
      Numbered b → b.nodes[nodeId]? = some n → n.data.len ≤ fuel →
      ∃ pageId s', afterChildren P fuel nodeId key none (b, fl) = .ok (some pageId, s') := by
  induction fuel with
  | zero =>
    intro b fl nodeId n key hb hn hfuel
    rcases splitAndWrite_cases (P := P) hb hn fl with ⟨b', fl', hrun, htable⟩ |
      ⟨ids, b', fl', -, -, hlen, -⟩
    · exact afterChildren_whole hrun (htable ▸ hb.entry hn)
    · omega
  | succ fuel ih =>
    intro b fl nodeId n key hb hn hfuel
    rcases splitAndWrite_cases (P := P) hb hn fl with ⟨b', fl', hrun, htable⟩ |
      ⟨ids, b', fl', hrun, hb', hlen, hids⟩
    · exact afterChildren_whole hrun (htable ▸ hb.entry hn)
    · obtain ⟨b₁, root, hb₁, hroot, hchildren, hspilled, hdata, hraise⟩ :=
        raiseRoot_eq (P := P) hb' hids (fuel + 1) fl'
      have hsort : b₁.sortChildren root.children = .ok [] := by
        rw [hchildren]
        rfl
      have htable : table (b₁.setNode { root with children := [] }) = table b₁ :=
        table_setNode_same hroot rfl rfl
      obtain ⟨m, hm, -, hm'⟩ := exists_node (htable ▸ hb₁.entry hroot)
      obtain ⟨pageId, s', hend⟩ := @ih (b₁.setNode { root with children := [] }) fl' root.id m
        root.originalKey (by rwa [Numbered, htable]) hm (by rw [hm']; omega)
      refine ⟨pageId, s', ?_⟩
      rw [afterChildren, hrun]
      show raiseRoot P (fuel + 1) nodeId ids (b', fl') = _
      rw [hraise, spillNode_eq (getNode_eq hroot) hspilled hsort]
      show (afterChildren P fuel root.id root.originalKey none
        (b₁.setNode { root with children := [] }, fl') >>= newRoot) = _
      rw [hend]
      rfl

/-! ## Rounds -/

/-- What a spill that ends has done. -/
theorem spillNode_inv {fuel : Nat} {parent : Option Nat} {fl : TxFreelist}
    {r : Option Nat × BucketTx}
    (h : InnerBucket.spillNode P (fuel + 1) nodeId parent (b, fl) = .ok r) :
    ∃ n, b.getNode nodeId = .ok n ∧
      ((n.spilled = true ∧ r = (none, (b, fl))) ∨
        n.spilled = false ∧ ∃ children, b.sortChildren n.children = .ok children ∧
          ∃ s, spillChildren P fuel nodeId children
              (b.setNode { n with children := children }, fl) = .ok s ∧
            afterChildren P fuel nodeId n.originalKey parent s = .ok r) := by
  cases hn : b.getNode nodeId with
  | error e =>
    rw [InnerBucket.spillNode, hn] at h
    cases h
  | ok n =>
    refine ⟨n, rfl, ?_⟩
    by_cases hspilled : n.spilled = true
    · rw [InnerBucket.spillNode, hn] at h
      exact .inl ⟨hspilled, by simpa [hspilled] using h.symm⟩
    · cases hsort : b.sortChildren n.children with
      | error e =>
        rw [InnerBucket.spillNode, hn] at h
        simp [hspilled, hsort] at h
      | ok children =>
        have hunspilled : n.spilled = false := Bool.eq_false_of_not_eq_true hspilled
        rw [spillNode_eq hn hunspilled hsort, except_bind_eq_ok] at h
        exact .inr ⟨hunspilled, children, rfl, h⟩

theorem spillChildren_cons {fuel child : Nat} {children : List Nat} {s s' : BucketTx} :
    spillChildren P fuel nodeId (child :: children) s = .ok s' ↔
      ∃ r, InnerBucket.spillNode P fuel child (some nodeId) s = .ok r ∧
        spillChildren P fuel nodeId children r.2 = .ok s' := by
  unfold spillChildren
  rw [List.foldlM_cons, except_bind_eq_ok]
  constructor
  · rintro ⟨s₁, hstep, hrest⟩
    obtain ⟨r, hchild, heq⟩ := except_bind_eq_ok.mp hstep
    obtain rfl : r.2 = s₁ := Except.ok.inj heq
    exact ⟨r, hchild, hrest⟩
  · rintro ⟨r, hchild, hrest⟩
    refine ⟨r.2, ?_, hrest⟩
    rw [hchild]
    rfl

theorem raiseRoot_inv {fuel : Nat} {ids : List Nat} {s : BucketTx} {r : Option Nat × BucketTx} :
    raiseRoot P fuel nodeId ids s = .ok r ↔
      ∃ es root b', s.1.branchesOf (nodeId :: ids) = .ok es ∧
        s.1.newNode (.branches es) = .ok (root, b') ∧
        ∃ r', InnerBucket.spillNode P fuel root none (b', s.2) = .ok r' ∧ newRoot r' = .ok r := by
  rw [raiseRoot, except_bind_eq_ok]
  constructor
  · rintro ⟨es, hes, h⟩
    obtain ⟨⟨root, b'⟩, hroot, h⟩ := except_bind_eq_ok.mp h
    exact ⟨es, root, b', hes, hroot, except_bind_eq_ok.mp h⟩
  · rintro ⟨es, root, b', hes, hroot, h⟩
    exact ⟨es, hes, except_bind_eq_ok.mpr ⟨(root, b'), hroot, except_bind_eq_ok.mpr h⟩⟩

theorem afterChildren_inv {fuel : Nat} {key : Option Bytes} {parent : Option Nat} {s : BucketTx}
    {r : Option Nat × BucketTx} :
    afterChildren P fuel nodeId key parent s = .ok r ↔
      ∃ siblings s', splitAndWrite P nodeId s = .ok (siblings, s') ∧
        match parent, siblings with
        | some parentId, siblings => tellUp nodeId parentId key siblings s' = .ok r
        | none, none => ∃ self, s'.1.getNode nodeId = .ok self ∧ r = (some self.pageId, s')
        | none, some ids => raiseRoot P fuel nodeId ids s' = .ok r := by
  rw [afterChildren, except_bind_eq_ok, Prod.exists]
  refine exists_congr fun siblings => exists_congr fun s' => and_congr_right fun _ => ?_
  cases parent with
  | some parentId => exact Iff.rfl
  | none =>
    cases siblings with
    | none =>
      refine except_bind_eq_ok.trans (exists_congr fun self => and_congr_right fun _ => ?_)
      exact ⟨fun h => (Except.ok.inj h).symm, fun h => h ▸ rfl⟩
    | some ids => exact Iff.rfl

/-- A spill that ends has the same result with one more round. -/
theorem spillNode_succ (P : Pages) (fuel : Nat) :
    ∀ {nodeId : Nat} {parent : Option Nat} {s : BucketTx} {r : Option Nat × BucketTx},
      InnerBucket.spillNode P fuel nodeId parent s = .ok r →
      InnerBucket.spillNode P (fuel + 1) nodeId parent s = .ok r := by
  induction fuel with
  | zero =>
    intro nodeId parent s r h
    cases h
  | succ fuel ih =>
    rintro nodeId parent ⟨b, fl⟩ r h
    have hchildren : ∀ {children : List Nat} {s s' : BucketTx},
        spillChildren P fuel nodeId children s = .ok s' →
        spillChildren P (fuel + 1) nodeId children s = .ok s' := by
      intro children
      induction children with
      | nil => exact fun h => h
      | cons child children ih' =>
        intro s s' h
        obtain ⟨r₁, hchild, hrest⟩ := spillChildren_cons.mp h
        exact spillChildren_cons.mpr ⟨r₁, ih hchild, ih' hrest⟩
    obtain ⟨n, hn, ⟨hspilled, rfl⟩ | ⟨hspilled, children, hsort, s, hs, h⟩⟩ := spillNode_inv h
    · rw [InnerBucket.spillNode, hn]
      simp [hspilled]
    · rw [spillNode_eq hn hspilled hsort, except_bind_eq_ok]
      refine ⟨s, hchildren hs, ?_⟩
      obtain ⟨siblings, s', hsplit, h⟩ := afterChildren_inv.mp h
      refine afterChildren_inv.mpr ⟨siblings, s', hsplit, ?_⟩
      cases parent with
      | some parentId => exact h
      | none =>
        cases siblings with
        | none => exact h
        | some ids =>
          obtain ⟨es, root, b', hes, hroot, r', hspill, hnew⟩ := raiseRoot_inv.mp h
          exact raiseRoot_inv.mpr ⟨es, root, b', hes, hroot, r', ih hspill, hnew⟩

theorem spillNode_mono {fuel fuel' : Nat} (hle : fuel ≤ fuel') {parent : Option Nat}
    {s : BucketTx} {r : Option Nat × BucketTx}
    (h : InnerBucket.spillNode P fuel nodeId parent s = .ok r) :
    InnerBucket.spillNode P fuel' nodeId parent s = .ok r := by
  induction hle with
  | refl => exact h
  | step _ ih => exact spillNode_succ P _ ih

theorem spillChildren_mono {fuel fuel' : Nat} (hle : fuel ≤ fuel') {children : List Nat} :
    ∀ {s s' : BucketTx}, spillChildren P fuel nodeId children s = .ok s' →
      spillChildren P fuel' nodeId children s = .ok s' := by
  induction children with
  | nil => exact fun h => h
  | cons child children ih =>
    intro s s' h
    obtain ⟨r, hchild, hrest⟩ := spillChildren_cons.mp h
    exact spillChildren_cons.mpr ⟨r, spillNode_mono hle hchild, ih hrest⟩

/-! ## The table while children are written -/

/-- Nodes are only added, and they know their places. -/
def GrowsTo (b b' : InnerBucket) : Prop :=
  (Numbered b → Numbered b') ∧ b.nodes.length ≤ b'.nodes.length

theorem GrowsTo.refl (b : InnerBucket) : GrowsTo b b := ⟨fun h => h, le_rfl⟩

theorem GrowsTo.trans {b b' b'' : InnerBucket} (h : GrowsTo b b') (h' : GrowsTo b' b'') :
    GrowsTo b b'' :=
  ⟨fun hb => h'.1 (h.1 hb), h.2.trans h'.2⟩

theorem growsTo_setNode (b : InnerBucket) (n : Node) : GrowsTo b (b.setNode n) := by
  refine ⟨fun hb i e he => ?_, by simp [InnerBucket.setNode]⟩
  rw [table_setNode, List.getElem?_set] at he
  split_ifs at he with hi
  · rw [← Option.some.inj he]
    exact hi
  · exact hb i e he

theorem growsTo_newNode {b b' : InnerBucket} {d : NodeData} {id : Nat}
    (h : b.newNode d = .ok (id, b')) : GrowsTo b b' := by
  rw [InnerBucket.newNode, except_bind_eq_ok] at h
  obtain ⟨n, hn, h⟩ := h
  obtain ⟨-, rfl⟩ := Prod.mk.inj (Except.ok.inj h)
  have hid : n.id = b.nodes.length := by
    rw [Node.withData, except_bind_eq_ok] at hn
    obtain ⟨key, -, hn⟩ := hn
    rw [← Except.ok.inj hn]
  exact ⟨fun hb => hb.append hid, by simp⟩

theorem growsTo_newNodes (pieces : List NodeData) :
    ∀ {b b' : InnerBucket} {ids : List Nat}, b.newNodes pieces = .ok (ids, b') → GrowsTo b b' := by
  induction pieces with
  | nil =>
    intro b b' ids h
    cases h
    exact .refl b
  | cons p pieces ih =>
    intro b b' ids h
    rw [InnerBucket.newNodes, except_bind_eq_ok] at h
    obtain ⟨⟨id, b₁⟩, hnew, h⟩ := h
    obtain ⟨⟨ids', b₂⟩, hrest, h⟩ := except_bind_eq_ok.mp h
    obtain ⟨-, rfl⟩ := Prod.mk.inj (Except.ok.inj h)
    exact (growsTo_newNode hnew).trans (ih hrest)

theorem growsTo_writeNode {id : Nat} {s s' : BucketTx} (h : InnerBucket.writeNode id s = .ok s') :
    GrowsTo s.1 s'.1 := by
  rw [InnerBucket.writeNode, except_bind_eq_ok] at h
  obtain ⟨n, -, h⟩ := h
  obtain ⟨⟨n', fl'⟩, -, h⟩ := except_bind_eq_ok.mp h
  cases h
  exact growsTo_setNode _ _

theorem growsTo_writeNodes (ids : List Nat) :
    ∀ {s s' : BucketTx}, InnerBucket.writeNodes ids s = .ok s' → GrowsTo s.1 s'.1 := by
  induction ids with
  | nil =>
    intro s s' h
    cases h
    exact .refl _
  | cons id ids ih =>
    intro s s' h
    rw [InnerBucket.writeNodes, except_bind_eq_ok] at h
    obtain ⟨s₁, hwrite, hrest⟩ := h
    exact (growsTo_writeNode hwrite).trans (ih hrest)

theorem growsTo_splitNode {b' : InnerBucket} {siblings : Option (List Nat)}
    (h : InnerBucket.splitNode P b nodeId = .ok (siblings, b')) : GrowsTo b b' := by
  rw [InnerBucket.splitNode, except_bind_eq_ok] at h
  obtain ⟨n, -, h⟩ := h
  cases hsplit : n.data.split P.pagesize with
  | none =>
    rw [hsplit] at h
    cases h
    exact .refl b
  | some pieces =>
    rw [hsplit] at h
    obtain ⟨⟨ids, b₁⟩, hnew, h⟩ := except_bind_eq_ok.mp h
    cases h
    exact (growsTo_setNode _ _).trans (growsTo_newNodes _ hnew)

theorem growsTo_splitAndWrite {s s' : BucketTx} {siblings : Option (List Nat)}
    (h : splitAndWrite P nodeId s = .ok (siblings, s')) : GrowsTo s.1 s'.1 := by
  rw [splitAndWrite, except_bind_eq_ok] at h
  obtain ⟨⟨siblings', b₁⟩, hsplit, h⟩ := h
  obtain ⟨s₁, hwrite, h⟩ := except_bind_eq_ok.mp h
  have hfirst : GrowsTo s.1 s₁.1 := (growsTo_splitNode hsplit).trans (growsTo_writeNode hwrite)
  cases siblings' with
  | none =>
    cases h
    exact hfirst
  | some ids =>
    obtain ⟨s₂, hwrite₂, h⟩ := except_bind_eq_ok.mp h
    obtain ⟨s₃, hwrite₃, h⟩ := except_bind_eq_ok.mp h
    cases h
    exact (hfirst.trans (growsTo_writeNode hwrite₂)).trans (growsTo_writeNodes _ hwrite₃)

theorem growsTo_tellParent {b' : InnerBucket} {parentId : Nat} {key : Option Bytes} {e : Branch}
    (h : b.tellParent parentId key e = .ok b') : GrowsTo b b' := by
  rw [InnerBucket.tellParent, except_bind_eq_ok] at h
  obtain ⟨parent, -, h⟩ := h
  obtain ⟨parent', -, h⟩ := except_bind_eq_ok.mp h
  cases h
  exact growsTo_setNode _ _

theorem growsTo_tellParentAll {parentId : Nat} (es : List Branch) :
    ∀ {b b' : InnerBucket}, b.tellParentAll parentId es = .ok b' → GrowsTo b b' := by
  induction es with
  | nil =>
    intro b b' h
    cases h
    exact .refl b
  | cons e es ih =>
    intro b b' h
    rw [InnerBucket.tellParentAll, except_bind_eq_ok] at h
    obtain ⟨b₁, htell, hrest⟩ := h
    exact (growsTo_tellParent htell).trans (ih hrest)

theorem growsTo_tellUp {parentId : Nat} {key : Option Bytes} {siblings : Option (List Nat)}
    {s : BucketTx} {r : Option Nat × BucketTx} (h : tellUp nodeId parentId key siblings s = .ok r) :
    GrowsTo s.1 r.2.1 := by
  rw [tellUp, except_bind_eq_ok] at h
  obtain ⟨e, -, h⟩ := h
  obtain ⟨es, -, h⟩ := except_bind_eq_ok.mp h
  split at h
  · obtain ⟨b₁, htell, h⟩ := except_bind_eq_ok.mp h
    obtain ⟨b₂, hall, h⟩ := except_bind_eq_ok.mp h
    cases h
    exact (growsTo_tellParent htell).trans (growsTo_tellParentAll _ hall)
  · obtain ⟨b₁, htell, h⟩ := except_bind_eq_ok.mp h
    cases htell
    obtain ⟨b₂, hall, h⟩ := except_bind_eq_ok.mp h
    cases h
    exact growsTo_tellParentAll _ hall

theorem newRoot_eq_ok {r r' : Option Nat × BucketTx} (h : newRoot r = .ok r') :
    r' = r := by
  obtain ⟨page, s⟩ := r
  cases page <;> cases h
  rfl

/-- Children that are written one after the other keep what each of them keeps. -/
theorem growsTo_children {fuel : Nat}
    (hstep : ∀ {child : Nat} {parent : Option Nat} {s : BucketTx} {r : Option Nat × BucketTx},
      InnerBucket.spillNode P fuel child parent s = .ok r → GrowsTo s.1 r.2.1)
    {children : List Nat} :
    ∀ {s s' : BucketTx}, spillChildren P fuel nodeId children s = .ok s' → GrowsTo s.1 s'.1 := by
  induction children with
  | nil =>
    intro s s' h
    cases h
    exact .refl _
  | cons child children ih =>
    intro s s' h
    obtain ⟨r, hchild, hrest⟩ := spillChildren_cons.mp h
    exact (hstep hchild).trans (ih hrest)

theorem growsTo_spillNode (P : Pages) (fuel : Nat) :
    ∀ {nodeId : Nat} {parent : Option Nat} {s : BucketTx} {r : Option Nat × BucketTx},
      InnerBucket.spillNode P fuel nodeId parent s = .ok r → GrowsTo s.1 r.2.1 := by
  induction fuel with
  | zero =>
    intro nodeId parent s r h
    cases h
  | succ fuel ih =>
    rintro nodeId parent ⟨b, fl⟩ r h
    obtain ⟨n, hn, ⟨hspilled, rfl⟩ | ⟨hspilled, children, hsort, s, hs, h⟩⟩ := spillNode_inv h
    · exact .refl b
    · have hfirst : GrowsTo b s.1 := (growsTo_setNode _ _).trans (growsTo_children ih hs)
      obtain ⟨siblings, s', hsplit, h⟩ := afterChildren_inv.mp h
      have hsecond : GrowsTo b s'.1 := hfirst.trans (growsTo_splitAndWrite hsplit)
      cases parent with
      | some parentId => exact hsecond.trans (growsTo_tellUp h)
      | none =>
        cases siblings with
        | none =>
          obtain ⟨self, -, rfl⟩ := h
          exact hsecond
        | some ids =>
          obtain ⟨es, root, b', hes, hroot, r', hspill, hnew⟩ := raiseRoot_inv.mp h
          rw [newRoot_eq_ok hnew]
          exact (hsecond.trans (growsTo_newNode hroot)).trans (ih hspill)

/-- **Splitting partitions a node, and root growth ends.**  A node stays as it is, or its elements
are those of the node and of the new siblings in order, at least two in each.  Once the children of
a root are written, its spill answers with the page of a root, however many elements it has. -/
theorem split_and_root_growth (P : Pages) {b : InnerBucket} (hb : Numbered b) {nodeId : Nat}
    {n : Node} (hn : b.getNode nodeId = .ok n) :
    (InnerBucket.splitNode P b nodeId = .ok (none, b) ∨
      ∃ ids b' pieces, InnerBucket.splitNode P b nodeId = .ok (some ids, b') ∧
        Pieces n.data pieces ∧ 2 ≤ pieces.length ∧
        (nodeId :: ids).map (fun id => (b'.nodes[id]?).map Node.data) = pieces.map some) ∧
    ∀ (fl : TxFreelist) (children : List Nat) (rounds : Nat) (s : BucketTx),
      n.spilled = false → b.sortChildren n.children = .ok children →
      spillChildren P rounds nodeId children (b.setNode { n with children := children }, fl) =
        .ok s →
      ∃ pageId s' N, ∀ fuel ≥ N,
        InnerBucket.spillNode P fuel nodeId none (b, fl) = .ok (some pageId, s') := by
  have hnode := of_getNode hn
  constructor
  · rcases splitNode_cases (P := P) hb hnode with hsplit |
      ⟨kept, rest, b', hpieces, hrest, hsplit, htable⟩
    · exact .inl hsplit
    · obtain ⟨-, hkept, hnew⟩ := table_split hb hnode htable
      have hdata : ∀ {id : Nat} {d : NodeData}, (table b')[id]? = some (id, d) →
          (b'.nodes[id]?).map Node.data = some d := by
        intro id d hd
        obtain ⟨m, hm, -, rfl⟩ := exists_node hd
        rw [hm]
        rfl
      refine .inr ⟨_, b', kept :: rest, hsplit, hpieces, ?_, ?_⟩
      · rw [List.length_cons]
        omega
      · rw [List.map_cons, List.map_cons, hdata hkept]
        refine congrArg (some kept :: ·) (List.ext_getElem (by simp) fun i hi _ => ?_)
        rw [List.length_map, List.length_range'] at hi
        simpa using hdata (hnew i hi)
  · intro fl children rounds s hspilled hsort hchildren
    obtain ⟨hkeeps, hlength⟩ : GrowsTo b s.1 := by
      refine (growsTo_setNode b { n with children := children }).trans ?_
      exact growsTo_children (growsTo_spillNode P rounds) hchildren
    have hlt : nodeId < s.1.nodes.length :=
      ((List.getElem?_eq_some_iff.mp hnode).1).trans_le hlength
    obtain ⟨pageId, s', hend⟩ : ∃ pageId s',
        afterChildren P (max rounds s.1.nodes[nodeId].data.len) nodeId n.originalKey none s =
          .ok (some pageId, s') :=
      afterChildren_ends P _ (hkeeps hb) (List.getElem?_eq_getElem hlt) (le_max_right _ _)
    refine ⟨pageId, s', max rounds s.1.nodes[nodeId].data.len + 1, fun fuel hfuel => ?_⟩
    refine spillNode_mono hfuel ?_
    rw [spillNode_eq hn hspilled hsort, spillChildren_mono (le_max_left _ _) hchildren]
    exact hend

end Growth

/-- A bucket whose root is a leaf of seven records, two of which fill half a page. -/
def crowdedBucket : InnerBucket :=
  { InnerBucket.fromMeta ⟨2, 7⟩ with
    nodes := [⟨0, 2, 1, [],
      .leaves ([1, 2, 3, 4, 5, 6, 7].map fun k => .kv [k] (List.replicate 300 k)),
      false, some [1], none, false⟩] }

/-- The file of that bucket, as far as a spill reads it. -/
def crowdedPages : Pages := ⟨fun _ => .error "page is out of range", 1024⟩

theorem crowded_numbered : Numbered crowdedBucket := by
  intro i e he
  cases i with
  | zero => rw [← Option.some.inj he]
  | succ i => cases he

/-- The spill of that root ends. -/
theorem root_growth_crowded :
    ∃ pageId s' N, ∀ fuel ≥ N, InnerBucket.spillNode crowdedPages fuel 0 none
      (crowdedBucket, .new ⟨0, magicValue, formatVersion, 1024, ⟨2, 7⟩, 5, 4, 2, 0⟩ .new) =
        .ok (some pageId, s') :=
  (split_and_root_growth crowdedPages crowded_numbered rfl).2 _ [] 0 _ rfl rfl rfl

/-- It is cut into three pieces, and a root is put above them. -/
example : ((crowdedBucket.nodes[0].data.split 1024).map fun p => (p.1 :: p.2).map NodeData.len) =
    some [2, 2, 3] := by
  decide +kernel

end Tagdata.Analysis
