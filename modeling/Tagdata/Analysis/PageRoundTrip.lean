import Tagdata.Analysis.PageReads

/-!
# The round trip of a page

A node goes into a block that `TxFreelist::allocate` gives for its size, the block is sealed, and
wherever the block lies in a file `validate_block` accepts it and `Node::from_page` finds the node.
-/

set_option autoImplicit false

namespace Tagdata.Analysis

open Tagdata.Library Tagdata.Model Tagdata.Model.RawPage

/-! ## The size of a node -/

theorem foldl_add_eq {α : Type} (size : α → Nat) (start : Nat) (as : List α) :
    as.foldl (fun acc a => acc + size a) start = start + (as.map size).sum := by
  induction as generalizing start with
  | nil => simp
  | cons a as ih =>
    rw [List.foldl_cons, ih, List.map_cons, List.sum_cons, add_assoc]

theorem length_leafData (l : Leaf) : (leafData l).length = l.size := by
  cases l with
  | bucket name m =>
    rw [leafData, List.length_append, value_length rfl]
    rfl
  | kv key value => exact List.length_append

/-- The bytes of a node behind the header of its page: the size estimate counts them. -/
theorem extent_branches (branches : List Branch) :
    extent branchSize Branch.key branches = dataOffset + (NodeData.branches branches).size := by
  rw [extent, NodeData.size, foldl_add_eq, List.length_flatMap, add_assoc]
  rfl

theorem extent_leaves (leaves : List Leaf) :
    extent leafSize leafData leaves = dataOffset + (NodeData.leaves leaves).size := by
  rw [extent, NodeData.size, foldl_add_eq, List.length_flatMap, add_assoc]
  simp only [length_leafData]

/-- The pages of a block hold the bytes and the checksum. -/
theorem le_pagesFor {pagesize bytes : Nat} (h : 0 < pagesize) :
    bytes + checksumSize ≤ TxFreelist.pagesFor pagesize bytes * pagesize := by
  have hdiv := Nat.div_add_mod (bytes + checksumSize) pagesize
  rw [mul_comm] at hdiv
  unfold TxFreelist.pagesFor
  dsimp only
  split_ifs with hzero
  · omega
  · have hlt := Nat.mod_lt (bytes + checksumSize) h
    rw [Nat.add_mul, one_mul]
    omega

/-! ## Writing a node -/

section writing

variable {data : NodeData} {block : Bytes}

theorem writeNode_branches {branches : List Branch}
    (h : extent branchSize Branch.key branches ≤ block.length) :
    writeNode (.branches branches) block =
      nodeBlock typeBranch branchSize putBranch Branch.key branches block := by
  unfold extent at h
  have hlength : (filled typeBranch branchSize putBranch Branch.key branches block).length =
      block.length := length_filled branch_puts (by omega)
  have hflat : (branches.map Branch.key).flatten = branches.flatMap Branch.key := rfl
  exact writeData_eq (branches.map Branch.key) (dataOffset + branchSize * branches.length)
    (by rw [hflat]; exact h.trans_eq hlength.symm)

theorem flatMap_pieces (leaves : List Leaf) :
    (leaves.flatMap fun l => [l.key, l.value]).flatten = leaves.flatMap leafData := by
  induction leaves with
  | nil => rfl
  | cons l leaves ih =>
    rw [List.flatMap_cons, List.flatten_append, ih, List.flatMap_cons, leafData]
    simp

theorem writeNode_leaves {leaves : List Leaf}
    (h : extent leafSize leafData leaves ≤ block.length) :
    writeNode (.leaves leaves) block =
      nodeBlock typeLeaf leafSize putLeaf leafData leaves block := by
  unfold extent at h
  have hlength : (filled typeLeaf leafSize putLeaf leafData leaves block).length =
      block.length := length_filled leaf_puts (by omega)
  rw [nodeBlock, ← flatMap_pieces]
  exact writeData_eq (leaves.flatMap fun l => [l.key, l.value])
    (dataOffset + leafSize * leaves.length)
    (by rw [flatMap_pieces]; exact h.trans_eq hlength.symm)

/-- Nothing behind the data of the node changes. -/
theorem writeNode_differs (h : dataOffset + data.size ≤ block.length) :
    DiffersIn 0 (dataOffset + data.size) block (writeNode data block) := by
  cases data with
  | branches branches =>
    rw [← extent_branches] at h ⊢
    rw [writeNode_branches h]
    exact nodeBlock_differs branch_puts h
  | leaves leaves =>
    rw [← extent_leaves] at h ⊢
    rw [writeNode_leaves h]
    exact nodeBlock_differs leaf_puts h

end writing

/-! ## A page that shows a node -/

/-- A page whose bytes below the limit are those of a block with a node written into it. -/
structure ShowsNode (data : NodeData) (block : Bytes) (limit : Nat) (p : RawPage) : Prop where
  ends : dataOffset + data.size ≤ limit
  fits : limit ≤ block.length
  word : limit < 2 ^ 64
  same : SameIn 0 limit (writeNode data block) p.bytes

namespace ShowsNode

variable {data : NodeData} {block : Bytes} {limit : Nat} {p : RawPage}

theorem branches {branches : List Branch} (h : ShowsNode (.branches branches) block limit p) :
    ShowsBranches branches block limit p where
  puts := branch_puts
  ends := by rw [extent_branches]; exact h.ends
  fits := h.fits
  word := h.word
  same := by
    rw [← writeNode_branches (by rw [extent_branches]; exact h.ends.trans h.fits)]
    exact h.same

theorem leaves {leaves : List Leaf} (h : ShowsNode (.leaves leaves) block limit p) :
    ShowsLeaves leaves block limit p where
  puts := leaf_puts
  ends := by rw [extent_leaves]; exact h.ends
  fits := h.fits
  word := h.word
  same := by
    rw [← writeNode_leaves (by rw [extent_leaves]; exact h.ends.trans h.fits)]
    exact h.same

theorem id_eq (h : ShowsNode data block limit p) : p.id = readU64 block 0 := by
  cases data with
  | branches branches => exact h.branches.id_eq
  | leaves leaves => exact h.leaves.id_eq

theorem overflow_eq (h : ShowsNode data block limit p) : p.overflow = readU64 block 24 := by
  cases data with
  | branches branches => exact h.branches.overflow_eq
  | leaves leaves => exact h.leaves.overflow_eq

theorem pageType_eq (h : ShowsNode data block limit p) :
    p.pageType = (PageBody.ofNodeData data).pageType := by
  cases data with
  | branches branches => exact h.branches.pageType_eq (by decide)
  | leaves leaves => exact h.leaves.pageType_eq (by decide)

theorem nodeData (h : ShowsNode data block limit p) (hwords : Words data) :
    p.nodeData = .ok data := by
  cases data with
  | branches branches => exact h.branches.nodeData hwords
  | leaves leaves => exact h.leaves.nodeData hwords

theorem validateLayout (h : ShowsNode data block limit p) (hwords : Words data) :
    p.validateLayout limit = .ok () := by
  cases data with
  | branches branches => exact h.branches.validateLayout hwords
  | leaves leaves => exact h.leaves.validateLayout

/-- The page, decoded. -/
theorem body (h : ShowsNode data block limit p) (hwords : Words data) :
    p.body = .ofNodeData data := by
  have htype := h.pageType_eq
  rw [RawPage.body, h.nodeData hwords]
  cases data <;> rw [htype] <;> rfl

end ShowsNode

/-! ## A block in a file -/

theorem of_checkPageSize {pagesize : Nat} (h : checkPageSize pagesize = .ok ()) :
    1024 ≤ pagesize ∧ pagesize % 8 = 0 := by
  unfold checkPageSize at h
  split_ifs at h with hbad
  · cases h
  · omega

section placed

variable {digest : Digest} {pagesize id overflow limit : Nat} {before block after : Bytes}

/-- A block of whole pages that lies in a file at the place of its page. -/
structure Placed (pagesize id overflow : Nat) (before block after : Bytes) : Prop where
  pagesize_ok : checkPageSize pagesize = .ok ()
  place : before.length = id * pagesize
  length : block.length = (overflow + 1) * pagesize
  word : (before ++ block ++ after).length < 2 ^ 64

namespace Placed

theorem pagesize_ge (h : Placed pagesize id overflow before block after) :
    1024 ≤ pagesize ∧ pagesize % 8 = 0 :=
  of_checkPageSize h.pagesize_ok

theorem drop (h : Placed pagesize id overflow before block after) :
    (before ++ block ++ after).drop (id * pagesize) = block ++ after := by
  rw [← h.place, List.append_assoc, List.drop_left' rfl]

theorem block_length (h : Placed pagesize id overflow before block after) :
    1024 ≤ block.length := by
  have hpagesize := h.pagesize_ge.1
  rw [h.length, Nat.add_mul, one_mul]
  omega

theorem ends (h : Placed pagesize id overflow before block after) :
    id * pagesize + block.length ≤ (before ++ block ++ after).length ∧
      id * pagesize + block.length < 2 ^ 64 := by
  have hword := h.word
  have hplace := h.place
  simp only [List.length_append] at hword ⊢
  omega

theorem sliceOf (h : Placed pagesize id overflow before block after) :
    RawPage.sliceOf (before ++ block ++ after) (id * pagesize) block.length = .ok block := by
  obtain ⟨hfile, hword⟩ := h.ends
  have hload : load (before ++ block ++ after) (id * pagesize) block.length = block := by
    rw [← h.place, List.append_assoc]
    exact load_middle _ _ _
  rw [RawPage.sliceOf, addU64_of_lt hword, except_bind_ok, if_pos hfile, hload]
  rfl

/-- The bounds of a block that its header names right. -/
theorem validateSpan (h : Placed pagesize id overflow before block after)
    (htype : (RawPage.mk (block ++ after)).validateHeader id = .ok ())
    (hoverflow : (RawPage.mk (block ++ after)).overflow = overflow) :
    RawPage.validateSpan (before ++ block ++ after) id pagesize =
      .ok (⟨block ++ after⟩, id * pagesize, block.length) := by
  obtain ⟨hsize, haligned⟩ := h.pagesize_ge
  obtain ⟨hfile, hword⟩ := h.ends
  have hlong := h.block_length
  have hlength := h.length
  have halign : id * pagesize % 8 = 0 := by
    rw [Nat.mul_mod, haligned, mul_zero, Nat.zero_mod]
  have hpages : overflow + 1 ≤ block.length := by
    rw [hlength]
    exact Nat.le_mul_of_pos_right _ (by omega)
  have hend : (RawPage.mk (block ++ after)).validateBlockEnd (before ++ block ++ after).length id
      pagesize (id * pagesize) = .ok block.length := by
    rw [validateBlockEnd, hoverflow, checkedAdd_of_lt (by omega), orInvalid, except_bind_ok,
      checkedMul_of_lt (by omega), orInvalid, except_bind_ok, ← hlength,
      checkedAdd_of_lt hword, orInvalid, except_bind_ok, if_neg (by omega),
      if_neg (by simp only [headerSize, checksumSize]; omega)]
    rfl
  rw [RawPage.validateSpan, checkedMul_of_lt (by omega), orInvalid, except_bind_ok,
    checkedAdd_of_lt (by simp only [headerSize]; omega), orInvalid, except_bind_ok,
    if_neg (by simp only [headerSize]; omega), if_neg (by omega)]
  have hpage : fromBuf (before ++ block ++ after) id pagesize = .ok ⟨block ++ after⟩ := by
    rw [fromBuf, mulU64_of_lt (by omega), except_bind_ok, if_pos (by omega), h.drop]
    rfl
  simp only [hpage, htype, except_bind_ok, hend, except_pure]

end Placed

/-! ## Sealed blocks -/

/-- A block with its checksum. -/
def sealed (digest : Digest) (block : Bytes) : Bytes :=
  store block (block.length - checksumSize)
    (digest.hash (block.take (block.length - checksumSize)))

theorem sealBlock_eq (h : checksumSize ≤ block.length) :
    sealBlock digest block = .ok (sealed digest block) :=
  if_neg (by omega)

theorem length_sealed (digest : Digest) (h : checksumSize ≤ block.length) :
    (sealed digest block).length = block.length :=
  length_store (by rw [digest.length]; omega)

theorem verifyChecksum_sealed (h : checksumSize ≤ block.length) :
    verifyChecksum digest (sealed digest block) id = .ok () := by
  have hfront : (block.take (block.length - checksumSize)).length =
      block.length - checksumSize := by
    rw [List.length_take]
    omega
  have hend : block.drop (block.length - checksumSize +
      (digest.hash (block.take (block.length - checksumSize))).length) = [] := by
    apply List.drop_eq_nil_of_le
    rw [digest.length]
    omega
  rw [verifyChecksum, length_sealed digest h, subU64_of_le h, except_bind_ok]
  apply if_neg
  rw [not_not, sealed, store, hend, List.append_nil, List.take_left' hfront,
    List.drop_left' hfront]

/-- Sealing leaves what lies below the checksum. -/
theorem sameIn_sealed (digest : Digest) (block after : Bytes) (h : checksumSize ≤ block.length) :
    SameIn 0 (block.length - checksumSize) block (sealed digest block ++ after) := by
  intro start len _ hle
  rw [load_append_left (by rw [length_sealed digest h]; omega), sealed,
    load_store_below hle (by omega)]

/-! ## Allocated blocks -/

theorem length_allocated (h : dataOffset ≤ (overflow + 1) * pagesize) :
    (allocated pagesize id overflow).length = (overflow + 1) * pagesize := by
  have hm : 0 + dataOffset ≤ (List.replicate ((overflow + 1) * pagesize) (0 : UInt8)).length := by
    rw [List.length_replicate]
    omega
  have hdiff : DiffersIn 0 (0 + dataOffset) (List.replicate ((overflow + 1) * pagesize) 0)
      (allocated pagesize id overflow) :=
    storeFields_differsIn (by simp [dataOffset]) hm
  rw [hdiff.length, List.length_replicate]

theorem load_allocated (h : dataOffset ≤ (overflow + 1) * pagesize) {offset n : Nat}
    (hmem : (offset, leBytes 8 n) ∈ [(0, leBytes 8 id), (24, leBytes 8 overflow)])
    (hn : n < 2 ^ 64) : readU64 (allocated pagesize id overflow) offset = n := by
  have hm : 0 + dataOffset ≤ (List.replicate ((overflow + 1) * pagesize) (0 : UInt8)).length := by
    rw [List.length_replicate]
    omega
  have hload : load (allocated pagesize id overflow) (0 + offset) 8 = leBytes 8 n :=
    load_leBytes (by simp [FieldsApart]) (by simp [dataOffset]) hm hmem
  rw [zero_add] at hload
  exact readU64_of_load hload hn

end placed

/-- The block that a node leaves on disk. -/
def nodeOnDisk (digest : Digest) (pagesize id overflow : Nat) (data : NodeData) : Bytes :=
  sealed digest (writeNode data (allocated pagesize id overflow))

section onDisk

variable {digest : Digest} {pagesize id overflow : Nat} {before after : Bytes} {data : NodeData}

theorem length_writeNode_allocated
    (hfits : dataOffset + data.size + checksumSize ≤ (overflow + 1) * pagesize) :
    (writeNode data (allocated pagesize id overflow)).length = (overflow + 1) * pagesize := by
  have hblock : (allocated pagesize id overflow).length = (overflow + 1) * pagesize :=
    length_allocated (by omega)
  rw [(writeNode_differs (by omega)).length, hblock]

theorem length_nodeOnDisk
    (hfits : dataOffset + data.size + checksumSize ≤ (overflow + 1) * pagesize) :
    (nodeOnDisk digest pagesize id overflow data).length = (overflow + 1) * pagesize := by
  have hlength : (writeNode data (allocated pagesize id overflow)).length =
      (overflow + 1) * pagesize := length_writeNode_allocated hfits
  rw [nodeOnDisk, length_sealed digest (by omega), hlength]

theorem nodeOnDisk_shows (after : Bytes)
    (hfits : dataOffset + data.size + checksumSize ≤ (overflow + 1) * pagesize)
    (hword : (overflow + 1) * pagesize < 2 ^ 64) :
    ShowsNode data (allocated pagesize id overflow) ((overflow + 1) * pagesize - checksumSize)
      ⟨nodeOnDisk digest pagesize id overflow data ++ after⟩ where
  ends := by omega
  fits := by
    rw [length_allocated (by omega)]
    omega
  word := by omega
  same := by
    have hlength : (writeNode data (allocated pagesize id overflow)).length =
        (overflow + 1) * pagesize := length_writeNode_allocated hfits
    have hsame := sameIn_sealed digest (writeNode data (allocated pagesize id overflow)) after
      (by omega)
    rw [hlength] at hsame
    exact hsame

theorem validateHeader_of_node {p : RawPage} (hid : p.id = id)
    (htype : p.pageType = (PageBody.ofNodeData data).pageType) : p.validateHeader id = .ok () := by
  rw [validateHeader, if_neg (not_not.mpr hid), htype]
  cases data <;> rfl

/-- A node on disk is accepted and read back. -/
theorem nodeOnDisk_validates (hwords : Words data)
    (hfits : dataOffset + data.size + checksumSize ≤ (overflow + 1) * pagesize)
    (hplaced : Placed pagesize id overflow before
      (nodeOnDisk digest pagesize id overflow data) after) :
    ∃ p, validateBlock digest (before ++ nodeOnDisk digest pagesize id overflow data ++ after) id
        pagesize = .ok p ∧
      p.pageType = (PageBody.ofNodeData data).pageType ∧
      p.nodeData = .ok data ∧ p.page = ⟨id, overflow, .ofNodeData data⟩ := by
  have hlength : (nodeOnDisk digest pagesize id overflow data).length =
      (overflow + 1) * pagesize := length_nodeOnDisk hfits
  have hword := hplaced.ends.2
  have hpagesize := hplaced.pagesize_ge.1
  have hid : id ≤ id * pagesize := Nat.le_mul_of_pos_right id (by omega)
  have hpages : overflow + 1 ≤ (overflow + 1) * pagesize :=
    Nat.le_mul_of_pos_right _ (by omega)
  have hshows : ShowsNode data (allocated pagesize id overflow)
      ((overflow + 1) * pagesize - checksumSize)
      ⟨nodeOnDisk digest pagesize id overflow data ++ after⟩ :=
    nodeOnDisk_shows after hfits (by omega)
  have hidEq : (RawPage.mk (nodeOnDisk digest pagesize id overflow data ++ after)).id = id := by
    rw [hshows.id_eq]
    exact load_allocated (by omega) (by simp) (by omega)
  have hoverflowEq :
      (RawPage.mk (nodeOnDisk digest pagesize id overflow data ++ after)).overflow = overflow := by
    rw [hshows.overflow_eq]
    exact load_allocated (by omega) (by simp) (by omega)
  have hspan := hplaced.validateSpan (validateHeader_of_node hidEq hshows.pageType_eq) hoverflowEq
  have hchecksum : verifyChecksum digest (nodeOnDisk digest pagesize id overflow data) id =
      .ok () := by
    apply verifyChecksum_sealed
    rw [length_writeNode_allocated hfits]
    omega
  refine ⟨⟨nodeOnDisk digest pagesize id overflow data ++ after⟩, ?_, hshows.pageType_eq,
    hshows.nodeData hwords, ?_⟩
  · rw [validateBlock, hspan]
    simp only [except_bind_ok, hplaced.sliceOf, hchecksum]
    rw [hlength, subU64_of_le (by omega), except_bind_ok, hshows.validateLayout hwords,
      except_bind_ok, except_pure]
  · rw [RawPage.page, hidEq, hoverflowEq, hshows.body hwords]

end onDisk

/-! ## The round trip -/

/-- The bytes of the block for a node. -/
def blockBytes (pagesize : Nat) (n : Node) : Nat := TxFreelist.pagesFor pagesize n.size * pagesize

theorem allocate_eq (fl : TxFreelist) {bytes : Nat} (h : headerSize ≤ bytes) :
    ∃ id fl', fl.allocate bytes =
      .ok (⟨id, TxFreelist.pagesFor fl.txMeta.pagesize bytes - 1, .zeroed⟩, fl') := by
  unfold TxFreelist.allocate
  rw [if_neg (by omega)]
  cases fl.inner.allocate (TxFreelist.pagesFor fl.txMeta.pagesize bytes) with
  | none => exact ⟨_, _, rfl⟩
  | some found => exact ⟨_, _, rfl⟩

/-- The block of a node holds its bytes and the checksum. -/
theorem le_blockBytes {pagesize : Nat} (h : 0 < pagesize) (n : Node) :
    headerSize + n.data.size + checksumSize ≤ blockBytes pagesize n :=
  le_pagesFor h

theorem blockBytes_eq {pagesize : Nat} (h : 0 < pagesize) (n : Node) :
    (TxFreelist.pagesFor pagesize n.size - 1 + 1) * pagesize = blockBytes pagesize n := by
  have hle := le_blockBytes h n
  have hpos : 0 < TxFreelist.pagesFor pagesize n.size := by
    apply Nat.pos_of_ne_zero
    intro hzero
    rw [blockBytes, hzero, zero_mul] at hle
    simp only [headerSize] at hle
    omega
  rw [Nat.sub_add_cancel hpos, blockBytes]

/-- `TxFreelist::allocate` fails on a node for which there is no layout, and on no other. -/
theorem allocateBlock_eq (fl : TxFreelist) (hpagesize : 0 < fl.txMeta.pagesize) (n : Node) :
    ∃ id fl', allocateBlock fl n.size =
      if blockBytes fl.txMeta.pagesize n > maxLayout then .error (.error .alloc)
      else .ok (⟨id, TxFreelist.pagesFor fl.txMeta.pagesize n.size - 1, .zeroed⟩,
        allocated fl.txMeta.pagesize id (TxFreelist.pagesFor fl.txMeta.pagesize n.size - 1),
        fl') := by
  obtain ⟨id, fl', hallocate⟩ := allocate_eq fl (Nat.le_add_right headerSize n.data.size)
  refine ⟨id, fl', ?_⟩
  rw [Node.size, allocateBlock, hallocate, ← blockBytes_eq hpagesize]
  rfl

/-- What the round trip of a node promises about the block it was given: writing stays below the
checksum, and the sealed block is accepted at its place in any file and gives the node back. -/
structure RoundTrips (digest : Digest) (pagesize : Nat) (n : Node) (page : Page) (block : Bytes) :
    Prop where
  below : ∀ memory : Bytes, memory.length = block.length →
    DiffersIn 0 (block.length - checksumSize) memory (writeNode n.data memory)
  reads : ∃ onDisk, sealBlock digest (writeNode n.data block) = .ok onDisk ∧
    ∀ before after : Bytes, before.length = page.id * pagesize →
      (before ++ onDisk ++ after).length < 2 ^ 64 →
      ∃ p, validateBlock digest (before ++ onDisk ++ after) page.id pagesize = .ok p ∧
        p.nodeData = .ok n.data ∧
        ∀ id, ∃ loaded, Node.fromPage id p.page = .ok loaded ∧ loaded.data = n.data

/-- A node makes the round trip through every block of whole pages that holds it. -/
theorem roundTrips_of_fits (digest : Digest) {pagesize overflow : Nat} (id : Nat) {n : Node}
    (hwords : Words n.data) (hpagesize : checkPageSize pagesize = .ok ())
    (hfits : headerSize + n.data.size + checksumSize ≤ (overflow + 1) * pagesize) :
    RoundTrips digest pagesize n ⟨id, overflow, .zeroed⟩ (allocated pagesize id overflow) := by
  simp only [headerSize] at hfits
  have hdata : dataOffset + n.data.size + checksumSize ≤ (overflow + 1) * pagesize := by
    simp only [dataOffset]
    omega
  have hlength : (allocated pagesize id overflow).length = (overflow + 1) * pagesize :=
    length_allocated (by omega)
  constructor
  · intro memory hmemory
    exact (writeNode_differs (by omega)).mono le_rfl (by omega)
  · have hwritten : (writeNode n.data (allocated pagesize id overflow)).length =
        (overflow + 1) * pagesize := length_writeNode_allocated hdata
    refine ⟨nodeOnDisk digest pagesize id overflow n.data, sealBlock_eq (by omega), ?_⟩
    intro before after hplace hword
    have hplaced : Placed pagesize id overflow before
        (nodeOnDisk digest pagesize id overflow n.data) after :=
      ⟨hpagesize, hplace, length_nodeOnDisk hdata, hword⟩
    obtain ⟨p, hp, _, hnode, hpage⟩ := nodeOnDisk_validates hwords hdata hplaced
    refine ⟨p, hp, hnode, ?_⟩
    intro nodeId
    rw [hpage, Node.fromPage]
    cases n.data with
    | branches branches => exact ⟨_, rfl, rfl⟩
    | leaves leaves => exact ⟨_, rfl, rfl⟩

/-- Every node is given a block, unless it is too large for memory, and makes the round trip
through it. -/
theorem page_round_trip (digest : Digest) (n : Node) (hwords : Words n.data) (fl : TxFreelist)
    (hpagesize : checkPageSize fl.txMeta.pagesize = .ok ()) :
    (blockBytes fl.txMeta.pagesize n ≤ maxLayout → ∃ given, allocateBlock fl n.size = .ok given) ∧
    ∀ page block fl', allocateBlock fl n.size = .ok (page, block, fl') →
      RoundTrips digest fl.txMeta.pagesize n page block := by
  have hpos : 0 < fl.txMeta.pagesize := by
    have hmin := (of_checkPageSize hpagesize).1
    omega
  obtain ⟨id, given, hallocate⟩ := allocateBlock_eq fl hpos n
  constructor
  · intro hlayout
    rw [hallocate, if_neg (by omega)]
    exact ⟨_, rfl⟩
  · intro page block fl' hok
    rw [hallocate] at hok
    split_ifs at hok with hlayout
    rw [Except.ok.injEq, Prod.mk.injEq, Prod.mk.injEq] at hok
    rw [← hok.1, ← hok.2.1]
    apply roundTrips_of_fits digest id hwords hpagesize
    rw [blockBytes_eq hpos]
    exact le_blockBytes hpos n

/-- A digest for examples. -/
def zeroDigest : Digest := ⟨fun _ => List.replicate checksumSize 0, fun _ => List.length_replicate⟩

/-- A leaf with an empty key, an empty value and a nested bucket. -/
def mixedNode : Node :=
  { Node.newLeaf 0 with data := .leaves [.kv [] [], .bucket [1] ⟨7, 2⟩, .kv [1, 2] [3]] }

/-- The freelist of a file that has just been created, with pages of the smallest size. -/
def smallFreelist : TxFreelist :=
  TxFreelist.new ⟨0, magicValue, formatVersion, 1024, ⟨3, 0⟩, 4, 2, 1, 0⟩ Freelist.new

theorem page_round_trip_mixed :
    ∃ page block fl', allocateBlock smallFreelist mixedNode.size = .ok (page, block, fl') ∧
      RoundTrips zeroDigest 1024 mixedNode page block := by
  have hwords : Words mixedNode.data := by
    intro name m hmem
    have hm : name = [1] ∧ m = ⟨7, 2⟩ := by simpa [mixedNode] using hmem
    rw [hm.2]
    decide
  obtain ⟨hgiven, htrip⟩ := page_round_trip zeroDigest mixedNode hwords smallFreelist rfl
  obtain ⟨⟨page, block, fl'⟩, hok⟩ := hgiven (by decide)
  exact ⟨page, block, fl', hok, htrip page block fl' hok⟩

end Tagdata.Analysis
