import Tagdata.Library.Results
import Tagdata.Model.Open

/-!
# Writing a page and reading it back

What `write_node` leaves in a block: the headers at their places, the data behind them, and nothing
elsewhere.  A page that shows those bytes passes the validation of its layout and gives back the
elements that were written, and the sealed block passes `validate_block` wherever it lies in a file.
-/

set_option autoImplicit false

namespace Tagdata.Analysis

open Tagdata.Library Tagdata.Model Tagdata.Model.RawPage

/-! ## Numbers in memory -/

theorem readU64_of_load {m : Bytes} {offset n : Nat} (h : load m offset 8 = leBytes 8 n)
    (hn : n < 2 ^ 64) : readU64 m offset = n := by
  rw [readU64, h]
  exact ofLeBytes_leBytes (by norm_num; exact hn)

theorem readU8_of_load {m : Bytes} {offset n : Nat} (h : load m offset 1 = leBytes 1 n)
    (hn : n < 256) : readU8 m offset = n := by
  rw [readU8, h]
  exact ofLeBytes_leBytes (by norm_num; exact hn)

/-- A number among the fields of a record. -/
theorem load_leBytes {fields : List (Nat × Bytes)} {base size offset w n : Nat} {m : Bytes}
    (hfields : fields.Pairwise FieldsApart) (hsize : ∀ f ∈ fields, f.1 + f.2.length ≤ size)
    (hm : base + size ≤ m.length) (hmem : (offset, leBytes w n) ∈ fields) :
    load (storeFields base fields m) (base + offset) w = leBytes w n := by
  have hload := load_storeFields hfields hsize hm hmem
  rwa [length_leBytes] at hload

/-! ## One header -/

/-- Two memories that show the same bytes from `lo` to `hi`. -/
def SameIn (lo hi : Nat) (m m' : Bytes) : Prop :=
  ∀ start len, lo ≤ start → start + len ≤ hi → load m' start len = load m start len

theorem elementOffset_succ (size index : Nat) :
    elementOffset size (index + 1) = elementOffset size index + size := by
  rw [elementOffset, elementOffset]
  ring

section headers

variable {index pos : Nat} {block : Bytes}

theorem putBranch_differs (b : Branch) (h : elementOffset branchSize (index + 1) ≤ block.length) :
    DiffersIn (elementOffset branchSize index) (elementOffset branchSize (index + 1)) block
      (putBranch index pos b block) := by
  rw [elementOffset_succ] at h ⊢
  exact storeFields_differsIn (by simp [branchSize]) h

theorem putLeaf_differs (l : Leaf) (h : elementOffset leafSize (index + 1) ≤ block.length) :
    DiffersIn (elementOffset leafSize index) (elementOffset leafSize (index + 1)) block
      (putLeaf index pos l block) := by
  rw [elementOffset_succ] at h ⊢
  exact storeFields_differsIn (by simp [leafSize]) h

/-- A page that shows a branch header gives it back. -/
theorem branchElement_of_put {p : RawPage} {b : Branch}
    (h : elementOffset branchSize (index + 1) ≤ block.length)
    (hsame : SameIn (elementOffset branchSize index) (elementOffset branchSize (index + 1))
      (putBranch index pos b block) p.bytes)
    (hpage : b.page < 2 ^ 64) (hkey : b.key.length < 2 ^ 64) (hpos : pos < 2 ^ 64) :
    p.branchElement index = ⟨index, b.page, b.key.length, pos⟩ := by
  rw [elementOffset_succ] at h hsame
  have hread : ∀ offset n, offset + 8 ≤ branchSize →
      (offset, leBytes 8 n) ∈
        [(0, leBytes 8 b.page), (8, leBytes 8 b.keySize), (16, leBytes 8 pos)] → n < 2 ^ 64 →
      readU64 p.bytes (elementOffset branchSize index + offset) = n := by
    intro offset n hle hmem hn
    apply readU64_of_load _ hn
    rw [hsame _ 8 (by omega) (by omega)]
    exact load_leBytes (by simp [FieldsApart]) (by simp [branchSize]) h hmem
  rw [branchElement, BranchElement.mk.injEq]
  refine ⟨rfl, ?_, ?_, ?_⟩
  · exact hread 0 b.page (by simp [branchSize]) (by simp) hpage
  · exact hread 8 b.key.length (by simp [branchSize]) (by simp [Branch.keySize]) hkey
  · exact hread 16 pos (by simp [branchSize]) (by simp) hpos

theorem nodeType_lt (l : Leaf) : l.nodeType < 256 := by
  cases l <;> simp [Leaf.nodeType, typeBucket, typeData]

/-- A page that shows a leaf header gives it back. -/
theorem leafElement_of_put {p : RawPage} {l : Leaf}
    (h : elementOffset leafSize (index + 1) ≤ block.length)
    (hsame : SameIn (elementOffset leafSize index) (elementOffset leafSize (index + 1))
      (putLeaf index pos l block) p.bytes)
    (hkey : l.key.length < 2 ^ 64) (hvalue : l.value.length < 2 ^ 64) (hpos : pos < 2 ^ 64) :
    p.leafElement index = ⟨index, l.nodeType, pos, l.key.length, l.value.length⟩ := by
  rw [elementOffset_succ] at h hsame
  have hload : ∀ offset w n, offset + w ≤ leafSize →
      (offset, leBytes w n) ∈
        [(0, leBytes 1 l.nodeType), (16, leBytes 8 l.key.length), (24, leBytes 8 l.value.length),
          (8, leBytes 8 pos)] →
      load p.bytes (elementOffset leafSize index + offset) w = leBytes w n := by
    intro offset w n hle hmem
    rw [hsame _ w (by omega) (by omega)]
    exact load_leBytes (by simp [FieldsApart]) (by simp [leafSize]) h hmem
  rw [leafElement, LeafElement.mk.injEq]
  refine ⟨rfl, ?_, ?_, ?_, ?_⟩
  · exact readU8_of_load (hload 0 1 _ (by simp [leafSize]) (by simp)) (nodeType_lt l)
  · exact readU64_of_load (hload 8 8 pos (by simp [leafSize]) (by simp)) hpos
  · exact readU64_of_load (hload 16 8 _ (by simp [leafSize]) (by simp)) hkey
  · exact readU64_of_load (hload 24 8 _ (by simp [leafSize]) (by simp)) hvalue

end headers

/-! ## The loops of `write_node` -/

section loops

variable {ε : Type} {size : Nat} {put : Nat → Nat → ε → Bytes → Bytes}

/-- Filling in a header changes the header only. -/
def PutsHeaders (size : Nat) (put : Nat → Nat → ε → Bytes → Bytes) : Prop :=
  ∀ index pos e block, elementOffset size (index + 1) ≤ block.length →
    DiffersIn (elementOffset size index) (elementOffset size (index + 1)) block
      (put index pos e block)

theorem elementOffset_mono {i j : Nat} (h : i ≤ j) : elementOffset size i ≤ elementOffset size j :=
  Nat.add_le_add_left (Nat.mul_le_mul_right size h) dataOffset

theorem writeElements_differs (hput : PutsHeaders size put) (data : ε → Bytes) (es : List ε)
    (index headerOffsets dataSize : Nat) {block : Bytes}
    (h : elementOffset size (index + es.length) ≤ block.length) :
    DiffersIn (elementOffset size index) (elementOffset size (index + es.length)) block
      (writeElements size put data index headerOffsets dataSize es block) := by
  induction es generalizing index headerOffsets dataSize block with
  | nil => exact DiffersIn.refl _ _ _
  | cons e es ih =>
    rw [List.length_cons, ← add_assoc, add_right_comm] at h ⊢
    have hend : elementOffset size (index + 1) ≤ elementOffset size (index + 1 + es.length) :=
      elementOffset_mono (by omega)
    have hhead := hput index (headerOffsets + dataSize) e block (by omega)
    have hrest := ih (index + 1) (headerOffsets - size) (dataSize + (data e).length)
      (by rw [hhead.length]; exact h)
    exact (hhead.mono le_rfl hend).trans (hrest.mono (elementOffset_mono (by omega)) le_rfl)

/-- The header of an element: what is written after it lies behind it. -/
theorem writeElements_at (hput : PutsHeaders size put) (data : ε → Bytes) (front : List ε) (e : ε)
    (back : List ε) (index headerOffsets dataSize : Nat) {block : Bytes}
    (h : elementOffset size (index + (front ++ e :: back).length) ≤ block.length) :
    ∃ m : Bytes, m.length = block.length ∧
      SameIn (elementOffset size (index + front.length))
        (elementOffset size (index + front.length + 1))
        (put (index + front.length)
          (headerOffsets - front.length * size + (dataSize + (front.flatMap data).length)) e m)
        (writeElements size put data index headerOffsets dataSize (front ++ e :: back) block) := by
  induction front generalizing index headerOffsets dataSize block with
  | nil =>
    refine ⟨block, rfl, ?_⟩
    have hindex : index + ([] ++ e :: back).length = index + 1 + back.length := by simp; omega
    rw [hindex] at h
    have hend : elementOffset size (index + 1) ≤ elementOffset size (index + 1 + back.length) :=
      elementOffset_mono (by omega)
    have hhead := hput index (headerOffsets + dataSize) e block (by omega)
    have hrest := writeElements_differs hput data back (index + 1)
      (headerOffsets - size) (dataSize + (data e).length) (by rw [hhead.length]; exact h)
    intro start len _ hle
    simpa [writeElements] using hrest.below start len hle
  | cons f front ih =>
    have hindex : index + (f :: front ++ e :: back).length =
        index + 1 + (front ++ e :: back).length := by
      rw [List.cons_append, List.length_cons]
      omega
    have hfront : index + (f :: front).length = index + 1 + front.length := by
      rw [List.length_cons]
      omega
    rw [hindex] at h
    have hend : elementOffset size (index + 1) ≤
        elementOffset size (index + 1 + (front ++ e :: back).length) :=
      elementOffset_mono (by omega)
    have hhead := hput index (headerOffsets + dataSize) f block (by omega)
    obtain ⟨m, hm, hsame⟩ := ih (index + 1) (headerOffsets - size) (dataSize + (data f).length)
      (by rw [hhead.length]; exact h)
    refine ⟨m, by rw [hm, hhead.length], ?_⟩
    have hoffset : headerOffsets - (f :: front).length * size =
        headerOffsets - size - front.length * size := by
      rw [List.length_cons, Nat.sub_sub, Nat.add_mul, one_mul, add_comm size]
    have hdata : dataSize + ((f :: front).flatMap data).length =
        dataSize + (data f).length + (front.flatMap data).length := by
      simp [add_assoc]
    rw [hfront, hoffset, hdata]
    exact hsame

/-- One piece of data after another is one store. -/
theorem writeData_eq (pieces : List Bytes) (offset : Nat) {block : Bytes}
    (h : offset + pieces.flatten.length ≤ block.length) :
    writeData offset pieces block = store block offset pieces.flatten := by
  induction pieces generalizing offset block with
  | nil => simp [writeData, store]
  | cons piece pieces ih =>
    rw [List.flatten_cons, List.length_append] at h
    have hlength : (store block offset piece).length = block.length := length_store (by omega)
    rw [writeData, ih (offset + piece.length) (by rw [hlength]; omega), store_store (by omega),
      List.flatten_cons]

/-- A block with its count and its type. -/
def headed (type count : Nat) (block : Bytes) : Bytes :=
  storeFields 0 [(16, leBytes 8 count), (8, leBytes 1 type)] block

/-- A block with the headers of its elements. -/
def filled (type size : Nat) (put : Nat → Nat → ε → Bytes → Bytes) (data : ε → Bytes)
    (es : List ε) (block : Bytes) : Bytes :=
  writeElements size put data 0 (size * es.length) 0 es (headed type es.length block)

/-- A block with the headers and the data of its elements. -/
def nodeBlock (type size : Nat) (put : Nat → Nat → ε → Bytes → Bytes) (data : ε → Bytes)
    (es : List ε) (block : Bytes) : Bytes :=
  store (filled type size put data es block) (dataOffset + size * es.length) (es.flatMap data)

/-- Where the data of a block ends. -/
def extent (size : Nat) (data : ε → Bytes) (es : List ε) : Nat :=
  dataOffset + size * es.length + (es.flatMap data).length

variable {type : Nat} {data : ε → Bytes} {es : List ε} {block : Bytes}

theorem headed_differs {count : Nat} (h : dataOffset ≤ block.length) :
    DiffersIn 0 dataOffset block (headed type count block) := by
  have hm : 0 + dataOffset ≤ block.length := by omega
  have hdiff : DiffersIn 0 (0 + dataOffset) block (headed type count block) :=
    storeFields_differsIn (by simp [dataOffset]) hm
  rwa [zero_add] at hdiff

theorem length_headed {count : Nat} (h : dataOffset ≤ block.length) :
    (headed type count block).length = block.length :=
  (headed_differs h).length

theorem load_headed {count offset w n : Nat} (h : dataOffset ≤ block.length)
    (hmem : (offset, leBytes w n) ∈ [(16, leBytes 8 count), (8, leBytes 1 type)]) :
    load (headed type count block) offset w = leBytes w n := by
  have hm : 0 + dataOffset ≤ block.length := by omega
  have hload : load (headed type count block) (0 + offset) w = leBytes w n :=
    load_leBytes (by simp [FieldsApart]) (by simp [dataOffset]) hm hmem
  rwa [zero_add] at hload

theorem load_headed_other {count offset len : Nat} (h : dataOffset ≤ block.length)
    (hother : offset + len ≤ 8 ∨ 24 ≤ offset) :
    load (headed type count block) offset len = load block offset len := by
  have hm : 0 + dataOffset ≤ block.length := by omega
  have hload : load (headed type count block) (0 + offset) len = load block (0 + offset) len := by
    apply load_storeFields_other _ hm
    · simp only [List.mem_cons, List.not_mem_nil, or_false, forall_eq_or_imp, forall_eq,
        length_leBytes]
      omega
    · simp [dataOffset]
  rwa [zero_add] at hload

theorem filled_differs (hput : PutsHeaders size put)
    (h : dataOffset + size * es.length ≤ block.length) :
    DiffersIn dataOffset (dataOffset + size * es.length) (headed type es.length block)
      (filled type size put data es block) := by
  have hend : elementOffset size (0 + es.length) ≤ (headed type es.length block).length := by
    rw [length_headed (by omega), zero_add, elementOffset, mul_comm]
    exact h
  have hdiff := writeElements_differs hput data es 0 (size * es.length) 0 hend
  rwa [zero_add, elementOffset, elementOffset, zero_mul, add_zero, mul_comm] at hdiff

theorem length_filled (hput : PutsHeaders size put)
    (h : dataOffset + size * es.length ≤ block.length) :
    (filled type size put data es block).length = block.length := by
  rw [(filled_differs hput h).length, length_headed (by omega)]

/-- Writing a node changes nothing behind its data. -/
theorem nodeBlock_differs (hput : PutsHeaders size put) (h : extent size data es ≤ block.length) :
    DiffersIn 0 (extent size data es) block (nodeBlock type size put data es block) := by
  unfold extent at h ⊢
  have hhead : DiffersIn 0 (dataOffset + size * es.length + (es.flatMap data).length) block
      (headed type es.length block) := (headed_differs (by omega)).mono le_rfl (by omega)
  have hheaders : DiffersIn 0 (dataOffset + size * es.length + (es.flatMap data).length)
      (headed type es.length block) (filled type size put data es block) :=
    (filled_differs hput (by omega)).mono (by omega) (by omega)
  exact (hhead.trans hheaders).store_in (by omega) le_rfl h

theorem nodeBlock_head (hput : PutsHeaders size put) (h : extent size data es ≤ block.length)
    {start len : Nat} (hle : start + len ≤ dataOffset) :
    load (nodeBlock type size put data es block) start len =
      load (headed type es.length block) start len := by
  unfold extent at h
  have hlength : (filled type size put data es block).length = block.length :=
    length_filled hput (by omega)
  rw [nodeBlock, load_store_below (by omega) (by omega)]
  exact (filled_differs hput (by omega)).below start len hle

/-- The header of an element in its block. -/
theorem nodeBlock_element (type : Nat) (hput : PutsHeaders size put) {front back : List ε} {e : ε}
    (h : extent size data (front ++ e :: back) ≤ block.length) :
    ∃ m : Bytes, m.length = block.length ∧
      SameIn (elementOffset size front.length) (elementOffset size (front.length + 1))
        (put front.length (size * (back.length + 1) + (front.flatMap data).length) e m)
        (nodeBlock type size put data (front ++ e :: back) block) := by
  unfold extent at h
  have hlength : (filled type size put data (front ++ e :: back) block).length = block.length :=
    length_filled hput (by omega)
  have hend : elementOffset size (0 + (front ++ e :: back).length) ≤
      (headed type (front ++ e :: back).length block).length := by
    rw [length_headed (by omega), zero_add, elementOffset, mul_comm]
    omega
  obtain ⟨m, hm, hsame⟩ := writeElements_at hput data front e back 0
    (size * (front ++ e :: back).length) 0 hend
  have hpos : size * (front ++ e :: back).length - front.length * size =
      size * (back.length + 1) := by
    rw [List.length_append, List.length_cons, mul_add, mul_comm front.length,
      Nat.add_sub_cancel_left]
  rw [length_headed (by omega)] at hm
  rw [zero_add, zero_add, hpos] at hsame
  refine ⟨m, hm, ?_⟩
  intro start len hlo hhi
  have hbefore : elementOffset size (front.length + 1) ≤
      dataOffset + size * (front ++ e :: back).length := by
    rw [elementOffset, mul_comm size]
    apply Nat.add_le_add_left
    apply Nat.mul_le_mul_right
    simp
  rw [nodeBlock, load_store_below (by omega) (by omega)]
  exact hsame start len hlo hhi

/-- The data of an element in its block. -/
theorem nodeBlock_data (hput : PutsHeaders size put) {front back : List ε} {e : ε}
    (h : extent size data (front ++ e :: back) ≤ block.length) :
    load (nodeBlock type size put data (front ++ e :: back) block)
        (elementOffset size front.length + (size * (back.length + 1) + (front.flatMap data).length))
        (data e).length = data e := by
  unfold extent at h
  have hlength : (filled type size put data (front ++ e :: back) block).length = block.length :=
    length_filled hput (by omega)
  have hstart : elementOffset size front.length +
      (size * (back.length + 1) + (front.flatMap data).length) =
      dataOffset + size * (front ++ e :: back).length + (front.flatMap data).length := by
    rw [elementOffset, List.length_append, List.length_cons]
    ring
  have hflat : (front ++ e :: back).flatMap data =
      front.flatMap data ++ (data e ++ back.flatMap data) := by simp
  rw [hstart, nodeBlock, load_store_inside (by omega) (by rw [hflat]; simp), hflat]
  exact load_middle _ _ _

end loops

end Tagdata.Analysis
