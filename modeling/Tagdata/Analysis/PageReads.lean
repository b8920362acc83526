import Tagdata.Analysis.PageBlocks

/-!
# Validating and reading a written page

A page that shows the bytes of a written node passes `validate_layout` and gives back the elements,
and a sealed block passes `validate_block` wherever it lies in a file.
-/

set_option autoImplicit false

namespace Tagdata.Analysis

open Tagdata.Library Tagdata.Model Tagdata.Model.RawPage

/-! ## Lists by position -/

/-- A list is read back when each position gives its element. -/
theorem range_map_eq {α β : Type} {as : List α} {f : Nat → β} {g : α → β}
    (h : ∀ front a back, as = front ++ a :: back → f front.length = g a) :
    (List.range as.length).map f = as.map g := by
  apply List.ext_getElem
  · simp
  · intro i hi _
    have hlt : i < as.length := by simpa using hi
    have hsplit : as = as.take i ++ as[i] :: as.drop (i + 1) := by
      rw [← List.drop_eq_getElem_cons hlt, List.take_append_drop]
    have hat := h _ _ _ hsplit
    rw [List.length_take, min_eq_left hlt.le] at hat
    simpa using hat

/-- A traversal whose steps all return. -/
theorem mapM_eq_ok {α β : Type} {f : α → Except Fault β} {as : List α} {bs : List β}
    (h : as.map f = bs.map Except.ok) : as.mapM f = .ok bs := by
  induction as generalizing bs with
  | nil =>
    cases bs with
    | nil => rfl
    | cons b bs => simp at h
  | cons a as ih =>
    cases bs with
    | nil => simp at h
    | cons b bs =>
      rw [List.map_cons, List.map_cons, List.cons.injEq] at h
      rw [List.mapM_cons, h.1, ih h.2]
      rfl

/-- A loop of checks that all pass. -/
theorem validateAll_ok {ε : Type} {check : ε → Except Fault Unit} {es : List ε}
    (h : ∀ e ∈ es, check e = .ok ()) : validateAll check es = .ok () := by
  induction es with
  | nil => rfl
  | cons e es ih =>
    rw [validateAll, h e List.mem_cons_self]
    exact ih fun e' he' => h e' (List.mem_cons_of_mem e he')

/-- A sum that is a word. -/
theorem checkedAdd_of_lt {a b : Nat} (h : a + b < 2 ^ 64) : checkedAdd a b = some (a + b) :=
  if_pos h

/-- A product that is a word. -/
theorem checkedMul_of_lt {a b : Nat} (h : a * b < 2 ^ 64) : checkedMul a b = some (a * b) :=
  if_pos h

/-- A sum that does not overflow. -/
theorem addU64_of_lt {a b : Nat} (h : a + b < 2 ^ 64) : addU64 a b = .ok (a + b) :=
  if_pos h

/-- A product that does not overflow. -/
theorem mulU64_of_lt {a b : Nat} (h : a * b < 2 ^ 64) : mulU64 a b = .ok (a * b) :=
  if_pos h

/-- A difference that does not underflow. -/
theorem subU64_of_le {a b : Nat} (h : b ≤ a) : subU64 a b = .ok (a - b) :=
  if_pos h

/-- The offset of an element that is a word. -/
theorem elementOffset64_ok {size index : Nat} (h : elementOffset size index < 2 ^ 64) :
    elementOffset64 size index = .ok (elementOffset size index) := by
  unfold elementOffset at h
  rw [elementOffset64, mulU64_of_lt (by omega), except_bind_ok, addU64_of_lt h, elementOffset]

/-- A part that ends before the limit. -/
theorem ensureEnd_ok {id offset len limit : Nat} (h : offset + len ≤ limit)
    (hlimit : limit < 2 ^ 64) : ensureEnd id offset len limit = .ok () := by
  rw [ensureEnd, checkedAdd_of_lt (by omega)]
  exact if_neg (by omega)

/-- A size that is a word. -/
theorem checkedSize_ok {id count size : Nat} (h : count * size < 2 ^ 64) :
    checkedSize id count size = .ok (count * size) := by
  rw [checkedSize, checkedMul_of_lt h]
  rfl

/-! ## A page that shows a written node -/

/-- The headers of branch elements. -/
theorem branch_puts : PutsHeaders branchSize putBranch :=
  fun _ _ b _ h => putBranch_differs b h

/-- The headers of leaf elements. -/
theorem leaf_puts : PutsHeaders leafSize putLeaf :=
  fun _ _ l _ h => putLeaf_differs l h

/-- A page whose bytes below the limit are those of a written block. -/
structure ShowsBlock {ε : Type} (type size : Nat) (put : Nat → Nat → ε → Bytes → Bytes)
    (data : ε → Bytes) (es : List ε) (block : Bytes) (limit : Nat) (p : RawPage) : Prop where
  puts : PutsHeaders size put
  ends : extent size data es ≤ limit
  fits : limit ≤ block.length
  word : limit < 2 ^ 64
  same : SameIn 0 limit (nodeBlock type size put data es block) p.bytes

namespace ShowsBlock

variable {ε : Type} {type size : Nat} {put : Nat → Nat → ε → Bytes → Bytes} {data : ε → Bytes}
  {es front back : List ε} {e : ε} {block : Bytes} {limit : Nat} {p : RawPage}

/-- The elements lie in the block. -/
theorem fits_block (h : ShowsBlock type size put data es block limit p) :
    extent size data es ≤ block.length :=
  h.ends.trans h.fits

/-- The header of the page. -/
theorem head (h : ShowsBlock type size put data es block limit p) {start len : Nat}
    (hle : start + len ≤ dataOffset) :
    load p.bytes start len = load (headed type es.length block) start len := by
  have hlimit := h.ends
  unfold extent at hlimit
  rw [h.same start len (Nat.zero_le start) (by omega)]
  exact nodeBlock_head h.puts h.fits_block hle

/-- So does the header of the page. -/
theorem head_fits (h : ShowsBlock type size put data es block limit p) :
    dataOffset ≤ block.length := by
  have hfits := h.fits_block
  unfold extent at hfits
  omega

/-- The type of the page is shown. -/
theorem pageType_eq (h : ShowsBlock type size put data es block limit p) (htype : type < 256) :
    p.pageType = type := by
  apply readU8_of_load _ htype
  rw [h.head (by simp [dataOffset])]
  exact load_headed h.head_fits (by simp)

/-- The number of elements is shown. -/
theorem count_eq (h : ShowsBlock type size put data es block limit p)
    (hcount : es.length < 2 ^ 64) :
    p.count = es.length := by
  apply readU64_of_load _ hcount
  rw [h.head (by simp [dataOffset])]
  exact load_headed h.head_fits (by simp)

/-- The id is that of the block. -/
theorem id_eq (h : ShowsBlock type size put data es block limit p) : p.id = readU64 block 0 := by
  rw [RawPage.id, readU64, readU64, h.head (by simp [dataOffset]),
    load_headed_other h.head_fits (by omega)]

/-- So is the number of pages. -/
theorem overflow_eq (h : ShowsBlock type size put data es block limit p) :
    p.overflow = readU64 block 24 := by
  rw [RawPage.overflow, readU64, readU64, h.head (by simp [dataOffset]),
    load_headed_other h.head_fits (by omega)]

/-- The data of an element ends below the limit. -/
theorem data_end (h : ShowsBlock type size put data (front ++ e :: back) block limit p) :
    elementOffset size front.length + (size * (back.length + 1) + (front.flatMap data).length) +
      (data e).length ≤ limit := by
  have hlimit := h.ends
  have hheaders : elementOffset size front.length + size * (back.length + 1) =
      dataOffset + size * (front ++ e :: back).length := by
    rw [elementOffset, List.length_append, List.length_cons]
    ring
  have hflat : ((front ++ e :: back).flatMap data).length =
      (front.flatMap data).length + ((data e).length + (back.flatMap data).length) := by simp
  rw [extent, hflat] at hlimit
  omega

/-- The headers lie below the limit. -/
theorem header_end (h : ShowsBlock type size put data (front ++ e :: back) block limit p) :
    elementOffset size (front.length + 1) ≤ limit := by
  have hend := h.data_end
  rw [elementOffset_succ]
  have hsize : size ≤ size * (back.length + 1) := Nat.le_mul_of_pos_right size (by omega)
  omega

/-- The header of an element is shown as it was put. -/
theorem header (h : ShowsBlock type size put data (front ++ e :: back) block limit p) :
    ∃ m : Bytes, m.length = block.length ∧
      SameIn (elementOffset size front.length) (elementOffset size (front.length + 1))
        (put front.length (size * (back.length + 1) + (front.flatMap data).length) e m)
        p.bytes := by
  obtain ⟨m, hm, hsame⟩ := nodeBlock_element type h.puts h.fits_block
  refine ⟨m, hm, ?_⟩
  intro start len hlo hhi
  have hend := h.header_end
  rw [h.same start len (Nat.zero_le start) (by omega)]
  exact hsame start len hlo hhi

/-- The data of an element is shown. -/
theorem data_eq (h : ShowsBlock type size put data (front ++ e :: back) block limit p) :
    load p.bytes
        (elementOffset size front.length + (size * (back.length + 1) + (front.flatMap data).length))
        (data e).length = data e := by
  rw [h.same _ _ (Nat.zero_le _) h.data_end]
  exact nodeBlock_data h.puts h.fits_block

/-- The headers end before the limit. -/
theorem count_lt (h : ShowsBlock type size put data es block limit p) (hsize : 0 < size) :
    es.length * size < 2 ^ 64 ∧ es.length < 2 ^ 64 ∧ dataOffset + es.length * size ≤ limit := by
  have hlimit := h.ends
  have hword := h.word
  have hle : es.length ≤ es.length * size := Nat.le_mul_of_pos_right es.length hsize
  rw [extent, mul_comm size] at hlimit
  omega

end ShowsBlock

section kinds

variable {block : Bytes} {limit : Nat} {p : RawPage}

/-- A page that shows branches. -/
abbrev ShowsBranches (branches : List Branch) (block : Bytes) (limit : Nat) (p : RawPage) : Prop :=
  ShowsBlock typeBranch branchSize putBranch Branch.key branches block limit p

/-- A page that shows leaves. -/
abbrev ShowsLeaves (leaves : List Leaf) (block : Bytes) (limit : Nat) (p : RawPage) : Prop :=
  ShowsBlock typeLeaf leafSize putLeaf leafData leaves block limit p

/-- A branch element is read as it was put. -/
theorem ShowsBranches.element {front back : List Branch} {b : Branch}
    (h : ShowsBranches (front ++ b :: back) block limit p) (hpage : b.page < 2 ^ 64) :
    p.branchElement front.length = ⟨front.length, b.page, b.key.length,
      branchSize * (back.length + 1) + (front.flatMap Branch.key).length⟩ := by
  obtain ⟨m, hm, hsame⟩ := h.header
  have hend := h.data_end
  have hword := h.word
  have hfits := h.fits
  apply branchElement_of_put _ hsame hpage (by omega) (by omega)
  rw [hm]
  exact h.header_end.trans h.fits

/-- A leaf element is read as it was put. -/
theorem ShowsLeaves.element {front back : List Leaf} {l : Leaf}
    (h : ShowsLeaves (front ++ l :: back) block limit p) :
    p.leafElement front.length = ⟨front.length, l.nodeType,
      leafSize * (back.length + 1) + (front.flatMap leafData).length, l.key.length,
      l.value.length⟩ := by
  obtain ⟨m, hm, hsame⟩ := h.header
  have hend := h.data_end
  have hword := h.word
  have hdata : (leafData l).length = l.key.length + l.value.length := List.length_append
  apply leafElement_of_put _ hsame (by omega) (by omega) (by omega)
  rw [hm]
  exact h.header_end.trans h.fits

/-- Every number of the node fits into a word. -/
def Words : NodeData → Prop
  | .branches branches => ∀ b ∈ branches, b.page < 2 ^ 64
  | .leaves leaves => ∀ name m, Leaf.bucket name m ∈ leaves →
      m.rootPage < 2 ^ 64 ∧ m.nextInt < 2 ^ 64

/-- The record of a nested bucket is read back. -/
theorem ofBytes_bytes {m : BucketMeta} (hroot : m.rootPage < 2 ^ 64) (hnext : m.nextInt < 2 ^ 64) :
    BucketMeta.ofBytes m.bytes = m := by
  have hfirst : readU64 m.bytes 0 = m.rootPage :=
    readU64_of_load (by simp [load, BucketMeta.bytes]) hroot
  have hsecond : readU64 m.bytes 8 = m.nextInt :=
    readU64_of_load (by simp [load, BucketMeta.bytes]) hnext
  rw [BucketMeta.ofBytes, hfirst, hsecond]

/-- The entry of a leaf header. -/
theorem ShowsLeaves.leafOf {front back : List Leaf} {l : Leaf}
    (h : ShowsLeaves (front ++ l :: back) block limit p)
    (hwords : ∀ name m, l = .bucket name m → m.rootPage < 2 ^ 64 ∧ m.nextInt < 2 ^ 64) :
    p.leafOf (p.leafElement front.length) = .ok l := by
  have hdata : load p.bytes _ (l.key ++ l.value).length = l.key ++ l.value := h.data_eq
  have hparts := load_parts hdata
  have hkey : p.leafKey (p.leafElement front.length) = l.key := by
    rw [h.element]
    exact hparts.1
  have hvalue : p.leafValue (p.leafElement front.length) = l.value := by
    rw [h.element, leafValue, ← add_assoc]
    exact hparts.2
  have htype : (p.leafElement front.length).nodeType = l.nodeType := by rw [h.element]
  rw [RawPage.leafOf, hkey, hvalue, htype]
  cases l with
  | kv key value => rfl
  | bucket name m =>
    have hm := hwords name m rfl
    have hmeta : BucketMeta.ofBytes (Leaf.bucket name m).value = m := ofBytes_bytes hm.1 hm.2
    rw [hmeta]
    rfl

/-- The entry of a branch header. -/
theorem ShowsBranches.branchOf {front back : List Branch} {b : Branch}
    (h : ShowsBranches (front ++ b :: back) block limit p) (hpage : b.page < 2 ^ 64) :
    p.branchOf (p.branchElement front.length) = b := by
  rw [h.element hpage, RawPage.branchOf, branchKey, h.data_eq]

/-- The elements of a page are read back. -/
theorem ShowsBranches.nodeData {branches : List Branch}
    (h : ShowsBranches branches block limit p) (hwords : Words (.branches branches)) :
    p.nodeData = .ok (.branches branches) := by
  have hcount := h.count_eq (h.count_lt (by simp [branchSize])).2.1
  have hmap : p.branchElements.map p.branchOf = branches := by
    rw [branchElements, hcount, List.map_map]
    have hrange : (List.range branches.length).map (p.branchOf ∘ p.branchElement) =
        branches.map (fun b => b) := by
      apply range_map_eq
      intro front b back hsplit
      have hpage : b.page < 2 ^ 64 := hwords b (by rw [hsplit]; simp)
      rw [hsplit] at h
      exact h.branchOf hpage
    rw [hrange, List.map_id']
  rw [RawPage.nodeData, h.pageType_eq (by decide), if_pos rfl, hmap]

/-- The elements of a leaf page are read back. -/
theorem ShowsLeaves.nodeData {leaves : List Leaf}
    (h : ShowsLeaves leaves block limit p) (hwords : Words (.leaves leaves)) :
    p.nodeData = .ok (.leaves leaves) := by
  have hcount := h.count_eq (h.count_lt (by simp [leafSize])).2.1
  have hmap : p.leafElements.mapM p.leafOf = .ok leaves := by
    apply mapM_eq_ok
    rw [leafElements, hcount, List.map_map]
    apply range_map_eq
    intro front l back hsplit
    have hbucket : ∀ name m, l = .bucket name m → m.rootPage < 2 ^ 64 ∧ m.nextInt < 2 ^ 64 := by
      intro name m hl
      apply hwords name m
      rw [hsplit, hl]
      simp
    rw [hsplit] at h
    exact h.leafOf hbucket
  rw [RawPage.nodeData, h.pageType_eq (by decide), if_neg (by decide), if_pos rfl, hmap]
  rfl

/-! ## The validation of the layout -/

/-- A branch element whose key ends before the limit is accepted. -/
theorem validateBranch_ok {e : BranchElement}
    (h : elementOffset branchSize e.index + (e.pos + e.keySize) ≤ limit) (hword : limit < 2 ^ 64) :
    p.validateBranch limit e = .ok () := by
  rw [validateBranch, elementOffset64_ok (by omega), except_bind_ok,
    checkedAdd_of_lt (by omega)]
  exact ensureEnd_ok h hword

/-- So is a leaf element of a known type. -/
theorem validateLeaf_ok {e : LeafElement} (htype : e.nodeType = typeBucket ∨ e.nodeType = typeData)
    (hbucket : e.nodeType = typeBucket → e.valueSize = metaSize)
    (h : elementOffset leafSize e.index + (e.pos + e.keySize + e.valueSize) ≤ limit)
    (hword : limit < 2 ^ 64) : p.validateLeaf limit e = .ok () := by
  have hknown : ¬ (e.nodeType ≠ typeBucket ∧ e.nodeType ≠ typeData) := by
    rintro ⟨hnot, hnot'⟩
    exact htype.elim hnot hnot'
  have hwidth : ¬ (e.nodeType = typeBucket ∧ e.valueSize ≠ metaSize) := by
    rintro ⟨htype', hwrong⟩
    exact hwrong (hbucket htype')
  have hsum : (checkedAdd e.pos e.keySize).bind (checkedAdd · e.valueSize) =
      some (e.pos + e.keySize + e.valueSize) := by
    rw [checkedAdd_of_lt (by omega), Option.bind_some, checkedAdd_of_lt (by omega)]
  rw [validateLeaf, if_neg hknown, if_neg hwidth, elementOffset64_ok (by omega), except_bind_ok,
    hsum]
  exact ensureEnd_ok h hword

/-- A list at a position. -/
theorem exists_split {α : Type} {as : List α} {i : Nat} (hi : i < as.length) :
    ∃ front a back, as = front ++ a :: back ∧ front.length = i := by
  refine ⟨as.take i, as[i], as.drop (i + 1), ?_, ?_⟩
  · rw [← List.drop_eq_getElem_cons hi, List.take_append_drop]
  · rw [List.length_take, min_eq_left hi.le]

/-- A written branch page is accepted. -/
theorem ShowsBranches.validateLayout {branches : List Branch}
    (h : ShowsBranches branches block limit p) (hwords : Words (.branches branches)) :
    p.validateLayout limit = .ok () := by
  obtain ⟨hsize, hlen, hend⟩ := h.count_lt (by simp [branchSize])
  have hcount := h.count_eq hlen
  have helements : validateAll (p.validateBranch limit) p.branchElements = .ok () := by
    apply validateAll_ok
    intro e he
    rw [branchElements, hcount] at he
    obtain ⟨i, hi, hie⟩ := List.mem_map.mp he
    obtain ⟨front, b, back, hsplit, hfront⟩ := exists_split (List.mem_range.mp hi)
    have hpage : b.page < 2 ^ 64 := hwords b (by rw [hsplit]; simp)
    rw [hsplit] at h
    have hlimit := h.data_end
    rw [← hie, ← hfront, h.element hpage]
    apply validateBranch_ok _ h.word
    rw [← add_assoc]
    exact hlimit
  rw [RawPage.validateLayout, h.pageType_eq (by decide), if_neg (by decide), if_neg (by decide),
    if_pos rfl, hcount, checkedSize_ok hsize, except_bind_ok, ensureEnd_ok hend h.word,
    except_bind_ok, helements]

/-- The value of a nested bucket is its record. -/
theorem value_length {l : Leaf} (h : l.nodeType = typeBucket) : l.value.length = metaSize := by
  cases l with
  | bucket name m => simp [Leaf.value, BucketMeta.bytes, metaSize]
  | kv key value => simp [Leaf.nodeType, typeBucket, typeData] at h

/-- A leaf element is a bucket or a record. -/
theorem nodeType_cases (l : Leaf) : l.nodeType = typeBucket ∨ l.nodeType = typeData := by
  cases l with
  | bucket name m => exact .inl rfl
  | kv key value => exact .inr rfl

/-- A written leaf page is accepted. -/
theorem ShowsLeaves.validateLayout {leaves : List Leaf} (h : ShowsLeaves leaves block limit p) :
    p.validateLayout limit = .ok () := by
  obtain ⟨hsize, hlen, hend⟩ := h.count_lt (by simp [leafSize])
  have hcount := h.count_eq hlen
  have helements : validateAll (p.validateLeaf limit) p.leafElements = .ok () := by
    apply validateAll_ok
    intro e he
    rw [leafElements, hcount] at he
    obtain ⟨i, hi, hie⟩ := List.mem_map.mp he
    obtain ⟨front, l, back, hsplit, hfront⟩ := exists_split (List.mem_range.mp hi)
    rw [hsplit] at h
    have hlimit := h.data_end
    rw [← hie, ← hfront, h.element]
    apply validateLeaf_ok (nodeType_cases l) value_length _ h.word
    rw [leafData, List.length_append] at hlimit
    rw [add_assoc _ l.key.length, ← add_assoc]
    exact hlimit
  rw [RawPage.validateLayout, h.pageType_eq (by decide), if_neg (by decide), if_neg (by decide),
    if_neg (by decide), if_pos rfl, hcount, checkedSize_ok hsize, except_bind_ok,
    ensureEnd_ok hend h.word, except_bind_ok, helements]

end kinds

end Tagdata.Analysis
