import Tagdata.Analysis.PageReads

/-!
# What validation guarantees

The checks of `page.rs` return on every buffer: their own arithmetic stays inside 64-bit words, and
what they refuse they refuse with `InvalidDB`.  A page that passes lies inside the buffer with its
whole block, and every header, key and value that the readers compute lies below the checksum.
-/

set_option autoImplicit false

namespace Tagdata.Analysis

open Tagdata.Library Tagdata.Model Tagdata.Model.RawPage

/-! ## Checks -/

/-- A check that returns: it succeeds with what `post` says or refuses with `InvalidDB`. -/
def Checks {α : Type} (x : Except Fault α) (post : α → Prop) : Prop :=
  match x with
  | .ok a => post a
  | .error fault => ∃ text, fault = .error (.invalidDB text)

section rules

variable {α β : Type} {x : Except Fault α} {post : α → Prop}

theorem checks_ok {a : α} (h : post a) : Checks (.ok a) post := h

theorem checks_invalidDB (text : String) : Checks (invalidDB text) post := ⟨text, rfl⟩

theorem checks_orInvalid {o : Option α} {text : String} (h : ∀ a, o = some a → post a) :
    Checks (orInvalid o text) post := by
  cases o with
  | none => exact checks_invalidDB text
  | some a => exact h a rfl

theorem Checks.bind {f : α → Except Fault β} {goal : β → Prop} (hx : Checks x post)
    (hf : ∀ a, post a → Checks (f a) goal) : Checks (x >>= f) goal := by
  cases x with
  | ok a => exact hf a hx
  | error fault => exact hx

theorem Checks.mono {goal : α → Prop} (hx : Checks x post) (h : ∀ a, post a → goal a) :
    Checks x goal := by
  cases x with
  | ok a => exact h a hx
  | error fault => exact hx

theorem Checks.of_ok {a : α} (hx : Checks x post) (h : x = .ok a) : post a := by
  rw [h] at hx
  exact hx

theorem checkedAdd_eq_some {a b c : Nat} (h : checkedAdd a b = some c) :
    c = a + b ∧ a + b < 2 ^ 64 := by
  unfold checkedAdd at h
  split_ifs at h with hlt
  · exact ⟨(Option.some.inj h).symm, hlt⟩

theorem checkedMul_eq_some {a b c : Nat} (h : checkedMul a b = some c) :
    c = a * b ∧ a * b < 2 ^ 64 := by
  unfold checkedMul at h
  split_ifs at h with hlt
  · exact ⟨(Option.some.inj h).symm, hlt⟩

/-- A checked sum is the sum. -/
theorem checks_checkedAdd {a b : Nat} {text : String} :
    Checks (orInvalid (checkedAdd a b) text) fun c => c = a + b ∧ a + b < 2 ^ 64 :=
  checks_orInvalid fun _ => checkedAdd_eq_some

theorem checks_checkedMul {a b : Nat} {text : String} :
    Checks (orInvalid (checkedMul a b) text) fun c => c = a * b ∧ a * b < 2 ^ 64 :=
  checks_orInvalid fun _ => checkedMul_eq_some

theorem checks_ensureEnd (id offset len limit : Nat) :
    Checks (ensureEnd id offset len limit) fun _ => offset + len ≤ limit := by
  unfold ensureEnd
  apply checks_checkedAdd.bind
  rintro stop ⟨hstop, _⟩
  split_ifs with hend
  · exact checks_invalidDB _
  · exact checks_ok (by omega)

theorem checks_checkedSize (id count size : Nat) :
    Checks (checkedSize id count size) fun n => n = count * size ∧ count * size < 2 ^ 64 :=
  checks_checkedMul

theorem checks_validateAll {ε : Type} {check : ε → Except Fault Unit} {good : ε → Prop}
    {es : List ε} (h : ∀ e ∈ es, Checks (check e) fun _ => good e) :
    Checks (validateAll check es) fun _ => ∀ e ∈ es, good e := by
  induction es with
  | nil =>
    apply checks_ok
    intro e he
    cases he
  | cons e es ih =>
    apply (h e List.mem_cons_self).bind
    intro _ he
    apply (ih fun e' he' => h e' (List.mem_cons_of_mem e he')).mono
    intro _ hes
    exact List.forall_mem_cons.mpr ⟨he, hes⟩

end rules

/-! ## The layout of a page -/

section layout

variable {p : RawPage} {limit : Nat}

/-- A range of bytes, counted from an element, that ends below the limit. -/
def Inside (range : Except Fault (Nat × Nat)) (offset limit : Nat) : Prop :=
  ∃ start stop, range = .ok (start, stop) ∧ start ≤ stop ∧ offset + stop ≤ limit

/-- The types that `validate_span` lets through. -/
def KnownType (p : RawPage) : Prop :=
  p.pageType = typeBranch ∨ p.pageType = typeLeaf ∨ p.pageType = typeMeta ∨
    p.pageType = typeFreelist

/-- The size of the elements of a page, by its type. -/
def elementSize (p : RawPage) : Option Nat :=
  if p.pageType = typeBranch then some branchSize
  else if p.pageType = typeLeaf then some leafSize
  else if p.pageType = typeFreelist then some retiredSize
  else none

/-- What `LeafElement` reads of an element. -/
structure LeafInside (e : LeafElement) (limit : Nat) : Prop where
  kind : e.nodeType = typeBucket ∨ e.nodeType = typeData
  key : Inside e.keyRange (elementOffset leafSize e.index) limit
  value : Inside e.valueRange (elementOffset leafSize e.index) limit
  bucket : e.nodeType = typeBucket → ∃ start, e.valueRange = .ok (start, start + metaSize)

/-- Everything that is read of a page lies below the limit. -/
structure LayoutInside (p : RawPage) (limit : Nat) : Prop where
  metadata : p.pageType = typeMeta → dataOffset + metadataSize ≤ limit
  headers : ∀ size, elementSize p = some size → ∀ index < p.count,
    elementOffset size index + size ≤ limit
  branches : p.pageType = typeBranch → ∀ index < p.count,
    Inside (p.branchElement index).keyRange (elementOffset branchSize index) limit
  leaves : p.pageType = typeLeaf → ∀ index < p.count, LeafInside (p.leafElement index) limit

theorem header_inside {size index count : Nat} (hindex : index < count)
    (hend : dataOffset + count * size ≤ limit) : elementOffset size index + size ≤ limit := by
  have hmul : (index + 1) * size ≤ count * size := Nat.mul_le_mul_right size hindex
  rw [Nat.add_mul, one_mul] at hmul
  unfold elementOffset
  omega

theorem checks_elementOffset64 {size index count : Nat} (hindex : index < count)
    (hend : dataOffset + count * size ≤ limit) (hword : limit < 2 ^ 64) :
    Checks (elementOffset64 size index) fun offset => offset = elementOffset size index := by
  have hinside := header_inside hindex hend
  rw [elementOffset64_ok (by omega)]
  exact checks_ok rfl

theorem checks_validateBranch {e : BranchElement} (hindex : e.index < p.count)
    (hend : dataOffset + p.count * branchSize ≤ limit) (hword : limit < 2 ^ 64) :
    Checks (p.validateBranch limit e) fun _ =>
      Inside e.keyRange (elementOffset branchSize e.index) limit := by
  unfold validateBranch
  apply (checks_elementOffset64 hindex hend hword).bind
  intro offset hoffset
  apply checks_checkedAdd.bind
  rintro stop ⟨hstop, hsum⟩
  apply (checks_ensureEnd _ _ _ _).mono
  intro _ hle
  refine ⟨e.pos, e.pos + e.keySize, ?_, by omega, by omega⟩
  rw [BranchElement.keyRange, addU64_of_lt hsum]
  rfl

/-- The end of an entry of a leaf, as `validate_layout` sums it up. -/
theorem checks_leafEnd {e : LeafElement} {text : String} :
    Checks (orInvalid ((checkedAdd e.pos e.keySize).bind (checkedAdd · e.valueSize)) text)
      fun stop => stop = e.pos + e.keySize + e.valueSize ∧
        e.pos + e.keySize + e.valueSize < 2 ^ 64 := by
  apply checks_orInvalid
  intro stop hstop
  obtain ⟨sum, hsum, hstop⟩ := Option.bind_eq_some_iff.mp hstop
  have hfirst := checkedAdd_eq_some hsum
  have hsecond := checkedAdd_eq_some hstop
  omega

theorem checks_validateLeaf {e : LeafElement} (hindex : e.index < p.count)
    (hend : dataOffset + p.count * leafSize ≤ limit) (hword : limit < 2 ^ 64) :
    Checks (p.validateLeaf limit e) fun _ => LeafInside e limit := by
  unfold validateLeaf
  dsimp only
  split_ifs with hkind hwidth
  · exact checks_invalidDB _
  · exact checks_invalidDB _
  · apply (checks_elementOffset64 hindex hend hword).bind
    intro offset hoffset
    apply checks_leafEnd.bind
    rintro stop ⟨hstop, hsum⟩
    apply (checks_ensureEnd _ _ _ _).mono
    intro _ hle
    have hkey : addU64 e.pos e.keySize = .ok (e.pos + e.keySize) := addU64_of_lt (by omega)
    have hvalue : e.valueRange = .ok (e.pos + e.keySize, e.pos + e.keySize + e.valueSize) := by
      rw [LeafElement.valueRange, hkey, except_bind_ok, addU64_of_lt hsum]
      rfl
    constructor
    · tauto
    · refine ⟨e.pos, e.pos + e.keySize, ?_, by omega, by omega⟩
      rw [LeafElement.keyRange, hkey]
      rfl
    · exact ⟨_, _, hvalue, by omega, by omega⟩
    · intro hbucket
      have hsize : e.valueSize = metaSize := by tauto
      rw [← hsize]
      exact ⟨_, hvalue⟩

/-- The count of a page and the place of its elements. -/
theorem checks_elements {α : Type} {size : Nat} {rest : Except Fault α} {post : α → Prop}
    (h : dataOffset + p.count * size ≤ limit → Checks rest post) :
    Checks (do
      let bytes ← checkedSize p.id p.count size
      ensureEnd p.id dataOffset bytes limit
      rest) post := by
  apply (checks_checkedSize _ _ _).bind
  rintro bytes ⟨hbytes, _⟩
  apply (checks_ensureEnd _ _ _ _).bind
  intro _ hle
  exact h (by omega)

theorem mem_branchElements {e : BranchElement} (h : e ∈ p.branchElements) :
    e.index < p.count ∧ e = p.branchElement e.index := by
  obtain ⟨index, hindex, rfl⟩ := List.mem_map.mp h
  exact ⟨List.mem_range.mp hindex, rfl⟩

theorem mem_leafElements {e : LeafElement} (h : e ∈ p.leafElements) :
    e.index < p.count ∧ e = p.leafElement e.index := by
  obtain ⟨index, hindex, rfl⟩ := List.mem_map.mp h
  exact ⟨List.mem_range.mp hindex, rfl⟩

theorem branchElement_mem {index : Nat} (h : index < p.count) :
    p.branchElement index ∈ p.branchElements :=
  List.mem_map.mpr ⟨index, List.mem_range.mpr h, rfl⟩

theorem leafElement_mem {index : Nat} (h : index < p.count) :
    p.leafElement index ∈ p.leafElements :=
  List.mem_map.mpr ⟨index, List.mem_range.mpr h, rfl⟩

theorem elementSize_branch (h : p.pageType = typeBranch) : elementSize p = some branchSize :=
  if_pos h

theorem elementSize_leaf (h : p.pageType = typeLeaf) : elementSize p = some leafSize := by
  rw [elementSize, h]
  rfl

theorem elementSize_freelist (h : p.pageType = typeFreelist) :
    elementSize p = some retiredSize := by
  rw [elementSize, h]
  rfl

theorem elementSize_meta (h : p.pageType = typeMeta) : elementSize p = none := by
  rw [elementSize, h]
  rfl

/-- The headers of the elements lie below the limit when all of them together do. -/
theorem headers_inside {size : Nat} (hsize : elementSize p = some size)
    (hend : dataOffset + p.count * size ≤ limit) :
    ∀ other, elementSize p = some other → ∀ index < p.count,
      elementOffset other index + other ≤ limit := by
  intro other hother index hindex
  rw [hsize] at hother
  rw [← Option.some.inj hother]
  exact header_inside hindex hend

theorem checks_validateLayout (h : KnownType p) (hword : limit < 2 ^ 64) :
    Checks (p.validateLayout limit) fun _ => LayoutInside p limit := by
  unfold RawPage.validateLayout
  dsimp only
  split_ifs with hmeta hfreelist hbranch hleaf
  · apply (checks_ensureEnd _ _ _ _).mono
    intro _ hend
    have hnone := elementSize_meta hmeta
    refine ⟨fun _ => hend, ?_, ?_, ?_⟩
    · simp [hnone]
    · simp [hmeta, typeMeta, typeBranch]
    · simp [hmeta, typeMeta, typeLeaf]
  · apply (checks_checkedSize _ _ _).bind
    rintro bytes ⟨hbytes, _⟩
    apply (checks_ensureEnd _ _ _ _).mono
    intro _ hend
    refine ⟨?_, headers_inside (elementSize_freelist hfreelist) (by omega), ?_, ?_⟩
    · simp [hfreelist, typeFreelist, typeMeta]
    · simp [hfreelist, typeFreelist, typeBranch]
    · simp [hfreelist, typeFreelist, typeLeaf]
  · apply checks_elements
    intro hend
    have helements : Checks (validateAll (p.validateBranch limit) p.branchElements) fun _ =>
        ∀ e ∈ p.branchElements, Inside e.keyRange (elementOffset branchSize e.index) limit :=
      checks_validateAll fun e he => checks_validateBranch (mem_branchElements he).1 hend hword
    apply helements.mono
    intro _ hinside
    refine ⟨fun hmeta' => absurd hmeta' hmeta, headers_inside (elementSize_branch hbranch) hend,
      fun _ index hindex => hinside _ (branchElement_mem hindex), ?_⟩
    simp [hbranch, typeBranch, typeLeaf]
  · apply checks_elements
    intro hend
    have helements : Checks (validateAll (p.validateLeaf limit) p.leafElements) fun _ =>
        ∀ e ∈ p.leafElements, LeafInside e limit :=
      checks_validateAll fun e he => checks_validateLeaf (mem_leafElements he).1 hend hword
    apply helements.mono
    intro _ hinside
    exact ⟨fun hmeta' => absurd hmeta' hmeta, headers_inside (elementSize_leaf hleaf) hend,
      fun hbranch' => absurd hbranch' hbranch,
      fun _ index hindex => hinside _ (leafElement_mem hindex)⟩
  · rcases h with h | h | h | h <;> contradiction

end layout

/-! ## The block of a page -/

section blocks

variable {p : RawPage} {buf : Bytes} {id pagesize : Nat}

/-- The length of the block of a page. -/
def blockLen (p : RawPage) (pagesize : Nat) : Nat := (p.overflow + 1) * pagesize

/-- A page that lies in a buffer with its whole block. -/
structure SpanInside (buf : Bytes) (id pagesize : Nat) (p : RawPage) : Prop where
  bytes : p.bytes = buf.drop (id * pagesize)
  identity : p.id = id
  known : KnownType p
  block : id * pagesize + blockLen p pagesize ≤ buf.length
  word : id * pagesize + blockLen p pagesize < 2 ^ 64
  room : headerSize + checksumSize ≤ blockLen p pagesize

theorem checks_validateHeader :
    Checks (p.validateHeader id) fun _ => p.id = id ∧ KnownType p := by
  unfold validateHeader
  dsimp only
  split_ifs with hid htype
  · exact checks_invalidDB _
  · exact checks_invalidDB _
  · apply checks_ok
    unfold KnownType
    tauto

theorem checks_validateBlockEnd {fileLength offset : Nat} :
    Checks (p.validateBlockEnd fileLength id pagesize offset) fun len =>
      len = blockLen p pagesize ∧ offset + len ≤ fileLength ∧ offset + len < 2 ^ 64 ∧
        headerSize + checksumSize ≤ len := by
  unfold validateBlockEnd
  apply checks_checkedAdd.bind
  rintro blockPages ⟨rfl, _⟩
  apply checks_checkedMul.bind
  rintro len ⟨rfl, _⟩
  apply checks_checkedAdd.bind
  rintro blockEnd ⟨rfl, hword⟩
  split_ifs with hend hroom
  · exact checks_invalidDB _
  · exact checks_invalidDB _
  · exact checks_ok ⟨rfl, by omega, hword, by omega⟩

theorem checks_validateSpan (buf : Bytes) (id pagesize : Nat) :
    Checks (RawPage.validateSpan buf id pagesize) fun found =>
      SpanInside buf id pagesize found.1 ∧ found.2.1 = id * pagesize ∧
        found.2.2 = blockLen found.1 pagesize := by
  unfold RawPage.validateSpan
  apply checks_checkedMul.bind
  rintro offset ⟨rfl, hoffset⟩
  apply checks_checkedAdd.bind
  rintro headerEnd ⟨rfl, _⟩
  split_ifs with houtside haligned
  · exact checks_invalidDB _
  · exact checks_invalidDB _
  · have hlt : id * pagesize < buf.length := by
      simp only [headerSize] at houtside
      omega
    rw [fromBuf, mulU64_of_lt hoffset, except_bind_ok, if_pos hlt, except_pure, except_bind_ok]
    apply checks_validateHeader.bind
    rintro _ ⟨hid, hknown⟩
    apply checks_validateBlockEnd.bind
    rintro len ⟨rfl, hblock, hword, hroom⟩
    exact checks_ok ⟨⟨rfl, hid, hknown, hblock, hword, hroom⟩, rfl, rfl⟩

/-- What a validated page guarantees to the code that reads it. -/
structure PageInside (buf : Bytes) (id pagesize : Nat) (p : RawPage) : Prop extends
    SpanInside buf id pagesize p where
  layout : LayoutInside p (blockLen p pagesize - checksumSize)

theorem checks_layout (h : SpanInside buf id pagesize p) :
    Checks (do
      let dataLimit ← subU64 (blockLen p pagesize) checksumSize
      p.validateLayout dataLimit
      return p) (PageInside buf id pagesize) := by
  have hroom := h.room
  have hword := h.word
  rw [subU64_of_le (by omega), except_bind_ok]
  apply (checks_validateLayout h.known (by omega)).bind
  intro _ hlayout
  exact checks_ok ⟨h, hlayout⟩

theorem checks_validateStructure (buf : Bytes) (id pagesize : Nat) :
    Checks (validateStructure buf id pagesize) (PageInside buf id pagesize) := by
  unfold validateStructure
  apply (checks_validateSpan buf id pagesize).bind
  rintro ⟨p, offset, len⟩ ⟨hspan, _, hlen⟩
  dsimp only at hspan hlen ⊢
  rw [hlen]
  exact checks_layout hspan

theorem checks_validateBlock (digest : Digest) (buf : Bytes) (id pagesize : Nat) :
    Checks (validateBlock digest buf id pagesize) (PageInside buf id pagesize) := by
  unfold validateBlock
  apply (checks_validateSpan buf id pagesize).bind
  rintro ⟨p, offset, len⟩ ⟨hspan, hoffset, hlen⟩
  dsimp only at hspan hoffset hlen ⊢
  have hblock := hspan.block
  have hslice : sliceOf buf (id * pagesize) (blockLen p pagesize) =
      .ok (load buf (id * pagesize) (blockLen p pagesize)) := by
    rw [sliceOf, addU64_of_lt hspan.word, except_bind_ok, if_pos hblock]
    rfl
  have hchecksum : Checks (verifyChecksum digest
      (load buf (id * pagesize) (blockLen p pagesize)) id) fun _ => True := by
    have hroom := hspan.room
    rw [verifyChecksum, length_load hblock, subU64_of_le (by omega), except_bind_ok]
    split_ifs
    · exact checks_invalidDB _
    · exact checks_ok trivial
  rw [hoffset, hlen, hslice, except_bind_ok]
  apply hchecksum.bind
  intro _ _
  exact checks_layout hspan

/-- `validate_structure` returns on every buffer, and a page that it accepts bounds every access
that the readers make. -/
theorem validation_bounds_access (buf : Bytes) (id pagesize : Nat) :
    ((∃ page, validateStructure buf id pagesize = .ok page) ∨
      ∃ text, validateStructure buf id pagesize = .error (.error (.invalidDB text))) ∧
    ∀ page, validateStructure buf id pagesize = .ok page → PageInside buf id pagesize page := by
  have hchecks := checks_validateStructure buf id pagesize
  refine ⟨?_, fun page hpage => hchecks.of_ok hpage⟩
  cases hresult : validateStructure buf id pagesize with
  | ok page => exact .inl ⟨page, rfl⟩
  | error fault =>
    rw [hresult] at hchecks
    obtain ⟨text, htext⟩ := hchecks
    exact .inr ⟨text, by rw [htext]⟩

end blocks

end Tagdata.Analysis
