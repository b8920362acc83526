import Tagdata.Analysis.Freelists
import Tagdata.Analysis.MetaPages

/-!
# Candidates for the page size

What `metadata_page_size` reads at an offset, which page sizes the scan of `inspect` collects, and
what `inspect_candidate` makes of one of them.  It reads only two pages of the file, which is
enough: validation does not look behind a block.
-/

set_option autoImplicit false

namespace Tagdata.Analysis

open Tagdata.Library Tagdata.Model Tagdata.Model.RawPage

/-! ## Bytes behind a block -/

section append

variable {digest : Digest} {buf more : Bytes} {id pagesize limit : Nat} {p : RawPage}

/-- A page with more bytes behind it. -/
def extended (p : RawPage) (more : Bytes) : RawPage := ⟨p.bytes ++ more⟩

theorem id_extended (h : headerSize ≤ p.bytes.length) : (extended p more).id = p.id := by
  simp only [headerSize] at h
  rw [RawPage.id, extended, readU64, load_append_left (by omega)]
  rfl

theorem pageType_extended (h : headerSize ≤ p.bytes.length) :
    (extended p more).pageType = p.pageType := by
  simp only [headerSize] at h
  rw [RawPage.pageType, extended, readU8, load_append_left (by omega)]
  rfl

theorem count_extended (h : headerSize ≤ p.bytes.length) :
    (extended p more).count = p.count := by
  simp only [headerSize] at h
  rw [RawPage.count, extended, readU64, load_append_left (by omega)]
  rfl

theorem overflow_extended (h : headerSize ≤ p.bytes.length) :
    (extended p more).overflow = p.overflow := by
  simp only [headerSize] at h
  rw [RawPage.overflow, extended, readU64, load_append_left (by omega)]
  rfl

theorem branchElements_extended (h : headerSize ≤ p.bytes.length)
    (hend : dataOffset + p.count * branchSize ≤ p.bytes.length) :
    (extended p more).branchElements = p.branchElements := by
  rw [branchElements, count_extended h]
  apply List.map_congr_left
  intro index hindex
  have hinside := header_inside (List.mem_range.mp hindex) hend
  simp only [branchSize] at hinside
  simp only [branchElement, extended, readU64, branchSize]
  rw [load_append_left (by omega), load_append_left (by omega), load_append_left (by omega)]

theorem leafElements_extended (h : headerSize ≤ p.bytes.length)
    (hend : dataOffset + p.count * leafSize ≤ p.bytes.length) :
    (extended p more).leafElements = p.leafElements := by
  rw [leafElements, count_extended h]
  apply List.map_congr_left
  intro index hindex
  have hinside := header_inside (List.mem_range.mp hindex) hend
  simp only [leafSize] at hinside
  simp only [leafElement, extended, readU8, readU64, leafSize]
  rw [load_append_left (by omega), load_append_left (by omega), load_append_left (by omega),
    load_append_left (by omega)]

theorem validateLayout_extended (h : headerSize ≤ p.bytes.length) (hlimit : limit ≤ p.bytes.length)
    (hlayout : p.validateLayout limit = .ok ()) :
    (extended p more).validateLayout limit = .ok () := by
  have hbranch : (extended p more).validateBranch limit = p.validateBranch limit := by
    funext e
    simp only [validateBranch, id_extended h]
  have hleaf : (extended p more).validateLeaf limit = p.validateLeaf limit := by
    funext e
    simp only [validateLeaf, id_extended h]
  unfold RawPage.validateLayout at hlayout ⊢
  dsimp only at hlayout ⊢
  rw [id_extended h, pageType_extended h, count_extended h, hbranch, hleaf]
  split_ifs at hlayout ⊢ with hmeta hfreelist hbranches hleaves
  · exact hlayout
  · exact hlayout
  · obtain ⟨size, hsize, hrest⟩ := except_bind_eq_ok.mp hlayout
    obtain ⟨_, hend, _⟩ := except_bind_eq_ok.mp hrest
    have hsum := (checks_checkedSize _ _ _).of_ok hsize
    have hinside := (checks_ensureEnd _ _ _ _).of_ok hend
    rw [branchElements_extended h (by omega)]
    exact hlayout
  · obtain ⟨size, hsize, hrest⟩ := except_bind_eq_ok.mp hlayout
    obtain ⟨_, hend, _⟩ := except_bind_eq_ok.mp hrest
    have hsum := (checks_checkedSize _ _ _).of_ok hsize
    have hinside := (checks_ensureEnd _ _ _ _).of_ok hend
    rw [leafElements_extended h (by omega)]
    exact hlayout

theorem validateBlockEnd_le {fileLength fileLength' offset len : Nat}
    (hle : fileLength ≤ fileLength')
    (h : p.validateBlockEnd fileLength id pagesize offset = .ok len) :
    p.validateBlockEnd fileLength' id pagesize offset = .ok len := by
  obtain ⟨pages, hpages, hrest⟩ := except_bind_eq_ok.mp h
  obtain ⟨blockLen, hlen, hrest⟩ := except_bind_eq_ok.mp hrest
  obtain ⟨stop, hstop, hrest⟩ := except_bind_eq_ok.mp hrest
  rw [validateBlockEnd, hpages, except_bind_ok, hlen, except_bind_ok, hstop, except_bind_ok]
  split_ifs at hrest with hlong hsmall
  · cases hrest
  · cases hrest
  · rw [if_neg (by omega), if_neg hsmall]
    exact hrest

theorem fromBuf_append (h : fromBuf buf id pagesize = .ok p) :
    fromBuf (buf ++ more) id pagesize = .ok (extended p more) := by
  obtain ⟨offset, hoffset, hrest⟩ := except_bind_eq_ok.mp h
  split_ifs at hrest with hinside
  rw [except_pure, Except.ok.injEq] at hrest
  rw [fromBuf, hoffset, except_bind_ok, if_pos (by rw [List.length_append]; omega),
    List.drop_append_of_le_length hinside.le, ← hrest]
  rfl

theorem validateSpan_append {offset len : Nat}
    (h : RawPage.validateSpan buf id pagesize = .ok (p, offset, len)) :
    RawPage.validateSpan (buf ++ more) id pagesize = .ok (extended p more, offset, len) := by
  have hspan : SpanInside buf id pagesize p := ((checks_validateSpan buf id pagesize).of_ok h).1
  have hhead : headerSize ≤ p.bytes.length := by
    have hblock := hspan.block
    have hroom := hspan.room
    rw [hspan.bytes, List.length_drop]
    simp only [headerSize, checksumSize] at hroom ⊢
    omega
  obtain ⟨start, hstart, hrest⟩ := except_bind_eq_ok.mp h
  obtain ⟨headerEnd, hheaderEnd, hrest⟩ := except_bind_eq_ok.mp hrest
  split_ifs at hrest with houtside haligned
  · cases hrest
  · cases hrest
  obtain ⟨page, hpage, hrest⟩ := except_bind_eq_ok.mp hrest
  obtain ⟨_, hheader, hrest⟩ := except_bind_eq_ok.mp hrest
  obtain ⟨blockLen, hend, hrest⟩ := except_bind_eq_ok.mp hrest
  rw [except_pure, Except.ok.injEq, Prod.mk.injEq] at hrest
  rw [hrest.1] at hpage hheader hend
  have hheader' : (extended p more).validateHeader id = .ok () := by
    rw [validateHeader, id_extended hhead, pageType_extended hhead]
    exact hheader
  have hend' : (extended p more).validateBlockEnd (buf ++ more).length id pagesize start =
      .ok blockLen := by
    rw [validateBlockEnd, overflow_extended hhead]
    exact validateBlockEnd_le (by rw [List.length_append]; omega) hend
  rw [RawPage.validateSpan, hstart, except_bind_ok, hheaderEnd, except_bind_ok,
    if_neg (by rw [List.length_append]; omega), if_neg haligned]
  simp only [fromBuf_append hpage, except_bind_ok, hheader', hend', except_pure, hrest.2]

/-- A block that validates does so whatever lies behind it. -/
theorem validateBlock_append (h : validateBlock digest buf id pagesize = .ok p) :
    validateBlock digest (buf ++ more) id pagesize = .ok (extended p more) := by
  have hinside := (checks_validateBlock digest buf id pagesize).of_ok h
  have hblock := hinside.block
  have hroom := hinside.room
  obtain ⟨⟨page, offset, len⟩, hspan, hrest⟩ := except_bind_eq_ok.mp h
  obtain ⟨block, hslice, hrest⟩ := except_bind_eq_ok.mp hrest
  obtain ⟨_, hchecksum, hrest⟩ := except_bind_eq_ok.mp hrest
  obtain ⟨dataLimit, hlimit, hrest⟩ := except_bind_eq_ok.mp hrest
  obtain ⟨_, hlayout, hpage⟩ := except_bind_eq_ok.mp hrest
  rw [except_pure, Except.ok.injEq] at hpage
  rw [hpage] at hspan hlayout
  obtain ⟨_, hoffset, hlen⟩ := (checks_validateSpan buf id pagesize).of_ok hspan
  dsimp only at hoffset hlen
  have hslice' : sliceOf (buf ++ more) offset len = .ok block := by
    obtain ⟨stop, hstop, hload⟩ := except_bind_eq_ok.mp hslice
    split_ifs at hload with hfits
    rw [except_pure, Except.ok.injEq] at hload
    rw [sliceOf, hstop, except_bind_ok, if_pos (by rw [List.length_append]; omega),
      load_append_left (by omega), hload]
    rfl
  have hlimit' : dataLimit ≤ len := by
    unfold subU64 at hlimit
    split_ifs at hlimit
    rw [Except.ok.injEq] at hlimit
    omega
  have hbytes : p.bytes.length = buf.length - id * pagesize := by
    rw [hinside.bytes, List.length_drop]
  have hlayout' : (extended p more).validateLayout dataLimit = .ok () :=
    validateLayout_extended (by simp only [headerSize, checksumSize] at hroom ⊢; omega)
      (by omega) hlayout
  rw [validateBlock, validateSpan_append hspan]
  simp only [except_bind_ok, hslice', hchecksum, hlimit, hlayout', except_pure]

end append

/-! ## What `metadata_page_size` reads -/

section declared

variable {digest : Digest} {file : Bytes} {pagesize offset id : Nat}

theorem load_drop (bytes : Bytes) (offset start len : Nat) :
    load (bytes.drop offset) start len = load bytes (offset + start) len := by
  rw [load, load, List.drop_drop]

theorem load_take {bytes : Bytes} {start len n : Nat} (h : start + len ≤ n) :
    load (bytes.take n) start len = load bytes start len := by
  rw [load, load, List.drop_take, List.take_take]
  congr 1
  omega

/-- The fields are those of the page at the offset. -/
theorem metadataPageSize_eq_some {size : Nat} : metadataPageSize file offset id = some size ↔
    offset + metaExtent ≤ file.length ∧ (RawPage.mk (file.drop offset)).id = id ∧
      (RawPage.mk (file.drop offset)).pageType = typeMeta ∧
      (RawPage.mk (file.drop offset)).metadata.magic = magicValue ∧
      (RawPage.mk (file.drop offset)).metadata.pagesize = size ∧
      1024 ≤ size ∧ size ≤ maxBootstrapScan := by
  simp only [metadataPageSize, RawPage.id, RawPage.pageType, RawPage.metadata, readU64, readU8,
    readU32, load_drop, add_zero, metaExtent, headerSize, dataOffset, metadataSize, add_assoc,
    Nat.reduceAdd]
  split_ifs with hlength hhead hmagic hsize
  · simp
    omega
  · simp
    tauto
  · simp
    tauto
  · rw [Option.some.injEq]
    constructor
    · rintro rfl
      refine ⟨by omega, ?_, ?_, ?_, rfl, hsize⟩ <;> tauto
    · tauto
  · simp
    omega

/-- A longer reading of the file declares the same. -/
theorem metadataPageSize_take {n : Nat} (h : offset + metaExtent ≤ n) :
    metadataPageSize (file.take n) offset id = metadataPageSize file offset id := by
  simp only [metaExtent, dataOffset, metadataSize] at h
  have hshort : (offset + 40 > (file.take n).length ∨ offset + 32 + 72 > (file.take n).length) ↔
      (offset + 40 > file.length ∨ offset + 32 + 72 > file.length) := by
    rw [List.length_take]
    omega
  simp only [metadataPageSize, readU64, readU8, readU32, headerSize, dataOffset, metadataSize,
    hshort]
  simp (disch := omega) only [load_take]
  congr

/-- A metadata page declares the page size, as long as it is not too large. -/
theorem Intact.declares {m : Meta} (h : Intact digest pagesize file m) (hmin : 1024 ≤ pagesize)
    {size : Nat} : metadataPageSize file (m.metaPage * pagesize) m.metaPage = some size ↔
      size = pagesize ∧ pagesize ≤ maxBootstrapScan := by
  have hshows := h.shows hmin
  have hplace := h.place_le hmin
  have hroom := metaExtent_le hmin
  obtain ⟨_, hmagic, _, hpagesize⟩ := usable_iff.mp h.usable
  rw [metadataPageSize_eq_some, hshows.id_eq, hshows.pageType_eq, hshows.metadata_eq, hmagic,
    hpagesize]
  constructor
  · rintro ⟨_, _, _, _, rfl, _, hle⟩
    exact ⟨rfl, hle⟩
  · rintro ⟨rfl, hle⟩
    exact ⟨by omega, rfl, rfl, rfl, rfl, hmin, hle⟩

end declared

/-! ## The candidates of the scan -/

section candidates

theorem mem_foldl_insertFree {c : Nat → Prop} [DecidablePred c] {x : Nat}
    (offsets found : List Nat) :
    x ∈ offsets.foldl
        (fun found offset => if c offset then Freelist.insertFree offset found else found) found ↔
      x ∈ found ∨ (x ∈ offsets ∧ c x) := by
  induction offsets generalizing found with
  | nil => simp
  | cons offset offsets ih =>
    rw [List.foldl_cons, ih]
    split_ifs with hc
    · rw [mem_insertFree, List.mem_cons]
      constructor
      · rintro ((rfl | hx) | ⟨hx, hcx⟩)
        · exact .inr ⟨.inl rfl, hc⟩
        · exact .inl hx
        · exact .inr ⟨.inr hx, hcx⟩
      · rintro (hx | ⟨rfl | hx, hcx⟩)
        · exact .inl (.inr hx)
        · exact .inl (.inl rfl)
        · exact .inr ⟨hx, hcx⟩
    · rw [List.mem_cons]
      apply or_congr_right
      constructor
      · rintro ⟨hx, hcx⟩
        exact ⟨.inr hx, hcx⟩
      · rintro ⟨rfl | hx, hcx⟩
        · exact absurd hcx hc
        · exact ⟨hx, hcx⟩

theorem sorted_foldl_insertFree {c : Nat → Prop} [DecidablePred c] (offsets : List Nat)
    {found : List Nat} (h : found.Pairwise (· < ·)) :
    (offsets.foldl (fun found offset => if c offset then Freelist.insertFree offset
      found else found)
      found).Pairwise (· < ·) := by
  induction offsets generalizing found with
  | nil => exact h
  | cons offset offsets ih =>
    rw [List.foldl_cons]
    apply ih
    split_ifs
    · exact sorted_insertFree h
    · exact h

/-- The page sizes that are tried: the one that page 0 declares, and every offset of the scan at
which a second metadata page declares its own place. -/
theorem mem_candidates {scanned : Bytes} {size : Nat} : size ∈ candidates scanned ↔
    metadataPageSize scanned 0 0 = some size ∨
      (1024 ≤ size ∧ size + (headerSize + metadataSize) < scanned.length ∧
        metadataPageSize scanned size 1 = some size) := by
  rw [candidates, mem_foldl_insertFree, Option.mem_toList, List.mem_range'_1, and_assoc]
  apply or_congr_right
  simp only [headerSize, metadataSize]
  constructor
  · rintro ⟨hmin, hmax, hdeclared⟩
    exact ⟨hmin, by omega, hdeclared⟩
  · rintro ⟨hmin, hmax, hdeclared⟩
    exact ⟨hmin, by omega, hdeclared⟩

theorem candidates_nodup (scanned : Bytes) : (candidates scanned).Nodup := by
  have hsorted : (candidates scanned).Pairwise (· < ·) := by
    apply sorted_foldl_insertFree
    cases metadataPageSize scanned 0 0 <;> simp
  exact hsorted.imp fun hlt => hlt.ne

end candidates

/-! ## One candidate -/

section candidate

variable {digest : Digest} {file : Bytes} {size : Nat}

/-- `max_by_key` and `check_meta!` choose the same: on a tie both take page 1. -/
theorem latest_eq_selectMeta (meta1 meta2 : Option Meta) :
    latest (meta1.toList.filter (·.usable size) ++ meta2.toList.filter (·.usable size)) =
      selectMeta size meta1 meta2 := by
  rw [← Option.toList_filter, ← Option.toList_filter, selectMeta]
  cases meta1.filter (·.usable size) with
  | none => cases meta2.filter (·.usable size) <;> rfl
  | some m1 =>
    cases meta2.filter (·.usable size) with
    | none => rfl
    | some m2 =>
      show some (if m1.txId ≤ m2.txId then m2 else m1) = some (if m1.txId > m2.txId then m1 else m2)
      congr 1
      split_ifs <;> first | rfl | omega

theorem exists_selectMeta {m : Meta} (hm : m.usable size = true) {meta1 meta2 : Option Meta}
    (h : meta1 = some m ∨ meta2 = some m) : ∃ m', selectMeta size meta1 meta2 = some m' := by
  have hfilter : (some m).filter (·.usable size) = some m := if_pos hm
  unfold selectMeta
  rcases h with rfl | rfl
  · rw [hfilter]
    cases meta2.filter (·.usable size) with
    | none => exact ⟨m, rfl⟩
    | some m2 => exact ⟨_, rfl⟩
  · rw [hfilter]
    cases meta1.filter (·.usable size) with
    | none => exact ⟨m, rfl⟩
    | some m1 => exact ⟨_, rfl⟩

/-- What `inspect` reports about a selected metadata page. -/
def infoOf (file : Bytes) (size : Nat) (m : Meta) : FormatInfo :=
  ⟨size, m.version, m.txId, m.metaPage, file.length⟩

/-- How many of the two metadata pages are usable. -/
def usableCount (size : Nat) (meta1 meta2 : Option Meta) : Nat :=
  (meta1.toList.filter (·.usable size)).length + (meta2.toList.filter (·.usable size)).length

theorem inspectCandidate_eq {meta1 meta2 : Option Meta} (hsize : size * 2 ≤ file.length)
    (hword : file.length < 2 ^ 64)
    (h1 : metaAt digest (file.take (size * 2)) size 0 = .ok meta1)
    (h2 : metaAt digest (file.take (size * 2)) size 1 = .ok meta2) :
    inspectCandidate digest file size =
      (orInvalid (selectMeta size meta1 meta2) "no valid metadata pages" >>= fun m =>
        .ok (infoOf file size m, usableCount size meta1 meta2)) := by
  rw [inspectCandidate, checkedMul_of_lt (by omega), orInvalid, except_bind_ok,
    if_neg (by omega)]
  simp only [candidateMeta, h1, h2, except_bind_ok, except_pure, latest_eq_selectMeta,
    List.length_append]
  rfl

end candidate

end Tagdata.Analysis
