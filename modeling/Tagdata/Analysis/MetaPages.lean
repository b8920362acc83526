import Tagdata.Analysis.Opens
import Tagdata.Model.Files

/-!
# Metadata pages on disk

A metadata page that was filled in and sealed is accepted wherever it lies in a file and gives its
metadata back.  Every file that comes from a creation and any number of commits holds two of them.
-/

set_option autoImplicit false

namespace Tagdata.Analysis

open Tagdata.Library Tagdata.Model Tagdata.Model.RawPage

/-! ## Reading a metadata page back -/

/-- The fields of the metadata fit their words. -/
structure MetaWords (m : Meta) : Prop where
  metaPage : m.metaPage < 2 ^ 32
  magic : m.magic < 2 ^ 32
  version : m.version < 2 ^ 32
  pagesize : m.pagesize < 2 ^ 64
  rootPage : m.root.rootPage < 2 ^ 64
  nextInt : m.root.nextInt < 2 ^ 64
  numPages : m.numPages < 2 ^ 64
  freelistPage : m.freelistPage < 2 ^ 64
  txId : m.txId < 2 ^ 64
  hash : m.hash < 2 ^ 64

theorem readU32_of_load {m : Bytes} {offset n : Nat} (h : load m offset 4 = leBytes 4 n)
    (hn : n < 2 ^ 32) : readU32 m offset = n := by
  rw [readU32, h]
  exact ofLeBytes_leBytes (by norm_num; exact hn)

/-- The bytes of the header and the metadata. -/
def metaExtent : Nat := dataOffset + metadataSize

theorem metaFields_apart (m : Meta) : (metaFields m).Pairwise FieldsApart := by
  simp [metaFields, FieldsApart]

theorem metaFields_within (m : Meta) : ∀ f ∈ metaFields m, f.1 + f.2.length ≤ metaExtent := by
  simp [metaFields, metaExtent, dataOffset, metadataSize]

/-- A page whose bytes below the limit are those of a metadata page filled into zeros. -/
structure ShowsMeta (m : Meta) (pagesize limit : Nat) (p : RawPage) : Prop where
  words : MetaWords m
  ends : metaExtent ≤ limit
  fits : limit ≤ pagesize
  same : SameIn 0 limit (writeMeta m (List.replicate pagesize 0)) p.bytes

namespace ShowsMeta

variable {m : Meta} {pagesize limit : Nat} {p : RawPage}

theorem field (h : ShowsMeta m pagesize limit p) {offset w n : Nat}
    (hmem : (offset, leBytes w n) ∈ metaFields m) : load p.bytes offset w = leBytes w n := by
  have hends := h.ends
  have hfits := h.fits
  have hwithin := metaFields_within m _ hmem
  rw [length_leBytes] at hwithin
  dsimp only at hwithin
  have hload : load (writeMeta m (List.replicate pagesize 0)) (0 + offset) w = leBytes w n :=
    load_leBytes (metaFields_apart m) (metaFields_within m)
      (by rw [List.length_replicate]; omega) hmem
  rw [zero_add] at hload
  rw [h.same offset w (Nat.zero_le _) (by omega), hload]

theorem id_eq (h : ShowsMeta m pagesize limit p) : p.id = m.metaPage := by
  have hword := h.words.metaPage
  exact readU64_of_load (h.field (by simp [metaFields])) (by omega)

theorem pageType_eq (h : ShowsMeta m pagesize limit p) : p.pageType = typeMeta :=
  readU8_of_load (h.field (by simp [metaFields])) (by decide)

/-- No field covers the count of further pages. -/
theorem overflow_eq (h : ShowsMeta m pagesize limit p) : p.overflow = 0 := by
  have hends := h.ends
  have hfits := h.fits
  simp only [metaExtent, dataOffset, metadataSize] at hends
  have hother : load (writeMeta m (List.replicate pagesize 0)) (0 + 24) 8 =
      load (List.replicate pagesize 0) (0 + 24) 8 :=
    load_storeFields_other (metaFields_within m)
      (by rw [List.length_replicate, metaExtent, dataOffset, metadataSize]; omega)
      (by simp [metaFields])
  rw [load_replicate (by omega)] at hother
  rw [RawPage.overflow, readU64, h.same 24 8 (Nat.zero_le _) (by omega), ← zero_add 24, hother]
  decide

theorem metadata_eq (h : ShowsMeta m pagesize limit p) : p.metadata = m := by
  have hmetaPage : readU32 p.bytes 32 = m.metaPage :=
    readU32_of_load (h.field (by simp [metaFields])) h.words.metaPage
  have hmagic : readU32 p.bytes 36 = m.magic :=
    readU32_of_load (h.field (by simp [metaFields])) h.words.magic
  have hversion : readU32 p.bytes 40 = m.version :=
    readU32_of_load (h.field (by simp [metaFields])) h.words.version
  have hpagesize : readU64 p.bytes 48 = m.pagesize :=
    readU64_of_load (h.field (by simp [metaFields])) h.words.pagesize
  have hrootPage : readU64 p.bytes 56 = m.root.rootPage :=
    readU64_of_load (h.field (by simp [metaFields])) h.words.rootPage
  have hnextInt : readU64 p.bytes 64 = m.root.nextInt :=
    readU64_of_load (h.field (by simp [metaFields])) h.words.nextInt
  have hnumPages : readU64 p.bytes 72 = m.numPages :=
    readU64_of_load (h.field (by simp [metaFields])) h.words.numPages
  have hfreelist : readU64 p.bytes 80 = m.freelistPage :=
    readU64_of_load (h.field (by simp [metaFields])) h.words.freelistPage
  have htxId : readU64 p.bytes 88 = m.txId :=
    readU64_of_load (h.field (by simp [metaFields])) h.words.txId
  have hhash : readU64 p.bytes 96 = m.hash :=
    readU64_of_load (h.field (by simp [metaFields])) h.words.hash
  simp only [RawPage.metadata, dataOffset, Nat.reduceAdd, hmetaPage, hmagic, hversion, hpagesize,
    hrootPage, hnextInt, hnumPages, hfreelist, htxId, hhash]

theorem metaOf_eq (h : ShowsMeta m pagesize limit p) : p.metaOf = .ok m := by
  rw [metaOf, if_pos h.pageType_eq, h.metadata_eq]

theorem validateHeader (h : ShowsMeta m pagesize limit p) :
    p.validateHeader m.metaPage = .ok () := by
  rw [RawPage.validateHeader, if_neg (not_not.mpr h.id_eq), h.pageType_eq]
  rfl

end ShowsMeta

/-! ## A sealed metadata page in a file -/

/-- The block that a metadata page leaves on disk. -/
def metaOnDisk (digest : Digest) (pagesize : Nat) (m : Meta) : Bytes :=
  sealed digest (writeMeta m (List.replicate pagesize 0))

section onDisk

variable {digest : Digest} {pagesize : Nat} {m : Meta} {before after : Bytes}

theorem length_writeMeta (h : metaExtent ≤ pagesize) :
    (writeMeta m (List.replicate pagesize 0)).length = pagesize := by
  have hdiff : DiffersIn 0 (0 + metaExtent) (List.replicate pagesize 0)
      (writeMeta m (List.replicate pagesize 0)) :=
    storeFields_differsIn (metaFields_within m) (by rw [List.length_replicate]; omega)
  rw [hdiff.length, List.length_replicate]

theorem metaExtent_le (h : 1024 ≤ pagesize) : metaExtent + checksumSize ≤ pagesize := by
  simp only [metaExtent, dataOffset, metadataSize, checksumSize]
  omega

theorem length_metaOnDisk (h : 1024 ≤ pagesize) :
    (metaOnDisk digest pagesize m).length = pagesize := by
  have hroom := metaExtent_le h
  have hlength : (writeMeta m (List.replicate pagesize 0)).length = pagesize :=
    length_writeMeta (by omega)
  rw [metaOnDisk, length_sealed digest (by omega), hlength]

theorem metaOnDisk_shows (hwords : MetaWords m) (h : 1024 ≤ pagesize) (after : Bytes) :
    ShowsMeta m pagesize (pagesize - checksumSize) ⟨metaOnDisk digest pagesize m ++ after⟩ := by
  have hroom := metaExtent_le h
  have hlength : (writeMeta m (List.replicate pagesize 0)).length = pagesize :=
    length_writeMeta (by omega)
  have hsame := sameIn_sealed digest (writeMeta m (List.replicate pagesize 0)) after (by omega)
  rw [hlength] at hsame
  exact ⟨hwords, by omega, by omega, hsame⟩

/-- Behind its metadata the page is zero up to its checksum. -/
theorem load_metaOnDisk_behind (h : 1024 ≤ pagesize) {offset len : Nat}
    (hbehind : metaExtent ≤ offset) (hbelow : offset + len ≤ pagesize - checksumSize) :
    load (metaOnDisk digest pagesize m) offset len = List.replicate len 0 := by
  have hroom := metaExtent_le h
  have hlength : (writeMeta m (List.replicate pagesize 0)).length = pagesize :=
    length_writeMeta (by omega)
  have hdiff : DiffersIn 0 (0 + metaExtent) (List.replicate pagesize 0)
      (writeMeta m (List.replicate pagesize 0)) :=
    storeFields_differsIn (metaFields_within m) (by rw [List.length_replicate]; omega)
  have hsame := sameIn_sealed digest (writeMeta m (List.replicate pagesize 0)) [] (by omega)
  rw [hlength, List.append_nil] at hsame
  rw [metaOnDisk, hsame offset len (Nat.zero_le _) hbelow, hdiff.above _ _ (by omega),
    load_replicate (by omega)]

/-- A metadata page on disk is accepted and read back. -/
theorem metaOnDisk_validates (hwords : MetaWords m)
    (hplaced : Placed pagesize m.metaPage 0 before (metaOnDisk digest pagesize m) after) :
    validateBlock digest (before ++ metaOnDisk digest pagesize m ++ after) m.metaPage pagesize =
      .ok ⟨metaOnDisk digest pagesize m ++ after⟩ := by
  have hpagesize := hplaced.pagesize_ge.1
  have hroom := metaExtent_le hpagesize
  have hends := hplaced.ends.2
  have hlength : (metaOnDisk digest pagesize m).length = pagesize := length_metaOnDisk hpagesize
  have hshows : ShowsMeta m pagesize (pagesize - checksumSize)
      ⟨metaOnDisk digest pagesize m ++ after⟩ := metaOnDisk_shows hwords hpagesize after
  have hspan := hplaced.validateSpan hshows.validateHeader hshows.overflow_eq
  have hchecksum : verifyChecksum digest (metaOnDisk digest pagesize m) m.metaPage = .ok () := by
    apply verifyChecksum_sealed
    rw [length_writeMeta (by omega)]
    omega
  have hlayout : (RawPage.mk (metaOnDisk digest pagesize m ++ after)).validateLayout
      (pagesize - checksumSize) = .ok () := by
    rw [RawPage.validateLayout, if_pos hshows.pageType_eq]
    exact ensureEnd_ok hshows.ends (by omega)
  rw [validateBlock, hspan]
  simp only [except_bind_ok, hplaced.sliceOf, hchecksum]
  rw [hlength, subU64_of_le (by omega), except_bind_ok, hlayout, except_bind_ok, except_pure]

end onDisk

/-! ## Files with metadata pages -/

/-- A metadata page of the page size of the file lies at its place. -/
structure Intact (digest : Digest) (pagesize : Nat) (file : Bytes) (m : Meta) : Prop where
  words : MetaWords m
  usable : m.usable pagesize = true
  stored : load file (m.metaPage * pagesize) pagesize = metaOnDisk digest pagesize m

theorem append_of_load {file block : Bytes} {offset len : Nat} (h : load file offset len = block) :
    file.take offset ++ block ++ file.drop (offset + len) = file := by
  rw [← h, load, List.append_assoc, ← List.drop_drop, List.take_append_drop, List.take_append_drop]

namespace Intact

variable {digest : Digest} {pagesize : Nat} {file file' : Bytes} {m : Meta}

theorem place_le (h : Intact digest pagesize file m) (hpagesize : 1024 ≤ pagesize) :
    m.metaPage * pagesize + pagesize ≤ file.length := by
  have hlength : (load file (m.metaPage * pagesize) pagesize).length = pagesize := by
    rw [h.stored, length_metaOnDisk hpagesize]
  rw [load, List.length_take, List.length_drop] at hlength
  omega

/-- The page keeps what it shows when the bytes at its place stay. -/
theorem of_load_eq (h : Intact digest pagesize file m)
    (hload : load file' (m.metaPage * pagesize) pagesize =
      load file (m.metaPage * pagesize) pagesize) : Intact digest pagesize file' m :=
  ⟨h.words, h.usable, hload.trans h.stored⟩

/-- The page is not touched by a page that is written elsewhere. -/
theorem of_store {id : Nat} {page : Bytes} (h : Intact digest pagesize file m)
    (hlength : page.length = pagesize) (hroom : id * pagesize + page.length ≤ file.length)
    (hne : m.metaPage ≠ id) : Intact digest pagesize (store file (id * pagesize) page) m := by
  have hdiff := DiffersIn.of_store hroom
  apply h.of_load_eq
  rcases Nat.lt_or_gt_of_ne hne with hlt | hgt
  · have hnext : (m.metaPage + 1) * pagesize ≤ id * pagesize := Nat.mul_le_mul_right _ hlt
    rw [Nat.add_mul, one_mul] at hnext
    exact hdiff.below _ _ hnext
  · have hnext : (id + 1) * pagesize ≤ m.metaPage * pagesize := Nat.mul_le_mul_right _ hgt
    rw [Nat.add_mul, one_mul] at hnext
    exact hdiff.above _ _ (by omega)

/-- What lies behind the page. -/
theorem drop_eq (h : Intact digest pagesize file m) : file.drop (m.metaPage * pagesize) =
    metaOnDisk digest pagesize m ++ file.drop (m.metaPage * pagesize + pagesize) := by
  rw [← h.stored, load, ← List.drop_drop, List.take_append_drop]

theorem shows (h : Intact digest pagesize file m) (hpagesize : 1024 ≤ pagesize) :
    ShowsMeta m pagesize (pagesize - checksumSize) ⟨file.drop (m.metaPage * pagesize)⟩ := by
  rw [h.drop_eq]
  exact metaOnDisk_shows h.words hpagesize _

theorem validates (h : Intact digest pagesize file m) (hpagesize : checkPageSize pagesize = .ok ())
    (hword : file.length < 2 ^ 64) :
    validateBlock digest file m.metaPage pagesize = .ok ⟨file.drop (m.metaPage * pagesize)⟩ := by
  have hmin := (of_checkPageSize hpagesize).1
  have hplace := h.place_le hmin
  have hsplit := append_of_load h.stored
  have hplaced : Placed pagesize m.metaPage 0 (file.take (m.metaPage * pagesize))
      (metaOnDisk digest pagesize m) (file.drop (m.metaPage * pagesize + pagesize)) := by
    refine ⟨hpagesize, ?_, ?_, by rw [hsplit]; exact hword⟩
    · rw [List.length_take]
      omega
    · rw [length_metaOnDisk hmin, zero_add, one_mul]
  have hvalid := metaOnDisk_validates h.words hplaced
  rwa [hsplit, ← h.drop_eq] at hvalid

/-- What `DBInner::meta` and `inspect_candidate` read there. -/
theorem metaAt_eq (h : Intact digest pagesize file m) (hpagesize : checkPageSize pagesize = .ok ())
    (hword : file.length < 2 ^ 64) :
    metaAt digest file pagesize m.metaPage = .ok (some m) := by
  have hshows := h.shows (of_checkPageSize hpagesize).1
  rw [metaAt, h.validates hpagesize hword]
  simp only [okOrNone, except_bind_ok, hshows.metaOf_eq, except_pure]

end Intact

/-- A file with both of its metadata pages. -/
structure Whole (digest : Digest) (pagesize : Nat) (file : Bytes) : Prop where
  pagesize_ok : checkPageSize pagesize = .ok ()
  length : 4 * pagesize ≤ file.length
  bound : file.length ≤ maxDataFileBytes
  metas : ∀ id < 2, ∃ m, m.metaPage = id ∧ Intact digest pagesize file m

/-! ## Creation -/

theorem hash_hashed (m : Meta) : m.hashed.hash = m.hashSelf := rfl

/-- The hash does not cover itself. -/
theorem hashSelf_withHash (m : Meta) (hash : Nat) :
    ({ m with hash := hash } : Meta).hashSelf = m.hashSelf := rfl

theorem hashed_valid (m : Meta) : m.hashed.valid = true := by
  have hsame : m.hashed.hashSelf = m.hashSelf := hashSelf_withHash m m.hashSelf
  rw [Meta.valid, hsame, hash_hashed]
  exact beq_self_eq_true m.hashSelf

/-- The other fields of the metadata stay; the hash is kept a variable here. -/
theorem withHash_usable {m : Meta} {pagesize hash : Nat}
    (hvalid : ({ m with hash := hash } : Meta).valid = true) (hmagic : m.magic = magicValue)
    (hversion : m.version = formatVersion) (hpagesize : m.pagesize = pagesize) :
    ({ m with hash := hash } : Meta).usable pagesize = true := by
  rw [Meta.usable, hvalid, hmagic, hversion, hpagesize]
  simp

theorem hashed_usable {m : Meta} {pagesize : Nat} (hmagic : m.magic = magicValue)
    (hversion : m.version = formatVersion) (hpagesize : m.pagesize = pagesize) :
    m.hashed.usable pagesize = true :=
  withHash_usable (hashed_valid m) hmagic hversion hpagesize

theorem withHash_words {m : Meta} (h : MetaWords m) {hash : Nat} (hhash : hash < 2 ^ 64) :
    MetaWords { m with hash := hash } :=
  ⟨h.metaPage, h.magic, h.version, h.pagesize, h.rootPage, h.nextInt, h.numPages, h.freelistPage,
    h.txId, hhash⟩

theorem fnv1a_lt {hash : Nat} (bytes : List Nat) (h : hash < 2 ^ 64) :
    Meta.fnv1a hash bytes < 2 ^ 64 := by
  unfold Meta.fnv1a
  induction bytes generalizing hash with
  | nil => exact h
  | cons b bytes ih => exact ih (Nat.mod_lt _ (by positivity))

theorem hashSelf_lt (m : Meta) : m.hashSelf < 2 ^ 64 := by
  unfold Meta.hashSelf
  dsimp only
  iterate 9 apply fnv1a_lt
  norm_num

theorem hashed_words {m : Meta} (h : MetaWords m) : MetaWords m.hashed :=
  withHash_words h (hashSelf_lt m)

section creation

variable {digest : Digest} {pagesize numPages : Nat}

theorem length_emptyPage (id type : Nat) (h : 1024 ≤ pagesize) :
    (emptyPage pagesize id type).length = pagesize := by
  have hdiff : DiffersIn 0 (0 + dataOffset) (List.replicate pagesize 0)
      (emptyPage pagesize id type) :=
    storeFields_differsIn (by simp [dataOffset])
      (by rw [List.length_replicate, dataOffset]; omega)
  rw [hdiff.length, List.length_replicate]

theorem length_initPages (h : 1024 ≤ pagesize) :
    ∀ page ∈ initPages pagesize, page.length = pagesize := by
  have hroom := metaExtent_le h
  have hmetas : ∀ m : Meta, (writeMeta m (List.replicate pagesize 0)).length = pagesize :=
    fun _ => length_writeMeta (by omega)
  simp only [initPages, List.forall_mem_cons, hmetas, length_emptyPage _ _ h, List.not_mem_nil,
    IsEmpty.forall_iff, implies_true, and_self]

/-- The bytes that `init_file` writes. -/
def initBuf (digest : Digest) (pagesize : Nat) : Bytes :=
  ((initPages pagesize).map (sealed digest)).flatten

/-- The file that `init_file` leaves. -/
def newFile (digest : Digest) (pagesize numPages : Nat) : Bytes :=
  store (List.replicate (pagesize * numPages) 0) 0 (initBuf digest pagesize)

theorem initFile_eq (h : 1024 ≤ pagesize) :
    initFile digest pagesize numPages = .ok (newFile digest pagesize numPages) := by
  have hseal : (initPages pagesize).mapM (sealBlock digest) =
      .ok ((initPages pagesize).map (sealed digest)) := by
    apply mapM_eq_ok
    rw [List.map_map]
    apply List.map_congr_left
    intro page hpage
    have hlength := length_initPages h page hpage
    exact sealBlock_eq (by simp only [checksumSize]; omega)
  rw [initFile, hseal]
  rfl

/-- The two metadata pages come first. -/
theorem initBuf_eq (digest : Digest) (pagesize : Nat) : ∃ rest, initBuf digest pagesize =
    metaOnDisk digest pagesize (initMeta pagesize 0) ++
      (metaOnDisk digest pagesize (initMeta pagesize 1) ++ rest) :=
  ⟨_, rfl⟩

theorem length_initBuf (h : 1024 ≤ pagesize) : (initBuf digest pagesize).length = 4 * pagesize := by
  have hpages : ∀ page ∈ initPages pagesize, (sealed digest page).length = pagesize := by
    intro page hpage
    have hlength := length_initPages h page hpage
    rw [length_sealed digest (by simp only [checksumSize]; omega), hlength]
  have hsum : ((initPages pagesize).map fun page => (sealed digest page).length) =
      List.replicate 4 pagesize :=
    List.eq_replicate_iff.mpr ⟨rfl, by simpa using hpages⟩
  rw [initBuf, List.length_flatten, List.map_map]
  show ((initPages pagesize).map fun page => (sealed digest page).length).sum = _
  rw [hsum, List.sum_replicate, smul_eq_mul]

theorem initMeta_words {i : Nat} (hi : i < 2) (h : pagesize < 2 ^ 64) :
    MetaWords (initMeta pagesize i) := by
  apply hashed_words
  exact ⟨by show i < 2 ^ 32; omega, by show magicValue < 2 ^ 32; decide,
    by show formatVersion < 2 ^ 32; decide, h, by norm_num, by norm_num, by norm_num, by norm_num,
    by norm_num, by norm_num⟩

theorem initMeta_usable (i : Nat) : (initMeta pagesize i).usable pagesize = true :=
  hashed_usable rfl rfl rfl

/-- Where the metadata pages of a new file lie. -/
theorem load_initBuf {id : Nat} (hid : id < 2) (h : 1024 ≤ pagesize) :
    load (initBuf digest pagesize) (id * pagesize) pagesize =
      metaOnDisk digest pagesize (initMeta pagesize id) := by
  obtain ⟨rest, hrest⟩ := initBuf_eq digest pagesize
  have hlength : ∀ m : Meta, (metaOnDisk digest pagesize m).length = pagesize :=
    fun _ => length_metaOnDisk h
  rw [hrest]
  interval_cases id
  · have hfirst := load_middle [] (metaOnDisk digest pagesize (initMeta pagesize 0))
      (metaOnDisk digest pagesize (initMeta pagesize 1) ++ rest)
    rw [hlength, List.length_nil, List.nil_append] at hfirst
    rw [zero_mul, hfirst]
  · have hsecond := load_middle (metaOnDisk digest pagesize (initMeta pagesize 0))
      (metaOnDisk digest pagesize (initMeta pagesize 1)) rest
    rw [hlength, hlength] at hsecond
    rw [one_mul, hsecond]

theorem newFile_whole (hpagesize : checkPageSize pagesize = .ok ()) (hpages : 4 ≤ numPages)
    (hbound : pagesize * numPages ≤ maxDataFileBytes) :
    Whole digest pagesize (newFile digest pagesize numPages) := by
  have hmin := (of_checkPageSize hpagesize).1
  have hbuf : (initBuf digest pagesize).length = 4 * pagesize := length_initBuf hmin
  have hroom : 4 * pagesize ≤ pagesize * numPages := by
    rw [mul_comm 4]
    exact Nat.mul_le_mul_left _ hpages
  have hlength : (newFile digest pagesize numPages).length = pagesize * numPages := by
    rw [newFile, length_store (by rw [List.length_replicate]; omega), List.length_replicate]
  have hword : pagesize < 2 ^ 64 := by
    simp only [maxDataFileBytes, Coordination.lockBase] at hbound
    omega
  refine ⟨hpagesize, by omega, by omega, ?_⟩
  intro id hid
  refine ⟨initMeta pagesize id, rfl, initMeta_words hid hword, initMeta_usable id, ?_⟩
  have hplace : id * pagesize + pagesize ≤ (initBuf digest pagesize).length := by
    rw [hbuf]
    nlinarith
  have hinside : load (newFile digest pagesize numPages) (0 + id * pagesize) pagesize = _ :=
    load_store_inside (Nat.zero_le _) hplace
  rw [zero_add, load_initBuf hid hmin] at hinside
  exact hinside

theorem createFile_whole {maxFileBytes : Nat} {file : Bytes} (hpages : 4 ≤ numPages)
    (h : createFile digest pagesize numPages maxFileBytes = .ok file) :
    Whole digest pagesize file := by
  obtain ⟨_, hpagesize, hrest⟩ := except_bind_eq_ok.mp h
  dsimp only at hrest
  split_ifs at hrest with hcapacity
  rw [initFile_eq (of_checkPageSize hpagesize).1, except_bind_ok] at hrest
  split_ifs at hrest with hlength
  rw [except_pure, Except.ok.injEq] at hrest
  rw [← hrest]
  refine newFile_whole hpagesize hpages ?_
  simp only [maxDataFileBytes, Coordination.lockBase] at hcapacity ⊢
  omega

end creation

/-! ## Commits -/

section commits

variable {digest : Digest} {pagesize : Nat} {file file' : Bytes}

theorem Whole.pagesize_ge (h : Whole digest pagesize file) : 1024 ≤ pagesize :=
  (of_checkPageSize h.pagesize_ok).1

theorem Whole.word (h : Whole digest pagesize file) : file.length < 2 ^ 64 := by
  have hbound := h.bound
  simp only [maxDataFileBytes, Coordination.lockBase] at hbound
  omega

/-- The metadata pages lie below the third page. -/
theorem Whole.of_differs (h : Whole digest pagesize file)
    (hbound : file'.length ≤ maxDataFileBytes) (hlength : file.length ≤ file'.length)
    (hbelow : ∀ start len, start + len ≤ 2 * pagesize →
      load file' start len = load file start len) :
    Whole digest pagesize file' := by
  have hold := h.length
  refine ⟨h.pagesize_ok, by omega, hbound, ?_⟩
  intro id hid
  obtain ⟨m, rfl, hintact⟩ := h.metas id hid
  exact ⟨m, rfl, hintact.of_load_eq (hbelow _ _ (by nlinarith))⟩

theorem le_ceil_mul (a : Nat) {b : Nat} (h : 0 < b) : a ≤ (a + b - 1) / b * b := by
  have hdiv := Nat.div_add_mod (a + b - 1) b
  have hlt := Nat.mod_lt (a + b - 1) h
  rw [mul_comm]
  omega

theorem growFile_whole {increment maximum numPages : Nat} (h : Whole digest pagesize file)
    (hincrement : 0 < increment) (hmaximum : maximum ≤ maxDataFileBytes)
    (hgrow : growFile pagesize increment maximum numPages file = .ok file') :
    Whole digest pagesize file' ∧ numPages * pagesize ≤ file'.length := by
  obtain ⟨required, hrequired, hrest⟩ := except_bind_eq_ok.mp hgrow
  have hproduct := (checks_checkedMul.of_ok hrequired).1
  split_ifs at hrest with hcapacity hshort
  · obtain ⟨newSize, hsize, hfile⟩ := except_bind_eq_ok.mp hrest
    rw [except_pure, Except.ok.injEq] at hfile
    have hsum := (checks_checkedAdd.of_ok hsize).1
    have hceil := le_ceil_mul (required - file.length) hincrement
    have hword : maxDataFileBytes ≤ 2 ^ 64 - 1 := by decide
    have hlength : file'.length = file.length + (min newSize maximum - file.length) := by
      rw [← hfile, List.length_append, List.length_replicate]
    have hbound := h.bound
    refine ⟨h.of_differs (by omega) (by omega) ?_, by omega⟩
    intro start len hle
    have hold := h.length
    rw [← hfile, load_append_left (by omega)]
  · rw [except_pure, Except.ok.injEq] at hrest
    rw [← hrest]
    exact ⟨h, by omega⟩

theorem of_sealBlock {block buf : Bytes} (h : sealBlock digest block = .ok buf) :
    checksumSize ≤ block.length ∧ buf = sealed digest block := by
  by_cases hlength : checksumSize ≤ block.length
  · rw [sealBlock_eq hlength, Except.ok.injEq] at h
    exact ⟨hlength, h.symm⟩
  · rw [sealBlock, if_pos (by omega)] at h
    cases h

/-- The blocks of a transaction lie from the third page on. -/
theorem writeBlocks_differs {blocks : List (Nat × Bytes)}
    (hblocks : ∀ b ∈ blocks, 2 ≤ b.1 ∧ b.1 * pagesize + b.2.length ≤ file.length)
    (h : writeBlocks digest pagesize blocks file = .ok file') :
    DiffersIn (2 * pagesize) file.length file file' := by
  induction blocks generalizing file with
  | nil =>
    rw [writeBlocks, Except.ok.injEq] at h
    rw [← h]
    exact DiffersIn.refl _ _ _
  | cons b blocks ih =>
    obtain ⟨hthird, hfits⟩ := hblocks b List.mem_cons_self
    obtain ⟨buf, hbuf, hrest⟩ := except_bind_eq_ok.mp h
    obtain ⟨hlong, rfl⟩ := of_sealBlock hbuf
    have hlength := length_sealed digest hlong
    have hfirst : DiffersIn (2 * pagesize) file.length file
        (store file (b.1 * pagesize) (sealed digest b.2)) :=
      (DiffersIn.refl _ _ _).store_in (Nat.mul_le_mul_right _ hthird) (by omega) (by omega)
    have hothers : DiffersIn (2 * pagesize)
        (store file (b.1 * pagesize) (sealed digest b.2)).length
        (store file (b.1 * pagesize) (sealed digest b.2)) file' := by
      apply ih _ hrest
      intro b' hb'
      rw [hfirst.length]
      exact hblocks b' (List.mem_cons_of_mem b hb')
    rw [hfirst.length] at hothers
    exact hfirst.trans hothers

theorem writeBlocks_whole {blocks : List (Nat × Bytes)} (h : Whole digest pagesize file)
    (hblocks : ∀ b ∈ blocks, 2 ≤ b.1 ∧ b.1 * pagesize + b.2.length ≤ file.length)
    (hwrite : writeBlocks digest pagesize blocks file = .ok file') :
    Whole digest pagesize file' := by
  have hdiff := writeBlocks_differs hblocks hwrite
  have hbound := h.bound
  exact h.of_differs (by rw [hdiff.length]; exact hbound) hdiff.length.ge hdiff.below

/-- Publishing replaces one metadata page and leaves the other. -/
theorem writeMetaPage_whole {m : Meta} (h : Whole digest pagesize file) (hwords : MetaWords m)
    (husable : m.usable pagesize = true) (hplace : m.metaPage < 2)
    (hwrite : writeMetaPage digest pagesize m file = .ok file') : Whole digest pagesize file' := by
  obtain ⟨buf, hbuf, hfile⟩ := except_bind_eq_ok.mp hwrite
  have hsealed : buf = metaOnDisk digest pagesize m := (of_sealBlock hbuf).2
  rw [except_pure, Except.ok.injEq, hsealed] at hfile
  have hmin := h.pagesize_ge
  have hold := h.length
  have hlength : (metaOnDisk digest pagesize m).length = pagesize := length_metaOnDisk hmin
  have hroom : m.metaPage * pagesize + (metaOnDisk digest pagesize m).length ≤ file.length := by
    have hfirst : m.metaPage * pagesize ≤ 1 * pagesize := Nat.mul_le_mul_right _ (by omega)
    omega
  have hlength' := length_store hroom
  rw [hfile] at hlength'
  refine ⟨h.pagesize_ok, by rw [hlength']; exact hold, by rw [hlength']; exact h.bound, ?_⟩
  intro id hid
  by_cases hsame : id = m.metaPage
  · refine ⟨m, hsame.symm, hwords, husable, ?_⟩
    have hself : load (store file (m.metaPage * pagesize) (metaOnDisk digest pagesize m))
        (m.metaPage * pagesize) _ = _ := load_store_self (by omega)
    rwa [hfile, hlength] at hself
  · obtain ⟨m', rfl, hintact⟩ := h.metas id hid
    refine ⟨m', rfl, ?_⟩
    rw [← hfile]
    exact hintact.of_store hlength hroom hsame

end commits

/-- The files that come from creating a file and from any number of commits.  A transaction begins
with the current metadata and its blocks are those of pages from 2 on, inside the pages it
counts. -/
inductive Produced (digest : Digest) (pagesize : Nat) : Bytes → Prop
  | created {numPages maxFileBytes : Nat} {file : Bytes} (hpages : 4 ≤ numPages)
      (hfile : createFile digest pagesize numPages maxFileBytes = .ok file) :
      Produced digest pagesize file
  | committed {file file' : Bytes} {current m : Meta} {blocks : List (Nat × Bytes)}
      {increment maximum : Nat} (hbefore : Produced digest pagesize file)
      (hcurrent : currentMeta digest file pagesize = .ok current)
      (hm : m = { current with root := m.root, numPages := m.numPages,
                               freelistPage := m.freelistPage, txId := current.txId + 1 })
      (hwords : MetaWords m)
      (hblocks : ∀ b ∈ blocks, 2 ≤ b.1 ∧ b.1 * pagesize + b.2.length ≤ m.numPages * pagesize)
      (hincrement : 0 < increment) (hmaximum : maximum ≤ maxDataFileBytes)
      (hfile : writeCommit digest pagesize increment maximum m blocks file = .ok file') :
      Produced digest pagesize file'

section produced

variable {digest : Digest} {pagesize : Nat} {file : Bytes}

/-- The selected metadata is one of the two and usable. -/
theorem selectMeta_cases {m : Meta} {meta1 meta2 : Option Meta}
    (h : selectMeta pagesize meta1 meta2 = some m) :
    (meta1 = some m ∨ meta2 = some m) ∧ m.usable pagesize = true := by
  unfold selectMeta at h
  split at h
  case h_1 m1 m2 h1 h2 =>
    split_ifs at h
    · rw [← Option.some.inj h]
      exact (Option.filter_eq_some_iff.mp h1).imp_left .inl
    · rw [← Option.some.inj h]
      exact (Option.filter_eq_some_iff.mp h2).imp_left .inr
  case h_2 m1 h1 h2 =>
    rw [← Option.some.inj h]
    exact (Option.filter_eq_some_iff.mp h1).imp_left .inl
  case h_3 =>
    exact (Option.filter_eq_some_iff.mp h).imp_left .inr

theorem Whole.current (h : Whole digest pagesize file) {current : Meta}
    (hcurrent : currentMeta digest file pagesize = .ok current) :
    current.metaPage < 2 ∧ current.usable pagesize = true := by
  obtain ⟨m0, hplace0, hintact0⟩ := h.metas 0 (by decide)
  obtain ⟨m1, hplace1, hintact1⟩ := h.metas 1 (by decide)
  have hread0 := hintact0.metaAt_eq h.pagesize_ok h.word
  have hread1 := hintact1.metaAt_eq h.pagesize_ok h.word
  rw [hplace0] at hread0
  rw [hplace1] at hread1
  rw [currentMeta, hread0, except_bind_ok, hread1, except_bind_ok] at hcurrent
  cases hselect : selectMeta pagesize (some m0) (some m1) with
  | none =>
    rw [hselect] at hcurrent
    cases hcurrent
  | some m =>
    rw [hselect, orInvalid, Except.ok.injEq] at hcurrent
    rw [hcurrent] at hselect
    obtain ⟨hone, husable⟩ := selectMeta_cases hselect
    refine ⟨?_, husable⟩
    rcases hone with hone | hone
    · rw [← Option.some.inj hone, hplace0]
      decide
    · rw [← Option.some.inj hone, hplace1]
      decide

theorem publishedMeta_words {m : Meta} (h : MetaWords m) : MetaWords (publishedMeta m) := by
  apply hashed_words
  refine ⟨?_, h.magic, by show formatVersion < 2 ^ 32; decide, h.pagesize, h.rootPage, h.nextInt,
    h.numPages, h.freelistPage, h.txId, h.hash⟩
  show (if m.metaPage = 0 then 1 else 0) < 2 ^ 32
  split_ifs <;> norm_num

theorem publishedMeta_place (m : Meta) : (publishedMeta m).metaPage < 2 := by
  show (if m.metaPage = 0 then 1 else 0) < 2
  split_ifs <;> decide

theorem publishedMeta_usable {m : Meta} (hmagic : m.magic = magicValue)
    (hpagesize : m.pagesize = pagesize) : (publishedMeta m).usable pagesize = true :=
  hashed_usable hmagic rfl hpagesize

theorem usable_iff {m : Meta} : m.usable pagesize = true ↔
    m.valid = true ∧ m.magic = magicValue ∧ m.version = formatVersion ∧ m.pagesize = pagesize := by
  simp [Meta.usable, and_assoc]

/-- Every file that is produced has both of its metadata pages. -/
theorem Produced.whole (h : Produced digest pagesize file) : Whole digest pagesize file := by
  induction h with
  | created hpages hfile => exact createFile_whole hpages hfile
  | @committed file file' current m blocks increment maximum hbefore hcurrent hm hwords hblocks
      hincrement hmaximum hfile ih =>
    obtain ⟨grown, hgrown, hrest⟩ := except_bind_eq_ok.mp hfile
    obtain ⟨written, hwritten, hpublish⟩ := except_bind_eq_ok.mp hrest
    obtain ⟨hwhole, hroom⟩ := growFile_whole ih hincrement hmaximum hgrown
    have hblocks' : ∀ b ∈ blocks, 2 ≤ b.1 ∧ b.1 * pagesize + b.2.length ≤ grown.length :=
      fun b hb => ⟨(hblocks b hb).1, (hblocks b hb).2.trans hroom⟩
    obtain ⟨_, hmagic, _, hpagesize⟩ := usable_iff.mp (ih.current hcurrent).2
    have husable : (publishedMeta m).usable pagesize = true := by
      apply publishedMeta_usable
      · rw [hm]
        exact hmagic
      · rw [hm]
        exact hpagesize
    exact writeMetaPage_whole (writeBlocks_whole hwhole hblocks' hwritten)
      (publishedMeta_words hwords) husable (publishedMeta_place m) hpublish

end produced

end Tagdata.Analysis
