import Tagdata.Analysis.PageBounds
import Tagdata.Analysis.PageRoundTrip

/-!
# When opening a file returns

`validate_block` itself always returns, but it accepts a block of any of the four types.
`Page::meta` and `retired_pages` then assert one type each, so that opening a file returns exactly
when the blocks taken for metadata and for the freelist, as far as they validate, have those types.
-/

set_option autoImplicit false

namespace Tagdata.Analysis

open Tagdata.Library Tagdata.Model Tagdata.Model.RawPage

/-! ## Calls that return -/

/-- The call ends in `Ok` or in an `Err` value. -/
def Returns {α : Type} (x : Except Fault α) : Prop :=
  ∀ fault, x = .error fault → ∃ e, fault = .error e

section returns

variable {α β : Type}

theorem returns_ok (a : α) : Returns (.ok a : Except Fault α) := by
  intro fault h
  cases h

theorem returns_err (e : Error) : Returns (.error (.error e) : Except Fault α) := by
  intro fault h
  cases h
  exact ⟨e, rfl⟩

theorem not_returns_panic (text : String) : ¬ Returns (.error (.panic text) : Except Fault α) := by
  intro h
  obtain ⟨e, he⟩ := h _ rfl
  cases he

theorem returns_invalidDB (text : String) : Returns (invalidDB text : Except Fault α) :=
  returns_err _

theorem returns_orInvalid (x : Option α) (text : String) : Returns (orInvalid x text) := by
  cases x with
  | none => exact returns_err _
  | some a => exact returns_ok a

/-- A sequence returns when its first part does and every continuation that is reached does. -/
theorem returns_bind_iff {x : Except Fault α} {f : α → Except Fault β} :
    Returns (x >>= f) ↔ Returns x ∧ ∀ a, x = .ok a → Returns (f a) := by
  cases x with
  | ok a => simp [returns_ok]
  | error fault => simp [Returns]

theorem returns_bind {x : Except Fault α} {f : α → Except Fault β} (hx : Returns x)
    (hf : ∀ a, x = .ok a → Returns (f a)) : Returns (x >>= f) :=
  returns_bind_iff.mpr ⟨hx, hf⟩

theorem returns_okOrNone {x : Except Fault α} : Returns (okOrNone x) ↔ Returns x := by
  cases x with
  | ok a => simp [okOrNone, returns_ok]
  | error fault =>
    cases fault with
    | error e => simp [okOrNone, returns_ok, returns_err]
    | panic text => simp [okOrNone, Returns]
    | diverge => simp [okOrNone, Returns]

theorem exists_okOrNone {x : Except Fault α} (h : Returns x) : ∃ found, okOrNone x = .ok found := by
  cases x with
  | ok a => exact ⟨some a, rfl⟩
  | error fault =>
    obtain ⟨e, rfl⟩ := h fault rfl
    exact ⟨none, rfl⟩

theorem okOrNone_eq_some {x : Except Fault α} {a : α} : okOrNone x = .ok (some a) ↔ x = .ok a := by
  cases x with
  | ok b => simp [okOrNone]
  | error fault => cases fault <;> simp [okOrNone]

end returns

/-- Full validation never panics. -/
theorem returns_validateBlock (digest : Digest) (buf : Bytes) (id pagesize : Nat) :
    Returns (validateBlock digest buf id pagesize) := by
  intro fault hfault
  have hchecks := checks_validateBlock digest buf id pagesize
  rw [hfault] at hchecks
  obtain ⟨text, htext⟩ := hchecks
  exact ⟨_, htext⟩

/-! ## The blocks that are interpreted -/

section typed

variable {digest : Digest} {data : Bytes} {pagesize id : Nat}

/-- The block of a page has the given type, as far as it validates. -/
def Typed (digest : Digest) (data : Bytes) (pagesize id type : Nat) : Prop :=
  ∀ p, validateBlock digest data id pagesize = .ok p → p.pageType = type

/-- The two metadata blocks are of the metadata type, as far as they validate. -/
def MetaTyped (digest : Digest) (data : Bytes) (pagesize : Nat) : Prop :=
  Typed digest data pagesize 0 typeMeta ∧ Typed digest data pagesize 1 typeMeta

/-- The block that the selected metadata names as the freelist is one, as far as it validates. -/
def FreelistTyped (digest : Digest) (data : Bytes) (pagesize : Nat) : Prop :=
  ∀ m, currentMeta digest data pagesize = .ok m →
    Typed digest data pagesize m.freelistPage typeFreelist

theorem returns_metaOf {p : RawPage} : Returns p.metaOf ↔ p.pageType = typeMeta := by
  unfold metaOf
  dsimp only
  split_ifs with h
  · exact iff_of_true (returns_ok _) h
  · exact iff_of_false (not_returns_panic _) h

theorem returns_retiredPages {p : RawPage} :
    Returns p.retiredPages ↔ p.pageType = typeFreelist := by
  unfold retiredPages
  split_ifs with h
  · exact iff_of_true (returns_ok _) h
  · exact iff_of_false (not_returns_panic _) h

theorem returns_metaAt : Returns (metaAt digest data pagesize id) ↔
    Typed digest data pagesize id typeMeta := by
  unfold metaAt
  rw [returns_bind_iff, returns_okOrNone]
  constructor
  · rintro ⟨_, h⟩ p hp
    have hread := h (some p) (okOrNone_eq_some.mpr hp)
    exact returns_metaOf.mp (returns_bind_iff.mp hread).1
  · intro h
    refine ⟨returns_validateBlock _ _ _ _, ?_⟩
    intro block hblock
    cases block with
    | none => exact returns_ok _
    | some p =>
      have htype := h p (okOrNone_eq_some.mp hblock)
      exact returns_bind (returns_metaOf.mpr htype) fun _ _ => returns_ok _

/-- Reading a metadata block has no error of its own: a block that does not validate is left out. -/
theorem exists_metaAt (h : Typed digest data pagesize id typeMeta) :
    ∃ found, metaAt digest data pagesize id = .ok found := by
  unfold metaAt
  cases hblock : validateBlock digest data id pagesize with
  | ok p =>
    refine ⟨some p.metadata, ?_⟩
    simp [okOrNone, metaOf, h p hblock]
  | error fault =>
    obtain ⟨e, he⟩ := returns_validateBlock digest data id pagesize fault hblock
    exact ⟨none, by rw [he]; rfl⟩

/-- Reading both metadata blocks and going on. -/
theorem returns_bothMetas {α : Type} {f : Option Meta → Option Meta → Except Fault α}
    (hf : ∀ m1 m2, Returns (f m1 m2)) :
    Returns (do
      let m1 ← metaAt digest data pagesize 0
      let m2 ← metaAt digest data pagesize 1
      f m1 m2) ↔ MetaTyped digest data pagesize := by
  rw [returns_bind_iff, returns_metaAt]
  constructor
  · rintro ⟨hfirst, hrest⟩
    obtain ⟨m1, hm1⟩ := exists_metaAt hfirst
    exact ⟨hfirst, returns_metaAt.mp (returns_bind_iff.mp (hrest m1 hm1)).1⟩
  · rintro ⟨hfirst, hsecond⟩
    refine ⟨hfirst, ?_⟩
    intro m1 _
    exact returns_bind (returns_metaAt.mpr hsecond) fun m2 _ => hf m1 m2

theorem returns_currentMeta :
    Returns (currentMeta digest data pagesize) ↔ MetaTyped digest data pagesize :=
  returns_bothMetas fun _ _ => returns_orInvalid _ _

theorem returns_loadFreelist {freelist : Freelist} :
    Returns (loadFreelist digest data pagesize freelist) ↔
      MetaTyped digest data pagesize ∧ FreelistTyped digest data pagesize := by
  unfold loadFreelist
  rw [returns_bind_iff, returns_currentMeta]
  apply and_congr_right'
  constructor
  · intro h m hm p hp
    have hread := (returns_bind_iff.mp (h m hm)).2 p hp
    exact returns_retiredPages.mp (returns_bind_iff.mp hread).1
  · intro h m hm
    apply returns_bind (returns_validateBlock _ _ _ _)
    intro p hp
    exact returns_bind (returns_retiredPages.mpr (h m hm p hp)) fun _ _ => returns_ok _

end typed

/-! ## Finding the page size -/

section inspecting

variable {digest : Digest} {file : Bytes} {pageSize : Nat}

/-- The bytes that `inspect_candidate` reads. -/
def bootstrap (file : Bytes) (pageSize : Nat) : Option Bytes :=
  (checkedMul pageSize 2).bind fun len => if len > file.length then none else some (file.take len)

/-- The metadata blocks are of the metadata type under a page size that is tried. -/
def CandidateTyped (digest : Digest) (file : Bytes) (pageSize : Nat) : Prop :=
  ∀ bytes, bootstrap file pageSize = some bytes → MetaTyped digest bytes pageSize

theorem returns_inspectCandidate :
    Returns (inspectCandidate digest file pageSize) ↔ CandidateTyped digest file pageSize := by
  unfold inspectCandidate CandidateTyped bootstrap
  cases checkedMul pageSize 2 with
  | none => simp [orInvalid, invalidDB, returns_err]
  | some len =>
    rw [orInvalid, except_bind_ok, Option.bind_some]
    split_ifs with hlen
    · simp [returns_invalidDB]
    · simp only [candidateMeta, bind_assoc, pure_bind, Option.some.injEq, forall_eq']
      apply returns_bothMetas
      intro m1 m2
      exact returns_bind (returns_orInvalid _ _) fun _ _ => returns_ok _

/-- The page sizes that `inspect` tries: the one that page 0 declares and, when the two metadata
pages do not both authenticate under it, those that the scan finds. -/
def Tried (digest : Digest) (file : Bytes) (pageSize : Nat) : Prop :=
  metadataPageSize (file.take (dataOffset + metadataSize)) 0 0 = some pageSize ∨
    (inspectPrimary digest file = .ok none ∧
      pageSize ∈ candidates (file.take maxBootstrapScan))

/-- An error of a candidate is dropped, so that all of them are tried. -/
theorem returns_inspectAll {sizes : List Nat} : Returns (inspectAll digest file sizes) ↔
    ∀ pageSize ∈ sizes, CandidateTyped digest file pageSize := by
  induction sizes with
  | nil => simp [inspectAll, returns_ok]
  | cons pageSize sizes ih =>
    rw [inspectAll, returns_bind_iff, returns_okOrNone, returns_inspectCandidate,
      List.forall_mem_cons]
    apply and_congr_right
    intro htyped
    obtain ⟨found, hfound⟩ := exists_okOrNone (returns_inspectCandidate.mpr htyped)
    rw [← ih]
    constructor
    · intro h
      exact (returns_bind_iff.mp (h found hfound)).1
    · intro h found' _
      exact returns_bind h fun _ _ => returns_ok _

theorem returns_inspectScan : Returns (inspectScan digest file) ↔
    ∀ pageSize ∈ candidates (file.take maxBootstrapScan), CandidateTyped digest file pageSize := by
  rw [← returns_inspectAll, inspectScan, returns_bind_iff]
  apply and_iff_left
  intro valid _
  split
  · exact returns_ok _
  · exact returns_invalidDB _
  · exact returns_invalidDB _

theorem returns_inspectPrimary : Returns (inspectPrimary digest file) ↔
    ∀ pageSize, metadataPageSize (file.take (dataOffset + metadataSize)) 0 0 = some pageSize →
      CandidateTyped digest file pageSize := by
  unfold inspectPrimary
  cases metadataPageSize (file.take (dataOffset + metadataSize)) 0 0 with
  | none => simp [returns_ok]
  | some pageSize =>
    simp only [Option.some.injEq, forall_eq']
    rw [returns_bind_iff, returns_okOrNone, returns_inspectCandidate]
    apply and_iff_left
    intro found _
    split
    · exact returns_ok _
    · exact returns_ok _

theorem returns_inspect : Returns (inspect digest file) ↔
    ∀ pageSize, Tried digest file pageSize → CandidateTyped digest file pageSize := by
  unfold inspect Tried
  rw [returns_bind_iff, returns_inspectPrimary]
  constructor
  · rintro ⟨hprimary, hrest⟩ pageSize (hdeclared | ⟨hnone, hscan⟩)
    · exact hprimary pageSize hdeclared
    · exact returns_inspectScan.mp (hrest none hnone) pageSize hscan
  · intro h
    refine ⟨fun pageSize hdeclared => h pageSize (.inl hdeclared), ?_⟩
    intro declared hdeclared
    cases declared with
    | some info => exact returns_ok _
    | none =>
      apply returns_inspectScan.mpr
      intro pageSize hscan
      exact h pageSize (.inr ⟨hdeclared, hscan⟩)

end inspecting

/-! ## Opening -/

/-- Opening a file returns exactly when the blocks it takes for metadata, under every page size it
tries, and the block it takes for the freelist have those types as far as they validate. -/
theorem opening_returns_iff (digest : Digest) (file : Bytes) (pagesize : Nat) :
    (Returns (inspect digest file) ↔
      ∀ pageSize, Tried digest file pageSize → CandidateTyped digest file pageSize) ∧
    (Returns (currentMeta digest file pagesize) ↔ MetaTyped digest file pagesize) ∧
    (Returns (openFreelist digest file pagesize) ↔
      MetaTyped digest file pagesize ∧ FreelistTyped digest file pagesize) ∧
    (Returns (reloadFreelist digest file pagesize) ↔
      MetaTyped digest file pagesize ∧ FreelistTyped digest file pagesize) :=
  ⟨returns_inspect, returns_currentMeta, returns_loadFreelist, returns_loadFreelist⟩

/-! ## Files that panic -/

section panics

variable {before after : Bytes} {id : Nat}

/-- The block of an empty leaf, with its checksum. -/
def emptyLeaf (digest : Digest) (id : Nat) : Bytes := nodeOnDisk digest 1024 id 0 (.leaves [])

theorem length_emptyLeaf (digest : Digest) (id : Nat) : (emptyLeaf digest id).length = 1024 :=
  length_nodeOnDisk (by decide)

/-- The block validates and is not a metadata page. -/
theorem emptyLeaf_validates (digest : Digest) (hplace : before.length = id * 1024)
    (hword : (before ++ emptyLeaf digest id ++ after).length < 2 ^ 64) :
    ∃ p, validateBlock digest (before ++ emptyLeaf digest id ++ after) id 1024 = .ok p ∧
      p.pageType = typeLeaf := by
  have hplaced : Placed 1024 id 0 before (emptyLeaf digest id) after :=
    ⟨rfl, hplace, length_emptyLeaf digest id, hword⟩
  obtain ⟨p, hp, htype, _⟩ := nodeOnDisk_validates (by intro name m hmem; cases hmem) (by decide)
    hplaced
  exact ⟨p, hp, htype⟩

/-- The head of a metadata page that declares pages of 1024 bytes. -/
def metaHeader : Bytes :=
  leBytes 8 0 ++ leBytes 8 typeMeta ++ leBytes 16 0 ++ leBytes 4 0 ++ leBytes 4 magicValue ++
    leBytes 8 formatVersion ++ leBytes 8 1024 ++ leBytes 48 0

theorem length_metaHeader : metaHeader.length = dataOffset + metadataSize := by
  simp [metaHeader, dataOffset, metadataSize]

theorem metadataPageSize_metaHeader : metadataPageSize metaHeader 0 0 = some 1024 := by
  decide +kernel

/-- A leaf with a right checksum in the place of page 0. -/
theorem currentMeta_panics (digest : Digest) : ∃ text,
    currentMeta digest (emptyLeaf digest 0) 1024 = .error (.panic text) := by
  have hword : ([] ++ emptyLeaf digest 0 ++ []).length < 2 ^ 64 := by
    rw [List.nil_append, List.append_nil, length_emptyLeaf]
    decide
  obtain ⟨p, hp, htype⟩ := emptyLeaf_validates digest rfl hword
  rw [List.nil_append, List.append_nil] at hp
  have hmeta : metaAt digest (emptyLeaf digest 0) 1024 0 = p.metaOf >>= fun m => .ok (some m) := by
    rw [metaAt, okOrNone_eq_some.mpr hp]
    rfl
  rw [currentMeta, hmeta, metaOf, if_neg (by rw [htype]; decide)]
  exact ⟨_, rfl⟩

/-- A leaf with a right checksum in the place of page 1. -/
theorem inspect_panics (digest : Digest) :
    ¬ Returns (inspect digest (metaHeader ++ List.replicate 920 0 ++ emptyLeaf digest 1)) := by
  have hfront : (metaHeader ++ List.replicate 920 0).length = 1 * 1024 := by
    rw [List.length_append, length_metaHeader, List.length_replicate]
    rfl
  have hlength : (metaHeader ++ List.replicate 920 0 ++ emptyLeaf digest 1).length = 2048 := by
    rw [List.length_append, hfront, length_emptyLeaf]
  have hword : (metaHeader ++ List.replicate 920 0 ++ emptyLeaf digest 1 ++ []).length <
      2 ^ 64 := by
    rw [List.append_nil, hlength]
    decide
  obtain ⟨p, hp, htype⟩ := emptyLeaf_validates digest hfront hword
  rw [List.append_nil] at hp
  have htried : Tried digest (metaHeader ++ List.replicate 920 0 ++ emptyLeaf digest 1) 1024 := by
    left
    rw [List.append_assoc, List.take_left' length_metaHeader]
    exact metadataPageSize_metaHeader
  have hbootstrap : bootstrap (metaHeader ++ List.replicate 920 0 ++ emptyLeaf digest 1) 1024 =
      some (metaHeader ++ List.replicate 920 0 ++ emptyLeaf digest 1) := by
    rw [bootstrap, checkedMul_of_lt (by decide), Option.bind_some, hlength, if_neg (by decide),
      List.take_of_length_le (by rw [hlength])]
  rw [returns_inspect]
  intro hreturns
  have hmeta := (hreturns 1024 htried _ hbootstrap).2 p hp
  rw [htype] at hmeta
  exact absurd hmeta (by decide)

/-- Whatever the checksum: an empty leaf with a right checksum in the place of page 0 panics the
selection of the metadata, and in the place of page 1 it panics the search for the page size. -/
theorem leaf_for_metadata_panics :
    (∀ digest : Digest, ∃ file text, currentMeta digest file 1024 = .error (.panic text) ∧
      openFreelist digest file 1024 = .error (.panic text) ∧
      reloadFreelist digest file 1024 = .error (.panic text)) ∧
    ∀ digest : Digest, ∃ file, ¬ Returns (inspect digest file) := by
  refine ⟨fun digest => ?_, fun digest => ⟨_, inspect_panics digest⟩⟩
  obtain ⟨text, htext⟩ := currentMeta_panics digest
  have hload : ∀ freelist,
      loadFreelist digest (emptyLeaf digest 0) 1024 freelist = .error (.panic text) := by
    intro freelist
    rw [loadFreelist, htext]
    rfl
  exact ⟨emptyLeaf digest 0, text, htext, hload _, hload _⟩

end panics

end Tagdata.Analysis
