import Tagdata.Analysis.FormatCandidates

/-!
# Finding the page size

`FormatInfo::inspect` reads the page size off a file that `DBInner::meta` is then to open.  On a
file with at least one of its metadata pages the two choose the same metadata, as long as the page
size is one that `metadata_page_size` lets through and the scan reaches a surviving page.
-/

set_option autoImplicit false

namespace Tagdata.Analysis

open Tagdata.Library Tagdata.Model Tagdata.Model.RawPage

/-! ## Damaged files -/

/-- The bytes of a metadata page fail validation under every page size that finds the page in
them. -/
def Broken (digest : Digest) (pagesize : Nat) (file : Bytes) (id : Nat) : Prop :=
  ∀ size, size * id / pagesize = id → ∀ p, validateBlock digest file id size ≠ .ok p

section broken

variable {digest : Digest} {pagesize : Nat} {file : Bytes} {id size : Nat}

theorem metaAt_none (h : ∀ p, validateBlock digest file id size ≠ .ok p) :
    metaAt digest file size id = .ok none := by
  cases hblock : validateBlock digest file id size with
  | ok p => exact absurd hblock (h p)
  | error fault =>
    obtain ⟨e, rfl⟩ := returns_validateBlock digest file id size fault hblock
    rw [metaAt, hblock]
    rfl

/-- A page that does not validate in the file does not validate in less of it. -/
theorem Broken.take (h : Broken digest pagesize file id) (n : Nat) :
    Broken digest pagesize (file.take n) id := by
  intro size hplace p hp
  have hlonger : validateBlock digest (file.take n ++ file.drop n) id size =
      .ok (extended p (file.drop n)) := validateBlock_append hp
  rw [List.take_append_drop] at hlonger
  exact h size hplace _ hlonger

end broken

/-- A file that has lost at most one of its metadata pages. -/
structure Bootable (digest : Digest) (pagesize : Nat) (file : Bytes) : Prop where
  pagesize_ok : checkPageSize pagesize = .ok ()
  length : 4 * pagesize ≤ file.length
  word : file.length < 2 ^ 64
  metas : ∀ id < 2, (∃ m, m.metaPage = id ∧ Intact digest pagesize file m) ∨
    Broken digest pagesize file id
  survives : ∃ m, m.metaPage < 2 ∧ Intact digest pagesize file m

/-- The bytes at an offset look like metadata page 1 of a file with pages of that size. -/
structure Resembles (scanned : Bytes) (offset : Nat) : Prop where
  minimum : 1024 ≤ offset
  room : offset + metaExtent ≤ scanned.length
  id : (RawPage.mk (scanned.drop offset)).id = 1
  type : (RawPage.mk (scanned.drop offset)).pageType = typeMeta
  magic : (RawPage.mk (scanned.drop offset)).metadata.magic = magicValue
  place : (RawPage.mk (scanned.drop offset)).metadata.pagesize = offset

theorem resembles_of_scanned {scanned : Bytes} {offset : Nat}
    (h : metadataPageSize scanned offset 1 = some offset) : Resembles scanned offset := by
  obtain ⟨hroom, hid, htype, hmagic, hplace, hmin, _⟩ := metadataPageSize_eq_some.mp h
  exact ⟨hmin, hroom, hid, htype, hmagic, hplace⟩

/-- No other bytes of the scanned prefix look like a metadata page. -/
def Clear (pagesize : Nat) (file : Bytes) : Prop :=
  ∀ offset, Resembles (file.take maxBootstrapScan) offset → offset = pagesize

namespace Bootable

variable {digest : Digest} {pagesize : Nat} {file : Bytes}

theorem pagesize_ge (h : Bootable digest pagesize file) : 1024 ≤ pagesize :=
  (of_checkPageSize h.pagesize_ok).1

theorem intact_take {m : Meta} (hplace : m.metaPage < 2) (hm : Intact digest pagesize file m) :
    Intact digest pagesize (file.take (pagesize * 2)) m := by
  apply hm.of_load_eq
  apply load_take
  have hfirst : m.metaPage * pagesize ≤ 1 * pagesize := Nat.mul_le_mul_right _ (by omega)
  omega

/-- The engine and the inspection read the same off a metadata page. -/
theorem exists_reading (h : Bootable digest pagesize file) {id : Nat} (hid : id < 2) :
    ∃ found, metaAt digest file pagesize id = .ok found ∧
      metaAt digest (file.take (pagesize * 2)) pagesize id = .ok found ∧
      ∀ m, m.metaPage = id → Intact digest pagesize file m → found = some m := by
  have hword : (file.take (pagesize * 2)).length < 2 ^ 64 := by
    have hlength := h.word
    rw [List.length_take]
    omega
  rcases h.metas id hid with ⟨m, rfl, hm⟩ | hbroken
  · have hread := hm.metaAt_eq h.pagesize_ok h.word
    refine ⟨some m, hread, (intact_take hid hm).metaAt_eq h.pagesize_ok hword, ?_⟩
    intro m' hplace hm'
    have hread' := hm'.metaAt_eq h.pagesize_ok h.word
    rw [hplace, hread, Except.ok.injEq] at hread'
    exact hread'
  · have hplace : pagesize * id / pagesize = id :=
      Nat.mul_div_cancel_left id (by have := h.pagesize_ge; omega)
    have hnone := metaAt_none (hbroken pagesize hplace)
    refine ⟨none, hnone, metaAt_none (hbroken.take _ pagesize hplace), ?_⟩
    rintro m rfl hm
    have hread := hm.metaAt_eq h.pagesize_ok h.word
    rw [hnone, Except.ok.injEq] at hread
    cases hread

/-- Under the page size of the file the inspection of a candidate gives what `DBInner::meta`
selects. -/
theorem agrees (h : Bootable digest pagesize file) : ∃ m n,
    currentMeta digest file pagesize = .ok m ∧
      inspectCandidate digest file pagesize = .ok (infoOf file pagesize m, n) ∧
      ((∀ id < 2, ∃ m, m.metaPage = id ∧ Intact digest pagesize file m) → n = 2) := by
  have hlength := h.length
  obtain ⟨found0, hfile0, htake0, hintact0⟩ := h.exists_reading (show 0 < 2 by decide)
  obtain ⟨found1, hfile1, htake1, hintact1⟩ := h.exists_reading (show 1 < 2 by decide)
  have hcandidate := inspectCandidate_eq (by omega) h.word htake0 htake1
  obtain ⟨m, hselect⟩ : ∃ m, selectMeta pagesize found0 found1 = some m := by
    obtain ⟨m, hplace, hm⟩ := h.survives
    apply exists_selectMeta hm.usable
    interval_cases hid : m.metaPage
    · exact .inl (hintact0 m hid hm)
    · exact .inr (hintact1 m hid hm)
  refine ⟨m, usableCount pagesize found0 found1, ?_, ?_, ?_⟩
  · rw [currentMeta, hfile0, except_bind_ok, hfile1, except_bind_ok, hselect]
    rfl
  · rw [hcandidate, hselect]
    rfl
  · intro hboth
    obtain ⟨m0, hplace0, hm0⟩ := hboth 0 (by decide)
    obtain ⟨m1, hplace1, hm1⟩ := hboth 1 (by decide)
    rw [hintact0 m0 hplace0 hm0, hintact1 m1 hplace1 hm1]
    simp [usableCount, hm0.usable, hm1.usable]

end Bootable

/-! ## Detection -/

/-- The page size can be declared, a surviving metadata page is looked at, and a damaged page 0
does not declare another page size under which a block stands in the place of page 1. -/
structure Detectable (digest : Digest) (pagesize : Nat) (file : Bytes) : Prop where
  declarable : pagesize ≤ maxBootstrapScan
  reached : metadataPageSize file 0 0 = some pagesize ∨
    pagesize + (headerSize + metadataSize) < maxBootstrapScan
  alone : ∀ size, metadataPageSize file 0 0 = some size → size ≠ pagesize →
    ∀ p, validateBlock digest (file.take (size * 2)) 1 size = .ok p →
      p.pageType = typeMeta ∧ p.metadata.usable size = false

/-- Detection gives the page size of the file and the metadata that the engine selects; when both
metadata pages are valid the fast path and the scan agree. -/
structure Detects (digest : Digest) (pagesize : Nat) (file : Bytes) : Prop where
  agrees : ∃ m, currentMeta digest file pagesize = .ok m ∧
    inspect digest file = .ok ⟨pagesize, m.version, m.txId, m.metaPage, file.length⟩
  paths : (∀ id < 2, ∃ m, metaAt digest file pagesize id = .ok (some m) ∧
      m.usable pagesize = true) →
    ∃ info, inspectPrimary digest file = .ok (some info) ∧ inspectScan digest file = .ok info

section detection

variable {digest : Digest} {pagesize : Nat} {file : Bytes}

theorem zero_le_scan : 0 + metaExtent ≤ maxBootstrapScan := by decide

/-- Only a broken page 0 declares another page size. -/
theorem Bootable.broken_of_declares (h : Bootable digest pagesize file) {size : Nat}
    (hdeclared : metadataPageSize file 0 0 = some size) (hne : size ≠ pagesize) :
    Broken digest pagesize file 0 := by
  rcases h.metas 0 (by decide) with ⟨m, hplace, hm⟩ | hbroken
  · have hown := (@Intact.declares _ _ _ _ hm h.pagesize_ge size).mp
    rw [hplace, zero_mul] at hown
    exact absurd (hown hdeclared).1 hne
  · exact hbroken

/-- A candidate that page 0 declares wrongly has only page 1. -/
theorem Bootable.inspectCandidate_of_declares (h : Bootable digest pagesize file) {size : Nat}
    (hdeclared : metadataPageSize file 0 0 = some size) (hne : size ≠ pagesize)
    (hsize : size * 2 ≤ file.length) {found : Option Meta}
    (hfound : metaAt digest (file.take (size * 2)) size 1 = .ok found) :
    inspectCandidate digest file size =
      (orInvalid (selectMeta size none found) "no valid metadata pages" >>= fun m =>
        .ok (infoOf file size m, usableCount size none found)) := by
  have hbroken := (h.broken_of_declares hdeclared hne).take (size * 2)
  have hnone := metaAt_none (hbroken size (by rw [mul_zero, Nat.zero_div]))
  exact inspectCandidate_eq hsize h.word hnone hfound

/-- A wrongly declared page size comes to nothing. -/
theorem Bootable.other_fails (h : Bootable digest pagesize file)
    (hd : Detectable digest pagesize file) {size : Nat}
    (hdeclared : metadataPageSize file 0 0 = some size) (hne : size ≠ pagesize) :
    okOrNone (inspectCandidate digest file size) = .ok none := by
  obtain ⟨_, _, _, _, _, _, hle⟩ := metadataPageSize_eq_some.mp hdeclared
  simp only [maxBootstrapScan] at hle
  by_cases hsize : size * 2 ≤ file.length
  · have hnone : ∃ found, metaAt digest (file.take (size * 2)) size 1 = .ok found ∧
        selectMeta size none found = none := by
      cases hblock : validateBlock digest (file.take (size * 2)) 1 size with
      | error fault =>
        exact ⟨none, metaAt_none (by simp [hblock]), rfl⟩
      | ok p =>
        obtain ⟨htype, hunusable⟩ := hd.alone size hdeclared hne p hblock
        refine ⟨some p.metadata, ?_, ?_⟩
        · rw [metaAt, hblock]
          simp only [okOrNone, except_bind_ok, metaOf, if_pos htype, except_pure]
        · simp [selectMeta, Option.filter, hunusable]
    obtain ⟨found, hfound, hselect⟩ := hnone
    rw [h.inspectCandidate_of_declares hdeclared hne hsize hfound, hselect]
    rfl
  · rw [inspectCandidate, checkedMul_of_lt (by omega), orInvalid, except_bind_ok,
      if_pos (by omega)]
    rfl

theorem inspectAll_eq {f : Nat → Option FormatInfo} {sizes : List Nat}
    (h : ∀ size ∈ sizes, ∃ found, okOrNone (inspectCandidate digest file size) = .ok found ∧
      found.map Prod.fst = f size) :
    inspectAll digest file sizes = .ok (sizes.filterMap f) := by
  induction sizes with
  | nil => rfl
  | cons size sizes ih =>
    obtain ⟨found, hfound, hf⟩ := h size List.mem_cons_self
    rw [inspectAll, hfound, ih fun size' hsize' => h size' (List.mem_cons_of_mem size hsize'),
      List.filterMap_cons]
    simp only [except_bind_ok, hf, except_pure]
    cases f size <;> rfl

/-- Of sizes without repetition, one alone inspects well. -/
theorem filterMap_one {info : FormatInfo} {sizes : List Nat} (hnodup : sizes.Nodup)
    (hmem : pagesize ∈ sizes) :
    (sizes.filterMap fun size => if size = pagesize then some info else none) = [info] := by
  induction sizes with
  | nil => cases hmem
  | cons size sizes ih =>
    rw [List.nodup_cons] at hnodup
    rw [List.filterMap_cons]
    by_cases hsame : size = pagesize
    · have hrest : (sizes.filterMap fun size => if size = pagesize then some info else none) =
          [] := by
        rw [List.filterMap_eq_nil_iff]
        intro other hother
        apply if_neg
        rintro rfl
        exact hnodup.1 (hsame ▸ hother)
      rw [if_pos hsame, hrest]
    · rw [if_neg hsame]
      exact ih hnodup.2 (List.mem_of_ne_of_mem (Ne.symm hsame) hmem)

/-- The scan tries the page size of the file. -/
theorem Bootable.tried (h : Bootable digest pagesize file)
    (hd : Detectable digest pagesize file) :
    pagesize ∈ candidates (file.take maxBootstrapScan) := by
  have hmin := h.pagesize_ge
  have hlength := h.length
  obtain ⟨m, hplace, hm⟩ := h.survives
  have hdeclares := (@Intact.declares _ _ _ _ hm hmin pagesize).mpr ⟨rfl, hd.declarable⟩
  rw [mem_candidates, metadataPageSize_take zero_le_scan]
  interval_cases m.metaPage
  · rw [zero_mul] at hdeclares
    exact .inl hdeclares
  · rw [one_mul] at hdeclares
    rcases hd.reached with hdeclared | hbound
    · exact .inl hdeclared
    · refine .inr ⟨hmin, ?_, ?_⟩
      · rw [List.length_take]
        simp only [headerSize, metadataSize] at hbound ⊢
        omega
      · rw [metadataPageSize_take, hdeclares]
        simp only [headerSize, metadataSize, metaExtent, dataOffset] at hbound ⊢
        omega

theorem Bootable.scan (h : Bootable digest pagesize file) (hclear : Clear pagesize file)
    (hd : Detectable digest pagesize file) {m : Meta} {n : Nat}
    (hown : inspectCandidate digest file pagesize = .ok (infoOf file pagesize m, n)) :
    inspectScan digest file = .ok (infoOf file pagesize m) := by
  have hall : inspectAll digest file (candidates (file.take maxBootstrapScan)) =
      .ok [infoOf file pagesize m] := by
    rw [← filterMap_one (candidates_nodup _) (h.tried hd)]
    apply inspectAll_eq
    intro size hsize
    by_cases hsame : size = pagesize
    · rw [hsame, hown, if_pos rfl]
      exact ⟨_, rfl, rfl⟩
    · rw [if_neg hsame]
      refine ⟨none, h.other_fails hd ?_ hsame, rfl⟩
      rcases mem_candidates.mp hsize with hdeclared | ⟨_, _, hscanned⟩
      · rwa [metadataPageSize_take zero_le_scan] at hdeclared
      · exact absurd (hclear size (resembles_of_scanned hscanned)) hsame
  rw [inspectScan, hall]
  rfl

theorem inspectPrimary_of_none (h : metadataPageSize file 0 0 = none) :
    inspectPrimary digest file = .ok none := by
  rw [inspectPrimary, metadataPageSize_take (by rw [zero_add, metaExtent]), h]

/-- The fast path takes a candidate with two valid pages. -/
def bothValid (found : Option (FormatInfo × Nat)) : Option FormatInfo :=
  found.bind fun result => if result.2 = 2 then some result.1 else none

theorem inspectPrimary_of_some {size : Nat} (h : metadataPageSize file 0 0 = some size) :
    inspectPrimary digest file =
      (okOrNone (inspectCandidate digest file size) >>= fun found => .ok (bothValid found)) := by
  rw [inspectPrimary, metadataPageSize_take (by rw [zero_add, metaExtent]), h]
  dsimp only
  congr 1
  funext found
  cases found with
  | none => rfl
  | some result =>
    obtain ⟨info, n⟩ := result
    rcases n with _ | _ | _ | n <;> rfl

theorem inspect_of_none (h : inspectPrimary digest file = .ok none) :
    inspect digest file = inspectScan digest file := by
  simp only [inspect, h, except_bind_ok]

theorem inspect_of_some {info : FormatInfo} (h : inspectPrimary digest file = .ok (some info)) :
    inspect digest file = .ok info := by
  simp only [inspect, h, except_bind_ok, except_pure]

theorem Bootable.primary (h : Bootable digest pagesize file)
    (hd : Detectable digest pagesize file) {m : Meta} {n : Nat}
    (hown : inspectCandidate digest file pagesize = .ok (infoOf file pagesize m, n)) :
    inspectPrimary digest file = .ok none ∨
      inspectPrimary digest file = .ok (some (infoOf file pagesize m)) := by
  cases hdeclared : metadataPageSize file 0 0 with
  | none => exact .inl (inspectPrimary_of_none hdeclared)
  | some size =>
    rw [inspectPrimary_of_some hdeclared]
    by_cases hsame : size = pagesize
    · rw [hsame, hown, okOrNone, except_bind_ok]
      by_cases hboth : n = 2
      · rw [hboth]
        exact .inr rfl
      · left
        rw [bothValid, Option.bind_some, if_neg hboth]
    · rw [h.other_fails hd hdeclared hsame]
      exact .inl rfl

theorem Bootable.detects (h : Bootable digest pagesize file) (hclear : Clear pagesize file)
    (hd : Detectable digest pagesize file) : Detects digest pagesize file := by
  obtain ⟨m, n, hcurrent, hown, hcount⟩ := h.agrees
  have hscan := h.scan hclear hd hown
  constructor
  · refine ⟨m, hcurrent, ?_⟩
    rcases h.primary hd hown with hprimary | hprimary
    · rw [inspect_of_none hprimary, hscan, infoOf]
    · rw [inspect_of_some hprimary, infoOf]
  · intro hvalid
    have hboth : ∀ id < 2, ∃ m, m.metaPage = id ∧ Intact digest pagesize file m := by
      intro id hid
      apply (h.metas id hid).resolve_right
      intro hbroken
      obtain ⟨m', hread, _⟩ := hvalid id hid
      have hmin := h.pagesize_ge
      rw [metaAt_none (hbroken pagesize (Nat.mul_div_cancel_left id (by omega)))] at hread
      cases hread
    refine ⟨infoOf file pagesize m, ?_, hscan⟩
    obtain ⟨m0, hplace, hm0⟩ := hboth 0 (by decide)
    have hdeclares :=
      (@Intact.declares _ _ _ _ hm0 h.pagesize_ge pagesize).mpr ⟨rfl, hd.declarable⟩
    rw [hplace, zero_mul] at hdeclares
    rw [inspectPrimary_of_some hdeclares, hown, hcount hboth]
    rfl

/-! ## What a detected page size shows -/

theorem inspectCandidate_pageSize {size n : Nat} {info : FormatInfo}
    (h : inspectCandidate digest file size = .ok (info, n)) : info.pageSize = size := by
  obtain ⟨len, _, hrest⟩ := except_bind_eq_ok.mp h
  split_ifs at hrest
  · cases hrest
  obtain ⟨first, _, hrest⟩ := except_bind_eq_ok.mp hrest
  obtain ⟨second, _, hrest⟩ := except_bind_eq_ok.mp hrest
  obtain ⟨m, _, hrest⟩ := except_bind_eq_ok.mp hrest
  rw [except_pure, Except.ok.injEq, Prod.mk.injEq] at hrest
  rw [← hrest.1]

theorem mem_inspectAll {sizes : List Nat} {valid : List FormatInfo}
    (h : inspectAll digest file sizes = .ok valid) {info : FormatInfo} :
    info ∈ valid ↔ ∃ size ∈ sizes, ∃ n, inspectCandidate digest file size = .ok (info, n) := by
  induction sizes generalizing valid with
  | nil =>
    rw [inspectAll, Except.ok.injEq] at h
    simp [← h]
  | cons size sizes ih =>
    obtain ⟨found, hfound, hrest⟩ := except_bind_eq_ok.mp h
    obtain ⟨others, hothers, hrest⟩ := except_bind_eq_ok.mp hrest
    rw [except_pure, Except.ok.injEq] at hrest
    rw [← hrest, List.mem_append, ih hothers, List.exists_mem_cons_iff]
    apply or_congr_left
    rw [Option.mem_toList, Option.map_eq_some_iff]
    constructor
    · rintro ⟨⟨info', n⟩, hsome, rfl⟩
      rw [hsome] at hfound
      exact ⟨n, okOrNone_eq_some.mp hfound⟩
    · rintro ⟨n, hok⟩
      rw [okOrNone_eq_some.mpr hok, Except.ok.injEq] at hfound
      exact ⟨(info, n), hfound.symm, rfl⟩

theorem inspectScan_eq_ok {info : FormatInfo} (h : inspectScan digest file = .ok info) :
    inspectAll digest file (candidates (file.take maxBootstrapScan)) = .ok [info] := by
  obtain ⟨valid, hvalid, hrest⟩ := except_bind_eq_ok.mp h
  rw [hvalid]
  split at hrest
  · rw [except_pure, Except.ok.injEq] at hrest
    rw [hrest]
  · cases hrest
  · cases hrest

theorem inspectPrimary_eq_some {info : FormatInfo}
    (h : inspectPrimary digest file = .ok (some info)) :
    metadataPageSize file 0 0 = some info.pageSize := by
  cases hdeclared : metadataPageSize file 0 0 with
  | none =>
    rw [inspectPrimary_of_none hdeclared] at h
    cases h
  | some size =>
    rw [inspectPrimary_of_some hdeclared] at h
    obtain ⟨found, hfound, hrest⟩ := except_bind_eq_ok.mp h
    rw [Except.ok.injEq] at hrest
    obtain ⟨⟨info', n⟩, hsome, hboth⟩ := Option.bind_eq_some_iff.mp hrest
    rw [hsome] at hfound
    split_ifs at hboth
    rw [← Option.some.inj hboth, inspectCandidate_pageSize (okOrNone_eq_some.mp hfound)]

theorem inspect_size {info : FormatInfo} (h : inspect digest file = .ok info) :
    metadataPageSize file 0 0 = some info.pageSize ∨
      info.pageSize ∈ candidates (file.take maxBootstrapScan) := by
  obtain ⟨declared, hprimary, hrest⟩ := except_bind_eq_ok.mp h
  cases declared with
  | some info' =>
    rw [inspect_of_some hprimary, Except.ok.injEq] at h
    rw [h] at hprimary
    exact .inl (inspectPrimary_eq_some hprimary)
  | none =>
    rw [inspect_of_none hprimary] at h
    have hall := inspectScan_eq_ok h
    obtain ⟨size, hsize, n, hcandidate⟩ := (mem_inspectAll hall).mp List.mem_cons_self
    rw [inspectCandidate_pageSize hcandidate]
    exact .inr hsize

/-- A block in the place of page 1 under a wrongly declared page size: a block of another type is a
panic, and usable metadata makes the page size ambiguous. -/
theorem Bootable.alone_of_inspect (h : Bootable digest pagesize file) {info : FormatInfo}
    (hinspect : inspect digest file = .ok info) (hinfo : info.pageSize = pagesize) {size : Nat}
    (hdeclared : metadataPageSize file 0 0 = some size) (hne : size ≠ pagesize) {p : RawPage}
    (hblock : validateBlock digest (file.take (size * 2)) 1 size = .ok p) :
    p.pageType = typeMeta ∧ p.metadata.usable size = false := by
  have hword := h.word
  have hsize : size * 2 ≤ file.length := by
    have hinside := ((checks_validateBlock _ _ _ _).of_ok hblock).block
    rw [List.length_take, blockLen, Nat.add_mul] at hinside
    omega
  have hbytes : bootstrap file size = some (file.take (size * 2)) := by
    rw [bootstrap, checkedMul_of_lt (by omega), Option.bind_some, if_neg (by omega)]
  have htype : p.pageType = typeMeta := by
    have hreturns : Returns (inspect digest file) := by
      rw [hinspect]
      exact returns_ok _
    have htried : Tried digest file size := by
      apply Or.inl
      rw [metadataPageSize_take (by rw [zero_add, metaExtent])]
      exact hdeclared
    exact (returns_inspect.mp hreturns size htried _ hbytes).2 p hblock
  refine ⟨htype, ?_⟩
  rw [Bool.eq_false_iff]
  intro husable
  have hfound : metaAt digest (file.take (size * 2)) size 1 = .ok (some p.metadata) := by
    rw [metaAt, hblock]
    simp only [okOrNone, except_bind_ok, metaOf, if_pos htype, except_pure]
  have hcandidate : inspectCandidate digest file size = .ok (infoOf file size p.metadata, 1) := by
    rw [h.inspectCandidate_of_declares hdeclared hne hsize hfound]
    simp [selectMeta, Option.filter, usableCount, husable, orInvalid]
  have hprimary : inspectPrimary digest file = .ok none := by
    rw [inspectPrimary_of_some hdeclared, hcandidate]
    rfl
  rw [inspect_of_none hprimary] at hinspect
  have hmem : infoOf file size p.metadata ∈ [info] := by
    apply (mem_inspectAll (inspectScan_eq_ok hinspect)).mpr
    refine ⟨size, ?_, 1, hcandidate⟩
    rw [mem_candidates, metadataPageSize_take zero_le_scan]
    exact .inl hdeclared
  rw [List.mem_singleton] at hmem
  rw [← hmem] at hinfo
  exact hne hinfo

theorem Bootable.detectable (h : Bootable digest pagesize file)
    (hdetects : Detects digest pagesize file) : Detectable digest pagesize file := by
  obtain ⟨m, _, hinspect⟩ := hdetects.agrees
  have hsize := inspect_size hinspect
  rw [mem_candidates, metadataPageSize_take zero_le_scan] at hsize
  refine ⟨?_, ?_, ?_⟩
  · rcases hsize with hdeclared | hdeclared | ⟨_, _, hscanned⟩
    · exact (metadataPageSize_eq_some.mp hdeclared).2.2.2.2.2.2
    · exact (metadataPageSize_eq_some.mp hdeclared).2.2.2.2.2.2
    · exact (metadataPageSize_eq_some.mp hscanned).2.2.2.2.2.2
  · rcases hsize with hdeclared | hdeclared | ⟨_, hbound, _⟩
    · exact .inl hdeclared
    · exact .inl hdeclared
    · rw [List.length_take] at hbound
      dsimp only at hbound
      exact .inr (by omega)
  · intro size hdeclared hne p hblock
    exact h.alone_of_inspect hinspect rfl hdeclared hne hblock

/-- A page size that cannot be declared is not found, though both metadata pages are there. -/
theorem Whole.undetected (h : Whole digest pagesize file) (hclear : Clear pagesize file)
    (hlarge : maxBootstrapScan < pagesize) :
    inspect digest file =
      .error (.error (.invalidDB "could not identify a valid metadata page size")) := by
  obtain ⟨m, hplace, hm⟩ := h.metas 0 (by decide)
  have hundeclared : ∀ size, metadataPageSize file 0 0 ≠ some size := by
    intro size hdeclared
    have hown := (@Intact.declares _ _ _ _ hm h.pagesize_ge size).mp
    rw [hplace, zero_mul] at hown
    have hle := (hown hdeclared).2
    omega
  have hnone : metadataPageSize file 0 0 = none := Option.eq_none_iff_forall_ne_some.mpr hundeclared
  have hcandidates : candidates (file.take maxBootstrapScan) = [] := by
    rw [List.eq_nil_iff_forall_not_mem]
    intro size hsize
    rw [mem_candidates, metadataPageSize_take zero_le_scan] at hsize
    rcases hsize with hdeclared | ⟨_, _, hscanned⟩
    · exact hundeclared size hdeclared
    · have hsame := hclear size (resembles_of_scanned hscanned)
      have hle := (metadataPageSize_eq_some.mp hscanned).2.2.2.2.2.2
      omega
  rw [inspect_of_none (inspectPrimary_of_none hnone), inspectScan, hcandidates]
  rfl

end detection

/-! ## Files that were created and committed to -/

/-- At most one of the metadata pages of a file is overwritten by bytes that fail validation. -/
inductive Damaged (digest : Digest) (pagesize : Nat) (file : Bytes) : Bytes → Prop
  | untouched : Damaged digest pagesize file file
  | overwritten {id : Nat} {junk : Bytes} (hid : id < 2) (hlength : junk.length = pagesize)
      (hbroken : Broken digest pagesize (store file (id * pagesize) junk) id) :
      Damaged digest pagesize file (store file (id * pagesize) junk)

section files

variable {digest : Digest} {pagesize : Nat} {file file' : Bytes}

theorem Whole.readable (h : Whole digest pagesize file) : Bootable digest pagesize file := by
  obtain ⟨m, hplace, hm⟩ := h.metas 0 (by decide)
  exact ⟨h.pagesize_ok, h.length, h.word, fun id hid => .inl (h.metas id hid),
    m, by rw [hplace]; decide, hm⟩

/-- The other metadata page survives. -/
theorem Damaged.readable (h : Damaged digest pagesize file file')
    (hwhole : Whole digest pagesize file) : Bootable digest pagesize file' := by
  cases h with
  | untouched => exact hwhole.readable
  | @overwritten id junk hid hlength hbroken =>
    have hold := hwhole.length
    have hroom : id * pagesize + junk.length ≤ file.length := by
      have hfirst : id * pagesize ≤ 1 * pagesize := Nat.mul_le_mul_right _ (by omega)
      omega
    have hsurvives : ∀ other < 2, other ≠ id →
        ∃ m, m.metaPage = other ∧ Intact digest pagesize (store file (id * pagesize) junk) m := by
      intro other hother hne
      obtain ⟨m, rfl, hm⟩ := hwhole.metas other hother
      exact ⟨m, rfl, hm.of_store hlength hroom hne⟩
    have hsame := length_store hroom
    refine ⟨hwhole.pagesize_ok, by rw [hsame]; exact hold, by rw [hsame]; exact hwhole.word,
      ?_, ?_⟩
    · intro other hother
      by_cases hsame : other = id
      · exact .inr (hsame ▸ hbroken)
      · exact .inl (hsurvives other hother hsame)
    · obtain ⟨m, hplace, hm⟩ := hsurvives (1 - id) (by omega) (by omega)
      exact ⟨m, by omega, hm⟩

/-- Format detection agrees with the engine on a file exactly when its page size is one that
`metadata_page_size` lets through and the scan reaches a surviving metadata page. -/
theorem format_detection_iff (hfile : Produced digest pagesize file)
    (hdamage : Damaged digest pagesize file file') (hclear : Clear pagesize file') :
    Detects digest pagesize file' ↔ Detectable digest pagesize file' := by
  have hreadable := hdamage.readable hfile.whole
  exact ⟨hreadable.detectable, hreadable.detects hclear⟩

end files

/-! ## A damaged file and a file with large pages -/

theorem createFile_eq (digest : Digest) {pagesize numPages : Nat}
    (hpagesize : checkPageSize pagesize = .ok ()) (hpages : 4 ≤ numPages)
    (hbound : pagesize * numPages ≤ maxDataFileBytes) :
    createFile digest pagesize numPages maxDataFileBytes =
      .ok (newFile digest pagesize numPages) := by
  have hbound' := (newFile_whole hpagesize hpages hbound : Whole digest _ _).bound
  have hroom : ¬ min (pagesize * numPages) (2 ^ 64 - 1) > maxDataFileBytes := by omega
  rw [createFile, hpagesize, except_bind_ok, min_self, if_neg hroom,
    initFile_eq (of_checkPageSize hpagesize).1, except_bind_ok,
    if_neg (by omega)]
  rfl

/-- The offsets at which a string of bytes shows the number 1. -/
def onesFrom : Nat → Bytes → List Nat
  | _, [] => []
  | offset, b :: bytes =>
      if readU64 (b :: bytes) 0 = 1 then offset :: onesFrom (offset + 1) bytes
      else onesFrom (offset + 1) bytes

theorem mem_onesFrom {bytes : Bytes} {start offset : Nat} (h : offset < bytes.length)
    (hone : readU64 bytes offset = 1) : start + offset ∈ onesFrom start bytes := by
  induction bytes generalizing start offset with
  | nil => simp at h
  | cons b bytes ih =>
    rw [onesFrom]
    cases offset with
    | zero =>
      rw [if_pos hone]
      exact List.mem_cons_self
    | succ offset =>
      have hrest : start + 1 + offset ∈ onesFrom (start + 1) bytes := by
        apply ih
        · simpa using h
        · exact hone
      rw [show start + (offset + 1) = start + 1 + offset by omega]
      split_ifs
      · exact List.mem_cons_of_mem start hrest
      · exact hrest

/-- A new file with pages of 1024 bytes. -/
def smallFile : Bytes := newFile zeroDigest 1024 4

/-- The file after page 0 was overwritten with zeros. -/
def wipedFile : Bytes := store smallFile (0 * 1024) (List.replicate 1024 0)

theorem ones_wipedFile : onesFrom 0 wipedFile = [1024] := by
  decide +kernel

theorem smallFile_produced : Produced zeroDigest 1024 smallFile :=
  .created le_rfl (createFile_eq zeroDigest rfl le_rfl (by decide))

/-- A page of zeros has no type, whatever the page size. -/
theorem wipedFile_damaged : Damaged zeroDigest 1024 smallFile wipedFile := by
  apply Damaged.overwritten (by decide) List.length_replicate
  intro size _ p hp
  have hinside := (checks_validateBlock _ _ _ _).of_ok hp
  have hbytes := hinside.bytes
  rw [zero_mul, List.drop_zero] at hbytes
  have htype : p.pageType = 0 := by
    rw [RawPage.pageType, hbytes]
    decide +kernel
  have hknown := hinside.known
  rw [KnownType, htype] at hknown
  exact absurd hknown (by decide)

/-- The id that a resembling page shows, read off the file. -/
theorem Resembles.readU64_eq {file : Bytes} {offset n : Nat}
    (h : Resembles (file.take n) offset) : readU64 file offset = 1 := by
  have hroom := h.room
  have hid := h.id
  rw [List.length_take, metaExtent, dataOffset, metadataSize] at hroom
  rw [RawPage.id, readU64, load_drop, add_zero, load_take (by omega)] at hid
  exact hid

theorem wipedFile_clear : Clear 1024 wipedFile := by
  intro offset h
  have hroom := h.room
  rw [List.length_take, metaExtent, dataOffset, metadataSize] at hroom
  have hmem : 0 + offset ∈ onesFrom 0 wipedFile := mem_onesFrom (by omega) h.readU64_eq
  rw [ones_wipedFile, List.mem_singleton, zero_add] at hmem
  exact hmem

/-- The scan finds the surviving page of the wiped file. -/
theorem format_detection_wiped : Produced zeroDigest 1024 smallFile ∧
    Damaged zeroDigest 1024 smallFile wipedFile ∧ Clear 1024 wipedFile ∧
    Detects zeroDigest 1024 wipedFile := by
  refine ⟨smallFile_produced, wipedFile_damaged, wipedFile_clear, ?_⟩
  apply (format_detection_iff smallFile_produced wipedFile_damaged wipedFile_clear).mpr
  have hundeclared : metadataPageSize wipedFile 0 0 = none := by decide +kernel
  refine ⟨by decide, .inr (by decide), ?_⟩
  intro size hdeclared
  rw [hundeclared] at hdeclared
  cases hdeclared

section largePages

variable {digest : Digest} {pagesize numPages : Nat}

/-- Behind its metadata the first page of a new file is zero up to its checksum. -/
theorem readU64_newFile (hmin : 1024 ≤ pagesize) {offset : Nat} (hbehind : metaExtent ≤ offset)
    (hbelow : offset + 8 ≤ pagesize - checksumSize) :
    readU64 (newFile digest pagesize numPages) offset = 0 := by
  obtain ⟨rest, hrest⟩ := initBuf_eq digest pagesize
  have hbuf : (initBuf digest pagesize).length = 4 * pagesize := length_initBuf hmin
  have hinside : load (newFile digest pagesize numPages) (0 + offset) 8 = _ :=
    load_store_inside (Nat.zero_le _) (by omega)
  rw [zero_add, hrest, load_append_left (by rw [length_metaOnDisk hmin]; omega),
    load_metaOnDisk_behind hmin hbehind hbelow] at hinside
  rw [readU64, hinside]
  decide

theorem newFile_clear (hmin : 1024 ≤ pagesize) (hlarge : maxBootstrapScan < pagesize) :
    Clear pagesize (newFile digest pagesize numPages) := by
  intro offset h
  have hone := h.readU64_eq
  have hroom := h.room
  have hbehind := h.minimum
  rw [List.length_take, metaExtent, dataOffset, metadataSize] at hroom
  rw [readU64_newFile hmin] at hone
  · cases hone
  · simp only [metaExtent, dataOffset, metadataSize]
    omega
  · simp only [checksumSize]
    omega

end largePages

/-- A new file with pages of 16 MiB and 8 bytes: the engine reads it, and its page size is not
found. -/
theorem large_pages_undetected : checkPageSize (maxBootstrapScan + 8) = .ok () ∧
    ∀ digest : Digest, ∃ file,
      createFile digest (maxBootstrapScan + 8) 4 maxDataFileBytes = .ok file ∧
        Clear (maxBootstrapScan + 8) file ∧
        (∃ m, currentMeta digest file (maxBootstrapScan + 8) = .ok m) ∧
        inspect digest file =
          .error (.error (.invalidDB "could not identify a valid metadata page size")) := by
  have hpagesize : checkPageSize (maxBootstrapScan + 8) = .ok () := rfl
  refine ⟨hpagesize, fun digest => ?_⟩
  have hbound : (maxBootstrapScan + 8) * 4 ≤ maxDataFileBytes := by decide
  have hwhole : Whole digest (maxBootstrapScan + 8) (newFile digest (maxBootstrapScan + 8) 4) :=
    newFile_whole hpagesize le_rfl hbound
  have hclear : Clear (maxBootstrapScan + 8) (newFile digest (maxBootstrapScan + 8) 4) :=
    newFile_clear (of_checkPageSize hpagesize).1 (by omega)
  obtain ⟨m, _, hcurrent, _⟩ := hwhole.readable.agrees
  exact ⟨_, createFile_eq digest hpagesize le_rfl hbound, hclear, ⟨m, hcurrent⟩,
    hwhole.undetected hclear (by omega)⟩

end Tagdata.Analysis
