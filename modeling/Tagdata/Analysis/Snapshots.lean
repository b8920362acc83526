import Tagdata.Analysis.JournalAppends
import Tagdata.Analysis.MergeTtl
import Tagdata.Model.Maintenance

/-!
# Copies of a snapshot

`copy_snapshot` copies every bucket with its counter.  Its commit is a commit like any other:
when the snapshot has a journal, the copy has one, too, and the transaction that made the copy is
recorded there.  So a copy is exact if and only if that record was there already.
-/

set_option autoImplicit false

namespace Tagdata.Analysis

open Tagdata.Library Tagdata.Model Tagdata.Model.Journal Tagdata.Interface

/-! ## What a source stands for -/

/-- The meaning of a committed bucket. -/
def dirOf : Contents → Dir
  | .done nextInt => ⟨nextInt, fun _ => none⟩
  | .value key value rest =>
      ⟨(dirOf rest).counter, Function.update (dirOf rest).entries key (some (.value value))⟩
  | .bucket name inner rest =>
      ⟨(dirOf rest).counter, Function.update (dirOf rest).entries name
        (some (.bucket (dirOf inner)))⟩

/-- The meaning of what a key is bound to. -/
def entryFor : Content → Entry
  | .value v => .value v
  | .bucket c => .bucket (dirOf c)

theorem dirOf_entries (s : Contents) (k : Bytes) :
    (dirOf s).entries k = (s.find k).map entryFor := by
  induction s with
  | done n => rfl
  | value key v rest ih =>
    by_cases hk : k = key
    · simp [dirOf, Contents.find, hk, entryFor]
    · simp [dirOf, Contents.find, hk, ih]
  | bucket name inner rest _ ih =>
    by_cases hk : k = name
    · simp [dirOf, Contents.find, hk, entryFor]
    · simp [dirOf, Contents.find, hk, ih]

theorem dirOf_absent {s : Contents} {k : Bytes} (h : k ∉ s.keys) : (dirOf s).entries k = none := by
  rw [dirOf_entries, find_none h]
  rfl

/-- The keys are in order, at every level. -/
def InOrder : Contents → Prop
  | .done _ => True
  | .value key _ rest => (∀ k ∈ rest.keys, key < k) ∧ InOrder rest
  | .bucket name inner rest => (∀ k ∈ rest.keys, name < k) ∧ InOrder inner ∧ InOrder rest

/-- A committed database: the root holds buckets only. -/
structure Snapshot where
  content : Contents
  ordered : InOrder content
  buckets : valueKeys content = []

/-! ## Copying -/

/-- A bucket that got the entries and the counter of a source. -/
def copiedInto (s : Contents) (d : Dir) : Dir :=
  ⟨(dirOf s).counter, fun k => ((dirOf s).entries k).or (d.entries k)⟩

theorem copied_empty (s : Contents) : copiedInto s Dir.empty = dirOf s := by
  simp [copiedInto, Dir.empty]

theorem copied_value {key v : Bytes} {rest : Contents} (h : key ∉ rest.keys) (d : Dir) :
    copiedInto rest (d.insert key (.value v)) = copiedInto (.value key v rest) d := by
  simp only [copiedInto, dirOf, Dir.insert, Directory.mk.injEq, true_and]
  funext k
  by_cases hk : k = key
  · simp [hk, dirOf_absent h]
  · simp [hk]

theorem copied_bucket {name : Bytes} {inner rest : Contents} (h : name ∉ rest.keys) (d : Dir) :
    copiedInto rest ((d.insert name (.bucket Dir.empty)).set name (some (.bucket (dirOf inner)))) =
      copiedInto (.bucket name inner rest) d := by
  simp only [copiedInto, dirOf, Dir.insert, Dir.set, Directory.mk.injEq, true_and]
  funext k
  by_cases hk : k = name
  · simp [hk, dirOf_absent h]
  · simp [hk]

section Copy

variable {seen : Dir → List Data → Prop} {s : Contents} {d : Dir}

/-- A new nested bucket is filled. -/
theorem wp_createInside {name : Bytes} (h : d.entries name = none) (p q : Program Unit)
    (post : Except Error Unit → Dir → Prop) :
    Prog.wp (Dir.serve seen) (do
        let _ ← Program.perform (.createBucket name)
        p.inside name
        q) d post ↔
      Prog.wp (Dir.serve seen) p Dir.empty fun r c =>
        Prog.andThen (Dir.serve seen) (fun _ => q) post r
          ((d.insert name (.bucket Dir.empty)).set name (some (.bucket c))) := by
  have hbucket : (d.insert name (.bucket Dir.empty)).entries name = some (.bucket Dir.empty) :=
    Dir.insert_entries_self _ _ _
  simp only [Prog.wp_bind, wp_perform, Dir.run, h, Prog.andThen_ok]
  rw [wp_inside hbucket]

/-- `copy_bucket`. -/
theorem wp_copyBucket (hs : InOrder s) (habsent : ∀ k ∈ s.keys, d.entries k = none)
    (post : Except Error Unit → Dir → Prop) :
    Prog.wp (Dir.serve seen) (Program.copyBucket s) d post ↔ post (.ok ()) (copiedInto s d) := by
  induction s generalizing d post with
  | done n => simp [Program.copyBucket, copiedInto, dirOf]
  | value key v rest ih =>
    have hkey : key ∉ rest.keys := fun hmem => lt_irrefl key (hs.1 key hmem)
    have hnone : d.entries key = none := habsent key List.mem_cons_self
    simp only [Program.copyBucket, Prog.wp_bind, wp_put, hnone, Prog.andThen_ok]
    rw [ih hs.2 fun k hk => ?_, copied_value hkey]
    rw [Dir.insert_entries_ne _ (hs.1 k hk).ne', habsent k (List.mem_cons_of_mem _ hk)]
  | bucket name inner rest ihinner ih =>
    have hname : name ∉ rest.keys := fun hmem => lt_irrefl name (hs.1 name hmem)
    rw [Program.copyBucket, wp_createInside (habsent name List.mem_cons_self),
      ihinner hs.2.1 fun _ _ => rfl, copied_empty, Prog.andThen_ok, ih hs.2.2 fun k hk => ?_,
      copied_bucket hname]
    have hne : k ≠ name := (hs.1 k hk).ne'
    rw [Dir.set_entries_ne _ hne, Dir.insert_entries_ne _ hne,
      habsent k (List.mem_cons_of_mem _ hk)]

/-- The loop of `copy_snapshot`. -/
theorem wp_copyBuckets (hs : InOrder s) (hbuckets : valueKeys s = [])
    (habsent : ∀ k ∈ s.keys, d.entries k = none) (post : Except Error Unit → Dir → Prop) :
    Prog.wp (Dir.serve seen) (Program.copyBuckets s) d post ↔ post (.ok ()) (copiedInto s d) := by
  induction s generalizing d post with
  | done n => simp [Program.copyBuckets, copiedInto, dirOf]
  | value key v rest ih => cases hbuckets
  | bucket name inner rest _ ih =>
    have hname : name ∉ rest.keys := fun hmem => lt_irrefl name (hs.1 name hmem)
    rw [Program.copyBuckets, wp_createInside (habsent name List.mem_cons_self),
      wp_copyBucket hs.2.1 fun _ _ => rfl, copied_empty, Prog.andThen_ok,
      ih hs.2.2 hbuckets fun k hk => ?_, copied_bucket hname]
    have hne : k ≠ name := (hs.1 k hk).ne'
    rw [Dir.set_entries_ne _ hne, Dir.insert_entries_ne _ hne,
      habsent k (List.mem_cons_of_mem _ hk)]

end Copy

/-! ## The record of the commit -/

/-- The elements of a committed bucket as a cursor yields them. -/
def elements : Contents → List Data
  | .done _ => []
  | .value key value rest => .keyValue key value :: elements rest
  | .bucket name _ rest => .bucket name :: elements rest

theorem elements_keys (s : Contents) : (elements s).map Data.key = s.keys := by
  induction s with
  | done n => rfl
  | value key v rest ih => simp [elements, Contents.keys, Data.key, ih]
  | bucket name inner rest _ ih => simp [elements, Contents.keys, Data.key, ih]

/-- An entry before all others. -/
theorem Lists.cons {d : Dir} {l : List Data} (h : Lists d l) {k : Bytes} (e : Entry) (counter : Nat)
    (hlt : ∀ x ∈ l.map Data.key, k < x) :
    Lists ⟨counter, Function.update d.entries k (some e)⟩ (Dir.dataOf k e :: l) := by
  have hkey : ∀ (k : Bytes) (e : Entry), (Dir.dataOf k e).key = k := fun k e => by cases e <;> rfl
  refine ⟨?_, fun x => ?_⟩
  · rw [List.map_cons, hkey]
    exact .cons hlt h.sorted
  rw [List.mem_cons, h.mem]
  constructor
  · rintro (rfl | ⟨k', e', he, rfl⟩)
    · exact ⟨k, e, Function.update_self _ _ _, rfl⟩
    · have hmem : Dir.dataOf k' e' ∈ l := (h.mem _).mpr ⟨k', e', he, rfl⟩
      have hne : k' ≠ k := by
        have hafter := hlt _ (List.mem_map_of_mem hmem)
        rw [hkey] at hafter
        exact hafter.ne'
      exact ⟨k', e', (Function.update_of_ne hne _ _).trans he, rfl⟩
  · rintro ⟨k', e', he, rfl⟩
    by_cases hk : k' = k
    · subst hk
      have heq : e = e' := by simpa using he
      exact .inl (by rw [heq])
    · exact .inr ⟨k', e', (Function.update_of_ne hk _ _).symm.trans he, rfl⟩

theorem lists_dirOf {s : Contents} (hs : InOrder s) : Lists (dirOf s) (elements s) := by
  induction s with
  | done n => exact ⟨.nil, fun x => by simp [elements, dirOf]⟩
  | value key v rest ih => exact (ih hs.2).cons _ _ (elements_keys rest ▸ hs.1)
  | bucket name inner rest _ ih => exact (ih hs.2.2).cons _ _ (elements_keys rest ▸ hs.1)

section Record

variable {J : Dir} {l : List Data} {changes : ChangeSet}

/-- The journal holds the record of these changes, and no more records than it keeps. -/
def RecordStays (changes : ChangeSet) (J : Dir) (l : List Data) : Prop :=
  ∃ record bytes n, encodeChangeSet changes = .ok record ∧
    J.entries (txKey changes.transactionId) = some (.value record) ∧
    J.entries configKey = some (.value bytes) ∧ decodeU64 bytes = .ok n ∧
    (recordKeys (l.filterMap Data.kvPair)).length ≤ n

/-- `append` changes nothing if and only if the record is there. -/
theorem Appended.same_iff {J' : Dir} (h : Appended changes J J') (hl : Lists J l) :
    J' = J ↔ RecordStays changes J l := by
  obtain ⟨bytes, n, record, l₁, hconfig, hn, hrecord, hbucket, hl₁, rfl⟩ := h
  -- with the record in place the journal is listed as before
  have hsame : J.entries (txKey changes.transactionId) = some (.value record) → l₁ = l := by
    intro hk
    rw [Dir.insert_eq_self hk] at hl₁
    exact hl₁.unique hl
  constructor
  · intro heq
    have hk : J.entries (txKey changes.transactionId) = some (.value record) := by
      have hcounter := congrArg Directory.counter heq
      have hentry := congrArg (fun d => d.entries (txKey changes.transactionId)) heq
      simp only [trimmedDir, Dir.insert_entries_self] at hcounter hentry
      rcases hk : J.entries (txKey changes.transactionId) with - | w | c
      · -- a new key is counted
        rw [Dir.insert, hk] at hcounter
        simp at hcounter
      · rw [hk] at hentry
        split at hentry
        · cases hentry
        · exact hentry.symm
      · exact absurd hk (hbucket c)
    refine ⟨record, bytes, n, hrecord, hk, hconfig, hn, ?_⟩
    rw [hsame hk, Dir.insert_eq_self hk] at heq
    rw [← trimmed_eq_nil, List.eq_nil_iff_forall_not_mem]
    intro x hx
    obtain ⟨⟨v, hv⟩, -⟩ := mem_trimmed hl hx
    have hgone := congrArg (fun d => d.entries x) heq
    simp only [trimmedDir, if_pos hx, hv] at hgone
    cases hgone
  · rintro ⟨record', bytes', n', hrecord', hk, hconfig', hn', hlen⟩
    rw [hrecord] at hrecord'
    obtain rfl := Except.ok.inj hrecord'
    rw [hconfig] at hconfig'
    obtain rfl := Entry.value.inj (Option.some.inj hconfig')
    rw [hn] at hn'
    obtain rfl := Except.ok.inj hn'
    rw [hsame hk, Dir.insert_eq_self hk]
    simp [trimmedDir, trimmed_eq_nil.mpr hlen]

end Record

/-! ## Exact copies -/

/-- `copy_snapshot` returns and leaves a database with this content. -/
def CopiesTo (s : Snapshot) (d : Dir) : Prop :=
  Prog.Ends (Dir.serve Lists) (Program.copySnapshot s.content) Dir.empty (.ok ()) d

/-- The commit of the copy finds its record in the journal of the snapshot, and no more records
than the journal keeps. -/
def JournalStays (s : Snapshot) : Prop :=
  ∀ J, s.content.find journalBucket = some (.bucket J) →
    RecordStays (copyChanges s.content) (dirOf J) (elements J)

/-- The commit of the copy can read the journal of the snapshot and can write its record. -/
def JournalReadable (s : Snapshot) : Prop :=
  ∀ J, s.content.find journalBucket = some (.bucket J) →
    (∃ bytes n, J.find configKey = some (.value bytes) ∧ decodeU64 bytes = .ok n) ∧
    (∃ record, encodeChangeSet (copyChanges s.content) = .ok record) ∧
    ∀ c, J.find (txKey firstTxId) ≠ some (.bucket c)

section Exact

variable {s : Contents}

theorem InOrder.inner (h : InOrder s) {name : Bytes} {c : Contents}
    (hfind : s.find name = some (.bucket c)) : InOrder c := by
  induction s with
  | done n => cases hfind
  | value key v rest ih =>
    by_cases hk : name = key
    · simp [Contents.find, hk] at hfind
    · exact ih h.2 (by simpa [Contents.find, hk] using hfind)
  | bucket key inner rest _ ih =>
    by_cases hk : name = key
    · obtain rfl : inner = c := by simpa [Contents.find, hk] using hfind
      exact h.2.1
    · exact ih h.2.2 (by simpa [Contents.find, hk] using hfind)

theorem Snapshot.find_value (s : Snapshot) (k v : Bytes) : s.content.find k ≠ some (.value v) := by
  intro hfind
  have hmem := mem_valueKeys hfind
  rw [s.buckets] at hmem
  cases hmem

/-- What `copy_snapshot` does before its commit. -/
theorem Snapshot.copiesTo_iff (s : Snapshot) {d : Dir} :
    CopiesTo s d ↔
      Prog.Ends (Dir.serve Lists) (persist (copyChanges s.content)) (dirOf s.content) (.ok ())
        d := by
  rw [CopiesTo, Prog.ends_iff_wp, Prog.ends_iff_wp, Program.copySnapshot, Prog.wp_bind,
    wp_copyBuckets s.ordered s.buckets fun _ _ => rfl, copied_empty, Prog.andThen_ok]

theorem Snapshot.journal (s : Snapshot) :
    (s.content.find journalBucket = none ∧ (dirOf s.content).entries journalBucket = none) ∨
    ∃ J, s.content.find journalBucket = some (.bucket J) ∧ InOrder J ∧
      (dirOf s.content).entries journalBucket = some (.bucket (dirOf J)) := by
  rcases hfind : s.content.find journalBucket with - | v | J
  · exact .inl ⟨rfl, by rw [dirOf_entries, hfind]; rfl⟩
  · exact absurd hfind (s.find_value _ v)
  · exact .inr ⟨J, rfl, s.ordered.inner hfind, by rw [dirOf_entries, hfind]; rfl⟩

/-- A copy is made whenever the journal can be written. -/
theorem Snapshot.exists_copy (s : Snapshot) (h : JournalReadable s) : ∃ d, CopiesTo s d := by
  obtain ⟨hfind, hnone⟩ | ⟨J, hfind, hJ, hsome⟩ := s.journal
  · exact ⟨dirOf s.content, s.copiesTo_iff.mpr ((ends_persist_none hnone).mpr ⟨rfl, rfl⟩)⟩
  · obtain ⟨⟨bytes, n, hconfig, hn⟩, ⟨record, hrecord⟩, hbucket⟩ := h J hfind
    have hconfig : (dirOf J).entries configKey = some (.value bytes) := by
      rw [dirOf_entries, hconfig]
      rfl
    have hfree : ∀ c, (dirOf J).entries (txKey firstTxId) ≠ some (.bucket c) := by
      intro c hc
      rw [dirOf_entries] at hc
      obtain ⟨e, he, heq⟩ := Option.map_eq_some_iff.mp hc
      cases e with
      | value v => cases heq
      | bucket c => exact hbucket c he
    obtain ⟨J', happended⟩ := exists_appended (lists_dirOf hJ) hconfig hn hrecord hfree
    exact ⟨_, s.copiesTo_iff.mpr ((ends_persist hsome).mpr ⟨J', happended, rfl⟩)⟩

/-- A copy is exact if and only if the journal stays. -/
theorem Snapshot.same_iff (s : Snapshot) {d : Dir} (h : CopiesTo s d) :
    d = dirOf s.content ↔ JournalStays s := by
  rw [s.copiesTo_iff] at h
  obtain ⟨hfind, hnone⟩ | ⟨J, hfind, hJ, hsome⟩ := s.journal
  · obtain ⟨-, rfl⟩ := (ends_persist_none hnone).mp h
    refine ⟨fun _ J hJ => ?_, fun _ => rfl⟩
    rw [hfind] at hJ
    cases hJ
  · obtain ⟨J', happended, rfl⟩ := (ends_persist hsome).mp h
    have hset : (dirOf s.content).set journalBucket (some (.bucket J')) = dirOf s.content ↔
        J' = dirOf J := by
      constructor
      · intro heq
        have hentry := congrArg (fun d => d.entries journalBucket) heq
        simp only [Dir.set_entries_self, hsome] at hentry
        exact Entry.bucket.inj (Option.some.inj hentry)
      · rintro rfl
        exact Dir.set_self hsome
    rw [hset, happended.same_iff (lists_dirOf hJ)]
    constructor
    · rintro hstays J₂ hJ₂
      rw [hfind] at hJ₂
      obtain rfl := Content.bucket.inj (Option.some.inj hJ₂)
      exact hstays
    · exact fun hstays => hstays J hfind

end Exact

/-- **A copy is exact if and only if the journal stays.**  Without a journal it always is. -/
theorem copy_exact_iff (s : Snapshot) :
    (JournalReadable s → ∃ d, CopiesTo s d) ∧
    ∀ d, CopiesTo s d → (d = dirOf s.content ↔ JournalStays s) := by
  exact ⟨s.exists_copy, fun d h => s.same_iff h⟩

/-- A record in a nested bucket, with a counter that is ahead of the insertions. -/
def nestedSnapshot : Snapshot where
  content := .bucket [98] (.value [107] [118] (.bucket [110] (.done 5) (.done 2))) (.done 1)
  ordered := by
    have hinner : ∀ k ∈ [[110]], ([107] : Bytes) < k := by decide
    exact ⟨by simp [Contents.keys], ⟨hinner, by simp [Contents.keys], trivial, trivial⟩, trivial⟩
  buckets := rfl

theorem copy_exact_nested :
    JournalReadable nestedSnapshot ∧ ∃ d, CopiesTo nestedSnapshot d ∧
      d = dirOf nestedSnapshot.content := by
  have hnone : ∀ J, nestedSnapshot.content.find journalBucket ≠ some (.bucket J) := by
    intro J h
    simp [nestedSnapshot, Contents.find, journalBucket] at h
  have hreadable : JournalReadable nestedSnapshot := fun J h => absurd h (hnone J)
  obtain ⟨hexists, hexact⟩ := copy_exact_iff nestedSnapshot
  obtain ⟨d, h⟩ := hexists hreadable
  exact ⟨hreadable, d, h, (hexact d h).mpr fun J hJ => absurd hJ (hnone J)⟩

/-- The journal was enabled by the first transaction, and the second one created a bucket. -/
def journalledSnapshot : Snapshot where
  content :=
    .bucket journalBucket
      (.value configKey [0, 0, 0, 0, 0, 0, 0, 3]
        (.value (txKey 1) [73, 83, 74, 82, 0, 0, 0, 0, 0]
          (.value (txKey 2) [73, 83, 74, 82, 0, 0, 0, 0, 1, 3, 0, 0, 0, 0, 0, 1, 98] (.done 3))))
      (.bucket [98] (.done 0) (.done 2))
  ordered := by
    have hconfig : ∀ k ∈ [txKey 1, txKey 2], configKey < k := by decide
    have hfirst : ∀ k ∈ [txKey 2], txKey 1 < k := by decide
    have hroot : ∀ k ∈ [[98]], journalBucket < k := by decide
    exact ⟨hroot, ⟨hconfig, hfirst, by simp [Contents.keys], trivial⟩, by simp [Contents.keys],
      trivial, trivial⟩
  buckets := rfl

/-- The copy has a record of its own transaction in place of the one that the snapshot has. -/
theorem copy_adds_record :
    ∃ d, CopiesTo journalledSnapshot d ∧ d ≠ dirOf journalledSnapshot.content := by
  have hrecord : encodeChangeSet (copyChanges journalledSnapshot.content) =
      .ok [73, 83, 74, 82, 0, 0, 0, 0, 1, 3, 0, 0, 0, 0, 0, 1, 98] := by
    decide +kernel
  have hreadable : JournalReadable journalledSnapshot := by
    rintro J ⟨⟩
    exact ⟨⟨[0, 0, 0, 0, 0, 0, 0, 3], 3, by decide, by decide⟩, ⟨_, hrecord⟩,
      fun c hc => by cases hc⟩
  obtain ⟨d, h⟩ := journalledSnapshot.exists_copy hreadable
  refine ⟨d, h, fun heq => ?_⟩
  have hstays := (journalledSnapshot.same_iff h).mp heq _ rfl
  obtain ⟨record, -, -, hencode, hfirst, -⟩ := hstays
  rw [hrecord] at hencode
  obtain rfl := Except.ok.inj hencode
  rw [dirOf_entries] at hfirst
  cases hfirst

end Tagdata.Analysis
