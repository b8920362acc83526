import Tagdata.Analysis.JournalContents
import Tagdata.Analysis.TtlIndexes

/-!
# What a commit does to any journal

`append` writes one record and deletes the oldest ones.  Nothing is assumed here of the bucket:
it may hold the checkpoints of consumers, or a configuration that cannot be read.
-/

set_option autoImplicit false

namespace Tagdata.Analysis

open Tagdata.Library Tagdata.Model Tagdata.Interface Journal

/-- A bucket with finitely many keys can be listed. -/
theorem exists_lists {d : Dir} (keys : List Bytes) (h : ∀ k, d.entries k ≠ none → k ∈ keys) :
    ∃ l, Lists d l := by
  classical
  have hkey : ∀ (k : Bytes) (e : Entry), (Dir.dataOf k e).key = k := fun k e => by cases e <;> rfl
  let sorted := keys.dedup.insertionSort (· ≤ ·)
  have hmem : ∀ k, k ∈ sorted ↔ k ∈ keys := fun k =>
    ((List.perm_insertionSort _ _).mem_iff).trans List.mem_dedup
  have hnodup : sorted.Nodup := (List.perm_insertionSort _ _).nodup_iff.mpr (List.nodup_dedup _)
  have hlt : sorted.Pairwise (· < ·) :=
    ((List.pairwise_insertionSort (· ≤ ·) keys.dedup).and hnodup).imp fun h =>
      lt_of_le_of_ne h.1 h.2
  refine ⟨sorted.filterMap fun k => (d.entries k).map (Dir.dataOf k), ?_, fun x => ?_⟩
  · rw [List.pairwise_map, List.pairwise_filterMap]
    refine hlt.imp fun {k k'} hkk x hx y hy => ?_
    obtain ⟨e, -, rfl⟩ := Option.map_eq_some_iff.mp hx
    obtain ⟨e', -, rfl⟩ := Option.map_eq_some_iff.mp hy
    rwa [hkey, hkey]
  · rw [List.mem_filterMap]
    constructor
    · rintro ⟨k, -, hx⟩
      obtain ⟨e, he, rfl⟩ := Option.map_eq_some_iff.mp hx
      exact ⟨k, e, he, rfl⟩
    · rintro ⟨k, e, he, rfl⟩
      exact ⟨k, (hmem k).mpr (h k (by rw [he]; exact Option.some_ne_none e)), by rw [he]; rfl⟩

theorem Lists.key_mem {d : Dir} {l : List Data} (h : Lists d l) {k : Bytes}
    (hk : d.entries k ≠ none) : k ∈ l.map Data.key := by
  obtain ⟨e, he⟩ := Option.ne_none_iff_exists'.mp hk
  have hmem : Dir.dataOf k e ∈ l := (h.mem _).mpr ⟨k, e, he, rfl⟩
  have hkey : (Dir.dataOf k e).key = k := by cases e <;> rfl
  exact hkey ▸ List.mem_map_of_mem hmem

/-- What is listed is finite, and stays so when one key is written. -/
theorem Lists.insert {d : Dir} {l : List Data} (h : Lists d l) (key : Bytes) (e : Entry) :
    ∃ l', Lists (d.insert key e) l' := by
  refine exists_lists (key :: l.map Data.key) fun k hk => ?_
  by_cases heq : k = key
  · exact heq ▸ List.mem_cons_self
  · rw [Dir.insert_entries_ne _ heq] at hk
    exact List.mem_cons_of_mem _ (h.key_mem hk)

theorem Lists.of_insert {d : Dir} {l : List Data} {key : Bytes} {e : Entry}
    (h : Lists (d.insert key e) l) : ∃ l', Lists d l' := by
  refine exists_lists (l.map Data.key) fun k hk => ?_
  have hne : (d.insert key e).entries k ≠ none := by
    by_cases heq : k = key
    · rw [heq, Dir.insert_entries_self]
      exact Option.some_ne_none e
    · rwa [Dir.insert_entries_ne _ heq]
  exact h.key_mem hne

section Trimming

variable {J : Dir} {l : List Data}

theorem recordKeys_ordered (hl : Lists J l) :
    (recordKeys (l.filterMap Data.kvPair)).Pairwise (· < ·) :=
  (hl.sorted.sublist (kvPair_keys_sublist l)).sublist List.filter_sublist

theorem recordKeys_nodup (hl : Lists J l) : (recordKeys (l.filterMap Data.kvPair)).Nodup :=
  (recordKeys_ordered hl).imp fun h => ne_of_lt h

theorem mem_journalKeys (hl : Lists J l) {k : Bytes} :
    k ∈ recordKeys (l.filterMap Data.kvPair) ↔
      (∃ v, J.entries k = some (.value v)) ∧ (decodeTxKey k).isSome := by
  rw [recordKeys, List.mem_filter, List.mem_map]
  refine and_congr_left fun _ => ⟨?_, ?_⟩
  · rintro ⟨pair, hpair, rfl⟩
    exact ⟨pair.2, (mem_pairsOf hl).mp hpair⟩
  · rintro ⟨v, hv⟩
    exact ⟨(k, v), (mem_pairsOf hl).mpr hv, rfl⟩

/-- The records depend only on what is stored under their keys. -/
theorem recordKeys_congr {J' : Dir} {l' : List Data} (hl : Lists J l) (hl' : Lists J' l')
    (h : ∀ k, (decodeTxKey k).isSome → J'.entries k = J.entries k) :
    recordKeys (l'.filterMap Data.kvPair) = recordKeys (l.filterMap Data.kvPair) := by
  have hperm : (recordKeys (l'.filterMap Data.kvPair)).Perm
      (recordKeys (l.filterMap Data.kvPair)) := by
    refine (List.perm_ext_iff_of_nodup (recordKeys_nodup hl') (recordKeys_nodup hl)).mpr fun k => ?_
    rw [mem_journalKeys hl, mem_journalKeys hl']
    exact and_congr_left fun hk => by rw [h k hk]
  refine hperm.eq_of_pairwise (fun a c _ _ hac hca => ?_) (recordKeys_ordered hl')
    (recordKeys_ordered hl)
  exact absurd (hac.trans hca) (lt_irrefl _)

/-- The records that `trim` deletes. -/
def trimmed (n : Nat) (l : List Data) : List Bytes :=
  (recordKeys (l.filterMap Data.kvPair)).take ((recordKeys (l.filterMap Data.kvPair)).length - n)

theorem trimmed_eq_nil {n : Nat} {l : List Data} :
    trimmed n l = [] ↔ (recordKeys (l.filterMap Data.kvPair)).length ≤ n := by
  rw [trimmed, List.take_eq_nil_iff]
  constructor
  · rintro (h | h)
    · omega
    · simp [h]
  · intro h
    exact .inl (by omega)

theorem trimmed_nodup (hl : Lists J l) (n : Nat) : (trimmed n l).Nodup :=
  (recordKeys_nodup hl).sublist (List.take_sublist _ _)

theorem mem_trimmed (hl : Lists J l) {n : Nat} {k : Bytes} (h : k ∈ trimmed n l) :
    (∃ v, J.entries k = some (.value v)) ∧ (decodeTxKey k).isSome :=
  (mem_journalKeys hl).mp (List.mem_of_mem_take h)

/-- The journal after `trim`. -/
def trimmedDir (n : Nat) (l : List Data) (J : Dir) : Dir :=
  ⟨J.counter, fun k => if k ∈ trimmed n l then none else J.entries k⟩

theorem wp_trim (n : Nat) :
    Prog.wp (Dir.serve Lists) (trim n) J fun r J' =>
      r = .ok () ∧ ∃ l, Lists J l ∧ J' = trimmedDir n l J := by
  unfold trim Program.kvPairs
  simp only [Prog.wp_bind, wp_items, Prog.andThen_ok, Prog.wp_pure]
  intro l hl
  have hvalue : ∀ k ∈ trimmed n l, ∃ v, J.entries k = some (.value v) :=
    fun k hk => (mem_trimmed hl hk).1
  have hcounter : Prog.Keeps (Dir.serve Lists) (fun d => d.counter = J.counter)
      (Prog.forEach (fun key => do let _ ← Program.perform (.delete key)) (trimmed n l)) := by
    refine Prog.keeps_forEach (fun key d hd => ?_) _
    simp only [Prog.wp_bind, wp_perform, Dir.run]
    rcases d.entries key with - | v | c <;> exact hd
  refine Prog.wp_mono (Prog.wp_and (deleteEach_spec (trimmed_nodup hl n) hvalue)
    (hcounter J rfl)) ?_
  rintro r ⟨counter, entries⟩ ⟨⟨rfl, hentries⟩, hsame⟩
  obtain rfl : counter = J.counter := hsame
  obtain rfl : entries = _ := hentries
  exact ⟨rfl, l, hl, rfl⟩

theorem ends_trim (n : Nat) (hl : Lists J l) :
    Prog.Ends (Dir.serve Lists) (trim n) J (.ok ()) (trimmedDir n l J) := by
  obtain ⟨J', hdelete⟩ : ∃ J', Prog.Ends (Dir.serve Lists) (Prog.forEach
      (fun key => do let _ ← Program.perform (.delete key)) (trimmed n l) : Program Unit) J
      (.ok ()) J' :=
    exists_deleteEach (trimmed_nodup hl n) fun k hk => (mem_trimmed hl hk).1
  have htrim : Prog.Ends (Dir.serve Lists) (trim n) J (.ok ()) J' := by
    refine Prog.ends_iff_wp.mpr fun hwp => ?_
    unfold trim Program.kvPairs at hwp
    simp only [Prog.wp_bind, wp_items, Prog.andThen_ok, Prog.wp_pure] at hwp
    exact Prog.ends_iff_wp.mp hdelete (hwp l hl)
  obtain ⟨-, l', hl', rfl⟩ := Prog.wp_iff_ends.mp (wp_trim n) _ _ htrim
  rwa [hl'.unique hl] at htrim

end Trimming

section Appending

variable {J J' : Dir} {changes : ChangeSet}

/-- One record was written, and the oldest ones were deleted. -/
def Appended (changes : ChangeSet) (J J' : Dir) : Prop :=
  ∃ bytes n record l, J.entries configKey = some (.value bytes) ∧ decodeU64 bytes = .ok n ∧
    encodeChangeSet changes = .ok record ∧
    (∀ c, J.entries (txKey changes.transactionId) ≠ some (.bucket c)) ∧
    Lists (J.insert (txKey changes.transactionId) (.value record)) l ∧
    J' = trimmedDir n l (J.insert (txKey changes.transactionId) (.value record))

theorem rawValue_eq_some {d : Dir} {k v : Bytes} :
    rawValue d k = some v ↔ d.entries k = some (.value v) := by
  rw [rawValue]
  rcases d.entries k with - | w | c <;> simp

/-- `put` in a place that no nested bucket takes. -/
theorem wp_put_value {seen : Dir → List Data → Prop} {k v : Bytes} {d : Dir}
    {post : Except Error (Option Bytes) → Dir → Prop}
    (hbucket : ∀ c, d.entries k ≠ some (.bucket c)) :
    Prog.wp (Dir.serve seen) (Program.put k v) d post ↔
      post (.ok (rawValue d k)) (d.insert k (.value v)) := by
  rw [wp_put]
  rcases hk : d.entries k with - | w | c
  · rfl
  · rfl
  · exact absurd hk (hbucket c)

/-- What `append` does when it returns. -/
theorem ends_append :
    Prog.Ends (Dir.serve Lists) (append changes) J (.ok ()) J' ↔ Appended changes J J' := by
  constructor
  · intro hends
    have hwp : Prog.wp (Dir.serve Lists) (append changes) J fun r J' =>
        r = .ok () → Appended changes J J' := by
      unfold append retention
      rw [Prog.wp_bind, Prog.wp_bind, wp_getKv, Prog.andThen_ok]
      cases hconfig : rawValue J configKey with
      | none => exact fun h => by cases h
      | some bytes =>
        rw [Prog.wp_ofExcept]
        cases hn : decodeU64 bytes with
        | error e => exact fun h => by cases h
        | ok n =>
          rw [Prog.andThen_ok, Prog.wp_bind, Prog.wp_ofExcept]
          cases hrecord : encodeChangeSet changes with
          | error e => exact fun h => by cases h
          | ok record =>
            rw [Prog.andThen_ok, Prog.wp_bind]
            by_cases hbucket : ∀ c, J.entries (txKey changes.transactionId) ≠ some (.bucket c)
            · rw [wp_put_value hbucket, Prog.andThen_ok]
              refine Prog.wp_mono (wp_trim n) ?_
              rintro r J' ⟨rfl, l, hl, rfl⟩ -
              exact ⟨bytes, n, record, l, rawValue_eq_some.mp hconfig, hn, hrecord, hbucket, hl,
                rfl⟩
            · obtain ⟨c, hc⟩ := not_forall_not.mp hbucket
              rw [wp_put, hc]
              exact fun h => by cases h
    exact Prog.wp_iff_ends.mp hwp _ _ hends rfl
  · rintro ⟨bytes, n, record, l, hconfig, hn, hrecord, hbucket, hl, rfl⟩
    refine Prog.ends_iff_wp.mpr fun hwp => ?_
    unfold append retention at hwp
    simp only [Prog.wp_bind, wp_getKv, rawValue_eq_some.mpr hconfig, Prog.andThen_ok,
      Prog.wp_ofExcept, hn, hrecord, wp_put_value hbucket] at hwp
    exact Prog.ends_iff_wp.mp (ends_trim n hl) hwp

/-- `append` returns when the configuration can be read and the changes can be encoded. -/
theorem exists_appended {bytes record : Bytes} {n : Nat} {l : List Data} (hl : Lists J l)
    (hconfig : J.entries configKey = some (.value bytes)) (hn : decodeU64 bytes = .ok n)
    (hrecord : encodeChangeSet changes = .ok record)
    (hbucket : ∀ c, J.entries (txKey changes.transactionId) ≠ some (.bucket c)) :
    ∃ J', Appended changes J J' := by
  obtain ⟨l', hl'⟩ := hl.insert (txKey changes.transactionId) (.value record)
  exact ⟨_, bytes, n, record, l', hconfig, hn, hrecord, hbucket, hl', rfl⟩

/-- `persist` in a database without a journal. -/
theorem ends_persist_none {d d' : Dir} {r : Except Error Unit}
    (h : d.entries journalBucket = none) :
    Prog.Ends (Dir.serve Lists) (persist changes) d r d' ↔ r = .ok () ∧ d' = d := by
  rw [Prog.ends_iff_wp]
  unfold persist
  simp [Dir.run, h, eq_comm]

/-- `persist` in a database with a journal. -/
theorem ends_persist {d d' : Dir} (h : d.entries journalBucket = some (.bucket J)) :
    Prog.Ends (Dir.serve Lists) (persist changes) d (.ok ()) d' ↔
      ∃ J', Appended changes J J' ∧ d' = d.set journalBucket (some (.bucket J')) := by
  have hinside : Prog.Ends (Dir.serve Lists) (persist changes) d (.ok ()) d' ↔
      Prog.Ends (Dir.serve Lists) ((append changes).inside journalBucket) d (.ok ()) d' := by
    rw [Prog.ends_iff_wp, Prog.ends_iff_wp]
    unfold persist
    simp only [Prog.wp_bind, wp_attempt, Dir.run, h, Prog.andThen_ok]
  rw [hinside, ends_inside_iff h]
  simp only [ends_append]

end Appending

end Tagdata.Analysis
