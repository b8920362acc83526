import Tagdata.Analysis.Isolation
import Tagdata.Analysis.JournalAppends
import Tagdata.Analysis.JournalCodec
import Tagdata.Analysis.JournalRuns

/-!
# What a commit depends on

`persist` looks at the journal bucket and at the recorded changes.  Whether it returns is decided by
the configuration, by the nested buckets in the places of records, and by the sizes of the changes;
and it leaves all of these as they were.
-/

set_option autoImplicit false

namespace Tagdata.Analysis

open Tagdata.Library Tagdata.Model Tagdata.Interface Journal

/-- What a commit sees of the journal bucket: its configuration, and the ids whose records would
be put over a nested bucket. -/
structure JournalSight where
  config : Option Bytes
  taken : Nat → Bool

/-- Whether a key names a nested bucket. -/
def namesBucket (d : Dir) (k : Bytes) : Bool :=
  match d.entries k with
  | some (.bucket _) => true
  | _ => false

/-- The same for a journal. -/
def sightOf (J : Dir) : JournalSight := ⟨rawValue J configKey, fun id => namesBucket J (txKey id)⟩

/-- What a commit sees of a database. -/
def journalSight (d : Dir) : Except Error JournalSight := (d.reach [journalBucket]).map sightOf

/-- What `persist` answers, by what it sees. -/
def verdict (changes : ChangeSet) : Except Error JournalSight → Except Error Unit
  | .error .bucketMissing => .ok ()
  | .error e => .error e
  | .ok sight =>
      match sight.config with
      | none => .error (.invalidDB "journal configuration is missing")
      | some bytes => do
          let _ ← decodeU64 bytes
          let _ ← encodeChangeSet changes
          if sight.taken changes.transactionId then .error .incompatibleValue else .ok ()

section Persist

variable {J d : Dir} {changes : ChangeSet}

theorem namesBucket_eq_false {k : Bytes} :
    namesBucket d k = false ↔ ∀ c, d.entries k ≠ some (.bucket c) := by
  rw [namesBucket]
  rcases d.entries k with - | v | c <;> simp

/-- What the trimming shows of a journal is some of its records. -/
theorem mem_shown_records {l : List Data} (h : Shows J l) {k : Bytes}
    (hk : k ∈ recordKeys (l.filterMap Data.kvPair)) :
    (∃ v, J.entries k = some (.value v)) ∧ (decodeTxKey k).isSome := by
  obtain ⟨hmem, hrecord⟩ := List.mem_filter.mp hk
  obtain ⟨⟨key, v⟩, hpair, rfl⟩ := List.mem_map.mp hmem
  obtain ⟨x, hx, hkv⟩ := List.mem_filterMap.mp hpair
  obtain ⟨k', e, he, rfl⟩ := h.mem x hx
  refine ⟨?_, hrecord⟩
  cases e with
  | bucket c => cases hkv
  | value w =>
    cases hkv
    exact ⟨_, he⟩

/-- `trim` deletes some of the records. -/
theorem trim_deletes (n : Nat) :
    Prog.wp (Dir.serve Shows) (trim n) J fun r J' => r = .ok () ∧ ∀ k, J'.entries k = J.entries k ∨
      (J'.entries k = none ∧ (∃ v, J.entries k = some (.value v)) ∧ (decodeTxKey k).isSome) := by
  unfold trim Program.kvPairs
  simp only [Prog.wp_bind, wp_items, Prog.andThen_ok, Prog.wp_pure]
  intro l hl
  have hnodup : (recordKeys (l.filterMap Data.kvPair)).Nodup :=
    ((hl.sorted.sublist (kvPair_keys_sublist l)).sublist List.filter_sublist).imp fun h =>
      ne_of_lt h
  refine Prog.wp_mono (deleteEach_spec (hnodup.sublist (List.take_sublist _ _)) fun k hk =>
    (mem_shown_records hl (List.mem_of_mem_take hk)).1) ?_
  rintro r J' ⟨rfl, hentries⟩
  refine ⟨rfl, fun k => ?_⟩
  rw [hentries]
  by_cases hk : k ∈ (recordKeys (l.filterMap Data.kvPair)).take
      ((recordKeys (l.filterMap Data.kvPair)).length - n)
  · exact .inr ⟨if_pos hk, mem_shown_records hl (List.mem_of_mem_take hk)⟩
  · exact .inl (if_neg hk)

/-- The records come and go, and what a commit sees stays. -/
theorem sightOf_appended {J' : Dir} {id : Nat} {record : Bytes}
    (hfree : namesBucket J (txKey id) = false)
    (h : ∀ k, J'.entries k = (J.insert (txKey id) (.value record)).entries k ∨
      (J'.entries k = none ∧
        (∃ v, (J.insert (txKey id) (.value record)).entries k = some (.value v)) ∧
        (decodeTxKey k).isSome)) : sightOf J' = sightOf J := by
  have hconfig : J'.entries configKey = J.entries configKey := by
    have hne : configKey ≠ txKey id := (configKey_lt_txKey id).ne
    rcases h configKey with heq | ⟨-, -, hrecord⟩
    · rw [heq, Dir.insert_entries_ne _ hne]
    · cases hrecord
  have hbucket : ∀ k, namesBucket J' k = namesBucket J k := by
    intro k
    have hinsert : namesBucket (J.insert (txKey id) (.value record)) k = namesBucket J k := by
      by_cases hk : k = txKey id
      · rw [hk, hfree, namesBucket, Dir.insert_entries_self]
      · rw [namesBucket, namesBucket, Dir.insert_entries_ne _ hk]
    rw [← hinsert]
    rcases h k with heq | ⟨hnone, ⟨v, hv⟩, -⟩
    · rw [namesBucket, namesBucket, heq]
    · rw [namesBucket, namesBucket, hnone, hv]
  rw [sightOf, sightOf, rawValue, rawValue, hconfig]
  congr 1
  funext id
  exact hbucket _

/-- `append` in a journal. -/
theorem append_verdict (changes : ChangeSet) (J : Dir) :
    Prog.wp (Dir.serve Shows) (append changes) J fun r J' =>
      r = verdict changes (.ok (sightOf J)) ∧ (r = .ok () → sightOf J' = sightOf J) := by
  unfold append retention
  rw [Prog.wp_bind, Prog.wp_bind, wp_getKv, Prog.andThen_ok]
  have hsight : (sightOf J).config = rawValue J configKey := rfl
  cases hconfig : rawValue J configKey with
  | none =>
    rw [hconfig] at hsight
    refine ⟨?_, fun h => by cases h⟩
    rw [verdict, hsight]
  | some bytes =>
    rw [hconfig] at hsight
    rw [Prog.wp_ofExcept, verdict, hsight]
    cases hn : decodeU64 bytes with
    | error e => exact ⟨by simp [hn], fun h => by cases h⟩
    | ok n =>
      rw [Prog.andThen_ok, Prog.wp_bind, Prog.wp_ofExcept]
      cases hrecord : encodeChangeSet changes with
      | error e => exact ⟨by simp [hn], fun h => by cases h⟩
      | ok record =>
        rw [Prog.andThen_ok, Prog.wp_bind]
        cases hfree : namesBucket J (txKey changes.transactionId) with
        | true =>
          obtain ⟨c, hc⟩ : ∃ c, J.entries (txKey changes.transactionId) = some (.bucket c) := by
            by_contra hnone
            rw [namesBucket_eq_false.mpr fun c hc => hnone ⟨c, hc⟩] at hfree
            cases hfree
          rw [wp_put, hc]
          exact ⟨by simp [hn, sightOf, hfree], fun h => by cases h⟩
        | false =>
          rw [wp_put_value (namesBucket_eq_false.mp hfree), Prog.andThen_ok]
          refine Prog.wp_mono (trim_deletes n) ?_
          rintro r J' ⟨rfl, hentries⟩
          exact ⟨by simp [hn, sightOf, hfree], fun _ => sightOf_appended hfree hentries⟩

/-- `persist` answers by what it sees; when it returns, this is as before, and so is everything
outside the journal. -/
theorem persist_verdict (changes : ChangeSet) (d : Dir) :
    Prog.wp (Dir.serve Shows) (persist changes) d fun r d' =>
      r = verdict changes (journalSight d) ∧
        (r = .ok () → journalSight d' = journalSight d ∧
          ∀ k, k ≠ journalBucket → d'.entries k = d.entries k) := by
  unfold persist
  rw [Prog.wp_bind, wp_attempt]
  rcases hentry : d.entries journalBucket with - | v | J
  · have hsight : journalSight d = .error .bucketMissing := by
      simp [journalSight, Dir.reach, hentry, Except.map]
    simp [Dir.run, hentry, hsight, verdict]
  · have hsight : journalSight d = .error .incompatibleValue := by
      simp [journalSight, Dir.reach, hentry, Except.map]
    simp [Dir.run, hentry, hsight, verdict]
  · have hsight : journalSight d = .ok (sightOf J) := by
      simp [journalSight, Dir.reach, hentry, Except.map]
    simp only [Dir.run, hentry, Prog.andThen_ok]
    rw [wp_inside hentry]
    refine Prog.wp_mono (append_verdict changes J) ?_
    rintro r J' ⟨rfl, hsame⟩
    refine ⟨by rw [hsight], fun hok => ⟨?_, fun k hk => Dir.set_entries_ne d hk _⟩⟩
    rw [hsight, journalSight, Dir.reach, Dir.set_entries_self]
    exact congrArg Except.ok (hsame hok)

end Persist

/-! ## What the tracker records -/

/-- A change in this bucket can be encoded, or it is not recorded. -/
def Journalable (path : List Bytes) : Prop :=
  path.length < 2 ^ 16 ∨ maxChangeBytes < (path.map List.length).sum ∨
    path.any ChangeTracker.reserved

/-- A tracker whose changes can be encoded. -/
structure Shallow (t : ChangeTracker) : Prop where
  count : t.changes.length ≤ maxChanges
  depth : ∀ change ∈ t.changes, change.bucketPath.length < 2 ^ 16
  bytes : ∀ change ∈ t.changes,
    (change.bucketPath.map List.length).sum + change.key.length ≤ maxChangeBytes

section Tracker

variable {t : ChangeTracker}

theorem shallow_new (enabled : Bool) : Shallow (.new enabled) :=
  ⟨Nat.zero_le _, fun _ h => (List.not_mem_nil h).elim, fun _ h => (List.not_mem_nil h).elim⟩

theorem Shallow.record (h : Shallow t) {path : List Bytes} (hpath : Journalable path)
    (key : Bytes) (operation : ChangeOperation) : Shallow (t.record path key operation) := by
  unfold ChangeTracker.record
  split
  · exact h
  rename_i hkept
  dsimp only
  split
  · exact ⟨h.count, h.depth, h.bytes⟩
  · rename_i hroom
    rw [not_or, not_lt] at hroom
    have hcount := h.count
    have hdepth : path.length < 2 ^ 16 := by
      rcases hpath with hshort | hlong | hreserved
      · exact hshort
      · omega
      · exact absurd hreserved fun hreserved => hkept (by simp [hreserved])
    refine ⟨?_, fun change hchange => ?_, fun change hchange => ?_⟩
    · rw [List.length_append, List.length_singleton]
      omega
    · rcases List.mem_append.mp hchange with hold | hnew
      · exact h.depth change hold
      · rwa [List.mem_singleton.mp hnew]
    · rcases List.mem_append.mp hchange with hold | hnew
      · exact h.bytes change hold
      · rw [List.mem_singleton.mp hnew]
        dsimp only
        omega

theorem Shallow.recordAll (h : Shallow t) {changes : List Model.Change}
    (hchanges : ∀ change ∈ changes, Journalable change.bucketPath) :
    Shallow (recordAll t changes) := by
  induction changes generalizing t with
  | nil => exact h
  | cons change changes ih =>
    exact ih (h.record (hchanges change (by simp)) change.key change.operation)
      fun c hc => hchanges c (List.mem_cons_of_mem _ hc)

/-- Shallow changes can be encoded. -/
theorem Shallow.encodable (h : Shallow t) (id : Nat) : Encodable (t.snapshot id) := by
  have hlimit : maxChangeBytes < 2 ^ 32 := by decide
  refine ⟨h.count.trans_lt (by decide), h.depth, fun c hc part hpart => ?_, fun c hc => ?_⟩
  · have hsum := List.single_le_sum (fun _ _ => Nat.zero_le _) _
      (List.mem_map_of_mem (f := List.length) hpart)
    have hbytes := h.bytes c hc
    omega
  · have hbytes := h.bytes c hc
    omega

/-- The verdict on changes that can be encoded does not depend on them. -/
theorem verdict_encodable {set set' : ChangeSet} (h : Encodable set) (h' : Encodable set')
    (hid : set.transactionId = set'.transactionId) (sight : Except Error JournalSight) :
    verdict set sight = verdict set' sight := by
  obtain ⟨bytes, hbytes⟩ := h.encode
  obtain ⟨bytes', hbytes'⟩ := h'.encode
  simp only [verdict, hbytes, hbytes', hid]
  rfl

end Tracker

end Tagdata.Analysis
