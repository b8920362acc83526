import Tagdata.Analysis.JournalRecords
import Tagdata.Interface.Requests

/-!
# What the journal bucket holds

Between commits the bucket holds the configuration and the records of some consecutive change
sets.  `append` adds one and keeps the newest; `replay_journal` returns the sets after an id.
-/

set_option autoImplicit false

namespace Tagdata.Analysis

open Tagdata.Library Tagdata.Model Tagdata.Interface Journal

/-- The record of a set that can be encoded. -/
def recordOf (set : ChangeSet) : Bytes :=
  match encodeChangeSet set with
  | .ok bytes => bytes
  | .error _ => []

/-- The journal bucket holds the configuration and the records of these sets. -/
structure Holds (J : Dir) (retention : Nat) (sets : List ChangeSet) : Prop where
  entries : ∀ k e, J.entries k = some e ↔
    (k = configKey ∧ e = .value (beBytes 8 retention)) ∨
      ∃ set ∈ sets, k = txKey set.transactionId ∧ e = .value (recordOf set)
  positive : 0 < retention
  range : retention < 2 ^ 64
  ordered : (sets.map ChangeSet.transactionId).Pairwise (· < ·)
  ids : ∀ set ∈ sets, set.transactionId < 2 ^ 64
  encoded : ∀ set ∈ sets, encodeChangeSet set = .ok (recordOf set)

/-- The pair of a set. -/
def pairOf (set : ChangeSet) : Bytes × Bytes := (txKey set.transactionId, recordOf set)

/-- The pairs of the journal, in order. -/
def pairsIn (retention : Nat) (sets : List ChangeSet) : List (Bytes × Bytes) :=
  (configKey, beBytes 8 retention) :: sets.map pairOf

section Lists

variable {J : Dir} {retention : Nat} {sets : List ChangeSet}

theorem Holds.config (h : Holds J retention sets) :
    J.entries configKey = some (.value (beBytes 8 retention)) :=
  (h.entries _ _).mpr (.inl ⟨rfl, rfl⟩)

theorem Holds.record (h : Holds J retention sets) {set : ChangeSet} (hset : set ∈ sets) :
    J.entries (txKey set.transactionId) = some (.value (recordOf set)) :=
  (h.entries _ _).mpr (.inr ⟨set, hset, rfl, rfl⟩)

theorem txKeys_ordered (hordered : (sets.map ChangeSet.transactionId).Pairwise (· < ·))
    (hids : ∀ set ∈ sets, set.transactionId < 2 ^ 64) :
    (sets.map fun set => txKey set.transactionId).Pairwise (· < ·) := by
  rw [List.pairwise_map] at hordered ⊢
  exact hordered.imp_of_mem fun _ hb hlt => txKey_lt hlt (hids _ hb)

/-- A scan of the journal shows the configuration and then the records by id. -/
theorem Holds.lists (h : Holds J retention sets) :
    Lists J ((pairsIn retention sets).map fun pair => .keyValue pair.1 pair.2) := by
  constructor
  · have hkeys : ((pairsIn retention sets).map fun pair => Data.keyValue pair.1 pair.2).map
        Data.key = configKey :: sets.map fun set => txKey set.transactionId := by
      simp [pairsIn, pairOf, Data.key, Function.comp_def]
    rw [hkeys, List.pairwise_cons]
    refine ⟨?_, txKeys_ordered h.ordered h.ids⟩
    intro k hk
    obtain ⟨set, -, rfl⟩ := List.mem_map.mp hk
    exact configKey_lt_txKey _
  · intro x
    simp only [pairsIn, List.map_cons, List.map_map, List.mem_cons, List.mem_map,
      Function.comp_apply, pairOf]
    constructor
    · rintro (rfl | ⟨set, hset, rfl⟩)
      · exact ⟨_, _, h.config, rfl⟩
      · exact ⟨_, _, h.record hset, rfl⟩
    · rintro ⟨k, e, he, rfl⟩
      obtain ⟨rfl, rfl⟩ | ⟨set, hset, rfl, rfl⟩ := (h.entries k e).mp he
      · exact .inl rfl
      · exact .inr ⟨set, hset, rfl⟩

theorem kvPairs_pairsIn (pairs : List (Bytes × Bytes)) :
    (pairs.map fun pair => Data.keyValue pair.1 pair.2).filterMap Data.kvPair = pairs := by
  induction pairs with
  | nil => rfl
  | cons pair pairs ih => simp [Data.kvPair, ih]

/-- The only answer of a scan. -/
theorem Holds.kvPairs (h : Holds J retention sets) {l : List Data} (hl : Lists J l) :
    l.filterMap Data.kvPair = pairsIn retention sets := by
  rw [hl.unique h.lists, kvPairs_pairsIn]

theorem recordKeys_pairsIn (hids : ∀ set ∈ sets, set.transactionId < 2 ^ 64) :
    recordKeys (pairsIn retention sets) = sets.map fun set => txKey set.transactionId := by
  simp only [recordKeys, pairsIn, List.map_cons, List.map_map]
  rw [List.filter_cons_of_neg (by simp [decodeTxKey_configKey])]
  refine List.filter_eq_self.mpr fun k hk => ?_
  obtain ⟨set, hset, rfl⟩ := List.mem_map.mp hk
  simp [pairOf, decodeTxKey_txKey (hids set hset)]

theorem records_pairsIn (hids : ∀ set ∈ sets, set.transactionId < 2 ^ 64) :
    records (pairsIn retention sets) =
      sets.map fun set => (set.transactionId, recordOf set) := by
  simp only [records, pairsIn, List.filterMap_cons, decodeTxKey_configKey, Option.map_none]
  rw [List.filterMap_map, ← List.filterMap_eq_map]
  refine List.filterMap_congr fun set hset => ?_
  simp [pairOf, decodeTxKey_txKey (hids set hset)]

end Lists

/-! ## Writing -/

section Writing

variable {J : Dir} {n : Nat} {sets : List ChangeSet}

/-- A record under a new id. -/
theorem Holds.insert (h : Holds J n sets) {set : ChangeSet} {record : Bytes}
    (hid : set.transactionId < 2 ^ 64)
    (hnew : ∀ s ∈ sets, s.transactionId < set.transactionId)
    (hrecord : encodeChangeSet set = .ok record) :
    Holds (J.insert (txKey set.transactionId) (.value record)) n (sets ++ [set]) := by
  have hof : recordOf set = record := by simp [recordOf, hrecord]
  refine ⟨fun k e => ?_, h.positive, h.range, ?_, ?_, ?_⟩
  · by_cases hk : k = txKey set.transactionId
    · subst hk
      rw [Dir.insert_entries_self]
      have hconfig : txKey set.transactionId ≠ configKey := (configKey_lt_txKey _).ne'
      constructor
      · intro he
        exact .inr ⟨set, by simp, rfl, by rw [hof, Option.some.inj he]⟩
      · rintro (⟨hfalse, -⟩ | ⟨s, hs, hkey, rfl⟩)
        · exact absurd hfalse hconfig
        · obtain hs | hs := List.mem_append.mp hs
          · have heq := txKey_inj hid (h.ids s hs) hkey
            exact absurd (hnew s hs) (by omega)
          · rw [List.mem_singleton.mp hs, hof]
    · rw [Dir.insert_entries_ne _ hk, h.entries]
      refine or_congr_right ⟨?_, ?_⟩
      · rintro ⟨s, hs, hkey⟩
        exact ⟨s, List.mem_append_left _ hs, hkey⟩
      · rintro ⟨s, hs, hkey⟩
        obtain hs | hs := List.mem_append.mp hs
        · exact ⟨s, hs, hkey⟩
        · rw [List.mem_singleton.mp hs] at hkey
          exact absurd hkey.1 hk
  · rw [List.map_append, List.pairwise_append]
    refine ⟨h.ordered, List.pairwise_singleton _ _, fun a ha b hb => ?_⟩
    obtain ⟨s, hs, rfl⟩ := List.mem_map.mp ha
    rw [List.map_singleton, List.mem_singleton] at hb
    exact hb ▸ hnew s hs
  · intro s hs
    obtain hs | hs := List.mem_append.mp hs
    · exact h.ids s hs
    · exact List.mem_singleton.mp hs ▸ hid
  · intro s hs
    obtain hs | hs := List.mem_append.mp hs
    · exact h.encoded s hs
    · rw [List.mem_singleton.mp hs, hof]
      exact hrecord

/-- The oldest records are gone. -/
theorem Holds.drop (h : Holds J n sets) (count : Nat) {J' : Dir}
    (hJ' : J'.entries = fun k =>
      if k ∈ (sets.take count).map fun set => txKey set.transactionId then none
      else J.entries k) :
    Holds J' n (sets.drop count) := by
  have hsplit := List.take_append_drop count sets
  have hsub : ∀ s ∈ sets.drop count, s ∈ sets := fun s hs => List.mem_of_mem_drop hs
  have hordered := h.ordered
  rw [← hsplit, List.map_append, List.pairwise_append] at hordered
  obtain ⟨-, hdrop, hbelow⟩ := hordered
  refine ⟨fun k e => ?_, h.positive, h.range, hdrop, fun s hs => h.ids s (hsub s hs),
    fun s hs => h.encoded s (hsub s hs)⟩
  rw [hJ']
  by_cases hk : k ∈ (sets.take count).map fun set => txKey set.transactionId
  · simp only [hk, if_true, reduceCtorEq, false_iff]
    obtain ⟨old, hold, rfl⟩ := List.mem_map.mp hk
    have holdid : old.transactionId < 2 ^ 64 := h.ids old (List.mem_of_mem_take hold)
    rintro (⟨hfalse, -⟩ | ⟨s, hs, hkey, -⟩)
    · exact absurd hfalse (configKey_lt_txKey _).ne'
    · have heq := txKey_inj holdid (h.ids s (hsub s hs)) hkey
      have hlt := hbelow _ (List.mem_map_of_mem hold) _ (List.mem_map_of_mem hs)
      exact absurd heq hlt.ne
  · simp only [hk, if_false]
    rw [h.entries]
    refine or_congr_right ⟨?_, ?_⟩
    · rintro ⟨s, hs, rfl, rfl⟩
      rw [← hsplit] at hs
      obtain hs | hs := List.mem_append.mp hs
      · exact absurd (List.mem_map_of_mem hs) hk
      · exact ⟨s, hs, rfl, rfl⟩
    · rintro ⟨s, hs, hkey⟩
      exact ⟨s, hsub s hs, hkey⟩

/-- Another configuration. -/
theorem Holds.configure (h : Holds J n sets) {m : Nat} (hpos : 0 < m) (hm : m < 2 ^ 64) :
    Holds (J.insert configKey (.value (beBytes 8 m))) m sets := by
  refine ⟨fun k e => ?_, hpos, hm, h.ordered, h.ids, h.encoded⟩
  by_cases hk : k = configKey
  · subst hk
    rw [Dir.insert_entries_self]
    constructor
    · intro he
      exact .inl ⟨rfl, (Option.some.inj he).symm⟩
    · rintro (⟨-, rfl⟩ | ⟨s, -, hkey, -⟩)
      · rfl
      · exact absurd hkey (configKey_lt_txKey _).ne
  · rw [Dir.insert_entries_ne _ hk, h.entries]
    simp [hk]

/-- The configured number. -/
theorem Holds.wp_retention (h : Holds J n sets) (post : Except Error Nat → Dir → Prop) :
    Prog.wp (Dir.serve Lists) retention J post ↔ post (.ok n) J := by
  unfold retention
  simp [Program.getKv, Dir.run, h.config, Dir.pairOf, Program.valueOf, decodeU64_beBytes h.range]

/-- No record has a new id. -/
theorem Holds.fresh (h : Holds J n sets) {id : Nat} (hid : id < 2 ^ 64)
    (hnew : ∀ s ∈ sets, s.transactionId < id) : J.entries (txKey id) = none := by
  by_contra hne
  obtain ⟨e, he⟩ := Option.ne_none_iff_exists'.mp hne
  obtain ⟨hfalse, -⟩ | ⟨s, hs, hkey, -⟩ := (h.entries _ _).mp he
  · exact (configKey_lt_txKey _).ne' hfalse
  · exact (hnew s hs).ne (txKey_inj hid (h.ids s hs) hkey).symm

theorem Holds.keys_nodup (h : Holds J n sets) (count : Nat) :
    ((sets.take count).map fun set => txKey set.transactionId).Nodup :=
  ((txKeys_ordered h.ordered h.ids).imp fun hlt => hlt.ne).sublist
    ((List.take_sublist _ _).map _)

theorem Holds.keys_value (h : Holds J n sets) (count : Nat) :
    ∀ k ∈ (sets.take count).map fun set => txKey set.transactionId,
      ∃ v, J.entries k = some (.value v) := by
  intro k hk
  obtain ⟨set, hset, rfl⟩ := List.mem_map.mp hk
  exact ⟨_, h.record (List.mem_of_mem_take hset)⟩

theorem trim_spec (h : Holds J n sets) :
    Prog.wp (Dir.serve Lists) (trim n) J fun r J' =>
      r = .ok () ∧ Holds J' n (sets.drop (sets.length - n)) := by
  unfold trim Program.kvPairs
  simp only [Prog.wp_bind, wp_items, Prog.andThen_ok, Prog.wp_pure]
  intro l hl
  rw [h.kvPairs hl, recordKeys_pairsIn h.ids, List.length_map, ← List.map_take]
  refine Prog.wp_mono (deleteEach_spec (h.keys_nodup _) (h.keys_value _)) ?_
  rintro r J' ⟨rfl, hJ'⟩
  exact ⟨rfl, h.drop _ hJ'⟩

theorem exists_trim (h : Holds J n sets) :
    ∃ J', Prog.Ends (Dir.serve Lists) (trim n) J (.ok ()) J' := by
  obtain ⟨J', hdelete⟩ :=
    exists_deleteEach (h.keys_nodup (sets.length - n)) (h.keys_value (sets.length - n))
  refine ⟨J', ?_⟩
  rw [Prog.ends_iff_wp]
  intro hwp
  unfold trim Program.kvPairs at hwp
  simp only [Prog.wp_bind, wp_items, Prog.andThen_ok, Prog.wp_pure] at hwp
  have hrun := hwp _ h.lists
  rw [h.kvPairs h.lists, recordKeys_pairsIn h.ids, List.length_map, ← List.map_take] at hrun
  exact Prog.ends_iff_wp.mp hdelete hrun

/-- `append` keeps the newest records. -/
theorem append_spec (h : Holds J n sets) {set : ChangeSet} (hid : set.transactionId < 2 ^ 64)
    (hnew : ∀ s ∈ sets, s.transactionId < set.transactionId) :
    Prog.wp (Dir.serve Lists) (append set) J fun r J' =>
      r = .ok () → Holds J' n ((sets ++ [set]).drop (sets.length + 1 - n)) := by
  unfold append
  rw [Prog.wp_bind, h.wp_retention, Prog.andThen_ok, Prog.wp_bind, Prog.wp_ofExcept]
  cases hrecord : encodeChangeSet set with
  | error e => exact fun hfalse => by cases hfalse
  | ok record =>
    simp only [Prog.andThen_ok, Prog.wp_bind, Program.put, wp_perform, Dir.run,
      h.fresh hid hnew, Prog.wp_pure]
    refine Prog.wp_mono (trim_spec (h.insert hid hnew hrecord)) ?_
    rintro r J'' ⟨-, hholds⟩ -
    rwa [List.length_append, List.length_singleton] at hholds

/-- A set that can be encoded is stored. -/
theorem exists_append (h : Holds J n sets) {set : ChangeSet} {record : Bytes}
    (hid : set.transactionId < 2 ^ 64)
    (hnew : ∀ s ∈ sets, s.transactionId < set.transactionId)
    (hrecord : encodeChangeSet set = .ok record) :
    ∃ J', Prog.Ends (Dir.serve Lists) (append set) J (.ok ()) J' := by
  obtain ⟨J', htrim⟩ := exists_trim (h.insert hid hnew hrecord)
  refine ⟨J', ?_⟩
  rw [Prog.ends_iff_wp]
  intro hwp
  unfold append at hwp
  rw [Prog.wp_bind, h.wp_retention, Prog.andThen_ok, Prog.wp_bind, Prog.wp_ofExcept,
    hrecord] at hwp
  simp only [Prog.andThen_ok, Prog.wp_bind, Program.put, wp_perform, Dir.run, h.fresh hid hnew,
    Prog.wp_pure] at hwp
  exact Prog.ends_iff_wp.mp htrim hwp

end Writing

/-! ## Reading -/

section Reading

variable {J : Dir} {n : Nat} {sets : List ChangeSet}

theorem replay_records (after limit : Nat) (transactions : List ChangeSet) {sets : List ChangeSet}
    (hencoded : ∀ set ∈ sets, encodeChangeSet set = .ok (recordOf set))
    (hlimit : transactions.length + sets.length ≤ limit) :
    replay after limit none (sets.map fun set => (set.transactionId, recordOf set))
        transactions =
      .ok (transactions ++ sets.filter fun set => after < set.transactionId) := by
  induction sets generalizing transactions with
  | nil => simp [replay]
  | cons set sets ih =>
    have hrest : ∀ s ∈ sets, encodeChangeSet s = .ok (recordOf s) :=
      fun s hs => hencoded s (List.mem_cons_of_mem _ hs)
    rw [List.length_cons] at hlimit
    rw [List.map_cons, replay]
    by_cases hid : set.transactionId ≤ after
    · rw [if_pos (.inl hid), ih _ hrest (by omega), List.filter_cons_of_neg (by simpa using hid)]
    · have hfull : transactions.length ≠ limit := by omega
      rw [if_neg (by simp [hid, hfull]),
        decodeChangeSet_encodeChangeSet (hencoded set (by simp))]
      change replay after limit none _ (transactions ++ [retain none set]) = _
      rw [ih _ hrest (by simp; omega), List.filter_cons_of_pos (by simpa using hid)]
      simp [retain]

/-- What `replay_journal` returns when nothing limits or filters it. -/
def replayOf (after : Nat) (sets : List ChangeSet) : JournalReplay where
  transactions := sets.filter fun set => after < set.transactionId
  gap := gap after (sets.head?.map ChangeSet.transactionId)
  oldestAvailable := sets.head?.map ChangeSet.transactionId
  newestAvailable := sets.getLast?.map ChangeSet.transactionId

theorem Holds.replayPairs (h : Holds J n sets) (after : Nat) (hlimit : sets.length ≤ maxU64) :
    replayPairs after maxU64 none (pairsIn n sets) = .ok (replayOf after sets) := by
  have hreplay := replay_records after maxU64 [] h.encoded (by simpa using hlimit)
  simp [Journal.replayPairs, replayOf, records_pairsIn h.ids, hreplay, bind, Except.bind, pure,
    Except.pure,
    Function.comp_def]

end Reading

end Tagdata.Analysis
