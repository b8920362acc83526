import Tagdata.Interface.Selections
import Tagdata.Analysis.JournalAppends
import Tagdata.Analysis.JournalRuns

/-!
# Replaying the journal in pages

A call of `replay_journal` returns the sets after an id, up to a limit.  A consumer that goes on
from the id of the last set it got sees every set once, whatever the limit is: the keys are in
the order of the ids, and a set counts towards the limit even if the filter leaves nothing of it.
-/

set_option autoImplicit false

namespace Tagdata.Analysis

open Tagdata.Library Tagdata.Model Tagdata.Interface Journal

/-! ## The ids of records -/

theorem decodeTxKey_eq_some {k : Bytes} {id : Nat} :
    decodeTxKey k = some id ↔ k = txKey id ∧ id < 2 ^ 64 := by
  constructor
  · intro h
    unfold decodeTxKey at h
    split at h
    · rename_i hk
      obtain ⟨hlength, hhead⟩ := hk
      cases k with
      | nil => cases hlength
      | cons b tail =>
        have htail : tail.length = 8 := by simpa using hlength
        obtain rfl : b = txPrefix := by simpa using hhead
        obtain rfl : ofBeBytes tail = id := Option.some.inj h
        refine ⟨?_, ?_⟩
        · rw [txKey, ← htail, beBytes_ofBeBytes]
        · have hlt := ofBeBytes_lt tail
          rw [htail] at hlt
          exact hlt
    · cases h
  · rintro ⟨rfl, hid⟩
    exact decodeTxKey_txKey hid

theorem lt_of_txKey_lt {m n : Nat} (hm : m < 2 ^ 64) (h : txKey m < txKey n) : m < n := by
  by_contra hle
  rcases Nat.lt_or_eq_of_le (Nat.le_of_not_lt hle) with hlt | rfl
  · exact absurd (txKey_lt hlt hm) (lt_asymm h)
  · exact lt_irrefl _ h

/-- The records are the pairs under the keys of transactions. -/
theorem mem_records {pairs : List (Bytes × Bytes)} {record : Nat × Bytes} :
    record ∈ records pairs ↔ record.1 < 2 ^ 64 ∧ (txKey record.1, record.2) ∈ pairs := by
  constructor
  · intro h
    obtain ⟨pair, hpair, hrecord⟩ := List.mem_filterMap.mp h
    obtain ⟨id, hid, rfl⟩ := Option.map_eq_some_iff.mp hrecord
    obtain ⟨hkey, hlt⟩ := decodeTxKey_eq_some.mp hid
    exact ⟨hlt, hkey ▸ hpair⟩
  · rintro ⟨hlt, hpair⟩
    refine List.mem_filterMap.mpr ⟨_, hpair, ?_⟩
    rw [decodeTxKey_eq_some.mpr ⟨rfl, hlt⟩]
    rfl

/-- The records of a journal have increasing ids. -/
theorem records_ordered {J : Dir} {l : List Data} (hl : Lists J l) :
    (records (l.filterMap Data.kvPair)).Pairwise fun a b => a.1 < b.1 := by
  have hkeys := hl.sorted.sublist (kvPair_keys_sublist l)
  rw [List.pairwise_map] at hkeys
  rw [records, List.pairwise_filterMap]
  refine hkeys.imp fun {p q} hpq x hx y hy => ?_
  obtain ⟨m, hm, rfl⟩ := Option.map_eq_some_iff.mp hx
  obtain ⟨n, hn, rfl⟩ := Option.map_eq_some_iff.mp hy
  obtain ⟨hp, hlt⟩ := decodeTxKey_eq_some.mp hm
  obtain ⟨hq, -⟩ := decodeTxKey_eq_some.mp hn
  rw [hp, hq] at hpq
  exact lt_of_txKey_lt hlt hpq

/-! ## What one call returns -/

/-- The sets of records, reduced to what the filter selects. -/
def decodeAll (filter : Option WatchFilter) : List (Nat × Bytes) → Except Error (List ChangeSet)
  | [] => .ok []
  | (id, bytes) :: records => do
      let set ← decodeChangeSet id bytes
      let sets ← decodeAll filter records
      return retain filter set :: sets

/-- The records after an id. -/
def recordsAfter (after : Nat) (records : List (Nat × Bytes)) : List (Nat × Bytes) :=
  records.filter fun record => after < record.1

section Decoding

variable {filter : Option WatchFilter}

theorem decodeAll_append (xs ys : List (Nat × Bytes)) :
    decodeAll filter (xs ++ ys) = do
      let first ← decodeAll filter xs
      let second ← decodeAll filter ys
      return first ++ second := by
  induction xs with
  | nil =>
    show decodeAll filter ys = decodeAll filter ys >>= fun second => .ok ([] ++ second)
    cases decodeAll filter ys <;> rfl
  | cons x xs ih =>
    obtain ⟨id, bytes⟩ := x
    rw [List.cons_append, decodeAll, decodeAll, ih]
    cases decodeChangeSet id bytes with
    | error e => rfl
    | ok set =>
      cases decodeAll filter xs with
      | error e => rfl
      | ok first => cases decodeAll filter ys <;> rfl

theorem retain_id (set : ChangeSet) : (retain filter set).transactionId = set.transactionId := by
  cases filter <;> rfl

theorem decodeChangeSet_id {id : Nat} {bytes : Bytes} {set : ChangeSet}
    (h : decodeChangeSet id bytes = .ok set) : set.transactionId = id := by
  unfold decodeChangeSet at h
  cases hrun : decodeRecord.run bytes with
  | error e =>
    rw [hrun] at h
    cases h
  | ok r =>
    obtain ⟨⟨truncated, changes⟩, remaining⟩ := r
    rw [hrun] at h
    cases remaining with
    | nil => exact (Except.ok.inj h) ▸ rfl
    | cons b remaining => cases h

/-- Each record gives the set with its id. -/
theorem decodeAll_ids {records : List (Nat × Bytes)} {sets : List ChangeSet}
    (h : decodeAll filter records = .ok sets) :
    sets.map ChangeSet.transactionId = records.map Prod.fst := by
  induction records generalizing sets with
  | nil => rw [← Except.ok.inj h]; rfl
  | cons x records ih =>
    obtain ⟨id, bytes⟩ := x
    rw [decodeAll] at h
    cases hset : decodeChangeSet id bytes with
    | error e =>
      rw [hset] at h
      cases h
    | ok set =>
      cases hsets : decodeAll filter records with
      | error e =>
        rw [hset, hsets] at h
        cases h
      | ok rest =>
        rw [hset, hsets] at h
        obtain rfl := Except.ok.inj h
        rw [List.map_cons, List.map_cons, ih hsets, retain_id, decodeChangeSet_id hset]

/-- Each set comes from one of the records. -/
theorem decodeAll_mem {records : List (Nat × Bytes)} {sets : List ChangeSet}
    (h : decodeAll filter records = .ok sets) {set : ChangeSet} (hset : set ∈ sets) :
    ∃ record ∈ records, ∃ whole,
      decodeChangeSet record.1 record.2 = .ok whole ∧ set = retain filter whole := by
  induction records generalizing sets with
  | nil =>
    rw [← Except.ok.inj h] at hset
    cases hset
  | cons x records ih =>
    obtain ⟨id, bytes⟩ := x
    rw [decodeAll] at h
    cases hwhole : decodeChangeSet id bytes with
    | error e =>
      rw [hwhole] at h
      cases h
    | ok whole =>
      cases hsets : decodeAll filter records with
      | error e =>
        rw [hwhole, hsets] at h
        cases h
      | ok rest =>
        rw [hwhole, hsets] at h
        obtain rfl := Except.ok.inj h
        rcases List.mem_cons.mp hset with rfl | hset
        · exact ⟨(id, bytes), List.mem_cons_self, whole, hwhole, rfl⟩
        · obtain ⟨record, hrecord, hdecoded⟩ := ih hsets hset
          exact ⟨record, List.mem_cons_of_mem _ hrecord, hdecoded⟩

/-- The loop of `replay_journal` decodes the records after the id, up to the limit. -/
theorem replay_eq (after limit : Nat) (records : List (Nat × Bytes)) (sets : List ChangeSet)
    (hlength : sets.length ≤ limit) :
    replay after limit filter records sets =
      (decodeAll filter ((recordsAfter after records).take (limit - sets.length))).map
        (sets ++ ·) := by
  induction records generalizing sets with
  | nil => simp [replay, recordsAfter, decodeAll, Except.map]
  | cons x records ih =>
    obtain ⟨id, bytes⟩ := x
    rw [replay]
    by_cases hid : id ≤ after
    · rw [if_pos (.inl hid), ih sets hlength]
      simp [recordsAfter, Nat.not_lt.mpr hid]
    · by_cases hfull : sets.length = limit
      · rw [if_pos (.inr hfull), ih sets hlength, hfull]
        simp
      · have hrest : (recordsAfter after ((id, bytes) :: records)).take (limit - sets.length) =
            (id, bytes) :: (recordsAfter after records).take (limit - (sets.length + 1)) := by
          have hpos : limit - sets.length = limit - (sets.length + 1) + 1 := by omega
          rw [recordsAfter, List.filter_cons_of_pos (by simpa using hid), hpos, List.take_succ_cons]
          rfl
        rw [if_neg (by simp [hid, hfull]), hrest, decodeAll]
        cases decodeChangeSet id bytes with
        | error e => rfl
        | ok set =>
          have hstep := ih (sets ++ [retain filter set]) (by simp; omega)
          rw [List.length_append, List.length_singleton] at hstep
          show replay after limit filter records (sets ++ [retain filter set]) = _
          rw [hstep]
          cases decodeAll filter ((recordsAfter after records).take
            (limit - (sets.length + 1))) with
          | error e => rfl
          | ok rest => simp [Except.map, bind, Except.bind, pure, Except.pure]

theorem replayPairs_eq (after limit : Nat) (pairs : List (Bytes × Bytes)) :
    (replayPairs after limit filter pairs).map JournalReplay.transactions =
      decodeAll filter ((recordsAfter after (records pairs)).take limit) := by
  have hreplay : replay after limit filter (records pairs) [] =
      (decodeAll filter ((recordsAfter after (records pairs)).take limit)).map ([] ++ ·) :=
    replay_eq after limit (records pairs) [] (Nat.zero_le _)
  show Except.map JournalReplay.transactions
    (replay after limit filter (records pairs) [] >>= _) = _
  rw [hreplay]
  cases decodeAll filter ((recordsAfter after (records pairs)).take limit) <;> rfl

end Decoding

/-- The records that `replay_journal` finds. -/
inductive Finds (d : Dir) : Except Error (List (Nat × Bytes)) → Prop
  | absent (h : d.entries journalBucket = none) : Finds d (.ok [])
  | record {v : Bytes} (h : d.entries journalBucket = some (.value v)) :
      Finds d (.error .incompatibleValue)
  | journal {J : Dir} {l : List Data} (h : d.entries journalBucket = some (.bucket J))
      (hl : Lists J l) : Finds d (.ok (records (l.filterMap Data.kvPair)))

section Calls

variable {d d' : Dir} {found : Except Error (List (Nat × Bytes))} {after limit : Nat}
  {filter : Option WatchFilter} {r : Except Error JournalReplay}

theorem Finds.ordered {rs : List (Nat × Bytes)} (h : Finds d (.ok rs)) :
    rs.Pairwise (fun a b => a.1 < b.1) ∧ ∀ record ∈ rs, record.1 < 2 ^ 64 := by
  cases h with
  | absent h => exact ⟨.nil, by simp⟩
  | journal h hl => exact ⟨records_ordered hl, fun record hr => (mem_records.mp hr).1⟩

/-- Every call reads the same records. -/
theorem Finds.ends (h : Finds d found)
    (hends : Prog.Ends (Dir.serve Lists) (replayJournal after limit filter) d r d') :
    d' = d ∧ r.map JournalReplay.transactions = found >>= fun rs =>
      decodeAll filter ((recordsAfter after rs).take limit) := by
  have hwp : Prog.wp (Dir.serve Lists) (replayJournal after limit filter) d fun r d' =>
      d' = d ∧ r.map JournalReplay.transactions = found >>= fun rs =>
        decodeAll filter ((recordsAfter after rs).take limit) := by
    unfold replayJournal
    rw [Prog.wp_bind, wp_attempt, Prog.andThen_ok]
    cases h with
    | absent h =>
      simp only [Dir.run, h]
      exact ⟨rfl, by simp [recordsAfter, decodeAll, JournalReplay.default, Except.map, bind,
        Except.bind]⟩
    | record h =>
      simp only [Dir.run, h]
      exact ⟨rfl, rfl⟩
    | @journal J l h hl =>
      simp only [Dir.run, h, Prog.wp_bind]
      rw [wp_inside h]
      unfold Program.kvPairs
      simp only [Prog.wp_bind, wp_items, Prog.andThen_ok, Prog.wp_pure, Prog.wp_ofExcept]
      intro l' hl'
      exact ⟨Dir.set_self h, by rw [hl'.unique hl]; exact replayPairs_eq _ _ _⟩
  exact Prog.wp_iff_ends.mp hwp r d' hends

/-- Every call returns. -/
theorem Finds.exists_ends (h : Finds d found) (after limit : Nat) (filter : Option WatchFilter) :
    ∃ r, Prog.Ends (Dir.serve Lists) (replayJournal after limit filter) d r d := by
  by_contra hnone
  have hwp : Prog.wp (Dir.serve Lists) (replayJournal after limit filter) d fun _ _ => False := by
    refine Prog.wp_iff_ends.mpr fun r d' hends => hnone ⟨r, ?_⟩
    rwa [(h.ends hends).1] at hends
  unfold replayJournal at hwp
  rw [Prog.wp_bind, wp_attempt, Prog.andThen_ok] at hwp
  cases h with
  | absent h =>
    simp only [Dir.run, h] at hwp
    exact hwp
  | record h =>
    simp only [Dir.run, h] at hwp
    exact hwp
  | @journal J l h hl =>
    simp only [Dir.run, h, Prog.wp_bind] at hwp
    rw [wp_inside h] at hwp
    unfold Program.kvPairs at hwp
    simp only [Prog.wp_bind, wp_items, Prog.andThen_ok, Prog.wp_pure, Prog.wp_ofExcept] at hwp
    exact hwp l hl

end Calls

/-! ## Pages -/

/-- What a consumer gets that calls `replay_journal` again and again, each time after the id of
the last set it got, until it gets no set or an error. -/
inductive Paged (d : Dir) (limit : Nat) (filter : Option WatchFilter) :
    Nat → Except Error (List ChangeSet) → Prop
  | done {after : Nat} {replay : JournalReplay}
      (hends : Prog.Ends (Dir.serve Lists) (replayJournal after limit filter) d (.ok replay) d)
      (hempty : replay.transactions = []) : Paged d limit filter after (.ok [])
  | page {after : Nat} {replay : JournalReplay} {last : ChangeSet}
      {r : Except Error (List ChangeSet)}
      (hends : Prog.Ends (Dir.serve Lists) (replayJournal after limit filter) d (.ok replay) d)
      (hlast : replay.transactions.getLast? = some last)
      (hrest : Paged d limit filter last.transactionId r) :
      Paged d limit filter after (r.map (replay.transactions ++ ·))
  | failed {after : Nat} {e : Error}
      (hends : Prog.Ends (Dir.serve Lists) (replayJournal after limit filter) d (.error e) d) :
      Paged d limit filter after (.error e)

/-- The set, reduced when there is a filter. -/
def reducedBy : Option WatchFilter → ChangeSet → ChangeSet
  | none, whole => whole
  | some f, whole => reduced f whole

/-- The journal holds these bytes as the record of a transaction. -/
def Journaled (d : Dir) (id : Nat) (bytes : Bytes) : Prop :=
  ∃ J, d.entries journalBucket = some (.bucket J) ∧ J.entries (txKey id) = some (.value bytes)

/-- The sets are those of all records after an id, in the order of the ids, each with the changes
that the filter asks for. -/
structure Replays (d : Dir) (after : Nat) (filter : Option WatchFilter) (sets : List ChangeSet) :
    Prop where
  ordered : (sets.map ChangeSet.transactionId).Pairwise (· < ·)
  recorded : ∀ set ∈ sets, after < set.transactionId ∧
    ∃ bytes whole, Journaled d set.transactionId bytes ∧
      decodeChangeSet set.transactionId bytes = .ok whole ∧ set = reducedBy filter whole
  complete : ∀ id bytes, Journaled d id bytes → after < id → id < 2 ^ 64 →
    id ∈ sets.map ChangeSet.transactionId

section Pages

variable {d : Dir} {limit : Nat} {filter : Option WatchFilter} {rs : List (Nat × Bytes)}

/-- The records after the last one of a page are those that the page has left. -/
theorem recordsAfter_last (hordered : rs.Pairwise fun a b => a.1 < b.1) (after limit : Nat)
    {last : Nat × Bytes} (hlast : ((recordsAfter after rs).take limit).getLast? = some last) :
    recordsAfter last.1 rs = (recordsAfter after rs).drop limit := by
  have hafter : (recordsAfter after rs).Pairwise fun a b => a.1 < b.1 := hordered.filter _
  have hmem : last ∈ recordsAfter after rs := List.mem_of_mem_take (List.mem_of_getLast? hlast)
  have hlater : after < last.1 := by simpa using (List.mem_filter.mp hmem).2
  -- what comes after the last one comes after `after`
  have hsame : recordsAfter last.1 rs = recordsAfter last.1 (recordsAfter after rs) := by
    rw [recordsAfter, recordsAfter, recordsAfter, List.filter_filter]
    refine List.filter_congr fun record _ => ?_
    by_cases h : last.1 < record.1
    · simp [h, hlater.trans h]
    · simp [h]
  rw [hsame]
  rw [← List.take_append_drop limit (recordsAfter after rs), List.pairwise_append] at hafter
  obtain ⟨htake, -, hcross⟩ := hafter
  have hsplit : recordsAfter last.1 (recordsAfter after rs) =
      recordsAfter last.1 ((recordsAfter after rs).take limit) ++
        recordsAfter last.1 ((recordsAfter after rs).drop limit) := by
    unfold recordsAfter
    rw [← List.filter_append, List.take_append_drop]
  have hfirst : recordsAfter last.1 ((recordsAfter after rs).take limit) = [] := by
    rw [recordsAfter, List.filter_eq_nil_iff]
    intro record hrecord
    obtain ⟨init, hinit⟩ := List.getLast?_eq_some_iff.mp hlast
    rw [hinit, List.pairwise_append] at htake
    rw [hinit, List.mem_append, List.mem_singleton] at hrecord
    rcases hrecord with hrecord | rfl
    · have hlt := htake.2.2 record hrecord last (List.mem_singleton_self _)
      simpa using hlt.le
    · simp
  have hsecond : recordsAfter last.1 ((recordsAfter after rs).drop limit) =
      (recordsAfter after rs).drop limit := by
    rw [recordsAfter, List.filter_eq_self]
    intro record hrecord
    simpa using hcross last (List.mem_of_getLast? hlast) record hrecord
  rw [hsplit, hfirst, hsecond, List.nil_append]

/-- The last set of a page has the id of the last record of the page. -/
theorem getLast_ids {sets : List ChangeSet} {last : ChangeSet} {page : List (Nat × Bytes)}
    (h : decodeAll filter page = .ok sets) (hlast : sets.getLast? = some last) :
    ∃ record, page.getLast? = some record ∧ record.1 = last.transactionId := by
  have hids := congrArg List.getLast? (decodeAll_ids h)
  rw [List.getLast?_map, List.getLast?_map, hlast] at hids
  obtain ⟨record, hrecord, hid⟩ := Option.map_eq_some_iff.mp hids.symm
  exact ⟨record, hrecord, hid⟩

/-- A run of pages returns the sets of all records after the id. -/
theorem Paged.eq (hfinds : Finds d (.ok rs)) (hlimit : 1 ≤ limit) {after : Nat}
    {r : Except Error (List ChangeSet)} (h : Paged d limit filter after r) :
    r = decodeAll filter (recordsAfter after rs) := by
  have hpage : ∀ after r, Prog.Ends (Dir.serve Lists) (replayJournal after limit filter) d r d →
      r.map JournalReplay.transactions =
        decodeAll filter ((recordsAfter after rs).take limit) :=
    fun after r hends => (hfinds.ends hends).2
  have hsplit : ∀ after, decodeAll filter (recordsAfter after rs) = do
      let first ← decodeAll filter ((recordsAfter after rs).take limit)
      let second ← decodeAll filter ((recordsAfter after rs).drop limit)
      return first ++ second := by
    intro after
    rw [← decodeAll_append, List.take_append_drop]
  induction h with
  | @done after replay hends hempty =>
    have hsets : decodeAll filter ((recordsAfter after rs).take limit) = .ok [] := by
      rw [← hpage after _ hends, ← hempty]
      rfl
    have hnone : recordsAfter after rs = [] := by
      have hids : [] = ((recordsAfter after rs).take limit).map Prod.fst := decodeAll_ids hsets
      have htake := List.map_eq_nil_iff.mp hids.symm
      exact (List.take_eq_nil_iff.mp htake).resolve_left (by omega)
    rw [hnone]
    rfl
  | @page after replay last r hends hlast hrest ih =>
    have hsets : decodeAll filter ((recordsAfter after rs).take limit) = .ok replay.transactions :=
      (hpage after _ hends).symm
    obtain ⟨record, hrecord, hid⟩ := getLast_ids hsets hlast
    rw [ih, hsplit after, hsets, ← hid, recordsAfter_last hfinds.ordered.1 after limit hrecord]
    cases decodeAll filter ((recordsAfter after rs).drop limit) <;> rfl
  | @failed after e hends =>
    have hsets : decodeAll filter ((recordsAfter after rs).take limit) = .error e :=
      (hpage after _ hends).symm
    rw [hsplit after, hsets]
    rfl

/-- A run of pages comes to its end. -/
theorem exists_paged (hfinds : Finds d (.ok rs)) (hlimit : 1 ≤ limit) (after : Nat) :
    ∃ r, Paged d limit filter after r := by
  induction hlen : (recordsAfter after rs).length using Nat.strong_induction_on
    generalizing after with
  | _ n ih =>
    obtain ⟨r, hends⟩ := hfinds.exists_ends after limit filter
    have hpage := (hfinds.ends hends).2
    cases r with
    | error e => exact ⟨_, .failed hends⟩
    | ok replay =>
      have hsets : decodeAll filter ((recordsAfter after rs).take limit) =
          .ok replay.transactions :=
        hpage.symm
      cases hlast : replay.transactions.getLast? with
      | none => exact ⟨_, .done hends (List.getLast?_eq_none_iff.mp hlast)⟩
      | some last =>
        obtain ⟨record, hrecord, hid⟩ := getLast_ids hsets hlast
        have hne : recordsAfter after rs ≠ [] := by
          intro hnil
          rw [hnil, List.take_nil] at hrecord
          cases hrecord
        have hshorter : (recordsAfter last.transactionId rs).length < n := by
          rw [← hid, recordsAfter_last hfinds.ordered.1 after limit hrecord, List.length_drop]
          have hpos := List.length_pos_iff.mpr hne
          omega
        obtain ⟨r, hrest⟩ := ih _ hshorter _ rfl
        exact ⟨_, .page hends hlast hrest⟩

/-- There are fewer records after an id than the largest limit. -/
theorem recordsAfter_length (hordered : rs.Pairwise fun a b => a.1 < b.1)
    (hrange : ∀ record ∈ rs, record.1 < 2 ^ 64) (after : Nat) :
    (recordsAfter after rs).length ≤ maxU64 := by
  have hids : ((recordsAfter after rs).map Prod.fst).Pairwise (· < ·) :=
    List.pairwise_map.mpr (hordered.filter _)
  have hsubset : ((recordsAfter after rs).map Prod.fst).toFinset ⊆ Finset.Ioo after (2 ^ 64) := by
    intro id hid
    obtain ⟨record, hrecord, rfl⟩ := List.mem_map.mp (List.mem_toFinset.mp hid)
    obtain ⟨hmem, hafter⟩ := List.mem_filter.mp hrecord
    exact Finset.mem_Ioo.mpr ⟨by simpa using hafter, hrange record hmem⟩
  have hcard := Finset.card_le_card hsubset
  rw [List.toFinset_card_of_nodup (hids.imp fun h => h.ne), List.length_map, Nat.card_Ioo] at hcard
  rw [maxU64]
  omega

/-- The largest limit is no limit. -/
theorem Finds.unlimited (hfinds : Finds d (.ok rs)) {after : Nat} {u : Except Error JournalReplay}
    (hends : Prog.Ends (Dir.serve Lists) (replayJournal after maxU64 filter) d u d) :
    u.map JournalReplay.transactions = decodeAll filter (recordsAfter after rs) := by
  obtain ⟨hordered, hrange⟩ := hfinds.ordered
  have hall : u.map JournalReplay.transactions =
      decodeAll filter ((recordsAfter after rs).take maxU64) := (hfinds.ends hends).2
  rwa [List.take_of_length_le (recordsAfter_length hordered hrange after)] at hall

/-- What `replay_journal` keeps of a set is what the filter asks for. -/
theorem retain_eq (whole : ChangeSet) : retain filter whole = reducedBy filter whole := by
  cases filter with
  | none => rfl
  | some f => rw [retain, filter_matches, reducedBy, reduced]

/-- The records that are found are those that the journal holds. -/
theorem Finds.mem (hfinds : Finds d (.ok rs)) {record : Nat × Bytes} :
    record ∈ rs ↔ record.1 < 2 ^ 64 ∧ Journaled d record.1 record.2 := by
  cases hfinds with
  | absent h =>
    refine ⟨fun hr => (List.not_mem_nil hr).elim, fun hr => ?_⟩
    obtain ⟨-, J, hJ, -⟩ := hr
    rw [h] at hJ
    cases hJ
  | @journal J l h hl =>
    have hpair : (txKey record.1, record.2) ∈ l.filterMap Data.kvPair ↔
        J.entries (txKey record.1) = some (.value record.2) := mem_pairsOf hl
    rw [mem_records, hpair]
    refine and_congr_right fun _ => ⟨fun hr => ⟨J, h, hr⟩, fun ⟨J', hJ', hr⟩ => ?_⟩
    rw [h] at hJ'
    exact (Entry.bucket.inj (Option.some.inj hJ')) ▸ hr

/-- The sets of all records after an id are what the journal owes a consumer. -/
theorem Finds.replays (hfinds : Finds d (.ok rs)) {after : Nat} {sets : List ChangeSet}
    (h : decodeAll filter (recordsAfter after rs) = .ok sets) : Replays d after filter sets := by
  have hids := decodeAll_ids h
  refine ⟨?_, fun set hset => ?_, fun id bytes hrecord hafter hid => ?_⟩
  · rw [hids, List.pairwise_map]
    exact hfinds.ordered.1.filter _
  · obtain ⟨record, hrecord, whole, hwhole, rfl⟩ := decodeAll_mem h hset
    obtain ⟨hmem, hafter⟩ := List.mem_filter.mp hrecord
    rw [retain_id, decodeChangeSet_id hwhole]
    exact ⟨by simpa using hafter, record.2, whole, (hfinds.mem.mp hmem).2, hwhole, retain_eq whole⟩
  · rw [hids]
    have hmem : (id, bytes) ∈ recordsAfter after rs :=
      List.mem_filter.mpr ⟨hfinds.mem.mpr ⟨hid, hrecord⟩, by simpa using hafter⟩
    exact List.mem_map_of_mem hmem

/-- Where the name of the journal is taken by a record, every call fails alike. -/
theorem Paged.of_error {e : Error} (hfinds : Finds d (.error e)) {after : Nat}
    {r : Except Error (List ChangeSet)} (h : Paged d limit filter after r) : r = .error e := by
  cases h with
  | done hends _ => cases (hfinds.ends hends).2
  | page hends _ _ => cases (hfinds.ends hends).2
  | failed hends => exact (hfinds.ends hends).2

end Pages

/-- **Replay in pages.**  A consumer that goes on from page to page comes to an end and has got
what one call without a limit returns.  These are the sets of all records after the start, in the
order of their ids and none twice, each with the changes that the filter asks for. -/
theorem replay_in_pages (d : Dir)
    (hfinite : ∀ J, d.entries journalBucket = some (.bucket J) → ∃ l, Lists J l)
    (after : Nat) {limit : Nat} (hlimit : 1 ≤ limit) (filter : Option WatchFilter) :
    (∃ r, Paged d limit filter after r) ∧
    (∃ u, Prog.Ends (Dir.serve Lists) (replayJournal after maxU64 filter) d u d) ∧
    ∀ r, Paged d limit filter after r →
      (∀ u, Prog.Ends (Dir.serve Lists) (replayJournal after maxU64 filter) d u d →
        u.map JournalReplay.transactions = r) ∧
      ∀ sets, r = .ok sets → Replays d after filter sets := by
  obtain ⟨found, hfinds⟩ : ∃ found, Finds d found := by
    rcases h : d.entries journalBucket with - | v | J
    · exact ⟨_, .absent h⟩
    · exact ⟨_, .record h⟩
    · obtain ⟨l, hl⟩ := hfinite J h
      exact ⟨_, .journal h hl⟩
  have hunlimited := hfinds.exists_ends after maxU64 filter
  cases found with
  | error e =>
    obtain ⟨r, hends⟩ := hfinds.exists_ends after limit filter
    refine ⟨?_, hunlimited, fun r hr => ?_⟩
    · cases r with
      | error e' => exact ⟨_, .failed hends⟩
      | ok replay => cases (hfinds.ends hends).2
    · obtain rfl := hr.of_error hfinds
      exact ⟨fun u hu => (hfinds.ends hu).2, fun sets h => by cases h⟩
  | ok rs =>
    refine ⟨exists_paged hfinds hlimit after, hunlimited, fun r hr => ?_⟩
    obtain rfl := hr.eq hfinds hlimit
    exact ⟨fun u hu => hfinds.unlimited hu, fun sets hsets => hfinds.replays hsets⟩

/-- The set of a transaction that put one key and deleted another. -/
def putAndDelete : ChangeSet :=
  ⟨1, [⟨[[98]], [1], .put⟩, ⟨[[98]], [2], .delete⟩], false⟩

/-- The set of a transaction that created a bucket. -/
def createOnly : ChangeSet := ⟨2, [⟨[], [99], .bucketCreate⟩], false⟩

/-- A journal with the records of both. -/
def twoRecords : Dir :=
  ((Dir.empty.insert configKey (.value (beBytes 8 3))).insert (txKey 1)
    (.value (recordOf putAndDelete))).insert (txKey 2) (.value (recordOf createOnly))

theorem twoRecords_holds : Holds twoRecords 3 [putAndDelete, createOnly] := by
  have hnew : Holds (Dir.empty.insert configKey (.value (beBytes 8 3))) 3 [] :=
    holds_new (by omega) (by omega)
  have hfirst : encodeChangeSet putAndDelete = .ok (recordOf putAndDelete) := by decide
  have hsecond : encodeChangeSet createOnly = .ok (recordOf createOnly) := by decide
  have hone := hnew.insert (by show 1 < 2 ^ 64; omega) (by simp) hfirst
  have htwo := hone.insert (by show 2 < 2 ^ 64; omega) (by simp [putAndDelete, createOnly]) hsecond
  rw [List.nil_append, List.singleton_append] at htwo
  unfold twoRecords
  exact htwo

/-- A database with that journal. -/
def twoRecordsRoot : Dir := Dir.empty.set journalBucket (some (.bucket twoRecords))

/-- Pages of one set each, for a consumer of puts: the second set counts although nothing of it is
asked for. -/
theorem replay_in_pages_single :
    Paged twoRecordsRoot 1 (some ⟨none, none, none, [.put]⟩) 0
      (.ok [⟨1, [⟨[[98]], [1], .put⟩], false⟩, ⟨2, [], false⟩]) ∧
    ∃ u, Prog.Ends (Dir.serve Lists) (replayJournal 0 maxU64 (some ⟨none, none, none, [.put]⟩))
        twoRecordsRoot u twoRecordsRoot ∧
      u.map JournalReplay.transactions =
        .ok [⟨1, [⟨[[98]], [1], .put⟩], false⟩, ⟨2, [], false⟩] := by
  have hjournal : twoRecordsRoot.entries journalBucket = some (.bucket twoRecords) :=
    Dir.set_entries_self _ _ _
  have hfinite : ∀ J, twoRecordsRoot.entries journalBucket = some (.bucket J) →
      ∃ l, Lists J l := by
    intro J hJ
    rw [hjournal] at hJ
    obtain rfl := Entry.bucket.inj (Option.some.inj hJ)
    exact ⟨_, twoRecords_holds.lists⟩
  obtain ⟨⟨r, hr⟩, ⟨u, hu⟩, hpages⟩ := replay_in_pages twoRecordsRoot hfinite 0 (le_refl 1)
    (some ⟨none, none, none, [.put]⟩)
  have hfinds := Finds.journal hjournal twoRecords_holds.lists
  rw [twoRecords_holds.kvPairs twoRecords_holds.lists, records_pairsIn twoRecords_holds.ids]
    at hfinds
  have htotal : r = .ok [⟨1, [⟨[[98]], [1], .put⟩], false⟩, ⟨2, [], false⟩] := by
    rw [hr.eq hfinds (le_refl 1)]
    decide
  subst htotal
  exact ⟨hr, u, hu, (hpages _ hr).1 u hu⟩

end Tagdata.Analysis
