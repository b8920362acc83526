import Tagdata.Analysis.JournalContents

/-!
# The journal along the runs of a database

Transactions begin, work, enable the journal, and commit or roll back.  Every commit stores the
set that is published, under the next id, so the journal holds the last sets of the history.
-/

set_option autoImplicit false

namespace Tagdata.Analysis

open Tagdata.Library Tagdata.Model Tagdata.Interface Journal

/-! ## Runs -/

/-- A database as its journal sees it: the id of the last commit, the committed content, the
content and the tracker of the running transaction, and the sets that were published. -/
structure JournalDb where
  txId : Nat
  root : Dir
  writer : Option (Dir × ChangeTracker)
  published : List ChangeSet

/-- The key an operation is about. -/
def opKey : Op → Option Bytes
  | .put k _ | .get k | .getKv k | .delete k | .createBucket k | .getOrCreateBucket k
  | .getBucket k | .deleteBucket k | .putIfAbsent k _ | .compareExchange k _ _
  | .deleteIfValue k _ => some k
  | .nextInt => none

/-- A request that cannot change the journal bucket. -/
def SparesJournal : Request → Prop
  | .call [] op => opKey op ≠ some journalBucket
  | .call (name :: _) _ => name ≠ journalBucket
  | .mergeNextInt path _ | .setNextInt path _ => path.head? ≠ some journalBucket
  | .scan _ | .scanBack _ | .seek _ _ => True

/-- What a tracker becomes by recording changes one after another. -/
def recordAll (t : ChangeTracker) (changes : List Model.Change) : ChangeTracker :=
  changes.foldl (fun t change => t.record change.bucketPath change.key change.operation) t

/-- `commit`: the snapshot of the changes is stored in the journal, and the set that is published
is taken from the tracker after the writes of the journal were offered to it. -/
def Commits (db db' : JournalDb) : Prop :=
  ∃ d t d' writes, db.writer = some (d, t) ∧
    (∀ change ∈ writes, change.bucketPath = [journalBucket]) ∧
    Prog.Ends (Dir.serve Lists) (persist (t.snapshot (db.txId + 1))) d (.ok ()) d' ∧
    db' = ⟨db.txId + 1, d', none,
      db.published ++ [(recordAll t writes).finish (db.txId + 1)]⟩

/-- The steps of a database.  The id of a transaction is a `u64`. -/
inductive JournalStep : JournalDb → JournalDb → Prop
  | begin (db : JournalDb) (hidle : db.writer = none) (hid : db.txId + 1 < 2 ^ 64) :
      JournalStep db { db with writer := some (db.root, .new true) }
  | work {db : JournalDb} {α : Type} (p : Program α) {d d' : Dir} {t : ChangeTracker}
      {r : Except Error α} (changes : List Model.Change) (hwriter : db.writer = some (d, t))
      (hspares : p.Only SparesJournal) (hends : Prog.Ends (Dir.serve Shows) p d r d') :
      JournalStep db { db with writer := some (d', recordAll t changes) }
  | enable {db : JournalDb} (config : JournalConfig) {d d' : Dir} {t : ChangeTracker}
      (hwriter : db.writer = some (d, t)) (hconfig : config.maxTransactions < 2 ^ 64)
      (hends : Prog.Ends (Dir.serve Shows) (enableJournal config) d (.ok ()) d') :
      JournalStep db { db with writer := some (d', t) }
  | commit {db db' : JournalDb} (h : Commits db db') : JournalStep db db'
  | rollback (db : JournalDb) : JournalStep db { db with writer := none }

/-- A database without a journal, after any history. -/
structure Unjournaled (db : JournalDb) : Prop where
  idle : db.writer = none
  absent : db.root.entries journalBucket = none
  history : db.published.map ChangeSet.transactionId = List.range' 1 db.txId
  range : db.txId < 2 ^ 64

/-! ## What a step does to the journal bucket -/

/-- The journal of a root holds the records of these sets; without a journal there are none. -/
def JournalOf (d : Dir) (sets : List ChangeSet) : Prop :=
  (d.entries journalBucket = none ∧ sets = []) ∨
    ∃ J n, d.entries journalBucket = some (.bucket J) ∧ Holds J n sets

/-- The journal was enabled. -/
def Enabled (d : Dir) : Prop := ∃ J, d.entries journalBucket = some (.bucket J)

theorem JournalOf.congr {d d' : Dir} {sets : List ChangeSet} (h : JournalOf d sets)
    (hd : d'.entries journalBucket = d.entries journalBucket) : JournalOf d' sets := by
  unfold JournalOf at h ⊢
  rwa [hd]

/-- An operation changes at most its own key. -/
theorem run_entries_of_ne (op : Op) (d : Dir) {k : Bytes} (hk : opKey op ≠ some k) :
    (Dir.run op d).2.entries k = d.entries k := by
  have hset : ∀ j e, some j ≠ some k → (d.set j e).entries k = d.entries k :=
    fun j e hj => Dir.set_entries_ne d (by simpa [eq_comm] using hj) e
  have hinsert : ∀ j e, some j ≠ some k → (d.insert j e).entries k = d.entries k :=
    fun j e hj => Dir.insert_entries_ne d (by simpa [eq_comm] using hj) e
  cases op with
  | put j v | createBucket j | getOrCreateBucket j =>
    simp only [Dir.run]
    rcases d.entries j with - | v | c <;> first | rfl | exact hinsert j _ hk
  | delete j | getBucket j | deleteBucket j =>
    simp only [Dir.run]
    rcases d.entries j with - | v | c <;> first | rfl | exact hset j _ hk
  | putIfAbsent j v =>
    simp only [Dir.run]
    rcases d.observe j with e | - | old <;> first | rfl | exact hinsert j _ hk
  | compareExchange j expected v =>
    simp only [Dir.run]
    rcases d.observe j with e | observed
    · rfl
    · by_cases heq : observed = expected
      · simpa [heq] using hinsert j _ hk
      · simp [heq]
  | deleteIfValue j expected =>
    simp only [Dir.run]
    rcases d.observe j with e | observed
    · rfl
    · by_cases heq : observed = some expected
      · simpa [heq] using hset j _ hk
      · simp [heq]
  | get j | getKv j | nextInt => rfl

/-- Something done below another name. -/
theorem atPath_entries_of_ne (f : Dir → Except Error Output × Dir) {name k : Bytes}
    (path : List Bytes) (d : Dir) (hname : name ≠ k) :
    (Dir.atPath f (name :: path) d).2.entries k = d.entries k := by
  rw [Dir.atPath]
  rcases d.entries name with - | v | c
  · rfl
  · rfl
  · exact Dir.set_entries_ne d hname.symm _

/-- A request of the user leaves the journal bucket as it is. -/
theorem serve_spares {seen : Dir → List Data → Prop} {d d' : Dir} {request : Request}
    {a : Except Error Answer} (hspares : SparesJournal request)
    (hserve : Dir.serve seen d request a d') :
    d'.entries journalBucket = d.entries journalBucket := by
  cases request with
  | call path op =>
    rw [hserve.2]
    cases path with
    | nil => exact run_entries_of_ne op d hspares
    | cons name path => exact atPath_entries_of_ne _ path d hspares
  | mergeNextInt path nextInt | setNextInt path nextInt =>
    rw [hserve.2]
    cases path with
    | nil => rfl
    | cons name path => exact atPath_entries_of_ne _ path d (by simpa [SparesJournal] using hspares)
  | scan path | scanBack path | seek path key => rw [hserve.2]

theorem work_spares {seen : Dir → List Data → Prop} {α : Type} {p : Program α} {d d' : Dir}
    {r : Except Error α} (hspares : p.Only SparesJournal)
    (hends : Prog.Ends (Dir.serve seen) p d r d') :
    d'.entries journalBucket = d.entries journalBucket := by
  have hkeeps : Prog.Keeps (Dir.serve seen)
      (fun x => x.entries journalBucket = d.entries journalBucket) p :=
    hspares.keeps fun s o a s' ho hrel hs => (serve_spares ho hrel).trans hs
  exact Prog.wp_iff_ends.mp (hkeeps d rfl) r d' hends

theorem holds_new {n : Nat} (hpos : 0 < n) (hn : n < 2 ^ 64) :
    Holds (Dir.empty.insert configKey (.value (beBytes 8 n))) n [] := by
  refine ⟨fun k e => ?_, hpos, hn, .nil, by simp, by simp⟩
  by_cases hk : k = configKey
  · subst hk
    simp [eq_comm]
  · simp [Dir.insert_entries_ne _ hk, Dir.empty, hk]

/-- `enable_journal` keeps the records. -/
theorem enable_spec {seen : Dir → List Data → Prop} {config : JournalConfig} {d : Dir}
    {sets : List ChangeSet} (h : JournalOf d sets) (hpos : 0 < config.maxTransactions)
    (hconfig : config.maxTransactions < 2 ^ 64) :
    Prog.wp (Dir.serve seen) (enableJournal config) d fun r d' =>
      r = .ok () ∧ ∃ J, d'.entries journalBucket = some (.bucket J) ∧
        Holds J config.maxTransactions sets := by
  unfold enableJournal
  rw [if_neg hpos.ne']
  obtain ⟨hnone, rfl⟩ | ⟨J, n, hJ, hholds⟩ := h
  · simp only [Prog.wp_bind, wp_perform, Dir.run, hnone, Prog.andThen_ok]
    rw [wp_inside (Dir.insert_entries_self d journalBucket _)]
    simp only [Program.put, Prog.wp_bind, wp_perform, Dir.run, Dir.empty, Prog.andThen_ok,
      Prog.wp_pure]
    exact ⟨trivial, _, Dir.set_entries_self _ _ _, holds_new hpos hconfig⟩
  · simp only [Prog.wp_bind, wp_perform, Dir.run, hJ, Prog.andThen_ok]
    rw [wp_inside hJ]
    simp only [Program.put, Prog.wp_bind, wp_perform, Dir.run, hholds.config, Prog.andThen_ok,
      Prog.wp_pure]
    exact ⟨trivial, _, Dir.set_entries_self _ _ _, hholds.configure hpos hconfig⟩

/-- A configuration without records is refused. -/
theorem enable_positive {seen : Dir → List Data → Prop} {config : JournalConfig} {d d' : Dir}
    (hends : Prog.Ends (Dir.serve seen) (enableJournal config) d (.ok ()) d') :
    0 < config.maxTransactions := by
  by_contra hzero
  unfold enableJournal at hends
  rw [if_pos (by omega)] at hends
  cases hends.1

/-- `persist` stores the set if there is a journal, and keeps the newest records. -/
theorem persist_spec {d d' : Dir} {sets : List ChangeSet} {set : ChangeSet} (h : JournalOf d sets)
    (hid : set.transactionId < 2 ^ 64) (hnew : ∀ s ∈ sets, s.transactionId < set.transactionId)
    (hends : Prog.Ends (Dir.serve Lists) (persist set) d (.ok ()) d') :
    (d.entries journalBucket = none ∧ d' = d) ∨
      ∃ J J' n, d.entries journalBucket = some (.bucket J) ∧ Holds J n sets ∧
        d'.entries journalBucket = some (.bucket J') ∧
        Holds J' n ((sets ++ [set]).drop (sets.length + 1 - n)) := by
  obtain ⟨hnone, rfl⟩ | ⟨J, n, hJ, hholds⟩ := h
  · left
    have hwp : Prog.wp (Dir.serve Lists) (persist set) d fun _ x => x = d := by
      unfold persist
      simp [Dir.run, hnone]
    exact ⟨hnone, Prog.wp_iff_ends.mp hwp _ _ hends⟩
  · right
    have hwp : Prog.wp (Dir.serve Lists) (persist set) d fun r x => r = .ok () →
        ∃ J', x.entries journalBucket = some (.bucket J') ∧
          Holds J' n ((sets ++ [set]).drop (sets.length + 1 - n)) := by
      unfold persist
      simp only [Prog.wp_bind, wp_attempt, Dir.run, hJ, Prog.andThen_ok]
      rw [wp_inside hJ]
      refine Prog.wp_mono (append_spec hholds hid hnew) ?_
      intro r J' hpost hr
      exact ⟨J', Dir.set_entries_self _ _ _, hpost hr⟩
    obtain ⟨J', hJ', hafter⟩ := Prog.wp_iff_ends.mp hwp _ _ hends rfl
    exact ⟨J, J', n, hJ, hholds, hJ', hafter⟩

theorem exists_persist {d J : Dir} {n : Nat} {sets : List ChangeSet} {set : ChangeSet}
    {record : Bytes} (hJ : d.entries journalBucket = some (.bucket J)) (h : Holds J n sets)
    (hid : set.transactionId < 2 ^ 64) (hnew : ∀ s ∈ sets, s.transactionId < set.transactionId)
    (hrecord : encodeChangeSet set = .ok record) :
    ∃ d' J', Prog.Ends (Dir.serve Lists) (persist set) d (.ok ()) d' ∧
      d'.entries journalBucket = some (.bucket J') ∧
      Holds J' n ((sets ++ [set]).drop (sets.length + 1 - n)) := by
  obtain ⟨J', happend⟩ := exists_append h hid hnew hrecord
  refine ⟨d.set journalBucket (some (.bucket J')), J', ?_, Dir.set_entries_self _ _ _,
    Prog.wp_iff_ends.mp (append_spec h hid hnew) _ _ happend rfl⟩
  rw [Prog.ends_iff_wp]
  intro hwp
  unfold persist at hwp
  simp only [Prog.wp_bind, wp_attempt, Dir.run, hJ, Prog.andThen_ok] at hwp
  exact Prog.ends_iff_wp.mp (ends_inside hJ happend) hwp

/-- The writes of the journal are not recorded. -/
theorem record_journal (t : ChangeTracker) {change : Model.Change}
    (h : change.bucketPath = [journalBucket]) :
    t.record change.bucketPath change.key change.operation = t := by
  simp [ChangeTracker.record, h, ChangeTracker.reserved]

theorem recordAll_journal (t : ChangeTracker) {writes : List Model.Change}
    (h : ∀ change ∈ writes, change.bucketPath = [journalBucket]) : recordAll t writes = t := by
  induction writes with
  | nil => rfl
  | cons change writes ih =>
    unfold recordAll
    rw [List.foldl_cons, record_journal t (h change (by simp))]
    exact ih fun c hc => h c (List.mem_cons_of_mem _ hc)

/-! ## What holds along a run -/

/-- The journal holds the last sets of the history, in the committed content and in the running
transaction; once it was committed it is never empty. -/
structure JournalInv (db : JournalDb) (sets : List ChangeSet) : Prop where
  history : db.published.map ChangeSet.transactionId = List.range' 1 db.txId
  range : db.txId < 2 ^ 64
  suffix : sets <:+ db.published
  committed : JournalOf db.root sets
  inhabited : Enabled db.root → sets ≠ []
  writing : ∀ d t, db.writer = some (d, t) → db.txId + 1 < 2 ^ 64 ∧ JournalOf d sets

theorem mem_ids_le {db : JournalDb} {sets : List ChangeSet} (h : JournalInv db sets)
    {set : ChangeSet} (hset : set ∈ db.published) : set.transactionId ≤ db.txId := by
  have hmem : set.transactionId ∈ List.range' 1 db.txId := by
    rw [← h.history]
    exact List.mem_map_of_mem hset
  have hbound := List.mem_range'_1.mp hmem
  omega

/-- What a commit does to the journal. -/
theorem JournalInv.commit {db db' : JournalDb} {sets : List ChangeSet} (h : JournalInv db sets)
    (hcommit : Commits db db') :
    db'.txId = db.txId + 1 ∧ db'.txId < 2 ^ 64 ∧ db'.writer = none ∧
    ∃ set, set.transactionId = db'.txId ∧ db'.published = db.published ++ [set] ∧
      ((db'.root.entries journalBucket = none ∧ sets = []) ∨
        ∃ J n, db'.root.entries journalBucket = some (.bucket J) ∧
          Holds J n ((sets ++ [set]).drop (sets.length + 1 - n))) := by
  obtain ⟨d, t, d', writes, hwriter, hwrites, hends, rfl⟩ := hcommit
  obtain ⟨hid, hjournal⟩ := h.writing d t hwriter
  refine ⟨rfl, hid, rfl, t.snapshot (db.txId + 1), rfl, ?_, ?_⟩
  · rw [recordAll_journal t hwrites]
    rfl
  · have hnew : ∀ s ∈ sets, s.transactionId < (t.snapshot (db.txId + 1)).transactionId :=
      fun s hs => Nat.lt_succ_of_le (mem_ids_le h (h.suffix.subset hs))
    obtain ⟨hnone, rfl⟩ | ⟨J, J', n, hJ, -, hJ', hafter⟩ := persist_spec hjournal hid hnew hends
    · obtain ⟨-, rfl⟩ | ⟨J, n, hJ, -⟩ := hjournal
      · exact .inl ⟨hnone, rfl⟩
      · rw [hnone] at hJ
        cases hJ
    · exact .inr ⟨J', n, hJ', hafter⟩

/-- The newest sets are not empty. -/
theorem drop_ne_nil {sets : List ChangeSet} {set : ChangeSet} {n : Nat} (hn : 0 < n) :
    (sets ++ [set]).drop (sets.length + 1 - n) ≠ [] := by
  rw [ne_eq, List.drop_eq_nil_iff, List.length_append, List.length_singleton]
  omega

/-- The sets that the journal holds after a step. -/
theorem JournalInv.step {db db' : JournalDb} {sets : List ChangeSet} (h : JournalInv db sets)
    (hstep : JournalStep db db') : ∃ sets', JournalInv db' sets' := by
  cases hstep with
  | begin hidle hid =>
    refine ⟨sets, h.history, h.range, h.suffix, h.committed, h.inhabited, ?_⟩
    intro d t hdt
    obtain ⟨rfl, rfl⟩ := Prod.mk.inj (Option.some.inj hdt)
    exact ⟨hid, h.committed⟩
  | @work α p d d' t r changes hwriter hspares hends =>
    refine ⟨sets, h.history, h.range, h.suffix, h.committed, h.inhabited, ?_⟩
    intro x t' hdt
    obtain ⟨rfl, rfl⟩ := Prod.mk.inj (Option.some.inj hdt)
    obtain ⟨hid, hjournal⟩ := h.writing d t hwriter
    exact ⟨hid, hjournal.congr (work_spares hspares hends)⟩
  | @enable config d d' t hwriter hconfig hends =>
    refine ⟨sets, h.history, h.range, h.suffix, h.committed, h.inhabited, ?_⟩
    intro x t' hdt
    obtain ⟨rfl, rfl⟩ := Prod.mk.inj (Option.some.inj hdt)
    obtain ⟨hid, hjournal⟩ := h.writing d t hwriter
    have hpos := enable_positive hends
    obtain ⟨-, J, hJ, hholds⟩ :=
      Prog.wp_iff_ends.mp (enable_spec hjournal hpos hconfig) _ _ hends
    exact ⟨hid, .inr ⟨J, _, hJ, hholds⟩⟩
  | commit hcommit =>
    obtain ⟨htx, hrange, hwriter, set, hset, hpublished, hroot⟩ := h.commit hcommit
    have hhistory : db'.published.map ChangeSet.transactionId = List.range' 1 db'.txId := by
      rw [hpublished, List.map_append, h.history, htx, List.range'_1_concat, List.map_singleton,
        hset, htx, Nat.add_comm 1]
    have hidle : ∀ d t, db'.writer = some (d, t) →
        db'.txId + 1 < 2 ^ 64 ∧ JournalOf d ([] : List ChangeSet) := by
      intro d t hdt
      rw [hwriter] at hdt
      cases hdt
    obtain ⟨hnone, rfl⟩ | ⟨J, n, hJ, hholds⟩ := hroot
    · refine ⟨[], hhistory, hrange, List.nil_suffix, .inl ⟨hnone, rfl⟩, ?_, hidle⟩
      rintro ⟨J, hJ⟩
      rw [hnone] at hJ
      cases hJ
    · refine ⟨_, hhistory, hrange, ?_, .inr ⟨J, n, hJ, hholds⟩,
        fun _ => drop_ne_nil hholds.positive, ?_⟩
      · rw [hpublished]
        obtain ⟨old, hold⟩ := h.suffix
        refine (List.drop_suffix _ _).trans ⟨old, ?_⟩
        rw [← hold, List.append_assoc]
      · intro d t hdt
        rw [hwriter] at hdt
        cases hdt
  | rollback =>
    refine ⟨sets, h.history, h.range, h.suffix, h.committed, h.inhabited, ?_⟩
    intro d t hdt
    cases hdt

theorem Unjournaled.inv {db : JournalDb} (h : Unjournaled db) : JournalInv db [] := by
  refine ⟨h.history, h.range, List.nil_suffix, .inl ⟨h.absent, rfl⟩, ?_, ?_⟩
  · rintro ⟨J, hJ⟩
    rw [h.absent] at hJ
    cases hJ
  · intro d t hdt
    rw [h.idle] at hdt
    cases hdt

/-- In every run the journal holds the last sets of the history. -/
theorem run_inv {db₀ db : JournalDb} (h₀ : Unjournaled db₀)
    (hrun : Relation.ReflTransGen JournalStep db₀ db) : ∃ sets, JournalInv db sets := by
  induction hrun with
  | refl => exact ⟨[], h₀.inv⟩
  | tail _ hstep ih =>
    obtain ⟨sets, hinv⟩ := ih
    exact hinv.step hstep

/-! ## The journal is the end of the history -/

/-- The records of the journal in a root, as a scan shows them. -/
def Stored (d : Dir) (rs : List (Nat × Bytes)) : Prop :=
  (d.entries journalBucket = none ∧ rs = []) ∨
    ∃ J l, d.entries journalBucket = some (.bucket J) ∧ Lists J l ∧
      rs = records (l.filterMap Data.kvPair)

/-- The number of records that the journal of a root is configured to keep. -/
def Retains (d : Dir) (n : Nat) : Prop :=
  ∃ J v, d.entries journalBucket = some (.bucket J) ∧ J.entries configKey = some (.value v) ∧
    decodeU64 v = .ok n

/-- After a commit the records have consecutive ids that end with the id of the commit; there is
one more than before, or as many as are kept; and each decodes to the set that was published. -/
def RecordsLatest (db db' : JournalDb) : Prop :=
  ∃ before after n start, Stored db.root before ∧ Stored db'.root after ∧ Retains db'.root n ∧
    start + after.length = db'.txId + 1 ∧ after.map Prod.fst = List.range' start after.length ∧
    after.length = min (before.length + 1) n ∧
    ∀ id bytes, (id, bytes) ∈ after →
      ∃ set ∈ db'.published, set.transactionId = id ∧ decodeChangeSet id bytes = .ok set

/-- A replay without limit and filter returns a result, and reports no gap exactly when it
returned every published set after the given id. -/
def ReplaysHonestly (db : JournalDb) (after : Nat) : Prop :=
  ∃ replay : JournalReplay,
    (∀ r d', Prog.Ends (Dir.serve Lists) (replayJournal after maxU64 none) db.root r d' ↔
      r = .ok replay ∧ d' = db.root) ∧
    (replay.gap = none ↔
      replay.transactions = db.published.filter fun set => after < set.transactionId)

theorem Holds.stored {d J : Dir} {n : Nat} {sets : List ChangeSet}
    (hJ : d.entries journalBucket = some (.bucket J)) (h : Holds J n sets) :
    Stored d (sets.map fun set => (set.transactionId, recordOf set)) := by
  refine .inr ⟨J, _, hJ, h.lists, ?_⟩
  rw [kvPairs_pairsIn, records_pairsIn h.ids]

theorem JournalOf.stored {d : Dir} {sets : List ChangeSet} (h : JournalOf d sets) :
    Stored d (sets.map fun set => (set.transactionId, recordOf set)) := by
  obtain ⟨hnone, rfl⟩ | ⟨J, n, hJ, hholds⟩ := h
  · exact .inl ⟨hnone, rfl⟩
  · exact Holds.stored hJ hholds

/-- The ids of the last sets of a history. -/
theorem suffix_ids {published sets : List ChangeSet} {txId : Nat}
    (hhistory : published.map ChangeSet.transactionId = List.range' 1 txId)
    (hsuffix : sets <:+ published) :
    ∃ old, published = old ++ sets ∧ old.map ChangeSet.transactionId = List.range' 1 old.length ∧
      old.length + sets.length = txId ∧
      sets.map ChangeSet.transactionId = List.range' (1 + old.length) sets.length := by
  obtain ⟨old, rfl⟩ := hsuffix
  have hlength : old.length + sets.length = txId := by
    simpa using congrArg List.length hhistory
  have hsplit : List.range' 1 txId =
      List.range' 1 old.length ++ List.range' (1 + old.length) sets.length := by
    rw [← hlength, ← List.range'_append_1]
  rw [hsplit, List.map_append] at hhistory
  obtain ⟨hold, hsets⟩ := List.append_inj hhistory (by simp)
  exact ⟨old, rfl, hold, hlength, hsets⟩

theorem JournalInv.recordsLatest {db db' : JournalDb} {sets : List ChangeSet}
    (h : JournalInv db sets) (hcommit : Commits db db') (henabled : Enabled db'.root) :
    RecordsLatest db db' := by
  obtain ⟨htx, -, -, set, hset, hpublished, hroot⟩ := h.commit hcommit
  obtain ⟨J, hJ⟩ := henabled
  obtain ⟨hnone, -⟩ | ⟨J', n, hJ', hholds⟩ := hroot
  · rw [hnone] at hJ
    cases hJ
  have hhistory : (db.published ++ [set]).map ChangeSet.transactionId =
      List.range' 1 db'.txId := by
    rw [List.map_append, h.history, htx, List.range'_1_concat, List.map_singleton, hset, htx,
      Nat.add_comm 1]
  have hsuffix : (sets ++ [set]).drop (sets.length + 1 - n) <:+ db.published ++ [set] := by
    obtain ⟨old, hold⟩ := h.suffix
    refine (List.drop_suffix _ _).trans ⟨old, ?_⟩
    rw [← hold, List.append_assoc]
  obtain ⟨old, hold, -, hlength, hids⟩ := suffix_ids hhistory hsuffix
  refine ⟨_, _, n, 1 + old.length, h.committed.stored, Holds.stored hJ' hholds,
    ⟨J', _, hJ', hholds.config, decodeU64_beBytes hholds.range⟩, ?_, ?_, ?_, ?_⟩
  · rw [List.length_map]
    omega
  · rw [List.map_map, List.length_map]
    exact hids
  · simp only [List.length_map, List.length_drop, List.length_append, List.length_singleton]
    omega
  · intro id bytes hmem
    obtain ⟨s, hs, heq⟩ := List.mem_map.mp hmem
    obtain ⟨rfl, rfl⟩ := Prod.mk.inj heq
    refine ⟨s, ?_, rfl, decodeChangeSet_encodeChangeSet (hholds.encoded s hs)⟩
    rw [hpublished]
    exact hsuffix.subset hs

/-- The gap is reported exactly when a set of the history is missing. -/
theorem gap_eq_none_iff {old sets : List ChangeSet} {after : Nat}
    (hold : old.map ChangeSet.transactionId = List.range' 1 old.length)
    (hsets : sets.map ChangeSet.transactionId = List.range' (1 + old.length) sets.length)
    (hne : sets ≠ []) (hrange : old.length + sets.length < 2 ^ 64) :
    gap after (sets.head?.map ChangeSet.transactionId) = none ↔
      (sets.filter fun set => after < set.transactionId) =
        (old ++ sets).filter fun set => after < set.transactionId := by
  have holdest : sets.head?.map ChangeSet.transactionId = some (1 + old.length) := by
    obtain ⟨set, rest, rfl⟩ := List.exists_cons_of_ne_nil hne
    rw [List.map_cons, List.length_cons, List.range'_succ] at hsets
    simp [(List.cons.inj hsets).1]
  have hpos : 0 < sets.length := List.length_pos_iff.mpr hne
  have hgap : gap after (some (1 + old.length)) = none ↔ old.length ≤ after := by
    simp only [gap, maxU64, Option.map_eq_none_iff, Option.filter_eq_none_iff]
    simp
    omega
  -- The ids before the oldest record are those up to its predecessor.
  have hfilter : (old.filter fun set => after < set.transactionId) = [] ↔ old.length ≤ after := by
    rw [List.filter_eq_nil_iff]
    constructor
    · intro hall
      by_contra hlt
      have hmem : old.length ∈ old.map ChangeSet.transactionId := by
        rw [hold, List.mem_range'_1]
        omega
      obtain ⟨set, hset, hid⟩ := List.mem_map.mp hmem
      exact hall set hset (by simp only [decide_eq_true_eq]; omega)
    · intro hle set hset
      have hmem : set.transactionId ∈ List.range' 1 old.length := by
        rw [← hold]
        exact List.mem_map_of_mem hset
      have hbound := List.mem_range'_1.mp hmem
      simp only [decide_eq_true_eq]
      omega
  rw [holdest, hgap, List.filter_append, ← hfilter]
  constructor
  · intro hnil
    rw [hnil, List.nil_append]
  · intro heq
    have hlen := congrArg List.length heq
    rw [List.length_append] at hlen
    exact List.eq_nil_of_length_eq_zero (by omega)

theorem JournalInv.replaysHonestly {db : JournalDb} {sets : List ChangeSet}
    (h : JournalInv db sets) (henabled : Enabled db.root) (after : Nat) :
    ReplaysHonestly db after := by
  have hne := h.inhabited henabled
  obtain ⟨J, hJ⟩ := henabled
  obtain ⟨hnone, -⟩ | ⟨J', n, hJ', hholds⟩ := h.committed
  · rw [hnone] at hJ
    cases hJ
  obtain ⟨old, hpublished, hold, hlength, hids⟩ := suffix_ids h.history h.suffix
  have hrange := h.range
  have hlimit : sets.length ≤ maxU64 := by
    unfold maxU64
    omega
  refine ⟨replayOf after sets, fun r d' => ?_, ?_⟩
  · have hwp : ∀ post, Prog.wp (Dir.serve Lists) (replayJournal after maxU64 none) db.root post ↔
        post (replayPairs after maxU64 none (pairsIn n sets)) db.root := by
      intro post
      unfold replayJournal Program.kvPairs
      simp only [Prog.wp_bind, wp_attempt, Dir.run, hJ', Prog.andThen_ok]
      rw [wp_inside hJ']
      simp only [Prog.wp_bind, wp_items, Prog.andThen_ok, Prog.wp_pure, Prog.wp_ofExcept]
      rw [Dir.set_self hJ']
      constructor
      · intro hall
        have hone := hall _ hholds.lists
        rwa [hholds.kvPairs hholds.lists] at hone
      · intro hpost l hl
        rwa [hholds.kvPairs hl]
    rw [Prog.ends_iff_wp, hwp, hholds.replayPairs after hlimit, not_not]
    constructor
    · rintro ⟨rfl, rfl⟩
      exact ⟨rfl, rfl⟩
    · rintro ⟨rfl, rfl⟩
      exact ⟨rfl, rfl⟩
  · rw [hpublished]
    exact gap_eq_none_iff hold hids hne (by omega)

/-- In every run of a database, from any history without a journal, every commit leaves the
journal as the end of the history, and every replay tells whether it is complete. -/
theorem journal_is_latest_history {db₀ db : JournalDb} (hnew : Unjournaled db₀)
    (hrun : Relation.ReflTransGen JournalStep db₀ db) :
    (∀ db', Commits db db' → Enabled db'.root → RecordsLatest db db') ∧
      (Enabled db.root → ∀ after, ReplaysHonestly db after) := by
  obtain ⟨sets, hinv⟩ := run_inv hnew hrun
  exact ⟨fun db' hcommit henabled => hinv.recordsLatest hcommit henabled,
    fun henabled after => hinv.replaysHonestly henabled after⟩

/-- A journal for one record is enabled in the first transaction; the second takes the place of
the first. -/
theorem journal_is_latest_history_trims :
    ∃ db db' : JournalDb, db'.txId = 2 ∧ Retains db'.root 1 ∧ Commits db db' ∧
      RecordsLatest db db' ∧ ReplaysHonestly db' 0 := by
  have hnew : Unjournaled ⟨0, Dir.empty, none, []⟩ := ⟨rfl, rfl, rfl, by decide⟩
  obtain ⟨r, d, henable⟩ := Prog.exists_ends serve_total (enableJournal ⟨1⟩) Dir.empty
  obtain ⟨rfl, J, hJ, hholds⟩ := Prog.wp_iff_ends.mp
    (enable_spec (.inl ⟨hnew.absent, rfl⟩) Nat.one_pos (by decide)) r d henable
  have hrecord : ∀ id, encodeChangeSet ((ChangeTracker.new true).snapshot id) =
      .ok (recordOf ((ChangeTracker.new true).snapshot id)) := fun _ => rfl
  obtain ⟨d₁, J₁, hpersist₁, hJ₁, hholds₁⟩ :=
    exists_persist hJ hholds (by decide) (by simp) (hrecord 1)
  replace hholds₁ : Holds J₁ 1 [(ChangeTracker.new true).snapshot 1] := hholds₁
  obtain ⟨d₂, J₂, hpersist₂, hJ₂, hholds₂⟩ :=
    exists_persist hJ₁ hholds₁ (by decide) (by simp [ChangeTracker.snapshot]) (hrecord 2)
  have hrun : Relation.ReflTransGen JournalStep ⟨0, Dir.empty, none, []⟩
      ⟨0, Dir.empty, some (d, .new true), []⟩ :=
    (Relation.ReflTransGen.single (.begin _ rfl (by decide))).tail
      (.enable ⟨1⟩ rfl (by decide) henable)
  have hcommit₁ : Commits ⟨0, Dir.empty, some (d, .new true), []⟩
      ⟨1, d₁, none, [(ChangeTracker.new true).finish 1]⟩ :=
    ⟨d, .new true, d₁, [], rfl, by simp, hpersist₁, rfl⟩
  have hrun₁ : Relation.ReflTransGen JournalStep ⟨0, Dir.empty, none, []⟩
      ⟨1, d₁, some (d₁, .new true), [(ChangeTracker.new true).finish 1]⟩ :=
    (hrun.tail (.commit hcommit₁)).tail (.begin _ rfl (by simp))
  have hcommit : Commits
      ⟨1, d₁, some (d₁, .new true), [(ChangeTracker.new true).finish 1]⟩
      ⟨2, d₂, none, [(ChangeTracker.new true).finish 1, (ChangeTracker.new true).finish 2]⟩ :=
    ⟨d₁, .new true, d₂, [], rfl, by simp, hpersist₂, rfl⟩
  exact ⟨_, _, rfl, ⟨J₂, _, hJ₂, hholds₂.config, decodeU64_beBytes hholds₂.range⟩, hcommit,
    (journal_is_latest_history hnew hrun₁).1 _ hcommit ⟨J₂, hJ₂⟩,
    (journal_is_latest_history hnew (hrun₁.tail (.commit hcommit))).2 ⟨J₂, hJ₂⟩ 0⟩

end Tagdata.Analysis
