import Tagdata.Analysis.JournalAppends
import Tagdata.Analysis.JournalRuns

/-!
# The keys of the journal

The configuration, the records and the checkpoints share one bucket.  The key of a checkpoint is
a byte `c` and the name of the consumer, and the configuration is stored under `config`: the
consumer `onfig` has the key of the configuration.  No other two keys meet.
-/

set_option autoImplicit false

namespace Tagdata.Analysis

open Tagdata.Library Tagdata.Model Tagdata.Interface Journal

/-- The consumer whose checkpoint is stored under the key of the configuration. -/
def onfig : Bytes := ascii "onfig"

theorem checkpointKey_onfig : checkpointPrefix :: onfig = configKey := by decide

theorem checkpointKey_ne_config {consumer : Bytes} (h : consumer ≠ onfig) :
    checkpointPrefix :: consumer ≠ configKey := by
  rw [← checkpointKey_onfig]
  simpa using h

/-- No checkpoint is taken for a record. -/
theorem decodeTxKey_checkpoint (consumer : Bytes) :
    decodeTxKey (checkpointPrefix :: consumer) = none := by
  have hfirst : checkpointPrefix ≠ txPrefix := by decide
  simp [decodeTxKey, hfirst]

theorem txKey_ne_checkpoint (id : Nat) (consumer : Bytes) :
    txKey id ≠ checkpointPrefix :: consumer := by
  intro h
  have hfirst : txPrefix = checkpointPrefix := (List.cons.inj h).1
  exact absurd hfirst (by decide)

/-- The names that `checkpoint_key` accepts. -/
def Accepted (consumer : Bytes) : Prop := 1 ≤ consumer.length ∧ consumer.length ≤ 255

theorem checkpointKey_eq {consumer key : Bytes} :
    checkpointKey consumer = .ok key ↔ Accepted consumer ∧ key = checkpointPrefix :: consumer := by
  have hrefused : (consumer.isEmpty || consumer.length > 255) = true ↔ ¬ Accepted consumer := by
    rw [Accepted, Bool.or_eq_true, List.isEmpty_iff_length_eq_zero, decide_eq_true_eq]
    omega
  rw [checkpointKey]
  by_cases haccepted : Accepted consumer
  · rw [if_neg (fun h => hrefused.mp h haccepted), Except.ok.injEq, eq_comm]
    exact (and_iff_right haccepted).symm
  · rw [if_pos (hrefused.mpr haccepted)]
    constructor
    · intro h
      cases h
    · exact fun h => absurd h.1 haccepted

/-! ## What a checkpoint changes -/

section Frame

variable {J J' d d' : Dir} {changes : ChangeSet}

/-- A commit leaves every key alone that is not the key of a record. -/
theorem Appended.entries (h : Appended changes J J') {k : Bytes} (hk : decodeTxKey k = none)
    (hid : k ≠ txKey changes.transactionId) : J'.entries k = J.entries k := by
  obtain ⟨bytes, n, record, l, -, -, -, -, hl, rfl⟩ := h
  have hkeep : k ∉ trimmed n l := by
    intro hmem
    have htx := (mem_trimmed hl hmem).2
    rw [hk] at htx
    cases htx
  rw [trimmedDir]
  show (if k ∈ trimmed n l then none else _) = _
  rw [if_neg hkeep, Dir.insert_entries_ne _ hid]

theorem Appended.config (h : Appended changes J J') : J'.entries configKey = J.entries configKey :=
  h.entries decodeTxKey_configKey (configKey_lt_txKey _).ne

theorem Appended.checkpoint (h : Appended changes J J') (consumer : Bytes) :
    J'.entries (checkpointPrefix :: consumer) = J.entries (checkpointPrefix :: consumer) :=
  h.entries (decodeTxKey_checkpoint consumer) (txKey_ne_checkpoint _ consumer).symm

/-- A key that is neither the configuration nor a record does not matter to a commit. -/
theorem Appended.insert_frame {key v : Bytes} (hconfig : key ≠ configKey)
    (htx : ∀ id, txKey id ≠ key) (hkey : decodeTxKey key = none)
    (h : Appended changes (J.insert key (.value v)) J') :
    ∃ J₀, Appended changes J J₀ ∧ ∀ k, k ≠ key → J'.entries k = J₀.entries k := by
  obtain ⟨bytes, n, record, l₁, hbytes, hn, hrecord, hbucket, hl₁, rfl⟩ := h
  rw [Dir.insert_entries_ne _ hconfig.symm] at hbytes
  rw [Dir.insert_entries_ne _ (htx _)] at hbucket
  obtain ⟨l₂, hl₂⟩ := hl₁.of_insert
  obtain ⟨l, hl⟩ := hl₂.of_insert
  obtain ⟨l₀, hl₀⟩ := hl.insert (txKey changes.transactionId) (.value record)
  have hsame : ∀ k, k ≠ key →
      ((J.insert key (.value v)).insert (txKey changes.transactionId) (.value record)).entries k =
        (J.insert (txKey changes.transactionId) (.value record)).entries k := by
    intro k hk
    by_cases hid : k = txKey changes.transactionId
    · subst hid
      rw [Dir.insert_entries_self, Dir.insert_entries_self]
    · rw [Dir.insert_entries_ne _ hid, Dir.insert_entries_ne _ hid, Dir.insert_entries_ne _ hk]
  have hkeys : trimmed n l₁ = trimmed n l₀ := by
    have hrecords := recordKeys_congr hl₀ hl₁ fun k hk => hsame k fun heq => by
      rw [heq, hkey] at hk
      cases hk
    rw [trimmed, trimmed, hrecords]
  refine ⟨_, ⟨bytes, n, record, l₀, hbytes, hn, hrecord, hbucket, hl₀, rfl⟩, fun k hk => ?_⟩
  show (if k ∈ trimmed n l₁ then none else _) = if k ∈ trimmed n l₀ then none else _
  rw [hkeys, hsame k hk]

/-- What `checkpoint_journal` may do to the journal: it stores the checkpoint, and its commit adds
a record and deletes old ones as every commit does. -/
structure CheckpointOnly (transactionId : Nat) (consumer : Bytes) (id : Nat) (J J' : Dir) :
    Prop where
  stored : J'.entries (checkpointPrefix :: consumer) = some (.value (beBytes 8 id))
  config : J'.entries configKey = J.entries configKey
  others : ∀ other, other ≠ consumer →
    J'.entries (checkpointPrefix :: other) = J.entries (checkpointPrefix :: other)
  records : ∃ J₀, Appended ⟨transactionId, [], false⟩ J J₀ ∧
    ∀ k, k ≠ checkpointPrefix :: consumer → J'.entries k = J₀.entries k

/-- Nothing that is done in the journal is recorded. -/
theorem checkpoint_changes (transactionId : Nat) (consumer : Bytes) :
    ((ChangeTracker.new true).record [journalBucket] (checkpointPrefix :: consumer)
      .put).snapshot transactionId = ⟨transactionId, [], false⟩ := by
  simp [ChangeTracker.record, ChangeTracker.reserved, ChangeTracker.snapshot, ChangeTracker.new]

/-- The journal after `checkpoint_journal`. -/
theorem ends_checkpoint {transactionId id : Nat} {consumer : Bytes} :
    Prog.Ends (Dir.serve Lists) (checkpointTransaction transactionId consumer id) d (.ok ()) d' ↔
      Accepted consumer ∧ ∃ J J', d.entries journalBucket = some (.bucket J) ∧
        (∀ c, J.entries (checkpointPrefix :: consumer) ≠ some (.bucket c)) ∧
        Appended ⟨transactionId, [], false⟩
          (Dir.insert J (checkpointPrefix :: consumer) (.value (beBytes 8 id))) J' ∧
        d' = d.set journalBucket (some (.bucket J')) := by
  constructor
  · intro hends
    have hwp : Prog.wp (Dir.serve Lists) (checkpointTransaction transactionId consumer id) d
        fun r d' => r = .ok () → Accepted consumer ∧ ∃ J J',
          d.entries journalBucket = some (.bucket J) ∧
          (∀ c, J.entries (checkpointPrefix :: consumer) ≠ some (.bucket c)) ∧
          Appended ⟨transactionId, [], false⟩
            (Dir.insert J (checkpointPrefix :: consumer) (.value (beBytes 8 id))) J' ∧
          d' = d.set journalBucket (some (.bucket J')) := by
      unfold checkpointTransaction checkpointJournal
      rw [Prog.wp_bind, Prog.wp_bind, Prog.wp_ofExcept]
      cases hkey : checkpointKey consumer with
      | error e => exact fun h => by cases h
      | ok key =>
        obtain ⟨haccepted, rfl⟩ := checkpointKey_eq.mp hkey
        rw [Prog.andThen_ok, Prog.wp_bind, wp_perform]
        rcases hJ : d.entries journalBucket with - | w | J
        · simp [Dir.run, hJ]
        · simp [Dir.run, hJ]
        · simp only [Dir.run, hJ, Prog.andThen_ok, Prog.wp_bind]
          rw [wp_inside hJ]
          by_cases hbucket : ∀ c, J.entries (checkpointPrefix :: consumer) ≠ some (.bucket c)
          · rw [wp_put_value hbucket, Prog.andThen_ok, Prog.wp_pure, Prog.andThen_ok,
              checkpoint_changes]
            refine Prog.wp_iff_ends.mpr fun r d' hpersist hr => ?_
            subst hr
            obtain ⟨J', happended, rfl⟩ := (ends_persist (Dir.set_entries_self _ _ _)).mp hpersist
            exact ⟨haccepted, J, J', rfl, hbucket, happended, Dir.set_set _ _ _ _⟩
          · obtain ⟨c, hc⟩ := not_forall_not.mp hbucket
            rw [wp_put, hc]
            exact fun h => by cases h
    exact Prog.wp_iff_ends.mp hwp _ _ hends rfl
  · rintro ⟨haccepted, J, J', hJ, hbucket, happended, rfl⟩
    refine Prog.ends_iff_wp.mpr fun hwp => ?_
    unfold checkpointTransaction checkpointJournal at hwp
    simp only [Prog.wp_bind, Prog.wp_ofExcept, checkpointKey_eq.mpr ⟨haccepted, rfl⟩,
      Prog.andThen_ok, wp_perform, Dir.run, hJ] at hwp
    rw [wp_inside hJ, wp_put_value hbucket, Prog.andThen_ok, Prog.wp_pure, Prog.andThen_ok,
      checkpoint_changes] at hwp
    refine Prog.ends_iff_wp.mp ((ends_persist (Dir.set_entries_self _ _ _)).mpr ?_) hwp
    exact ⟨J', happended, (Dir.set_set _ _ _ _).symm⟩

/-- `checkpoint_journal` returns in a journal that can be read. -/
theorem exists_checkpoint {transactionId id n : Nat} {consumer bytes : Bytes} {l : List Data}
    (haccepted : Accepted consumer) (honfig : consumer ≠ onfig)
    (hJ : d.entries journalBucket = some (.bucket J)) (hl : Lists J l)
    (hconfig : J.entries configKey = some (.value bytes)) (hn : decodeU64 bytes = .ok n)
    (hbucket : ∀ k c, J.entries k ≠ some (.bucket c)) :
    ∃ d', Prog.Ends (Dir.serve Lists) (checkpointTransaction transactionId consumer id) d
      (.ok ()) d' := by
  obtain ⟨l', hl'⟩ := hl.insert (checkpointPrefix :: consumer) (.value (beBytes 8 id))
  have hkeep : (Dir.insert J (checkpointPrefix :: consumer) (.value (beBytes 8 id))).entries
      configKey = some (.value bytes) := by
    rw [Dir.insert_entries_ne _ (checkpointKey_ne_config honfig).symm, hconfig]
  have hfree : ∀ c, (Dir.insert J (checkpointPrefix :: consumer) (.value (beBytes 8 id))).entries
      (txKey transactionId) ≠ some (.bucket c) := by
    intro c
    rw [Dir.insert_entries_ne _ (txKey_ne_checkpoint _ consumer)]
    exact hbucket _ c
  obtain ⟨J', happended⟩ : ∃ J', Appended ⟨transactionId, [], false⟩ _ J' :=
    exists_appended hl' hkeep hn rfl hfree
  exact ⟨_, ends_checkpoint.mpr ⟨haccepted, J, J', hJ, hbucket _, happended, rfl⟩⟩

/-- A checkpoint changes what it may change, unless it is written over the configuration. -/
theorem checkpointOnly_iff {transactionId id : Nat} {consumer : Bytes}
    (h : Appended ⟨transactionId, [], false⟩
      (Dir.insert J (checkpointPrefix :: consumer) (.value (beBytes 8 id))) J') :
    CheckpointOnly transactionId consumer id J J' ↔
      (consumer = onfig → J.entries configKey = some (.value (beBytes 8 id))) := by
  have hstored : J'.entries (checkpointPrefix :: consumer) = some (.value (beBytes 8 id)) := by
    rw [h.checkpoint, Dir.insert_entries_self]
  constructor
  · rintro honly rfl
    rw [← honly.config, ← checkpointKey_onfig, hstored]
  · intro hsame
    by_cases honfig : consumer = onfig
    · -- the configuration already has the value of the checkpoint
      subst honfig
      have hconfig := hsame rfl
      rw [checkpointKey_onfig, Dir.insert_eq_self hconfig] at h
      exact ⟨hstored, h.config, fun other _ => h.checkpoint other, J', h, fun k _ => rfl⟩
    · refine ⟨hstored, ?_, fun other hother => ?_, ?_⟩
      · rw [h.config, Dir.insert_entries_ne _ (checkpointKey_ne_config honfig).symm]
      · rw [h.checkpoint, Dir.insert_entries_ne _ (by simpa using hother)]
      · exact h.insert_frame (checkpointKey_ne_config honfig)
          (fun id => txKey_ne_checkpoint id consumer) (decodeTxKey_checkpoint consumer)

end Frame

/-! ## What is read back -/

/-- The transactions that matter to a checkpoint. -/
inductive JournalEvent where
  | enable (maxTransactions : Nat)
  | checkpoint (consumer : Bytes) (id : Nat)
deriving DecidableEq, Repr

/-- The committed content after these transactions; others come between them.  A transaction that
fails is rolled back and leaves no trace. -/
inductive History : List JournalEvent → Dir → Prop
  | start (d : Dir) (habsent : d.entries journalBucket = none) : History [] d
  | enable {events : List JournalEvent} {d d₁ d' : Dir} (config : JournalConfig)
      (changes : ChangeSet) (h : History events d) (hconfig : config.maxTransactions < 2 ^ 64)
      (hends : Prog.Ends (Dir.serve Shows) (enableJournal config) d (.ok ()) d₁)
      (hcommit : Prog.Ends (Dir.serve Lists) (persist changes) d₁ (.ok ()) d') :
      History (events ++ [.enable config.maxTransactions]) d'
  | checkpoint {events : List JournalEvent} {d d' : Dir} (transactionId id : Nat)
      (consumer : Bytes) (h : History events d) (hid : id < 2 ^ 64)
      (hends : Prog.Ends (Dir.serve Lists) (checkpointTransaction transactionId consumer id) d
        (.ok ()) d') : History (events ++ [.checkpoint consumer id]) d'
  | work {events : List JournalEvent} {d d₁ d' : Dir} {α : Type} {r : Except Error α}
      (p : Program α) (changes : ChangeSet) (h : History events d)
      (hspares : p.Only SparesJournal) (hends : Prog.Ends (Dir.serve Shows) p d r d₁)
      (hcommit : Prog.Ends (Dir.serve Lists) (persist changes) d₁ (.ok ()) d') :
      History events d'

/-- The last id that was stored for a consumer. -/
def lastStored (consumer : Bytes) (events : List JournalEvent) : Option Nat :=
  (events.filterMap fun
    | .checkpoint other id => if other = consumer then some id else none
    | .enable _ => none).getLast?

/-- The last number that was written under the key of the configuration. -/
def lastConfigured (events : List JournalEvent) : Option Nat :=
  (events.filterMap fun
    | .checkpoint other id => if other = onfig then some id else none
    | .enable maxTransactions => some maxTransactions).getLast?

/-- What is stored under the key of a consumer. -/
def lastUnder (consumer : Bytes) (events : List JournalEvent) : Option Nat :=
  if consumer = onfig then lastConfigured events else lastStored consumer events

theorem lastUnder_enable (consumer : Bytes) (events : List JournalEvent) (n : Nat) :
    lastUnder consumer (events ++ [.enable n]) =
      if consumer = onfig then some n else lastUnder consumer events := by
  by_cases h : consumer = onfig <;> simp [lastUnder, lastConfigured, lastStored, h]

theorem lastUnder_checkpoint (consumer other : Bytes) (events : List JournalEvent) (id : Nat) :
    lastUnder consumer (events ++ [.checkpoint other id]) =
      if other = consumer then some id else lastUnder consumer events := by
  by_cases h : consumer = onfig
  · subst h
    by_cases hother : other = onfig <;> simp [lastUnder, lastConfigured, hother]
  · by_cases hother : other = consumer <;> simp [lastUnder, lastStored, h, hother]

section Reading

variable {d d' : Dir} {events : List JournalEvent}

/-- What the journal holds under a key. -/
def inJournal (d : Dir) (k : Bytes) : Option Entry :=
  match d.entries journalBucket with
  | some (.bucket J) => J.entries k
  | _ => none

theorem inJournal_bucket {J : Dir} (h : d.entries journalBucket = some (.bucket J)) (k : Bytes) :
    inJournal d k = J.entries k := by
  rw [inJournal, h]

theorem inJournal_none (h : d.entries journalBucket = none) (k : Bytes) : inJournal d k = none := by
  rw [inJournal, h]

/-- The journal holds the last numbers that were written, and no bucket is in its place. -/
structure Remembers (events : List JournalEvent) (d : Dir) : Prop where
  shape : ∀ v, d.entries journalBucket ≠ some (.value v)
  stored : ∀ consumer, inJournal d (checkpointPrefix :: consumer) =
    (lastUnder consumer events).map fun n => .value (beBytes 8 n)
  range : ∀ consumer n, lastUnder consumer events = some n → n < 2 ^ 64

theorem Remembers.congr (h : Remembers events d)
    (hsame : d'.entries journalBucket = d.entries journalBucket) : Remembers events d' := by
  refine ⟨fun v => hsame ▸ h.shape v, fun consumer => ?_, h.range⟩
  rw [← h.stored, inJournal, inJournal, hsame]

/-- A commit keeps the configuration and the checkpoints. -/
theorem Remembers.persist {changes : ChangeSet} (h : Remembers events d)
    (hends : Prog.Ends (Dir.serve Lists) (persist changes) d (.ok ()) d') :
    Remembers events d' := by
  rcases hJ : d.entries journalBucket with - | v | J
  · obtain ⟨-, rfl⟩ := (ends_persist_none hJ).mp hends
    exact h
  · exact absurd hJ (h.shape v)
  · obtain ⟨J', happended, rfl⟩ := (ends_persist hJ).mp hends
    have hJ' := Dir.set_entries_self d journalBucket (some (.bucket J'))
    refine ⟨fun v => by simp, fun consumer => ?_, h.range⟩
    rw [inJournal_bucket hJ', happended.checkpoint, ← h.stored, inJournal_bucket hJ]

/-- `enable_journal` writes the configuration. -/
theorem Remembers.enable {config : JournalConfig} (h : Remembers events d)
    (hconfig : config.maxTransactions < 2 ^ 64)
    (hends : Prog.Ends (Dir.serve Shows) (enableJournal config) d (.ok ()) d') :
    Remembers (events ++ [.enable config.maxTransactions]) d' := by
  have hwp : Prog.wp (Dir.serve Shows) (enableJournal config) d fun r d' => r = .ok () →
      ∃ J', d'.entries journalBucket = some (.bucket J') ∧ ∀ k, J'.entries k =
        if k = configKey then some (.value (beBytes 8 config.maxTransactions))
        else inJournal d k := by
    have hinsert : ∀ (J : Dir) (k : Bytes),
        (J.insert configKey (.value (beBytes 8 config.maxTransactions))).entries k =
          if k = configKey then some (.value (beBytes 8 config.maxTransactions))
          else J.entries k := by
      intro J k
      by_cases hk : k = configKey
      · rw [if_pos hk, hk, Dir.insert_entries_self]
      · rw [if_neg hk, Dir.insert_entries_ne _ hk]
    have hput : ∀ (J d₁ : Dir), d₁.entries journalBucket = some (.bucket J) →
        (∀ k, J.entries k = inJournal d k) →
        Prog.wp (Dir.serve Shows) (do
          let _ ← (Program.put configKey (beBytes 8 config.maxTransactions)).inside journalBucket
          return ()) d₁ fun r d' => r = .ok () →
            ∃ J', d'.entries journalBucket = some (.bucket J') ∧ ∀ k, J'.entries k =
              if k = configKey then some (.value (beBytes 8 config.maxTransactions))
              else inJournal d k := by
      intro J d₁ hJ hsame
      rw [Prog.wp_bind, wp_inside hJ]
      by_cases hbucket : ∀ c, J.entries configKey ≠ some (.bucket c)
      · rw [wp_put_value hbucket]
        refine fun _ => ⟨_, Dir.set_entries_self _ _ _, fun k => ?_⟩
        rw [hinsert, hsame]
      · obtain ⟨c, hc⟩ := not_forall_not.mp hbucket
        rw [wp_put, hc]
        exact fun h => by cases h
    unfold enableJournal
    split
    · exact fun h => by cases h
    · rw [Prog.wp_bind, wp_perform]
      rcases hJ : d.entries journalBucket with - | v | J
      · simp only [Dir.run, hJ, Prog.andThen_ok]
        exact hput Dir.empty _ (Dir.insert_entries_self _ _ _) fun k => (inJournal_none hJ k).symm
      · exact absurd hJ (h.shape v)
      · simp only [Dir.run, hJ, Prog.andThen_ok]
        exact hput J d hJ fun k => (inJournal_bucket hJ k).symm
  obtain ⟨J', hJ', hentries⟩ := Prog.wp_iff_ends.mp hwp _ _ hends rfl
  refine ⟨fun v hv => ?_, fun consumer => ?_, fun consumer n hn => ?_⟩
  · rw [hJ'] at hv
    cases hv
  · rw [inJournal_bucket hJ', hentries, lastUnder_enable]
    by_cases honfig : consumer = onfig
    · rw [if_pos (honfig ▸ checkpointKey_onfig), if_pos honfig]
      rfl
    · rw [if_neg (checkpointKey_ne_config honfig), if_neg honfig, h.stored]
  · rw [lastUnder_enable] at hn
    split at hn
    · exact Option.some.inj hn ▸ hconfig
    · exact h.range consumer n hn

/-- `checkpoint_journal` writes the checkpoint. -/
theorem Remembers.checkpoint {transactionId id : Nat} {consumer : Bytes} (h : Remembers events d)
    (hid : id < 2 ^ 64)
    (hends : Prog.Ends (Dir.serve Lists) (checkpointTransaction transactionId consumer id) d
      (.ok ()) d') : Remembers (events ++ [.checkpoint consumer id]) d' := by
  obtain ⟨-, J, J', hJ, -, happended, rfl⟩ := ends_checkpoint.mp hends
  have hJ' := Dir.set_entries_self d journalBucket (some (.bucket J'))
  refine ⟨fun v => by simp, fun other => ?_, fun other n hn => ?_⟩
  · rw [inJournal_bucket hJ', happended.checkpoint, lastUnder_checkpoint]
    by_cases hother : consumer = other
    · rw [if_pos hother, ← hother, Dir.insert_entries_self]
      rfl
    · rw [if_neg hother, Dir.insert_entries_ne _ (by simpa using Ne.symm hother), ← h.stored,
        inJournal_bucket hJ]
  · rw [lastUnder_checkpoint] at hn
    split at hn
    · exact Option.some.inj hn ▸ hid
    · exact h.range other n hn

theorem History.remembers (h : History events d) : Remembers events d := by
  induction h with
  | start d habsent =>
    have hnone : ∀ consumer, lastUnder consumer [] = none := by
      intro consumer
      simp [lastUnder, lastConfigured, lastStored]
    refine ⟨fun v hv => ?_, fun consumer => ?_, fun consumer n hn => ?_⟩
    · rw [habsent] at hv
      cases hv
    · rw [inJournal_none habsent, hnone]
      rfl
    · rw [hnone] at hn
      cases hn
  | enable config changes _ hconfig hends hcommit ih =>
      exact (ih.enable hconfig hends).persist hcommit
  | checkpoint transactionId id consumer _ hid hends ih => exact ih.checkpoint hid hends
  | work p changes _ hspares hends hcommit ih =>
    exact (ih.congr (work_spares hspares hends)).persist hcommit

/-- `journal_checkpoint` answers what is stored under the key of the consumer. -/
theorem Remembers.journalCheckpoint {consumer : Bytes} (h : Remembers events d)
    (haccepted : Accepted consumer) {r : Except Error (Option Nat)} :
    Prog.Ends (Dir.serve Lists) (Journal.journalCheckpoint consumer) d r d' ↔
      r = .ok (lastUnder consumer events) ∧ d' = d := by
  have hwp : ∀ post : Except Error (Option Nat) → Dir → Prop,
      Prog.wp (Dir.serve Lists) (Journal.journalCheckpoint consumer) d post ↔
        post (.ok (lastUnder consumer events)) d := by
    intro post
    have hstored := h.stored consumer
    unfold Journal.journalCheckpoint
    rw [Prog.wp_bind, checkpointKey_eq.mpr ⟨haccepted, rfl⟩, Prog.wp_ofExcept, Prog.andThen_ok,
      Prog.wp_bind, wp_attempt, Prog.andThen_ok]
    rcases hJ : d.entries journalBucket with - | v | J
    · rw [inJournal_none hJ, eq_comm, Option.map_eq_none_iff] at hstored
      simp [Dir.run, hJ, hstored]
    · exact absurd hJ (h.shape v)
    · rw [inJournal_bucket hJ] at hstored
      have hget : Dir.run (.getBucket journalBucket) d = (.ok .unit, d) := by simp [Dir.run, hJ]
      rw [hget]
      show Prog.wp (Dir.serve Lists) ((checkpointAt (checkpointPrefix :: consumer)).inside
        journalBucket) d post ↔ _
      rw [wp_inside hJ]
      unfold checkpointAt
      rw [Prog.wp_bind, wp_getKv, Prog.andThen_ok]
      cases hlast : lastUnder consumer events with
      | none =>
        rw [hlast] at hstored
        simp [rawValue, hstored, Dir.set_self hJ]
      | some n =>
        rw [hlast] at hstored
        have hn := decodeU64_beBytes (h.range consumer n hlast)
        simp [rawValue, hstored, hn, Dir.set_self hJ]
  rw [Prog.ends_iff_wp, hwp, not_not, eq_comm, @eq_comm _ d]

end Reading

/-- **The keys of the journal.**  A checkpoint changes neither the configuration nor another
checkpoint nor the records that its commit does not add or delete, and what is read for a consumer
is the last id that was stored for it, unless the consumer is `onfig`. -/
theorem checkpoint_keys_iff (consumer : Bytes) :
    (∀ transactionId id d d',
      Prog.Ends (Dir.serve Lists) (checkpointTransaction transactionId consumer id) d (.ok ()) d' →
      ∃ J J', d.entries journalBucket = some (.bucket J) ∧
        d' = d.set journalBucket (some (.bucket J')) ∧
        (CheckpointOnly transactionId consumer id J J' ↔
          (consumer = onfig → J.entries configKey = some (.value (beBytes 8 id))))) ∧
    ∀ events d, History events d → Accepted consumer →
      (Prog.Ends (Dir.serve Lists) (journalCheckpoint consumer) d
          (.ok (lastStored consumer events)) d ↔
        (consumer = onfig → lastConfigured events = lastStored onfig events)) := by
  constructor
  · intro transactionId id d d' hends
    obtain ⟨-, J, J', hJ, -, happended, rfl⟩ := ends_checkpoint.mp hends
    exact ⟨J, J', hJ, rfl, checkpointOnly_iff happended⟩
  · intro events d hhistory haccepted
    rw [hhistory.remembers.journalCheckpoint haccepted, Except.ok.injEq, and_iff_left rfl]
    by_cases honfig : consumer = onfig
    · subst honfig
      simp [lastUnder, eq_comm]
    · simp [lastUnder, honfig]

/-- A journal with one record. -/
def oneRecord : Dir :=
  (Dir.empty.insert configKey (.value (beBytes 8 3))).insert (txKey 1)
    (.value [73, 83, 74, 82, 0, 0, 0, 0, 0])

/-- A database with that journal. -/
def enabledDir : Dir := Dir.empty.set journalBucket (some (.bucket oneRecord))

theorem oneRecord_holds : Holds oneRecord 3 [⟨1, [], false⟩] := by
  have hnew : Holds (Dir.empty.insert configKey (.value (beBytes 8 3))) 3 [] :=
    holds_new (by omega) (by omega)
  have hrecord : encodeChangeSet ⟨1, [], false⟩ = .ok [73, 83, 74, 82, 0, 0, 0, 0, 0] := by decide
  have hid : (⟨1, [], false⟩ : ChangeSet).transactionId < 2 ^ 64 := by show 1 < 2 ^ 64; omega
  have hadd := hnew.insert hid (by simp) hrecord
  rw [List.nil_append] at hadd
  unfold oneRecord
  exact hadd

theorem oneRecord_value (k : Bytes) (c : Dir) : oneRecord.entries k ≠ some (.bucket c) := by
  intro hk
  obtain ⟨-, hfalse⟩ | ⟨set, -, -, hfalse⟩ := (oneRecord_holds.entries k _).mp hk
  · cases hfalse
  · cases hfalse

theorem enabledDir_journal : enabledDir.entries journalBucket = some (.bucket oneRecord) :=
  Dir.set_entries_self _ _ _

/-- The checkpoint of another consumer. -/
theorem checkpoint_keys_reader :
    ∃ J J', enabledDir.entries journalBucket = some (.bucket J) ∧
      CheckpointOnly 2 (ascii "reader") 1 J J' := by
  obtain ⟨d', hends⟩ : ∃ d', Prog.Ends (Dir.serve Lists)
      (checkpointTransaction 2 (ascii "reader") 1) enabledDir (.ok ()) d' :=
    exists_checkpoint ⟨by decide, by decide⟩ (by decide) enabledDir_journal oneRecord_holds.lists
      oneRecord_holds.config (decodeU64_beBytes (by decide)) oneRecord_value
  obtain ⟨J, J', hJ, -, honly⟩ := (checkpoint_keys_iff _).1 _ _ _ _ hends
  exact ⟨J, J', hJ, honly.mpr fun honfig => absurd honfig (by decide)⟩

/-- The checkpoint of `onfig` at 0: the journal is left with a retention of 0 and without its
records. -/
theorem checkpoint_onfig :
    ∃ d' J', Prog.Ends (Dir.serve Lists) (checkpointTransaction 2 onfig 0) enabledDir (.ok ()) d' ∧
      d'.entries journalBucket = some (.bucket J') ∧
      J'.entries configKey = some (.value (beBytes 8 0)) ∧ J'.entries (txKey 1) = none := by
  obtain ⟨l, hl⟩ := oneRecord_holds.lists.insert configKey (.value (beBytes 8 0))
  have hconfig := Dir.insert_entries_self oneRecord configKey (.value (beBytes 8 0))
  obtain ⟨l', hl'⟩ := hl.insert (txKey 2) (.value [73, 83, 74, 82, 0, 0, 0, 0, 0])
  have hfree : ∀ c, (oneRecord.insert configKey (.value (beBytes 8 0))).entries (txKey 2) ≠
      some (.bucket c) := by
    intro c
    rw [Dir.insert_entries_ne _ (configKey_lt_txKey 2).ne']
    exact oneRecord_value _ c
  have happended : Appended ⟨2, [], false⟩ (oneRecord.insert configKey (.value (beBytes 8 0)))
      (trimmedDir 0 l' _) :=
    ⟨_, 0, _, l', hconfig, decodeU64_beBytes (by decide), rfl, hfree, hl', rfl⟩
  refine ⟨_, _, ends_checkpoint.mpr ⟨⟨by decide, by decide⟩, oneRecord, _, enabledDir_journal,
    oneRecord_value _, checkpointKey_onfig ▸ happended, rfl⟩, Dir.set_entries_self _ _ _,
    happended.config.trans hconfig, ?_⟩
  -- every record is trimmed
  have hother : txKey 1 ≠ txKey 2 := (txKey_lt (by omega) (by omega)).ne
  have hfirst : oneRecord.entries (txKey 1) = some (.value _) := Dir.insert_entries_self _ _ _
  have hrecord : txKey 1 ∈ trimmed 0 l' := by
    rw [trimmed, Nat.sub_zero, List.take_length, mem_journalKeys hl',
      Dir.insert_entries_ne _ hother, Dir.insert_entries_ne _ (configKey_lt_txKey 1).ne']
    exact ⟨⟨_, hfirst⟩, by rw [decodeTxKey_txKey (by omega)]; rfl⟩
  show (if txKey 1 ∈ trimmed 0 l' then none else _) = none
  exact if_pos hrecord

end Tagdata.Analysis
