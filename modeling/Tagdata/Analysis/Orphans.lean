import Tagdata.Analysis.CollectionReads
import Tagdata.Analysis.TtlIndexes

/-!
# Expirations without a record

Every mutator of a collection but `clear` keeps a record for every key of the lookup bucket.
Nothing is assumed about the keys: a record may have one of the reserved names, and operations
may fail half way.
-/

set_option autoImplicit false

namespace Tagdata.Analysis

open Tagdata.Library Tagdata.Model Tagdata.Interface

/-- Every lookup entry is a value, and its key has a record or is among those that `gone` tells. -/
def OrphansOnly (gone : Bytes → Prop) (d : Dir) : Prop :=
  ∀ L : Dir, d.entries ttlBucket = some (.bucket L) → ∀ k e, L.entries k = some e →
    (∃ b, e = .value b) ∧ (gone k ∨ ∃ v, d.entries k = some (.value v))

/-- Every key of the lookup bucket has a record. -/
def NoOrphans (d : Dir) : Prop :=
  ∀ L : Dir, d.entries ttlBucket = some (.bucket L) → ∀ k e, L.entries k = some e →
    (∃ b, e = .value b) ∧ ∃ v, d.entries k = some (.value v)

theorem orphansOnly_none {d : Dir} : OrphansOnly (fun _ => False) d ↔ NoOrphans d := by
  simp [OrphansOnly, NoOrphans]

theorem NoOrphans.orphansOnly {d : Dir} (h : NoOrphans d) (gone : Bytes → Prop) :
    OrphansOnly gone d := by
  intro L hL k e he
  obtain ⟨hb, hv⟩ := h L hL k e he
  exact ⟨hb, .inr hv⟩

/-! ## Parts of the state -/

/-- Nothing changed but the content of the deadline bucket. -/
def DeadlinesOnly (d d' : Dir) : Prop :=
  d' = d ∨ ∃ D D' : Dir, d.entries ttlDeadlinesBucket = some (.bucket D) ∧
    d' = d.set ttlDeadlinesBucket (some (.bucket D'))

theorem DeadlinesOnly.lookup {d d' : Dir} (h : DeadlinesOnly d d') :
    d'.entries ttlBucket = d.entries ttlBucket := by
  obtain rfl | ⟨D, D', -, rfl⟩ := h
  · rfl
  · exact Dir.set_entries_ne d ttlBucket_ne _

/-- Records have no nested bucket under their name. -/
theorem DeadlinesOnly.value {d d' : Dir} (h : DeadlinesOnly d d') (k v : Bytes) :
    d'.entries k = some (.value v) ↔ d.entries k = some (.value v) := by
  obtain rfl | ⟨D, D', hD, rfl⟩ := h
  · rfl
  · by_cases hk : k = ttlDeadlinesBucket
    · subst hk
      simp [hD]
    · rw [Dir.set_entries_ne d hk]

theorem DeadlinesOnly.orphansOnly {gone : Bytes → Prop} {d d' : Dir} (h : DeadlinesOnly d d')
    (hd : OrphansOnly gone d) : OrphansOnly gone d' := by
  intro L hL k e he
  rw [h.lookup] at hL
  obtain ⟨hb, hrecord⟩ := hd L hL k e he
  refine ⟨hb, hrecord.imp_right ?_⟩
  rintro ⟨v, hv⟩
  exact ⟨v, (h.value k v).mpr hv⟩

/-- The lookup bucket was changed. -/
theorem setLookup_value {d L L' : Dir} (hL : d.entries ttlBucket = some (.bucket L)) (k v : Bytes) :
    (d.set ttlBucket (some (.bucket L'))).entries k = some (.value v) ↔
      d.entries k = some (.value v) := by
  by_cases hk : k = ttlBucket
  · subst hk
    simp [hL]
  · rw [Dir.set_entries_ne d hk]

theorem orphansOnly_setLookup {gone : Bytes → Prop} {d L L' : Dir}
    (hL : d.entries ttlBucket = some (.bucket L))
    (h : ∀ k e, L'.entries k = some e →
      (∃ b, e = .value b) ∧ (gone k ∨ ∃ v, d.entries k = some (.value v))) :
    OrphansOnly gone (d.set ttlBucket (some (.bucket L'))) := by
  intro M hM k e he
  rw [Dir.set_entries_self] at hM
  obtain rfl := Entry.bucket.inj (Option.some.inj hM)
  obtain ⟨hb, hrecord⟩ := h k e he
  refine ⟨hb, hrecord.imp_right ?_⟩
  rintro ⟨v, hv⟩
  exact ⟨v, (setLookup_value hL k v).mpr hv⟩

/-- A record is written where there is no nested bucket. -/
theorem OrphansOnly.insert {gone : Bytes → Prop} {d : Dir} (h : OrphansOnly gone d) (k v : Bytes) :
    OrphansOnly gone (d.insert k (.value v)) := by
  intro L hL j e he
  have hk : ttlBucket ≠ k := by
    rintro rfl
    simp at hL
  rw [Dir.insert_entries_ne d hk] at hL
  obtain ⟨hb, hrecord⟩ := h L hL j e he
  refine ⟨hb, hrecord.imp_right ?_⟩
  rintro ⟨w, hw⟩
  by_cases hjk : j = k
  · exact ⟨v, by rw [hjk, Dir.insert_entries_self]⟩
  · exact ⟨w, by rw [Dir.insert_entries_ne d hjk, hw]⟩

/-- A record is deleted. -/
theorem OrphansOnly.delete {gone : Bytes → Prop} {d : Dir} (h : OrphansOnly gone d) (k : Bytes) :
    OrphansOnly (fun j => gone j ∨ j = k) (d.set k none) := by
  intro L hL j e he
  have hk : ttlBucket ≠ k := by
    rintro rfl
    simp at hL
  rw [Dir.set_entries_ne d hk] at hL
  obtain ⟨hb, hrecord⟩ := h L hL j e he
  refine ⟨hb, ?_⟩
  by_cases hjk : j = k
  · exact .inl (.inr hjk)
  · rw [Dir.set_entries_ne d hjk]
    exact hrecord.imp_left .inl

/-- A bucket is created where there was nothing. -/
theorem NoOrphans.create {d : Dir} (h : NoOrphans d) {name : Bytes}
    (hname : d.entries name = none) :
    NoOrphans (d.insert name (.bucket Dir.empty)) := by
  intro L hL k e he
  by_cases hne : ttlBucket = name
  · subst hne
    rw [Dir.insert_entries_self] at hL
    obtain rfl := Entry.bucket.inj (Option.some.inj hL)
    cases he
  · rw [Dir.insert_entries_ne d hne] at hL
    obtain ⟨hb, v, hv⟩ := h L hL k e he
    have hk : k ≠ name := by
      rintro rfl
      rw [hname] at hv
      cases hv
    exact ⟨hb, v, by rw [Dir.insert_entries_ne d hk, hv]⟩

/-! ## The operations on expirations -/

section Operations

variable {seen : Dir → List Data → Prop}

theorem removeDeadline_only (t : Nat) (k : Bytes) (d : Dir) :
    Prog.wp (Dir.serve seen) (Program.removeDeadline t k) d fun _ d' => DeadlinesOnly d d' := by
  unfold Program.removeDeadline
  rw [Prog.wp_bind, wp_attempt]
  rcases hD : d.entries ttlDeadlinesBucket with - | v | D
  · simp only [Dir.run, hD, Prog.andThen_ok]
    exact .inl rfl
  · simp only [Dir.run, hD, Prog.andThen_ok]
    exact .inl rfl
  · simp only [Dir.run, hD, Prog.andThen_ok]
    rw [Prog.wp_bind, wp_inside hD, wp_attempt, Prog.andThen_ok]
    have honly : DeadlinesOnly d (d.set ttlDeadlinesBucket
        (some (.bucket (Dir.run (.delete (deadlineKey t k)) D).2))) := .inr ⟨D, _, hD, rfl⟩
    split
    · exact honly
    · exact honly
    · exact honly

theorem retireDeadline_only {d L : Dir} (hL : d.entries ttlBucket = some (.bucket L)) (k : Bytes) :
    Prog.wp (Dir.serve seen) (Program.retireDeadline k) d fun _ d' => DeadlinesOnly d d' := by
  unfold Program.retireDeadline
  rw [Prog.wp_bind, wp_inside hL, wp_getKv, Prog.andThen_ok, Dir.set_self hL]
  cases rawValue L k with
  | none => exact .inl rfl
  | some b =>
    simp only [Prog.wp_bind, Prog.wp_ofExcept]
    cases decodeExpiration b with
    | error e => exact .inl rfl
    | ok t => exact removeDeadline_only t k d

/-- `set_expiration_millis` for a key with a record. -/
theorem NoOrphans.setExpirationMillis {d : Dir} (h : NoOrphans d) {k v : Bytes}
    (hk : d.entries k = some (.value v)) (t : Nat) :
    Prog.wp (Dir.serve seen) (Program.setExpirationMillis k t) d fun _ d' => NoOrphans d' := by
  -- The lookup bucket is there, or it is created, or a record is in its place.
  obtain ⟨herror, hstate⟩ | ⟨d₁, L, hrun, hL, hd₁, hk₁⟩ :
      ((Dir.run (.getOrCreateBucket ttlBucket) d).1 = .error .incompatibleValue ∧
        (Dir.run (.getOrCreateBucket ttlBucket) d).2 = d) ∨
      ∃ d₁ L : Dir, Dir.run (.getOrCreateBucket ttlBucket) d = (.ok .unit, d₁) ∧
        d₁.entries ttlBucket = some (.bucket L) ∧ NoOrphans d₁ ∧
        d₁.entries k = some (.value v) := by
    rcases hentry : d.entries ttlBucket with - | w | L
    · have hne : k ≠ ttlBucket := by
        rintro rfl
        rw [hk] at hentry
        cases hentry
      refine .inr ⟨_, Dir.empty, by simp only [Dir.run, hentry], Dir.insert_entries_self _ _ _,
        h.create hentry, by rw [Dir.insert_entries_ne d hne, hk]⟩
    · exact .inl (by simp [Dir.run, hentry])
    · exact .inr ⟨d, L, by simp [Dir.run, hentry], hentry, h, hk⟩
  · unfold Program.setExpirationMillis
    rw [Prog.wp_bind, wp_perform, herror, hstate]
    exact h
  unfold Program.setExpirationMillis
  rw [Prog.wp_bind, wp_perform, hrun, Prog.andThen_ok]
  apply Prog.wp_seq (retireDeadline_only hL k)
  rotate_left
  · intro e d₂ honly
    exact orphansOnly_none.mp (honly.orphansOnly (orphansOnly_none.mpr hd₁))
  intro _ d₂ honly
  have hd₂ : NoOrphans d₂ :=
    orphansOnly_none.mp (honly.orphansOnly (orphansOnly_none.mpr hd₁))
  have hL₂ : d₂.entries ttlBucket = some (.bucket L) := by rw [honly.lookup, hL]
  have hk₂ : d₂.entries k = some (.value v) := (honly.value k v).mpr hk₁
  have hflat : ∀ c, L.entries k ≠ some (.bucket c) := by
    intro c hc
    obtain ⟨⟨b, hb⟩, -⟩ := hd₂ L hL₂ k _ hc
    cases hb
  obtain ⟨hput, o, hanswer⟩ := run_put_value (beBytes 8 t) hflat
  rw [Prog.wp_bind, wp_inside hL₂, Program.put, Prog.wp_bind, wp_perform, hput, hanswer]
  simp only [Prog.andThen_ok, Prog.wp_pure]
  have hd₃ : NoOrphans (d₂.set ttlBucket (some (.bucket (L.insert k (.value (beBytes 8 t)))))) := by
    apply orphansOnly_none.mp
    apply orphansOnly_setLookup hL₂
    intro j e he
    by_cases hj : j = k
    · subst hj
      rw [Dir.insert_entries_self] at he
      exact ⟨⟨_, (Option.some.inj he).symm⟩, .inr ⟨v, hk₂⟩⟩
    · rw [Dir.insert_entries_ne L hj] at he
      exact hd₂.orphansOnly (fun _ => False) L hL₂ j e he
  generalize hset : d₂.set ttlBucket (some (.bucket (L.insert k (.value (beBytes 8 t))))) =
    d₃ at hd₃ ⊢
  rw [Prog.wp_bind, wp_perform]
  rcases hentry : d₃.entries ttlDeadlinesBucket with - | w | D
  · simp only [Dir.run, hentry, Prog.andThen_ok]
    have hd₄ := hd₃.create hentry
    rw [Prog.wp_bind, wp_inside (Dir.insert_entries_self _ _ _)]
    apply Prog.wp_mono (Prog.wp_true _ _)
    intro r D' _
    have honly : DeadlinesOnly (d₃.insert ttlDeadlinesBucket (.bucket Dir.empty))
        ((d₃.insert ttlDeadlinesBucket (.bucket Dir.empty)).set ttlDeadlinesBucket
          (some (.bucket D'))) := .inr ⟨_, _, Dir.insert_entries_self _ _ _, rfl⟩
    have := orphansOnly_none.mp (honly.orphansOnly (orphansOnly_none.mpr hd₄))
    cases r <;> exact this
  · simp only [Dir.run, hentry]
    exact hd₃
  · simp only [Dir.run, hentry, Prog.andThen_ok]
    rw [Prog.wp_bind, wp_inside hentry]
    apply Prog.wp_mono (Prog.wp_true _ _)
    intro r D' _
    have honly : DeadlinesOnly d₃ (d₃.set ttlDeadlinesBucket (some (.bucket D'))) :=
      .inr ⟨_, _, hentry, rfl⟩
    have := orphansOnly_none.mp (honly.orphansOnly (orphansOnly_none.mpr hd₃))
    cases r <;> exact this

/-- `clear_ttl` takes the lookup entry of the key away, whatever it returns. -/
theorem OrphansOnly.clearTtl {d : Dir} {k : Bytes} (h : OrphansOnly (· = k) d) :
    Prog.wp (Dir.serve seen) (Program.clearTtl k) d fun _ d' =>
      NoOrphans d' ∧ lookupOf d' k = none ∧
        ∀ j v, d'.entries j = some (.value v) ↔ d.entries j = some (.value v) := by
  unfold Program.clearTtl
  rw [Prog.wp_bind, wp_attempt]
  have hempty : (∀ L, d.entries ttlBucket ≠ some (.bucket L)) →
      NoOrphans d ∧ lookupOf d k = none ∧
        ∀ j v, d.entries j = some (.value v) ↔ d.entries j = some (.value v) := by
    intro hno
    refine ⟨fun L hL => absurd hL (hno L), ?_, fun _ _ => .rfl⟩
    unfold lookupOf
    split
    · exact absurd ‹_› (hno _)
    · rfl
  rcases hL : d.entries ttlBucket with - | w | L
  · simp only [Dir.run, hL, Prog.andThen_ok]
    exact hempty fun L hL' => by rw [hL] at hL'; cases hL'
  · simp only [Dir.run, hL, Prog.andThen_ok]
    exact hempty fun L hL' => by rw [hL] at hL'; cases hL'
  simp only [Dir.run, hL, Prog.andThen_ok]
  rw [Prog.wp_bind, wp_inside hL, wp_attempt, Prog.andThen_ok]
  obtain ⟨hstate, hanswer⟩ := run_delete_value (d := L) (k := k) (by
    intro c hc
    obtain ⟨⟨b, hb⟩, -⟩ := h L hL k _ hc
    cases hb)
  rw [hstate]
  have hclean : NoOrphans (d.set ttlBucket (some (.bucket (Dir.set L k none)))) := by
    apply orphansOnly_none.mp
    apply orphansOnly_setLookup hL
    intro j e he
    have hj : j ≠ k := by
      rintro rfl
      simp at he
    rw [Dir.set_entries_ne L hj] at he
    obtain ⟨hb, hrecord⟩ := h L hL j e he
    exact ⟨hb, .inr (hrecord.resolve_left hj)⟩
  have hlook : lookupOf (d.set ttlBucket (some (.bucket (Dir.set L k none)))) k = none := by
    simp [lookupOf, rawValue]
  have hvalues : ∀ j v, (d.set ttlBucket (some (.bucket (Dir.set L k none)))).entries j =
      some (.value v) ↔ d.entries j = some (.value v) := setLookup_value hL
  obtain ⟨-, hanswer⟩ | ⟨b, -, hanswer⟩ := hanswer
  · rw [hanswer]
    exact ⟨hclean, hlook, hvalues⟩
  · rw [hanswer]
    simp only [Prog.wp_bind, Prog.wp_ofExcept]
    cases decodeExpiration ((Program.valueOf (.pair (some (k, b)))).getD []) with
    | error e => exact ⟨hclean, hlook, hvalues⟩
    | ok t =>
      rw [Prog.andThen_ok, Prog.wp_bind]
      apply Prog.wp_mono (removeDeadline_only t k _)
      intro r d' honly
      have hpost : NoOrphans d' ∧ lookupOf d' k = none ∧
          ∀ j v, d'.entries j = some (.value v) ↔ d.entries j = some (.value v) := by
        refine ⟨orphansOnly_none.mp (honly.orphansOnly (orphansOnly_none.mpr hclean)), ?_,
          fun j v => (honly.value j v).trans (hvalues j v)⟩
        rw [← hlook]
        simp only [lookupOf, honly.lookup]
      cases r <;> exact hpost

/-! ## The mutators -/

theorem keeps_put (k v : Bytes) : Prog.Keeps (Dir.serve seen) NoOrphans (Program.put k v) := by
  intro d h
  rw [wp_put]
  split
  · exact h
  · exact orphansOnly_none.mp ((orphansOnly_none.mpr h).insert k v)

theorem keeps_clearTtl (k : Bytes) :
    Prog.Keeps (Dir.serve seen) NoOrphans (Program.clearTtl k) := by
  intro d h
  exact Prog.wp_mono (h.orphansOnly (· = k)).clearTtl fun _ _ hpost => hpost.1

theorem keeps_putClear (record : Bytes × Bytes) :
    Prog.Keeps (Dir.serve seen) NoOrphans (Collection.putClear record) :=
  (keeps_put record.1 record.2).bind fun _ => (keeps_clearTtl record.1).bind fun _ =>
    Prog.keeps_pure _

theorem keeps_putWithTtl (k v : Bytes) (time : SystemTime) :
    Prog.Keeps (Dir.serve seen) NoOrphans (Program.putWithTtl k v time) := by
  refine (Prog.keeps_ofExcept _).bind fun now d h => ?_
  rw [Prog.wp_bind, wp_put]
  split
  · exact h
  · have h₁ : NoOrphans (d.insert k (.value v)) :=
      orphansOnly_none.mp ((orphansOnly_none.mpr h).insert k v)
    have hset : Prog.wp (Dir.serve seen) (Program.setExpirationMillis k now)
        (d.insert k (.value v)) fun _ d' => NoOrphans d' :=
      h₁.setExpirationMillis (Dir.insert_entries_self _ _ _) now
    exact Prog.wp_seq hset (fun _ _ hd' => hd') fun _ _ hd' => hd'

/-- Between the two calls of a removal the key may be an orphan. -/
theorem NoOrphans.delete {d : Dir} (h : NoOrphans d) (k : Bytes) :
    Prog.wp (Dir.serve seen) (Program.perform (.delete k)) d fun r d' =>
      OrphansOnly (· = k) d' ∧ ∀ e, r = .error e → NoOrphans d' := by
  rw [wp_perform]
  rcases hd : d.entries k with - | v | c <;> simp only [Dir.run, hd]
  · exact ⟨h.orphansOnly _, fun _ _ => h⟩
  · refine ⟨?_, fun e he => by cases he⟩
    intro L hL j e he
    obtain ⟨hb, hrecord⟩ := (h.orphansOnly fun _ => False).delete k L hL j e he
    exact ⟨hb, hrecord.imp_left fun hj => hj.resolve_left id⟩
  · exact ⟨h.orphansOnly _, fun _ _ => h⟩

theorem keeps_deleteClear {α : Type} (k : Bytes) (a : α) :
    Prog.Keeps (Dir.serve seen) NoOrphans
      (do
        let _ ← Program.perform (.delete k)
        let _ ← Program.clearTtl k
        return a : Program α) := by
  intro d h
  apply Prog.wp_seq (h.delete k)
  · intro _ d₁ hd₁
    exact Prog.wp_seq hd₁.1.clearTtl (fun _ _ hpost => hpost.1) fun _ _ hpost => hpost.1
  · intro e d₁ hd₁
    exact hd₁.2 e rfl

section Typed

variable {K V : Type} (codec : Codec K V)

theorem keeps_decodeOption (b : Option Bytes) :
    Prog.Keeps (Dir.serve seen) NoOrphans (Collection.decodeOption codec b) :=
  keeps_of_reads (reads_decodeOption codec b) _

theorem keeps_insertWithOptions (key : K) (value : V) (expiresAt : Option SystemTime) :
    Prog.Keeps (Dir.serve seen) NoOrphans
      (Collection.insertWithOptions codec key value expiresAt) := by
  refine (Prog.keeps_ofExcept _).bind fun k => (Prog.keeps_ofExcept _).bind fun v => ?_
  cases expiresAt with
  | some time =>
    exact (keeps_putWithTtl k v time).mapError.bind fun result =>
      keeps_decodeOption codec result.previous
  | none =>
    exact (keeps_put k v).mapError.bind fun previous => (keeps_clearTtl k).mapError.bind fun _ =>
      keeps_decodeOption codec previous

theorem keeps_insert (key : K) (value : V) :
    Prog.Keeps (Dir.serve seen) NoOrphans (Collection.insert codec key value) :=
  keeps_insertWithOptions codec key value none

theorem keeps_remove (key : K) :
    Prog.Keeps (Dir.serve seen) NoOrphans (Collection.remove codec key) := by
  refine (Prog.keeps_ofExcept _).bind fun k => ?_
  refine (keeps_of_reads (reads_getKv k) _).mapError.bind fun previous => ?_
  cases previous with
  | none => exact Prog.keeps_pure _
  | some previous =>
    refine (Prog.keeps_ofExcept _).bind fun value => ?_
    intro d h
    rw [Prog.wp_bind, Program.storage, Prog.wp_mapError]
    apply Prog.wp_mono (h.delete k)
    rintro r d₁ ⟨honly, herror⟩
    cases r with
    | error e => exact herror e rfl
    | ok o =>
      have hclear : Prog.wp (Dir.serve seen) (Program.clearTtl k).storage d₁
          fun _ d' => NoOrphans d' := by
        rw [Program.storage, Prog.wp_mapError]
        exact Prog.wp_mono honly.clearTtl fun _ _ hpost => hpost.1
      exact Prog.wp_seq hclear (fun _ _ hd' => hd') fun _ _ hd' => hd'

theorem keeps_removeAll (keys : List K) :
    Prog.Keeps (Dir.serve seen) NoOrphans (Collection.removeAll codec keys) :=
  Prog.keeps_forEach (fun key => (keeps_remove codec key).bind fun _ => Prog.keeps_pure _) keys

theorem keeps_removeMany (keys : List K) :
    Prog.Keeps (Dir.serve seen) NoOrphans (Collection.removeMany codec keys) := by
  induction keys with
  | nil => exact Prog.keeps_pure _
  | cons key keys ih =>
    exact (keeps_remove codec key).bind fun _ => ih.bind fun _ => Prog.keeps_pure _

theorem keeps_insertOrdered (entries : List (K × V)) :
    Prog.Keeps (Dir.serve seen) NoOrphans (Collection.insertOrdered codec entries) := by
  unfold Collection.insertOrdered
  split
  · exact (Prog.keeps_ofExcept _).bind fun encoded =>
      (Prog.keeps_forEach keeps_putClear encoded).mapError.bind fun _ => Prog.keeps_pure _
  · exact Prog.keeps_fail _

theorem keeps_compareExchange (key : K) (expected : Option V) (value : V) :
    Prog.Keeps (Dir.serve seen) NoOrphans
      (Collection.compareExchange codec key expected value) := by
  refine (Prog.keeps_ofExcept _).bind fun k => (Prog.keeps_ofExcept _).bind fun old =>
    (Prog.keeps_ofExcept _).bind fun v => Prog.Keeps.bind (Prog.Keeps.mapError ?_) fun o => ?_
  · intro d h
    rw [wp_perform]
    simp only [Dir.run]
    cases d.observe k with
    | error e => exact h
    | ok observed =>
      by_cases heq : observed = old
      · simp only [heq, if_true]
        exact orphansOnly_none.mp ((orphansOnly_none.mpr h).insert k v)
      · simp only [heq, if_false]
        exact h
  · cases o with
    | atomic result =>
      exact (keeps_decodeOption codec _).bind fun _ => (keeps_decodeOption codec _).bind fun _ =>
        Prog.keeps_pure _
    | unit | pair _ | data _ | int _ => exact Prog.keeps_pure _

theorem keeps_popFound (found : Option (K × V)) :
    Prog.Keeps (Dir.serve seen) NoOrphans (Collection.popFound codec found) := by
  cases found with
  | none => exact Prog.keeps_pure _
  | some record => exact (keeps_remove codec record.1).bind fun _ => Prog.keeps_pure _

end Typed

theorem keeps_batchOperation (operation : Collection.BatchOperation) :
    Prog.Keeps (Dir.serve seen) NoOrphans operation.apply := by
  cases operation with
  | insert k v expiresAt =>
    cases expiresAt with
    | some time => exact (keeps_putWithTtl k v time).bind fun _ => Prog.keeps_pure _
    | none => exact keeps_putClear (k, v)
  | remove k =>
    refine (keeps_of_reads (reads_getKv k) _).bind fun previous => ?_
    split
    · exact keeps_deleteClear k ()
    · exact (keeps_clearTtl k).bind fun _ => Prog.keeps_pure _

end Operations

end Tagdata.Analysis
