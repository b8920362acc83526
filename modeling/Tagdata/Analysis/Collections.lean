import Tagdata.Analysis.Orphans
import Tagdata.Analysis.Scans
import Tagdata.Library.Transactions

/-!
# Expirations of collections

Every key of the lookup bucket has a record, in every run of the operations on a collection in
which `clear` never takes away a record that expires.
-/

set_option autoImplicit false

namespace Tagdata.Analysis

open Tagdata.Library Tagdata.Model Tagdata.Interface

section Clear

variable {seen : Dir → List Data → Prop}

/-! ## `clear` -/

/-- The keys of the records that a scan shows. -/
def shownKeys (l : List Data) : List Bytes := (l.filterMap Data.kvPair).map Prod.fst

theorem mem_shownKeys {d : Dir} {l : List Data} (hl : Shows d l) {k : Bytes}
    (hk : k ∈ shownKeys l) : ∃ v, d.entries k = some (.value v) := by
  obtain ⟨pair, hpair, rfl⟩ := List.mem_map.mp hk
  obtain ⟨x, hx, hkv⟩ := List.mem_filterMap.mp hpair
  obtain ⟨j, e, he, rfl⟩ := hl.mem x hx
  cases e with
  | value v =>
    obtain rfl := Option.some.inj hkv
    exact ⟨v, he⟩
  | bucket c => cases hkv

theorem clear_spec (hseen : ∀ c l, seen c l → Shows c l) (d : Dir) :
    Prog.wp (Dir.serve seen) Collection.clear d fun _ d' =>
      ∃ l, seen d l ∧ d'.entries = fun k => if k ∈ shownKeys l then none else d.entries k := by
  unfold Collection.clear Program.kvPairs
  simp only [Prog.wp_bind, wp_items, Prog.andThen_ok, Prog.wp_pure]
  intro l hl
  have hshows := hseen d l hl
  apply Prog.wp_mono (deleteEach_spec (filterMap_kvPair_nodup hshows.sorted)
    fun k hk => mem_shownKeys hshows hk)
  rintro r d' ⟨rfl, hd'⟩
  exact ⟨l, hl, hd'⟩

/-- Deleting records leaves no orphan exactly when none of them expires. -/
theorem noOrphans_clear_iff {d d' : Dir} {l : List Data} (h : NoOrphans d) (hl : Shows d l)
    (hd' : d'.entries = fun k => if k ∈ shownKeys l then none else d.entries k) :
    NoOrphans d' ↔ ∀ k ∈ shownKeys l, lookupOf d k = none := by
  -- A lookup bucket is no record, so it is still there.
  have hbucket : ∀ L : Dir, d'.entries ttlBucket = some (.bucket L) ↔
      d.entries ttlBucket = some (.bucket L) := by
    intro L
    rw [hd']
    by_cases hmem : ttlBucket ∈ shownKeys l
    · obtain ⟨v, hv⟩ := mem_shownKeys hl hmem
      simp [hmem, hv]
    · simp [hmem]
  constructor
  · intro hclean k hk
    by_contra hne
    obtain ⟨b, hb⟩ := Option.ne_none_iff_exists'.mp hne
    unfold lookupOf at hb
    split at hb
    · rename_i L hL
      have hentry : L.entries k = some (.value b) := by
        unfold rawValue at hb
        split at hb
        · rename_i v hv
          rw [hv, Option.some.inj hb]
        · cases hb
      obtain ⟨-, v, hv⟩ := hclean L ((hbucket L).mpr hL) k _ hentry
      rw [hd'] at hv
      simp [hk] at hv
    · cases hb
  · intro hnone L hL k e he
    obtain ⟨⟨b, rfl⟩, v, hv⟩ := h L ((hbucket L).mp hL) k e he
    refine ⟨⟨b, rfl⟩, v, ?_⟩
    have hk : k ∉ shownKeys l := by
      intro hk
      have hlookup := hnone k hk
      simp [lookupOf, (hbucket L).mp hL, rawValue, he] at hlookup
    rw [hd']
    simp [hk, hv]

end Clear

/-! ## Runs -/

/-- The operations on a collection. -/
inductive CollectionOp (K V : Type) where
  | insertWithOptions (key : K) (value : V) (expiresAt : Option SystemTime)
  | remove (key : K)
  | insertMany (entries : List (K × V))
  | removeMany (keys : List K)
  | insertOrdered (entries : List (K × V))
  | clear
  | andModify (entry : Collection.Entry K V) (update : V → V)
  | orInsertWith (entry : Collection.Entry K V) (default : V)
  | replaceEntry (entry : Collection.Entry K V) (value : V)
  | removeEntry (entry : Collection.Entry K V)
  | compareExchange (key : K) (expected : Option V) (value : V)
  | popFirst (clock : Nat → SystemTime)
  | popLast (clock : Nat → SystemTime)
  | deleteRange (start endExclusive : K) (clock : Nat → SystemTime)
  | deletePrefix (pre : Bytes) (clock : Nat → SystemTime)
  | fetchAdd (default : V) (add : V → V → V) (key : K) (amount : V) (now : SystemTime)
  | applyBatch (operations : List Collection.BatchOperation)

namespace CollectionOp

variable {K V : Type}

/-- What an operation calls; its result is dropped. -/
def program (codec : Codec K V) : CollectionOp K V → CollectionProgram Unit
  | .insertWithOptions key value expiresAt => do
      let _ ← Collection.insertWithOptions codec key value expiresAt
  | .remove key => do let _ ← Collection.remove codec key
  | .insertMany entries => Collection.insertMany codec entries
  | .removeMany keys => do let _ ← Collection.removeMany codec keys
  | .insertOrdered entries => do let _ ← Collection.insertOrdered codec entries
  | .clear => do let _ ← Collection.clear.storage
  | .andModify entry update => do let _ ← entry.andModify codec update
  | .orInsertWith entry default => do let _ ← entry.orInsertWith codec default
  | .replaceEntry entry value => do let _ ← entry.replace codec value
  | .removeEntry entry => do let _ ← entry.remove codec
  | .compareExchange key expected value => do
      let _ ← Collection.compareExchange codec key expected value
  | .popFirst clock => do let _ ← Collection.popFirst codec clock
  | .popLast clock => do let _ ← Collection.popLast codec clock
  | .deleteRange start endExclusive clock => do
      let _ ← Collection.deleteRange codec start endExclusive clock
  | .deletePrefix pre clock => do let _ ← Collection.deletePrefix codec pre clock
  | .fetchAdd default add key amount now => do
      let _ ← Collection.fetchAdd codec default add key amount now
  | .applyBatch operations => do let _ ← (Collection.applyBatch operations).storage

/-- `clear` is called only while no record expires. -/
def Permitted (op : CollectionOp K V) (d : Dir) : Prop :=
  match op with
  | .clear => ∀ k v, d.entries k = some (.value v) → lookupOf d k = none
  | _ => True

/-- Every operation but `clear` leaves no orphan. -/
theorem keeps (codec : Codec K V) {seen : Dir → List Data → Prop} (op : CollectionOp K V)
    (hop : op ≠ .clear) : Prog.Keeps (Dir.serve seen) NoOrphans (op.program codec) := by
  have drop : ∀ {α : Type} {p : CollectionProgram α}, Prog.Keeps (Dir.serve seen) NoOrphans p →
      Prog.Keeps (Dir.serve seen) NoOrphans (do let _ ← p) :=
    fun hp => hp.bind fun _ => Prog.keeps_pure _
  cases op with
  | insertWithOptions key value expiresAt =>
    exact drop (keeps_insertWithOptions codec key value expiresAt)
  | remove key => exact drop (keeps_remove codec key)
  | insertMany entries =>
    exact Prog.keeps_forEach (fun entry => drop (keeps_insert codec entry.1 entry.2)) entries
  | removeMany keys => exact drop (keeps_removeMany codec keys)
  | insertOrdered entries => exact drop (keeps_insertOrdered codec entries)
  | clear => exact absurd rfl hop
  | andModify entry update =>
    apply drop
    unfold Collection.Entry.andModify
    split
    · exact (keeps_insert codec entry.key _).bind fun _ => Prog.keeps_pure _
    · exact Prog.keeps_pure _
  | orInsertWith entry default =>
    apply drop
    unfold Collection.Entry.orInsertWith
    split
    · exact Prog.keeps_pure _
    · exact (keeps_insert codec entry.key _).bind fun _ => Prog.keeps_pure _
  | replaceEntry entry value => exact drop (keeps_insert codec entry.key value)
  | removeEntry entry => exact drop (keeps_remove codec entry.key)
  | compareExchange key expected value =>
    exact drop (keeps_compareExchange codec key expected value)
  | popFirst clock =>
    exact drop ((keeps_of_reads (reads_first codec clock) _).bind fun found =>
      keeps_popFound codec found)
  | popLast clock =>
    exact drop ((keeps_of_reads (reads_last codec clock) _).bind fun found =>
      keeps_popFound codec found)
  | deleteRange start finish clock =>
    exact drop ((keeps_of_reads (reads_range codec start finish clock) _).bind fun items =>
      (keeps_removeAll codec _).bind fun _ => Prog.keeps_pure _)
  | deletePrefix pre clock =>
    exact drop ((keeps_of_reads (reads_withPrefix codec pre clock) _).bind fun items =>
      (keeps_removeAll codec _).bind fun _ => Prog.keeps_pure _)
  | fetchAdd default add key amount now =>
    exact drop ((keeps_of_reads (reads_get codec key now) _).bind fun previous =>
      (keeps_insert codec key _).bind fun _ => Prog.keeps_pure _)
  | applyBatch operations =>
    exact drop (((Prog.keeps_forEach keeps_batchOperation operations).bind fun _ =>
      Prog.keeps_pure _).mapError)

end CollectionOp

/-- One permitted operation on a collection, with any codec; when it fails, what it did so far
stays in the transaction. -/
def CollectionStep (d d' : Dir) : Prop :=
  ∃ (K V : Type) (codec : Codec K V) (op : CollectionOp K V) (r : Except CodecError Unit),
    op.Permitted d ∧ Prog.Ends (Dir.serve Shows) (op.program codec) d r d'

theorem CollectionStep.noOrphans {d d' : Dir} (hstep : CollectionStep d d') (h : NoOrphans d) :
    NoOrphans d' := by
  obtain ⟨K, V, codec, op, r, hpermitted, hends⟩ := hstep
  by_cases hop : op = .clear
  · subst hop
    have hclear : Prog.wp (Dir.serve Shows) (CollectionOp.program codec .clear) d fun _ d' =>
        NoOrphans d' := by
      have hspec : Prog.wp (Dir.serve Shows) Collection.clear.storage d fun _ d' =>
          NoOrphans d' := by
        rw [Program.storage, Prog.wp_mapError]
        apply Prog.wp_mono (clear_spec (fun _ _ hl => hl) d)
        rintro r d' ⟨l, hl, hd'⟩
        apply (noOrphans_clear_iff h hl hd').mpr
        intro k hk
        obtain ⟨v, hv⟩ := mem_shownKeys hl hk
        exact hpermitted k v hv
      exact Prog.wp_seq hspec (fun _ _ hd' => hd') fun _ _ hd' => hd'
    exact Prog.wp_iff_ends.mp hclear r d' hends
  · exact Prog.wp_iff_ends.mp (op.keeps codec hop d h) r d' hends

/-- A value that is written without an expiration, into a key without a record or with `insert`,
can be read at any time. -/
structure NeverHidden (d : Dir) : Prop where
  written : ∀ (k v : Bytes) (time : SystemTime), rawValue d k = none →
    Prog.wp (Dir.serve Shows) (do let _ ← Program.put k v; Program.getLiveAt k time) d
      fun r _ => r ≠ .ok none
  inserted : ∀ (k v : Bytes) (time : SystemTime),
    Prog.wp (Dir.serve Shows) (do Collection.putClear (k, v); Program.getLiveAt k time) d
      fun r _ => r ≠ .ok none

/-- A record without a lookup entry is not hidden. -/
theorem getLiveAt_not_hidden {d : Dir} {k v : Bytes} (hvalue : rawValue d k = some v)
    (hlookup : lookupOf d k = none) (time : SystemTime) :
    Prog.wp (Dir.serve Shows) (Program.getLiveAt k time) d fun r _ => r ≠ .ok none := by
  unfold Program.getLiveAt Program.expiration Program.expirationBucket
  simp only [Prog.wp_bind, wp_attempt]
  rcases hL : d.entries ttlBucket with - | w | L
  · simp [Dir.run, hL, hvalue]
  · simp [Dir.run, hL]
  · simp only [Dir.run, hL, Prog.andThen_ok, Prog.wp_pure]
    have hnone : rawValue L k = none := by simpa [lookupOf, hL] using hlookup
    rw [Prog.wp_bind, wp_inside hL, wp_getKv, hnone, Dir.set_self hL]
    simp [hvalue]

theorem NoOrphans.neverHidden {d : Dir} (h : NoOrphans d) : NeverHidden d := by
  have hput : ∀ k v, (∀ c, d.entries k ≠ some (.bucket c)) →
      NoOrphans (d.insert k (.value v)) ∧ rawValue (d.insert k (.value v)) k = some v := by
    intro k v _
    exact ⟨orphansOnly_none.mp ((orphansOnly_none.mpr h).insert k v), by simp [rawValue]⟩
  constructor
  · intro k v time hraw
    rw [Prog.wp_bind, wp_put]
    split
    · simp
    · rename_i hfree
      rw [Prog.andThen_ok]
      refine getLiveAt_not_hidden (hput k v fun c hc => hfree c hc).2 ?_ time
      -- A lookup entry of the key would belong to a record that is not there.
      unfold lookupOf
      split
      · rename_i L hL
        have hk : ttlBucket ≠ k := by
          rintro rfl
          simp at hL
        rw [Dir.insert_entries_ne d hk] at hL
        unfold rawValue
        split
        · rename_i b hb
          obtain ⟨-, w, hw⟩ := h L hL k _ hb
          simp [rawValue, hw] at hraw
        · rfl
      · rfl
  · intro k v time
    unfold Collection.putClear
    rw [Prog.wp_bind, Prog.wp_bind, wp_put]
    split
    · simp
    · rename_i hfree
      rw [Prog.andThen_ok]
      obtain ⟨hclean, hvalue⟩ := hput k v fun c hc => hfree c hc
      rw [Prog.wp_bind]
      apply Prog.wp_mono (hclean.orphansOnly (· = k)).clearTtl
      rintro r d' ⟨-, hlookup, hvalues⟩
      cases r with
      | error e => simp
      | ok b =>
        refine getLiveAt_not_hidden (v := v) ?_ hlookup time
        have := (hvalues k v).mpr (Dir.insert_entries_self _ _ _)
        simp [rawValue, this]

/-- No key of the lookup bucket of a collection is without a record, in every state of every run
that calls `clear` only while no record expires; and a `clear` that sees the whole collection
leaves no orphan exactly then. -/
theorem collection_no_orphans (d₀ : Dir) (s : Store Dir) :
    (d₀.entries ttlBucket = none →
      Store.Reachable CollectionStep d₀ s → ∀ d, s.Holds d → NoOrphans d ∧ NeverHidden d) ∧
    ∀ (d d' : Dir) (r : Except Error Nat), NoOrphans d →
      Prog.Ends (Dir.serve Lists) Collection.clear d r d' →
      (NoOrphans d' ↔ ∀ k v, d.entries k = some (.value v) → lookupOf d k = none) := by
  constructor
  · intro hstart hs d hd
    have hfresh : NoOrphans d₀ := by
      intro L hL
      rw [hstart] at hL
      cases hL
    have hstep : ∀ w w' : Dir, NoOrphans w → CollectionStep w w' → NoOrphans w' :=
      fun _ _ h hstep => hstep.noOrphans h
    have hclean : NoOrphans d := hs.invariant hstep hfresh d hd
    exact ⟨hclean, hclean.neverHidden⟩
  · intro d d' r h hends
    have hshows : ∀ c l, Lists c l → Shows c l :=
      fun c l hl => ⟨hl.sorted, fun x hx => (hl.mem x).mp hx⟩
    obtain ⟨l, hl, hd'⟩ := Prog.wp_iff_ends.mp (clear_spec hshows d) r d' hends
    rw [noOrphans_clear_iff h (hshows d l hl) hd']
    constructor
    · intro hnone k v hv
      apply hnone k
      refine List.mem_map.mpr ⟨(k, v), List.mem_filterMap.mpr ⟨.keyValue k v, ?_, rfl⟩, rfl⟩
      exact (hl.mem _).mpr ⟨k, .value v, hv, rfl⟩
    · intro hnone k hk
      obtain ⟨v, hv⟩ := mem_shownKeys (hshows d l hl) hk
      exact hnone k v hv

/-! ### A record that expires -/

/-- A record inserted with an expiration into a new collection. -/
theorem exists_expiring_insert :
    ∃ d : Dir, Prog.Ends (Dir.serve Shows)
        (CollectionOp.program bytesCodec (.insertWithOptions [107] [118] (some 5))) Dir.empty
        (.ok ()) d ∧
      Expires (Function.update (fun _ => none) [107] (some 5)) d ∧
      SameRecords (Dir.empty.insert [107] (.value [118])) d := by
  have hkey : ¬ Reserved [107] := by
    rintro (h | h) <;> revert h <;> decide
  have hwp : Prog.wp (Dir.serve Shows)
      (CollectionOp.program bytesCodec (.insertWithOptions [107] [118] (some 5))) Dir.empty
      fun r d => r = .ok () ∧ Expires (Function.update (fun _ => none) [107] (some 5)) d ∧
        SameRecords (Dir.empty.insert [107] (.value [118])) d := by
    unfold CollectionOp.program Collection.insertWithOptions
    simp only [Prog.wp_bind, Prog.wp_ofExcept, bytesCodec, Prog.andThen_ok, Program.storage,
      Prog.wp_mapError]
    apply Prog.wp_mono (expires_empty.putWithTtl_value hkey (fun c hc => by cases hc) [118]
      (rfl : epochMillis 5 = .ok 5))
    rintro r d ⟨rfl, hexpires, hsame⟩
    exact ⟨rfl, hexpires, hsame⟩
  obtain ⟨r, d, hends⟩ := Prog.exists_ends serve_total
    (CollectionOp.program bytesCodec (.insertWithOptions [107] [118] (some 5))) Dir.empty
  obtain ⟨rfl, hexpires, hsame⟩ := Prog.wp_iff_ends.mp hwp r d hends
  exact ⟨d, hends, hexpires, hsame⟩

/-- With the record in place its expiration is no orphan. -/
theorem collection_no_orphans_insert :
    ∃ s : Store Dir, Store.Reachable CollectionStep Dir.empty s ∧
      (∃ d, s.working = some d ∧ lookupOf d [107] = some (beBytes 8 5)) ∧
      ∀ d, s.Holds d → NoOrphans d ∧ NeverHidden d := by
  obtain ⟨d, hends, hexpires, -⟩ := exists_expiring_insert
  have hinsert : Store.Step CollectionStep ⟨Dir.empty, some Dir.empty⟩ ⟨Dir.empty, some d⟩ :=
    .operate _ ⟨Bytes, Bytes, bytesCodec, .insertWithOptions [107] [118] (some 5), .ok (), trivial,
      hends⟩
  have hreachable : Store.Reachable CollectionStep Dir.empty ⟨Dir.empty, some d⟩ :=
    (Relation.ReflTransGen.single (.start _)).tail hinsert
  refine ⟨_, hreachable, ⟨d, rfl, ?_⟩, (collection_no_orphans Dir.empty _).1 rfl hreachable⟩
  rw [hexpires.lookupOf, Function.update_self]
  rfl

/-- `clear` takes the record away and leaves its expiration; a value that `compare_exchange`
writes later without an expiration is then hidden. -/
theorem clear_leaves_orphan :
    ∃ d₁ d₂ d₃ : Dir,
      Prog.Ends (Dir.serve Shows)
        (CollectionOp.program bytesCodec (.insertWithOptions [107] [118] (some 5))) Dir.empty
        (.ok ()) d₁ ∧
      Prog.Ends (Dir.serve Lists) Collection.clear d₁ (.ok 1) d₂ ∧ ¬ NoOrphans d₂ ∧
      Prog.Ends (Dir.serve Shows)
        (CollectionOp.program bytesCodec (.compareExchange [107] none [119])) d₂ (.ok ()) d₃ ∧
      rawValue d₃ [107] = some [119] ∧
      Prog.Ends (Dir.serve Shows) (Collection.get bytesCodec [107] 9) d₃ (.ok none) d₃ := by
  obtain ⟨d₁, hends, hexpires, hsame⟩ := exists_expiring_insert
  have hkey : ¬ Reserved [107] := by
    rintro (h | h) <;> revert h <;> decide
  have hentry : d₁.entries [107] = some (.value [118]) := by
    rw [hsame.entries _ hkey, Dir.insert_entries_self]
  obtain ⟨hnone, -⟩ | ⟨L, D, hL, hD, hindexes⟩ := id hexpires
  · have := congrFun hnone [107]
    simp at this
  -- The scan of `clear` shows the two reserved buckets and the record.
  obtain ⟨l, hlists, hkeys⟩ : ∃ l, Lists d₁ l ∧
      (l.filterMap Data.kvPair).map Prod.fst = [[107]] := by
    refine ⟨[.bucket ttlDeadlinesBucket, .bucket ttlBucket, .keyValue [107] [118]], ⟨?_, ?_⟩, rfl⟩
    · decide
    · intro x
      simp only [List.mem_cons, List.not_mem_nil, or_false]
      constructor
      · rintro (rfl | rfl | rfl)
        · exact ⟨_, _, hD, rfl⟩
        · exact ⟨_, _, hL, rfl⟩
        · exact ⟨_, _, hentry, rfl⟩
      · rintro ⟨k, e, he, rfl⟩
        by_cases hres : Reserved k
        · obtain rfl | rfl := hres
          · rw [hL] at he
            obtain rfl := Option.some.inj he
            exact .inr (.inl rfl)
          · rw [hD] at he
            obtain rfl := Option.some.inj he
            exact .inl rfl
        · rw [hsame.entries k hres] at he
          by_cases hk : k = [107]
          · subst hk
            rw [Dir.insert_entries_self] at he
            obtain rfl := Option.some.inj he
            exact .inr (.inr rfl)
          · rw [Dir.insert_entries_ne _ hk] at he
            cases he
  have hclear : Prog.Ends (Dir.serve Lists) Collection.clear d₁ (.ok 1) (d₁.set [107] none) := by
    by_contra hnever
    have hwp : Prog.wp (Dir.serve Lists) Collection.clear d₁ fun r d' =>
        ¬ (r = .ok 1 ∧ d' = d₁.set [107] none) := by
      rw [Prog.wp_iff_ends]
      rintro r d' hclear ⟨rfl, rfl⟩
      exact hnever hclear
    unfold Collection.clear Program.kvPairs at hwp
    simp only [Prog.wp_bind, wp_items, Prog.andThen_ok, Prog.wp_pure] at hwp
    have hrun := hwp l hlists
    rw [hkeys] at hrun
    simp [Prog.forEach, Prog.wp_bind', Dir.run, hentry] at hrun
  have hexpires₂ : Expires (Function.update (fun _ => none) [107] (some 5)) (d₁.set [107] none) :=
    hexpires.set hkey none
  have hobserve : (d₁.set [107] none).observe [107] = .ok none := by
    simp [Dir.observe]
  have hexchange : Prog.wp (Dir.serve Shows)
      (CollectionOp.program bytesCodec (.compareExchange [107] none [119])) (d₁.set [107] none)
      fun r d' => r = .ok () ∧ d' = (d₁.set [107] none).insert [107] (.value [119]) := by
    unfold CollectionOp.program Collection.compareExchange
    simp [bytesCodec, Program.storage, Dir.run, hobserve, Collection.decodeOption, Except.mapError]
  obtain ⟨r, d₃, hends₃⟩ := Prog.exists_ends serve_total
    (CollectionOp.program bytesCodec (.compareExchange [107] none [119])) (d₁.set [107] none)
  obtain ⟨rfl, rfl⟩ := Prog.wp_iff_ends.mp hexchange r d₃ hends₃
  have hexpires₃ := hexpires₂.insert hkey (.value [119])
  have hread : Prog.wp (Dir.serve Shows) (Collection.get bytesCodec [107] 9)
      ((d₁.set [107] none).insert [107] (.value [119])) fun r d' =>
        r = .ok none ∧ d' = (d₁.set [107] none).insert [107] (.value [119]) := by
    unfold Collection.get
    simp only [bytesCodec, Prog.wp_bind, Prog.wp_ofExcept, Prog.andThen_ok, Program.storage,
      Prog.wp_mapError]
    apply Prog.wp_mono (hexpires₃.getLiveAt [107] (rfl : epochMillis 9 = .ok 9))
    rintro r d' ⟨rfl, rfl⟩
    simp [Except.mapError, Collection.decodeOption]
  obtain ⟨r, d₄, hends₄⟩ := Prog.exists_ends serve_total (Collection.get bytesCodec [107] 9)
    ((d₁.set [107] none).insert [107] (.value [119]))
  obtain ⟨rfl, rfl⟩ := Prog.wp_iff_ends.mp hread r d₄ hends₄
  refine ⟨d₁, _, _, hends, hclear, ?_, hends₃, by simp [rawValue], hends₄⟩
  intro hclean
  have hlook : L.entries [107] = some (.value (beBytes 8 5)) := by
    simp [hindexes.lookup, lookupEntries]
  have hbucket : (d₁.set [107] none).entries ttlBucket = some (.bucket L) := by
    rw [Dir.set_entries_ne _ (by decide), hL]
  obtain ⟨-, v, hv⟩ := hclean L hbucket [107] _ hlook
  simp at hv

end Tagdata.Analysis
