import Tagdata.Analysis.CursorCalls
import Tagdata.Analysis.Scans
import Tagdata.Analysis.Simulation
import Tagdata.Analysis.TypedRanges

/-!
# The reads of a collection and its live records

Point reads and iterators look at the expirations, each in its own way, and see the same live
records.  `len` and `is_empty` count what is stored.  So all of them describe one set exactly
when no stored record has expired.
-/

set_option autoImplicit false

namespace Tagdata.Analysis

open Tagdata.Library Tagdata.Library.SearchTree Tagdata.Model Tagdata.Interface

/-! ## Point reads -/

section Points

variable {seen : Dir → List Data → Prop}

/-- `expiration` and the comparison in `get_live_at` are the liveness of the key. -/
theorem wp_getLiveAt (d : Dir) (k : Bytes) (now : SystemTime)
    (post : Except Error (Option Bytes) → Dir → Prop) :
    Prog.wp (Dir.serve seen) (Program.getLiveAt k now) d post ↔
      post ((liveness d now k).map fun live => if live then rawValue d k else none) d := by
  unfold Program.getLiveAt Program.expiration Program.expirationBucket
  rcases hL : d.entries ttlBucket with - | v | L
  · have hget : Dir.run (.getBucket ttlBucket) d = (.error .bucketMissing, d) := by
      simp [Dir.run, hL]
    simp [hget, liveness, hL, Except.map]
  · have hget : Dir.run (.getBucket ttlBucket) d = (.error .incompatibleValue, d) := by
      simp [Dir.run, hL]
    simp [hget, liveness, hL, Except.map]
  · have hget : Dir.run (.getBucket ttlBucket) d = (.ok .unit, d) := by
      simp [Dir.run, hL]
    simp only [Prog.wp_bind, wp_attempt, hget, Prog.andThen_ok, Prog.wp_pure]
    rw [wp_inside hL, wp_getKv, Dir.set_self hL]
    rcases hk : L.entries k with - | bytes | c
    · simp [rawValue, hk, liveness, hL, entryLive, Except.map]
    · cases hdecode : decodeExpiration bytes with
      | error e => simp [rawValue, hk, liveness, hL, entryLive, hdecode, Except.map]
      | ok t =>
        cases hnow : epochMillis now with
        | error e => simp [rawValue, hk, liveness, hL, entryLive, hdecode, hnow, Except.map]
        | ok millis =>
          by_cases hle : t ≤ millis
          · simp [rawValue, hk, liveness, hL, entryLive, hdecode, hnow, hle, Except.map,
              Nat.not_lt.mpr hle]
          · simp [rawValue, hk, liveness, hL, entryLive, hdecode, hnow, hle, Except.map,
              Nat.lt_of_not_le hle]
    · simp [rawValue, hk, liveness, hL, entryLive, Except.map]

theorem calls_getKv (k : Bytes) : (Program.getKv k).Only Calls :=
  (calls_perform rfl).bind fun _ => Prog.only_pure _

theorem calls_expirationBucket : Program.expirationBucket.Only Calls := by
  refine (calls_attempt rfl).bind fun r => ?_
  rcases r with e | o
  · cases e <;> trivial
  · trivial

theorem calls_getLiveAt (k : Bytes) (now : SystemTime) : (Program.getLiveAt k now).Only Calls := by
  refine Prog.Only.bind (calls_expirationBucket.bind fun present => ?_) fun expiration => ?_
  · cases present with
    | false => trivial
    | true =>
      refine ((calls_getKv k).mapCalls (calls_inside ttlBucket)).bind fun bytes => ?_
      cases bytes with
      | none => trivial
      | some bytes => exact (Prog.only_ofExcept _).bind fun _ => Prog.only_pure _
  · cases expiration with
    | none => exact calls_getKv k
    | some t =>
      refine (Prog.only_ofExcept _).bind fun millis => ?_
      split
      · trivial
      · exact calls_getKv k

variable {K V : Type} (codec : Codec K V)

theorem calls_get (key : K) (now : SystemTime) : (Collection.get codec key now).Only Calls := by
  refine (Prog.only_ofExcept _).bind fun k => ?_
  refine (calls_getLiveAt k now).mapError.bind fun bytes => ?_
  cases bytes with
  | none => trivial
  | some bytes => exact (Prog.only_ofExcept _).bind fun _ => Prog.only_pure _

/-- What `get` answers for an encoded key. -/
def readOf (d : Dir) (now : SystemTime) (k : Bytes) : Except CodecError (Option V) :=
  match liveness d now k with
  | .error e => .error (.storage e)
  | .ok false => .ok none
  | .ok true =>
      match rawValue d k with
      | none => .ok none
      | some bytes => (codec.decodeValue bytes).map some

variable {codec}

theorem wp_get {key : K} {k : Bytes} (hk : codec.encodeKey key = .ok k) (d : Dir)
    (now : SystemTime) (post : Except CodecError (Option V) → Dir → Prop) :
    Prog.wp (Dir.serve seen) (Collection.get codec key now) d post ↔
      post (readOf codec d now k) d := by
  unfold Collection.get Program.storage
  rw [hk]
  simp only [Prog.wp_bind, Prog.wp_ofExcept, Prog.andThen_ok, Prog.wp_mapError, wp_getLiveAt]
  rcases hlive : liveness d now k with e | live
  · simp [readOf, hlive, Except.map, Except.mapError]
  · cases live with
    | false => simp [readOf, hlive, Except.map, Except.mapError, Collection.decodeOption]
    | true =>
      cases hraw : rawValue d k with
      | none => simp [readOf, hlive, hraw, Except.map, Except.mapError, Collection.decodeOption]
      | some bytes =>
        cases hvalue : codec.decodeValue bytes <;>
          simp [readOf, hlive, hraw, Except.map, Except.mapError, Collection.decodeOption, hvalue]

variable {P : Pages} {origin : Option Nest} {b : InnerBucket} {T : Nest} {N fuel : Nat}

/-- `get` on the buckets. -/
theorem Overlay.get_reads (h : Overlay P origin b T) (hN : Within N origin) (hfuel : N ≤ fuel)
    (fl : TxFreelist) {key : K} {k : Bytes} (hk : codec.encodeKey key = .ok k) (now : SystemTime) :
    ∃ s, Collection.running P fuel (Collection.get codec key now) (b, fl) =
      .ok (readOf codec T.dir now k) s := by
  have hwp : Prog.wp (Dir.serve Shows) (Collection.get codec key now) T.dir fun r _ =>
      r = readOf codec T.dir now k := (wp_get hk T.dir now _).mpr rfl
  obtain ⟨r, b', fl', T', hrun, rfl, -⟩ :=
    h.exec_calls hN hfuel fl (calls_get codec key now) hwp
  exact ⟨(b', fl'), by rw [Collection.running, hrun]⟩

/-- `contains_key` on the buckets. -/
theorem Overlay.containsKey_reads (h : Overlay P origin b T) (hN : Within N origin)
    (hfuel : N ≤ fuel) (fl : TxFreelist) {key : K} {k : Bytes} (hk : codec.encodeKey key = .ok k)
    (now : SystemTime) :
    ∃ s, Collection.running P fuel (Collection.containsKey codec key now) (b, fl) =
      .ok ((readOf codec T.dir now k).map Option.isSome) s := by
  have hcalls : (Collection.containsKey codec key now).Only Calls :=
    (calls_get codec key now).bind fun _ => Prog.only_pure _
  have hwp : Prog.wp (Dir.serve Shows) (Collection.containsKey codec key now) T.dir fun r _ =>
      r = (readOf codec T.dir now k).map Option.isSome := by
    unfold Collection.containsKey
    rw [Prog.wp_bind, wp_get hk]
    cases readOf codec T.dir now k <;> simp [Except.map]
  obtain ⟨r, b', fl', T', hrun, rfl, -⟩ := h.exec_calls hN hfuel fl hcalls hwp
  exact ⟨(b', fl'), by rw [Collection.running, hrun]⟩

end Points

/-! ## Iterators -/

section Iterators

variable {K V : Type} {codec : Codec K V} {P : Pages} {origin : Option Nest} {T : Nest}
  {b : InnerBucket} {N fuel : Nat} {now : SystemTime} {rows : List (Row codec)}

/-- An iterator that yields these rows. -/
def Iterates (P : Pages) (fuel : Nat) (codec : Codec K V) (now : SystemTime)
    (make : EStateM Fault BucketTx CollectionIter) (s : BucketTx) (rows : List (Row codec)) :
      Prop :=
  ∃ it s' it', make s = .ok it s' ∧
    Yields (CollectionIter.next P fuel s'.1 codec now) it (itemsOf rows) it'

theorem Iterates.scanned {make : EStateM Fault BucketTx CollectionIter} {s : BucketTx}
    (h : Iterates P fuel codec now make s rows) (hlen : rows.length < fuel) :
    ∃ s', Collection.scanned P fuel codec now make s = .ok (itemsOf rows) s' := by
  obtain ⟨it, s', it', hmake, hyields⟩ := h
  have hcollect : it.collect P fuel s'.1 codec now = .ok (itemsOf rows) := by
    rw [CollectionIter.collect, hyields.drain .diverge fuel (by simpa [itemsOf] using hlen)]
  exact ⟨s', by simp [Collection.scanned, estate_bind, hmake, hcollect]⟩

theorem firstOf_yields {make : EStateM Fault BucketTx CollectionIter} {s s' : BucketTx}
    {it it' : CollectionIter} (hmake : make s = .ok it s')
    (hyields : Yields (CollectionIter.next P fuel s'.1 codec now) it (itemsOf rows) it') :
    Collection.firstOf P fuel codec now make s = .ok (.ok (rows.head?.map Row.item)) s' := by
  cases rows with
  | nil =>
    cases hyields with
    | done stop => simp [Collection.firstOf, estate_bind, hmake, stop]
  | cons r rows =>
    cases hyields with
    | more step rest => simp [Collection.firstOf, estate_bind, hmake, step, Row.item]

theorem Iterates.firstOf {make : EStateM Fault BucketTx CollectionIter} {s : BucketTx}
    (h : Iterates P fuel codec now make s rows) :
    ∃ s', Collection.firstOf P fuel codec now make s = .ok (.ok (rows.head?.map Row.item)) s' := by
  obtain ⟨it, s', it', hmake, hyields⟩ := h
  exact ⟨s', firstOf_yields hmake hyields⟩

/-- The rows that have not expired. -/
def liveOnes (d : Dir) (now : SystemTime) (rows : List (Row codec)) : List (Row codec) :=
  rows.filter fun r => isLive d now r.encodedKey

theorem produced_unbounded {stops : Bytes → Bool} (hstops : ∀ k, stops k = false)
    {l : List Leaf} (hrows : records l = rows.map Row.encoded) (live : Bytes → Bool) :
    produced codec stops live l = itemsOf (rows.filter fun r => live r.encodedKey) := by
  have hall : ((records l).takeWhile fun r => !stops r.1) = records l :=
    List.takeWhile_eq_self_iff.mpr (by simp [hstops])
  rw [← decode_rows rows live, ← hrows, produced, hall]

theorem mem_records_content {l : List Leaf} {k v : Bytes} : (k, v) ∈ records l ↔
    Leaf.kv k v ∈ l := by
  simp only [records, List.mem_filterMap]
  constructor
  · rintro ⟨e, he, hpair⟩
    cases e with
    | bucket name m => cases hpair
    | kv k' v' =>
      obtain ⟨rfl, rfl⟩ : k' = k ∧ v' = v := by simpa [Leaf.kvPair] using hpair
      exact he
  · exact fun h => ⟨_, h, rfl⟩

/-- The records are the rows. -/
theorem mem_rows (hrows : records T.tree.content = rows.map Row.encoded) {k v : Bytes} :
    Leaf.kv k v ∈ T.tree.content ↔ ∃ r ∈ rows, r.encodedKey = k ∧ r.encodedValue = v := by
  rw [← mem_records_content, hrows]
  simp [Row.encoded]

theorem legible_rows (hrows : records T.tree.content = rows.map Row.encoded)
    (hlegible : ∀ r ∈ rows, Legible T.dir now r.encodedKey) (k v : Bytes)
    (hkv : Leaf.kv k v ∈ T.tree.content) : Legible T.dir now k := by
  obtain ⟨r, hr, rfl, -⟩ := (mem_rows hrows).mp hkv
  exact hlegible r hr

variable (codec) in
/-- `iter` in a transaction, where every leaf below a branch is inhabited. -/
theorem Overlay.iter_yields (h : Overlay P origin b T) (hN : Within N origin) (hfuel : N ≤ fuel)
    (hfilled : Filled T.tree) (hlen : T.tree.subs.length + T.tree.content.length + 2 ≤ fuel)
    (hkind : ∀ v, T.dir.entries ttlBucket ≠ some (.value v))
    (hrows : records T.tree.content = rows.map Row.encoded)
    (hlegible : ∀ r ∈ rows, Legible T.dir now r.encodedKey) (fl : TxFreelist) :
    ∃ it b' it', Collection.iter P fuel (b, fl) = .ok it (b', fl) ∧ Overlay P origin b' T ∧
      Yields (CollectionIter.next P fuel b' codec now) it (itemsOf (liveOnes T.dir now rows))
        it' := by
  obtain ⟨e, b', hopen, hknows, hover, -⟩ := expirationBucket_opens h hN hfuel hkind now fl
  obtain ⟨c', hmoves⟩ := hover.yields_new hfilled hlen
  have hstops : ∀ k, CollectionIter.stops ⟨.new, .ok e, none, none, none, none, false⟩ k = false :=
    fun k => rfl
  obtain ⟨c'', hyields, -⟩ := next_yields codec ⟨.new, .ok e, none, none, none, none, false⟩ rfl rfl
    hknows (legible_rows hrows hlegible) hmoves (by omega)
  rw [produced_unbounded hstops hrows] at hyields
  refine ⟨_, b', _, ?_, hover, hyields⟩
  simp [atCursor, Collection.iter, Collection.iterWith, estate_map, hopen]

variable (codec) in
/-- `iter_rev` in a transaction, where every leaf below a branch is inhabited. -/
theorem Overlay.iterRev_yields (h : Overlay P origin b T) (hN : Within N origin) (hfuel : N ≤ fuel)
    (hfilled : Filled T.tree) (hlen : T.tree.subs.length + T.tree.content.length + 2 ≤ fuel)
    (hkind : ∀ v, T.dir.entries ttlBucket ≠ some (.value v))
    (hrows : records T.tree.content = rows.map Row.encoded)
    (hlegible : ∀ r ∈ rows, Legible T.dir now r.encodedKey) (fl : TxFreelist) :
    ∃ it b' it', Collection.iterRev P fuel (b, fl) = .ok it (b', fl) ∧ Overlay P origin b' T ∧
      Yields (CollectionIter.next P fuel b' codec now) it
        (itemsOf (liveOnes T.dir now rows).reverse) it' := by
  obtain ⟨e, b', hopen, hknows, hover, hsame⟩ := expirationBucket_opens h hN hfuel hkind now fl
  obtain ⟨c, c', hseek, hmoves⟩ := hover.yields_last hfilled hlen
  -- the cursor was moved before the lookup bucket was opened
  rw [seekLast_congr hsame (hover.opened.root.trans h.opened.root.symm)] at hseek
  have hrows' : records T.tree.content.reverse = rows.reverse.map Row.encoded := by
    rw [records, List.filterMap_reverse, List.map_reverse, ← hrows, records]
  have hstops : ∀ k, CollectionIter.stops ⟨c, .ok e, none, none, none, none, true⟩ k = false :=
    fun k => rfl
  have hshort : T.tree.content.reverse.length < fuel := by
    rw [List.length_reverse]
    omega
  obtain ⟨c'', hyields, -⟩ := next_yields codec ⟨c, .ok e, none, none, none, none, true⟩ rfl rfl
    hknows (fun k v hkv => legible_rows hrows hlegible k v (List.mem_reverse.mp hkv)) hmoves hshort
  rw [produced_unbounded hstops hrows', List.filter_reverse] at hyields
  refine ⟨_, b', _, ?_, hover, hyields⟩
  simp [atCursor, Collection.iterRev, Collection.iterWith, Collection.lastCursor, estate_bind,
    estate_map, hseek, hopen]

end Iterators

/-! ## One set of live entries -/

section Sets

variable {K V : Type} {codec : Codec K V}

/-- The value of the row with an encoded key. -/
def valueIn (rows : List (Row codec)) (k : Bytes) : Option V :=
  (rows.find? fun r => r.encodedKey = k).map Row.value

/-- The reads that look at the expirations describe these entries. -/
structure Describes (P : Pages) (fuel : Nat) (codec : Codec K V) (now : SystemTime) (s : BucketTx)
    (live : List (Row codec)) : Prop where
  ascending : Ordered live
  get : ∀ key k, codec.encodeKey key = .ok k → ∃ s',
    Collection.running P fuel (Collection.get codec key now) s = .ok (.ok (valueIn live k)) s'
  containsKey : ∀ key k, codec.encodeKey key = .ok k → ∃ s',
    Collection.running P fuel (Collection.containsKey codec key now) s =
      .ok (.ok (valueIn live k).isSome) s'
  iter : ∃ s', Collection.scanned P fuel codec now (Collection.iter P fuel) s =
    .ok (itemsOf live) s'
  iterRev : ∃ s', Collection.scanned P fuel codec now (Collection.iterRev P fuel) s =
    .ok (itemsOf live.reverse) s'
  first : ∃ s', Collection.firstItem P fuel codec now s = .ok (.ok (live.head?.map Row.item)) s'
  last : ∃ s', Collection.lastItem P fuel codec now s = .ok (.ok (live.getLast?.map Row.item)) s'

/-- The counts agree with these entries. -/
structure Counts (P : Pages) (fuel : Nat) (s : BucketTx) (live : List (Row codec)) : Prop where
  len : ∃ s', Collection.len P fuel s = .ok (.ok live.length) s'
  isEmpty : ∃ s', Collection.isEmpty P fuel s = .ok (.ok live.isEmpty) s'

/-- There is one set of live entries that all reads describe. -/
def OneLiveSet (P : Pages) (fuel : Nat) (codec : Codec K V) (now : SystemTime) (s : BucketTx) :
    Prop :=
  ∃ live : List (Row codec), Describes P fuel codec now s live ∧ Counts P fuel s live

variable {P : Pages} {m : BucketMeta} {D : Nest} {N fuel : Nat} {now : SystemTime}
  {rows : List (Row codec)}

/-- The value of a key is that of its row. -/
theorem rawValue_rows (h : Committed P m D)
    (hrows : records D.tree.content = rows.map Row.encoded) (k : Bytes) :
    rawValue D.dir k = (rows.find? fun r => r.encodedKey = k).map Row.encodedValue := by
  have hsorted := h.overlay.traversable.sorted
  cases hfind : rows.find? fun r => r.encodedKey = k with
  | none =>
    rcases h.overlay.entry_cases k with ⟨-, hd⟩ | ⟨v, hcur, -⟩ | ⟨m', S, -, -, hd, -⟩
    · simp [rawValue, hd]
    · obtain ⟨r, hr, hkey, -⟩ := (mem_rows hrows).mp ((entryAt_eq_some hsorted).mp hcur).1
      exact absurd hkey (by simpa using List.find?_eq_none.mp hfind r hr)
    · simp [rawValue, hd]
  | some r =>
    have hkey : r.encodedKey = k := by simpa using List.find?_some hfind
    have hmem := (mem_rows hrows).mpr ⟨r, List.mem_of_find?_eq_some hfind, hkey, rfl⟩
    have hentry := (entryAt_eq_some hsorted (k := k)).mpr ⟨hmem, rfl⟩
    rcases h.overlay.entry_cases k with ⟨hcur, -⟩ | ⟨v, hcur, hd⟩ | ⟨m', S, hcur, -, -, -⟩
    · rw [hentry] at hcur; cases hcur
    · rw [hentry] at hcur
      obtain rfl : r.encodedValue = v := by simpa using hcur
      simp [rawValue, hd]
    · rw [hentry] at hcur; cases hcur

/-- What `get` answers for a key whose expiration can be read. -/
theorem readOf_rows (h : Committed P m D)
    (hrows : records D.tree.content = rows.map Row.encoded) {k : Bytes}
    (hlegible : Legible D.dir now k) :
    readOf codec D.dir now k = .ok (valueIn (liveOnes D.dir now rows) k) := by
  obtain ⟨live, hlive⟩ := hlegible
  have hself := isLive_eq hlive
  have hfind : (liveOnes D.dir now rows).find? (fun r => r.encodedKey = k) =
      if live then rows.find? fun r => r.encodedKey = k else none := by
    rw [liveOnes, List.find?_filter]
    cases live with
    | true =>
      rw [if_pos rfl]
      congr 1
      funext r
      by_cases hr : r.encodedKey = k
      · simp [hr, hself]
      · simp [hr]
    | false =>
      rw [if_neg (by simp), List.find?_eq_none]
      intro r _ hr
      obtain ⟨hlive', hkey⟩ : isLive D.dir now r.encodedKey = true ∧ r.encodedKey = k := by
        simpa using hr
      rw [hkey, hself] at hlive'
      cases hlive'
  rw [readOf, hlive, valueIn, hfind]
  cases live with
  | false => rfl
  | true =>
    simp only [rawValue_rows h hrows, if_true]
    cases hrow : rows.find? fun r => r.encodedKey = k with
    | none => rfl
    | some r => simp [r.decodes_value, Except.map]

theorem length_rows_le (hrows : records D.tree.content = rows.map Row.encoded) :
    rows.length ≤ D.tree.content.length := by
  have hlen := D.tree.content.length_filterMap_le Leaf.kvPair
  rw [← List.length_map Row.encoded, ← hrows]
  exact hlen

/-- Where the expirations can be read, point reads and iterators describe the live rows. -/
theorem describes_live (h : Committed P m D)
    (hrows : records D.tree.content = rows.map Row.encoded)
    (hlegible : ∀ key k, codec.encodeKey key = .ok k → Legible D.dir now k) (fl : TxFreelist)
    (hfuel : D.size + D.tree.subs.length + D.tree.content.length + 2 ≤ fuel) :
    Describes P fuel codec now (.fromMeta m, fl) (liveOnes D.dir now rows) := by
  have hover := h.overlay
  have hsize : D.size ≤ fuel := by omega
  have hlen : D.tree.subs.length + D.tree.content.length + 2 ≤ fuel := by omega
  have hrow : ∀ r ∈ rows, Legible D.dir now r.encodedKey := fun r _ => hlegible _ _ r.encodes
  -- a record under the name of the lookup bucket could not be read
  have hkind : ∀ v, D.dir.entries ttlBucket ≠ some (.value v) := by
    intro v hv
    have hraw : rawValue D.dir ttlBucket = some v := by simp [rawValue, hv]
    rw [rawValue_rows h hrows] at hraw
    obtain ⟨r, hfind, -⟩ := Option.map_eq_some_iff.mp hraw
    obtain ⟨a, ha⟩ := hrow r (List.mem_of_find?_eq_some hfind)
    rw [liveness, hv] at ha
    cases ha
  have hfilled : Filled D.tree := hover.traversable.filled
  have hiter : Iterates P fuel codec now (Collection.iter P fuel) (.fromMeta m, fl)
      (liveOnes D.dir now rows) := by
    obtain ⟨it, b', it', hmake, -, hyields⟩ :=
      hover.iter_yields codec h.within hsize hfilled hlen hkind hrows hrow fl
    exact ⟨it, _, it', hmake, hyields⟩
  have hiterRev : Iterates P fuel codec now (Collection.iterRev P fuel) (.fromMeta m, fl)
      (liveOnes D.dir now rows).reverse := by
    obtain ⟨it, b', it', hmake, -, hyields⟩ :=
      hover.iterRev_yields codec h.within hsize hfilled hlen hkind hrows hrow fl
    exact ⟨it, _, it', hmake, hyields⟩
  have hcount : (liveOnes D.dir now rows).length < fuel := by
    have hfilter := rows.length_filter_le fun r => isLive D.dir now r.encodedKey
    have hle := length_rows_le hrows
    rw [liveOnes]
    omega
  refine ⟨(ordered_rows hover.traversable.sorted hrows).filter _, ?_, ?_, hiter.scanned hcount,
    hiterRev.scanned (by rwa [List.length_reverse]), hiter.firstOf, ?_⟩
  · intro key k hk
    rw [← readOf_rows h hrows (hlegible key k hk)]
    exact hover.get_reads h.within hsize fl hk now
  · intro key k hk
    have hread := hover.containsKey_reads h.within hsize fl hk now
    rwa [readOf_rows h hrows (hlegible key k hk)] at hread
  · rw [← List.head?_reverse]
    exact hiterRev.firstOf

/-- `len` and `is_empty` count every row. -/
theorem counts_rows (h : Committed P m D)
    (hrows : records D.tree.content = rows.map Row.encoded) (fl : TxFreelist)
    (hfuel : D.size + D.tree.subs.length + D.tree.content.length + 2 ≤ fuel) :
    Counts P fuel (.fromMeta m, fl) rows := by
  have hnodes : NoEmptyLeaf (.fromMeta m) := by simp [NoEmptyLeaf, InnerBucket.fromMeta]
  obtain ⟨hscan, -⟩ := h.overlay.scans_of_filled (h.overlay.filled hnodes) (show _ ≤ fuel by omega)
  have hpairs := (pairsOf_content D.tree.content).trans hrows
  have hfirst := first_of_collect hscan
  rw [hpairs] at hfirst
  refine ⟨⟨(.fromMeta m, fl), ?_⟩, ⟨(.fromMeta m, fl), ?_⟩⟩
  · have hlen : Bucket.len P fuel (.fromMeta m) = .ok rows.length := by
      have hkv : (D.tree.content.map Data.ofLeaf).filterMap Data.kvPair = rows.map Row.encoded :=
        hpairs
      simp [Bucket.len, Bucket.kvPairs, hscan, hkv]
    simp [Collection.len, Collection.storing, caught, estate_bind, hlen]
  · have hempty : Bucket.isEmpty P fuel (.fromMeta m) = .ok rows.isEmpty := by
      rw [Bucket.isEmpty, hfirst]
      cases rows <;> rfl
    simp [Collection.isEmpty, Collection.storing, caught, estate_bind, hempty]

/-- What all reads describing one set says about the expirations. -/
theorem OneLiveSet.all_live (h : Committed P m D)
    (hrows : records D.tree.content = rows.map Row.encoded) {fl : TxFreelist}
    (hfuel : D.size + D.tree.subs.length + D.tree.content.length + 2 ≤ fuel)
    (hset : OneLiveSet P fuel codec now (.fromMeta m, fl)) :
    (∀ key k, codec.encodeKey key = .ok k → Legible D.dir now k) ∧
      ∀ r ∈ rows, liveness D.dir now r.encodedKey = .ok true := by
  obtain ⟨live, hdescribes, ⟨s₁, hlen₁⟩, -⟩ := hset
  have hlegible : ∀ key k, codec.encodeKey key = .ok k → Legible D.dir now k := by
    intro key k hk
    obtain ⟨s, hget⟩ := hdescribes.get key k hk
    obtain ⟨s', hread⟩ := h.overlay.get_reads h.within (show D.size ≤ fuel by omega) fl hk now
    rw [hget] at hread
    cases hlive : liveness D.dir now k with
    | ok a => exact ⟨a, hlive⟩
    | error e =>
      rw [readOf, hlive] at hread
      cases hread
  refine ⟨hlegible, ?_⟩
  -- the iterator yields the live rows, and there are as many as there are rows
  obtain ⟨s₂, hlen₂⟩ := (counts_rows h hrows fl hfuel).len
  obtain ⟨s₃, hiter₁⟩ := hdescribes.iter
  obtain ⟨s₄, hiter₂⟩ := (describes_live h hrows hlegible fl hfuel).iter
  have hitems : itemsOf live = itemsOf (liveOnes D.dir now rows) := by
    rw [hiter₁] at hiter₂
    exact (EStateM.Result.ok.inj hiter₂).1
  have hlive : live.length = (liveOnes D.dir now rows).length := by
    simpa [itemsOf] using congrArg List.length hitems
  have hall : live.length = rows.length := by
    rw [hlen₁] at hlen₂
    exact Except.ok.inj (EStateM.Result.ok.inj hlen₂).1
  have hfilter : rows.filter (fun r => isLive D.dir now r.encodedKey) = rows :=
    List.filter_sublist.eq_of_length (hlive.symm.trans hall)
  intro r hr
  obtain ⟨a, ha⟩ := hlegible _ _ r.encodes
  rw [ha, ← isLive_eq ha, List.filter_eq_self.mp hfilter r hr]

end Sets

/-- The reads of a committed collection describe one set of live entries exactly when the
expiration of every key can be read and no record has expired. -/
theorem one_live_set_iff {K V : Type} {codec : Codec K V} {P : Pages} {m : BucketMeta} {D : Nest}
    (h : Committed P m D) (rows : List (Row codec))
    (hrows : records D.tree.content = rows.map Row.encoded) (now : SystemTime) (fl : TxFreelist) :
    ∃ N, ∀ fuel ≥ N, OneLiveSet P fuel codec now (.fromMeta m, fl) ↔
      (∀ key k, codec.encodeKey key = .ok k → Legible D.dir now k) ∧
      ∀ r ∈ rows, liveness D.dir now r.encodedKey = .ok true := by
  refine ⟨D.size + D.tree.subs.length + D.tree.content.length + 2, fun fuel hfuel => ?_⟩
  constructor
  · exact OneLiveSet.all_live h hrows hfuel
  · rintro ⟨hlegible, hlive⟩
    have hall : liveOnes D.dir now rows = rows :=
      List.filter_eq_self.mpr fun r hr => isLive_eq (hlive r hr)
    have hdescribes := describes_live h hrows hlegible fl hfuel
    rw [hall] at hdescribes
    exact ⟨rows, hdescribes, counts_rows h hrows fl hfuel⟩

/-- The rows of the collection with an expiration. -/
def timedRows : List (Row bytesCodec) := bytesRows [([1], [10]), ([5], [50]), ([6], [60])]

/-- Before the record `[5]` expires, all reads describe the three records. -/
theorem one_live_set_before :
    ∃ N, ∀ fuel ≥ N, OneLiveSet timedPages fuel bytesCodec 50
      (.fromMeta ⟨2, 4⟩, timedFreelist) := by
  obtain ⟨N, h⟩ := one_live_set_iff timed_committed timedRows rfl 50 timedFreelist
  have hlive := fun k => timed_lookedUp.liveness (rfl : epochMillis 50 = .ok 50) k
  refine ⟨N, fun fuel hfuel => (h fuel hfuel).mpr ⟨fun key k _ => ⟨_, hlive k⟩, ?_⟩⟩
  intro r hr
  rw [hlive]
  revert r
  decide

/-- After it has expired, `len` still counts it. -/
theorem one_live_set_after :
    ∃ N, ∀ fuel ≥ N,
      ¬ OneLiveSet timedPages fuel bytesCodec 200 (.fromMeta ⟨2, 4⟩, timedFreelist) := by
  refine ⟨timedNest.size + timedNest.tree.subs.length + timedNest.tree.content.length + 2,
    fun fuel hfuel hset => ?_⟩
  have hrows : records timedNest.tree.content = timedRows.map Row.encoded := rfl
  have hexpired : liveness timedNest.dir 200 [5] = .ok false :=
    timed_lookedUp.liveness (rfl : epochMillis 200 = .ok 200) [5]
  have hlive := (hset.all_live timed_committed hrows hfuel).2
    ⟨[5], [50], [5], [50], rfl, rfl⟩ (by simp [timedRows, bytesRows])
  rw [hexpired] at hlive
  cases hlive

end Tagdata.Analysis
