import Tagdata.Analysis.LiveSets
import Tagdata.Analysis.Prefixes

/-!
# What is built on the scans of a transaction

`first`, `last`, `len`, `is_empty`, `clear`, `delete_range` and `delete_prefix` of a bucket, and
`pop_first` and `pop_last` of a collection, look at the bucket with a scan.  Where the scans are
exact, all of them act on the whole content.
-/

set_option autoImplicit false

namespace Tagdata.Analysis

open Tagdata.Library Tagdata.Library.SearchTree Tagdata.Model Tagdata.Interface

/-- A bucket whose pairs are the records of a collection, with its expirations. -/
structure HoldsRows {K V : Type} {codec : Codec K V} (d : Dir) (l : List Data) (m : Expirations)
    (rows : List (Row codec)) : Prop where
  records : pairsOf l = rows.map Row.encoded
  lookup : LookedUp m d
  deadlines : DeadlinesPlain d

/-- The rows that have not expired at a time. -/
def liveAmong {K V : Type} {codec : Codec K V} (m : Expirations) (millis : Nat)
    (rows : List (Row codec)) : List (Row codec) :=
  rows.filter fun r => liveAt m millis r.encodedKey

/-- A row, if there is one, is answered and taken out together with its expiration. -/
def Pops {K V : Type} {codec : Codec K V} (P : Pages)
    (r : EStateM.Result Fault BucketTx (Except CodecError (Option (K × V)))) (d : Dir)
    (row : Option (Row codec)) : Prop :=
  ∃ s d', r = .ok (.ok (row.map Row.item)) s ∧ StandsFor P s d' ∧
    Removed (row.toList.map Row.encodedKey) d d'

/-- What is built on a scan sees every pair of the map. -/
structure ActsOnAll (P : Pages) (fuel : Nat) (b : InnerBucket)
    (fl : TxFreelist) (d : Dir) (l : List Data) : Prop where
  first : Bucket.first P fuel b = .ok (pairsOf l).head?
  last : Bucket.last P fuel b = .ok (pairsOf l).getLast?
  len : Bucket.len P fuel b = .ok (pairsOf l).length
  isEmpty : Bucket.isEmpty P fuel b = .ok (pairsOf l).isEmpty
  clear : ∃ s, Bucket.clear P fuel (b, fl) = .ok (pairsOf l).length s ∧
    StandsFor P s (d.without fun _ => true)
  deleteRange : ∀ start stop, ∃ s, Bucket.deleteRange P fuel start stop (b, fl) =
      .ok (keysOf l fun k => start ≤ k ∧ k < stop).length s ∧
    StandsFor P s (d.without fun k => start ≤ k ∧ k < stop)
  deletePrefix : ∀ pre, ∃ s, Bucket.deletePrefix P fuel pre (b, fl) =
      .ok (keysOf l fun k => pre.isPrefixOf k).length s ∧
    StandsFor P s (d.without fun k => pre.isPrefixOf k)
  popFirst : ∀ {K V : Type} {codec : Codec K V} {now : SystemTime} {millis : Nat}
    {m : Expirations} {rows : List (Row codec)}, epochMillis now = .ok millis →
    HoldsRows d l m rows →
    Pops P (Collection.popFirstItem P fuel codec now (b, fl)) d (liveAmong m millis rows).head?
  popLast : ∀ {K V : Type} {codec : Codec K V} {now : SystemTime} {millis : Nat}
    {m : Expirations} {rows : List (Row codec)}, epochMillis now = .ok millis →
    HoldsRows d l m rows →
    Pops P (Collection.popLastItem P fuel codec now (b, fl)) d (liveAmong m millis rows).getLast?

/-! ## Taking out the first or the last record -/

section Pops

variable {K V : Type} {codec : Codec K V} {P : Pages} {origin : Option Nest} {b : InnerBucket}
  {T : Nest} {N fuel millis : Nat} {now : SystemTime} {m : Expirations} {rows : List (Row codec)}

theorem calls_popFound (codec : Codec K V) (found : Option (K × V)) :
    (Collection.popFound codec found).Only Calls := by
  cases found with
  | none => trivial
  | some item => exact (calls_remove codec item.1).bind fun _ => Prog.only_pure _

/-- The found record is removed. -/
theorem HoldsRows.popFound {d : Dir} {l : List Data} (h : HoldsRows d l m rows) (hl : Lists d l)
    {row : Option (Row codec)} (hrow : ∀ r ∈ row, r ∈ rows) :
    Prog.wp (Dir.serve Shows) (Collection.popFound codec (row.map Row.item)) d fun a d' =>
      a = .ok (row.map Row.item) ∧ Removed (row.toList.map Row.encodedKey) d d' := by
  cases row with
  | none => exact ⟨rfl, fun k _ => rfl, fun k => rfl⟩
  | some r =>
    have hpair : (r.encodedKey, r.encodedValue) ∈ pairsOf l := by
      rw [h.records]
      exact List.mem_map_of_mem (hrow r rfl)
    have hentry := (mem_pairsOf hl).mp hpair
    rw [Option.map_some, Collection.popFound, Prog.wp_bind]
    apply Prog.wp_mono (h.lookup.remove h.deadlines r hentry)
    rintro a d' ⟨⟨v, rfl⟩, hlook, -, hentries⟩
    refine ⟨rfl, fun k hk => ?_, fun k => ?_⟩
    · rw [hentries k hk]
      simp
    · rw [hlook.lookupOf, h.lookup.lookupOf]
      by_cases hkr : k = r.encodedKey <;> simp [hkr]

/-- A record that was found in an overlay is taken out. -/
theorem Overlay.popItem (h : Overlay P origin b T) (hN : Within N origin) (hfuel : N ≤ fuel)
    (hholds : HoldsRows T.dir (T.tree.content.map Data.ofLeaf) m rows) {row : Option (Row codec)}
    (hrow : ∀ r ∈ row, r ∈ rows) {fl : TxFreelist} {s : BucketTx}
    {find : EStateM Fault BucketTx (Except CodecError (Option (K × V)))}
    (hfind : find s = .ok (.ok (row.map Row.item)) (b, fl)) :
    Pops P (Collection.popItem P fuel codec find s) T.dir row := by
  obtain ⟨r, b', fl', T', hrun, ⟨rfl, hremoved⟩, hover⟩ :=
    h.exec_calls hN hfuel fl (calls_popFound codec _) (hholds.popFound h.lists hrow)
  refine ⟨(b', fl'), T'.dir, ?_, ⟨_, _, hover, rfl⟩, hremoved⟩
  simp [Collection.popItem, Collection.running, estate_bind, hfind, hrun]

theorem liveOnes_eq (hlook : LookedUp m T.dir) (hnow : epochMillis now = .ok millis) :
    liveOnes T.dir now rows = liveAmong m millis rows :=
  List.filter_congr fun r _ => isLive_eq (hlook.liveness hnow r.encodedKey)

/-- `pop_first`. -/
theorem Overlay.popFirstItem (h : Overlay P origin b T) (hN : Within N origin) (hfuel : N ≤ fuel)
    (hfilled : Filled T.tree) (hlen : T.tree.subs.length + T.tree.content.length + 2 ≤ fuel)
    (hnow : epochMillis now = .ok millis)
    (hholds : HoldsRows T.dir (T.tree.content.map Data.ofLeaf) m rows) (fl : TxFreelist) :
    Pops P (Collection.popFirstItem P fuel codec now (b, fl)) T.dir
      (liveAmong m millis rows).head? := by
  obtain ⟨it, b', it', hmake, hover, hyields⟩ := h.iter_yields codec hN hfuel hfilled hlen
    hholds.lookup.not_value ((pairsOf_content _).symm.trans hholds.records)
    (fun r _ => ⟨_, hholds.lookup.liveness hnow _⟩) fl
  rw [liveOnes_eq hholds.lookup hnow] at hyields
  exact hover.popItem hN hfuel hholds
    (fun r hr => List.mem_of_mem_filter (List.mem_of_head? hr)) (firstOf_yields hmake hyields)

/-- `pop_last`. -/
theorem Overlay.popLastItem (h : Overlay P origin b T) (hN : Within N origin) (hfuel : N ≤ fuel)
    (hfilled : Filled T.tree) (hlen : T.tree.subs.length + T.tree.content.length + 2 ≤ fuel)
    (hnow : epochMillis now = .ok millis)
    (hholds : HoldsRows T.dir (T.tree.content.map Data.ofLeaf) m rows) (fl : TxFreelist) :
    Pops P (Collection.popLastItem P fuel codec now (b, fl)) T.dir
      (liveAmong m millis rows).getLast? := by
  obtain ⟨it, b', it', hmake, hover, hyields⟩ := h.iterRev_yields codec hN hfuel hfilled
    hlen hholds.lookup.not_value ((pairsOf_content _).symm.trans hholds.records)
    (fun r _ => ⟨_, hholds.lookup.liveness hnow _⟩) fl
  rw [liveOnes_eq hholds.lookup hnow] at hyields
  rw [← List.head?_reverse]
  exact hover.popItem hN hfuel hholds
    (fun r hr => List.mem_of_mem_filter (List.mem_reverse.mp (List.mem_of_head? hr)))
    (firstOf_yields hmake hyields)

end Pops

/-! ## Every bucket of every transaction -/

section Reached

variable {P : Pages} {origin : Option Nest} {b : InnerBucket} {T : Nest} {N fuel : Nat}

/-- Everything built on the scans of a bucket with inhabited leaves. -/
theorem Overlay.actsOnAll (h : Overlay P origin b T) (hN : Within N origin) (hno : NoEmptyLeaf b)
    (hfuel : N + T.tree.subs.length + T.tree.content.length + 2 ≤ fuel) (fl : TxFreelist)
    {l : List Data} (hl : Lists T.dir l) : ActsOnAll P fuel b fl T.dir l := by
  have hle : N ≤ fuel := by omega
  have hfilled := h.filled hno
  obtain ⟨hforward, hbackward⟩ := h.scans_of_filled hfilled (show _ ≤ fuel by omega)
  obtain rfl := hl.unique h.lists
  have hfirst := first_of_collect hforward
  have hlast := last_of_collectBack hbackward
  have hdelete := fun test => h.deleteWhere hN hle hl hforward fl test
  refine ⟨hfirst, hlast, ?_, ?_, ?_, fun start stop => hdelete _, fun pre => hdelete _,
    fun hnow hholds => h.popFirstItem hN hle hfilled (by omega) hnow hholds fl,
    fun hnow hholds => h.popLastItem hN hle hfilled (by omega) hnow hholds fl⟩
  · simp [Bucket.len, Bucket.kvPairs, hforward, pairsOf]
  · rw [Bucket.isEmpty, hfirst]
    cases pairsOf (T.tree.content.map Data.ofLeaf) <;> rfl
  · obtain ⟨s, hclear, hs⟩ := hdelete fun _ => true
    refine ⟨s, ?_, hs⟩
    simpa [keysOf, Bucket.clear] using hclear

/-- Every bucket of every write transaction stands for the map that the operations give. -/
theorem Committed.reached {m : BucketMeta} {D : Nest} (h : Committed P m D) (fl : TxFreelist)
    (ops : List Bucket.PathOp) (hfuel : D.size ≤ fuel) {answers : List (Except Error Output)}
    {s : BucketTx} (hrun : Bucket.runAll P fuel ops (.fromMeta m, fl) = .ok (answers, s))
    (path : List Bytes) {b : InnerBucket} (hb : Bucket.bucketAt P fuel path s = .ok b) :
    ∃ origin S, Overlay P origin b S ∧ Within D.size origin ∧
      Dir.find path (Dir.runAll ops D.dir).2 = some S.dir := by
  have hfits : Dir.Fits ops D.dir := by
    by_contra hfull
    rw [h.overlay.runAll_full h.within hfuel ops fl hfull] at hrun
    cases hrun
  obtain ⟨b', T', ps, hrun', hover, hdir, -⟩ := h.overlay.runAll h.within hfuel ops fl hfits
  rw [hrun] at hrun'
  obtain ⟨-, rfl⟩ := Prod.mk.inj (Except.ok.inj hrun')
  rw [← hdir]
  exact hover.bucketAt hfuel path h.within hb

/-- In every state of every write transaction and for every bucket there: both scans yield
exactly the current entries in order, without a panic, if and only if no loaded leaf but the
root is empty; and then all that is built on them acts on the whole content. -/
theorem scans_exact_iff {m : BucketMeta} {D : Nest} (h : Committed P m D) (fl : TxFreelist)
    (ops : List Bucket.PathOp) (hfuel : D.size ≤ fuel) {answers : List (Except Error Output)}
    {s : BucketTx} (hrun : Bucket.runAll P fuel ops (.fromMeta m, fl) = .ok (answers, s))
    (path : List Bytes) {b : InnerBucket} (hb : Bucket.bucketAt P fuel path s = .ok b) :
    ∃ d l, Dir.find path (Dir.runAll ops D.dir).2 = some d ∧ Lists d l ∧
      ∃ rounds, ∀ n ≥ rounds, (ScansExact P n b d ↔ NoEmptyLeaf b) ∧
        (NoEmptyLeaf b → ActsOnAll P n b s.2 d l) := by
  obtain ⟨origin, S, hS, hN, hfind⟩ := h.reached fl ops hfuel hrun path hb
  refine ⟨S.dir, S.tree.content.map Data.ofLeaf, hfind, hS.lists,
    D.size + S.tree.subs.length + S.tree.content.length + 2, fun n hn => ⟨⟨?_, ?_⟩, ?_⟩⟩
  · exact fun hscan => hS.nonempty_of_scans hscan (by omega)
  · intro hno
    obtain ⟨hforward, hbackward⟩ := hS.scans_of_filled (hS.filled hno) (show _ ≤ n by omega)
    exact ⟨_, hS.lists, hforward, hbackward⟩
  · exact fun hno => hS.actsOnAll hN hno (by omega) _ hS.lists

end Reached

/-- After a put and a deletion no leaf is empty, and the scans are exact. -/
theorem scans_exact_after_put :
    ∃ answers s b, Bucket.runAll twoLeafBucketPages 20
        [([[98]], .put [7] [70]), ([[98]], .delete [1])]
        (.fromMeta ⟨2, 1⟩, twoLeafBucketFreelist) = .ok (answers, s) ∧
      Bucket.bucketAt twoLeafBucketPages 20 [[98]] s = .ok b ∧
      ∃ d l rounds, ∀ n ≥ rounds, ScansExact twoLeafBucketPages n b d ∧
        ActsOnAll twoLeafBucketPages n b s.2 d l := by
  have hread : readAfter twoLeafBucketPages twoLeafBucketFreelist
      [([[98]], .put [7] [70]), ([[98]], .delete [1])] (fun b => .ok (decide (NoEmptyLeaf b))) =
        .ok true := by decide +kernel
  obtain ⟨answers, s, b, hrun, hb, hno⟩ := readAfter_ok hread
  obtain ⟨d, l, -, -, rounds, hscan⟩ := scans_exact_iff twoLeafBucket_committed
    twoLeafBucketFreelist _ (by decide +kernel) hrun [[98]] hb
  have hno' : NoEmptyLeaf b := by simpa using hno
  exact ⟨answers, s, b, hrun, hb, d, l, rounds,
    fun n hn => ⟨(hscan n hn).1.mpr hno', (hscan n hn).2 hno'⟩⟩

/-- After both keys of the first leaf are deleted a forward scan yields nothing although two
entries are left; after both keys of the last leaf are deleted a backward scan panics. -/
theorem scans_miss_entries :
    (∃ answers s b d, Bucket.runAll twoLeafBucketPages 20
        [([[98]], .delete [1]), ([[98]], .delete [2])]
        (.fromMeta ⟨2, 1⟩, twoLeafBucketFreelist) = .ok (answers, s) ∧
      Bucket.bucketAt twoLeafBucketPages 20 [[98]] s = .ok b ∧
      Dir.find [[98]] (Dir.runAll [([[98]], .delete [1]), ([[98]], .delete [2])]
        twoLeafBucketNest.dir).2 = some d ∧
      d.entries [5] = some (.value largeValue) ∧
      Cursor.run (Cursor.collect twoLeafBucketPages b 20 20) Cursor.new = .ok [] ∧
      ¬ ScansExact twoLeafBucketPages 20 b d) ∧
    readAfter twoLeafBucketPages twoLeafBucketFreelist
      [([[98]], .delete [5]), ([[98]], .delete [6])] (fun b => Cursor.run
        (do Cursor.seekLast twoLeafBucketPages b 20; Cursor.collectBack twoLeafBucketPages b 20 20)
        Cursor.new) = .error (.panic "INVALID NODE TYPE FOR VAL") := by
  refine ⟨?_, by decide +kernel⟩
  have hread : readAfter twoLeafBucketPages twoLeafBucketFreelist
      [([[98]], .delete [1]), ([[98]], .delete [2])] (fun b =>
      Cursor.run (Cursor.collect twoLeafBucketPages b 20 20) Cursor.new) = .ok [] := by
    decide +kernel
  obtain ⟨answers, s, b, hrun, hb, hscan⟩ := readAfter_ok hread
  refine ⟨answers, s, b, _, hrun, hb, rfl, ?_, hscan, ?_⟩
  · rfl
  · rintro ⟨l, hl, hforward, -⟩
    rw [hscan] at hforward
    obtain rfl := Except.ok.inj hforward
    have hmem := (hl.mem (.keyValue [5] largeValue)).mpr ⟨[5], .value largeValue, rfl, rfl⟩
    simp at hmem

end Tagdata.Analysis
