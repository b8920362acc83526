import Tagdata.Analysis.CollectionScans

/-!
# Typed ranges

`range_bounds` and `seek` put the cursor at the start of the range and stop at its end, so
over a committed collection they yield exactly the live records in the range.  `range_rev`
has no check of the end: when the end is below every entry, `seek` leaves the cursor on the
first entry, and that entry is yielded although it is not in the range.
-/

set_option autoImplicit false

namespace Tagdata.Analysis

open Tagdata.Library Tagdata.Library.SearchTree Tagdata.Model Tagdata.Interface

/-! ## Records that a codec reads -/

/-- A record that the codec reads, and whose key it would write the same way. -/
structure Row {K V : Type} (codec : Codec K V) where
  key : K
  value : V
  encodedKey : Bytes
  encodedValue : Bytes
  decodes : codec.decode encodedKey encodedValue = .ok (key, value)
  encodes : codec.encodeKey key = .ok encodedKey

section Rows

variable {K V : Type} {codec : Codec K V}

/-- The record of a row. -/
def Row.encoded (r : Row codec) : Bytes × Bytes := (r.encodedKey, r.encodedValue)

/-- The record of a row as an item. -/
def Row.item (r : Row codec) : K × V := (r.key, r.value)

/-- What an iterator yields for rows. -/
def itemsOf (rows : List (Row codec)) : List (Item K V) := rows.map fun r => .ok (r.key, r.value)

theorem Row.decodes_value (r : Row codec) : codec.decodeValue r.encodedValue = .ok r.value := by
  have h := r.decodes
  unfold Codec.decode at h
  split at h
  · cases h
  · split at h
    · cases h
    · rename_i hvalue
      rw [hvalue, (Prod.mk.inj (Except.ok.inj h)).2]

/-- The rows that an iterator over some of the records yields. -/
theorem decode_rows (rows : List (Row codec)) (keep : Bytes → Bool) :
    ((rows.map Row.encoded).filter fun r => keep r.1).map (fun r => codec.decode r.1 r.2) =
      itemsOf (rows.filter fun r => keep r.encodedKey) := by
  rw [List.filter_map, List.map_map, itemsOf]
  exact List.map_congr_left fun r _ => r.decodes

/-- The codec keeps the order of the keys that it encodes. -/
structure OrderPreserving {K V : Type} [LinearOrder K] (codec : Codec K V) : Prop where
  flag : codec.orderPreserving = true
  lt_iff : ∀ {a b : K} {ea eb : Bytes}, codec.encodeKey a = .ok ea → codec.encodeKey b = .ok eb →
    (a < b ↔ ea < eb)

/-- The live rows within the bounds. -/
def liveRows [LinearOrder K] (live : Bytes → Bool) (lo hi : Bound K) (rows : List (Row codec)) :
    List (Row codec) :=
  rows.filter fun r => contains lo hi r.key && live r.encodedKey

variable [LinearOrder K]

theorem OrderPreserving.le_iff (h : OrderPreserving codec) {a b : K} {ea eb : Bytes}
    (ha : codec.encodeKey a = .ok ea) (hb : codec.encodeKey b = .ok eb) : a ≤ b ↔ ea ≤ eb := by
  rw [← not_lt, ← not_lt, h.lt_iff hb ha]

/-- Bounds on keys are the bounds on their encodings. -/
theorem OrderPreserving.contains_iff (h : OrderPreserving codec) {lo hi : Bound K}
    {start finish : Bound Bytes} (hlo : Collection.encodeBound codec lo = .ok start)
    (hhi : Collection.encodeBound codec hi = .ok finish) (r : Row codec) :
    contains start finish r.encodedKey = contains lo hi r.key := by
  have hstart : fromStart start r.encodedKey = fromStart lo r.key := by
    cases lo with
    | included s =>
      obtain ⟨s', hs, rfl⟩ := except_map_eq_ok.mp hlo
      simp only [fromStart, h.le_iff hs r.encodes]
    | excluded s =>
      obtain ⟨s', hs, rfl⟩ := except_map_eq_ok.mp hlo
      simp only [fromStart, h.lt_iff hs r.encodes]
    | unbounded =>
      obtain rfl := Except.ok.inj hlo
      rfl
  have hfinish : uptoEnd finish r.encodedKey = uptoEnd hi r.key := by
    cases hi with
    | included t =>
      obtain ⟨t', ht, rfl⟩ := except_map_eq_ok.mp hhi
      simp only [uptoEnd, h.le_iff r.encodes ht]
    | excluded t =>
      obtain ⟨t', ht, rfl⟩ := except_map_eq_ok.mp hhi
      simp only [uptoEnd, h.lt_iff r.encodes ht]
    | unbounded =>
      obtain rfl := Except.ok.inj hhi
      rfl
  rw [contains, contains, hstart, hfinish]

end Rows

/-! ## Forward scans -/

section Forward

variable {K V : Type} {codec : Codec K V} {P : Pages} {D : Nest} {b : InnerBucket}
  {N fuel millis : Nat} {now : SystemTime} {m : Expirations}

@[simp] theorem records_kv (k v : Bytes) (l : List Leaf) :
    records (.kv k v :: l) = (k, v) :: records l := rfl

@[simp] theorem records_bucket (name : Bytes) (info : BucketMeta) (l : List Leaf) :
    records (.bucket name info :: l) = records l := rfl

theorem records_filter (l : List Leaf) (keep : Bytes → Bool) :
    records (l.filter fun e => keep e.key) = (records l).filter fun r => keep r.1 := by
  induction l with
  | nil => rfl
  | cons x l ih =>
    cases x with
    | bucket name info =>
      rw [records_bucket, ← ih, List.filter_cons]
      split <;> simp
    | kv k v =>
      have hkey : (Leaf.kv k v).key = k := rfl
      rw [records_kv, List.filter_cons, List.filter_cons, ← ih, hkey]
      split <;> simp

theorem records_sorted {l : List Leaf} (h : SortedBy Leaf.key l) :
    (records l).Pairwise fun r r' => r.1 < r'.1 := by
  have hkey : ∀ {e : Leaf} {r : Bytes × Bytes}, e.kvPair = some r → e.key = r.1 := by
    intro e r hr
    cases e with
    | bucket name info => cases hr
    | kv k v => rw [← Option.some.inj hr]; rfl
  refine List.Pairwise.filterMap _ (fun a a' hlt r hr r' hr' => ?_) h
  rw [← hkey hr, ← hkey hr']
  exact hlt

/-- The rows are in the order of their encoded keys. -/
def Ordered (rows : List (Row codec)) : Prop :=
  rows.Pairwise fun r r' => r.encodedKey < r'.encodedKey

theorem ordered_rows {rows : List (Row codec)} {l : List Leaf} (hl : SortedBy Leaf.key l)
    (hrows : records l = rows.map Row.encoded) : Ordered rows := by
  have hsorted := records_sorted hl
  rw [hrows, List.pairwise_map] at hsorted
  exact hsorted

/-- The start of a range: the cursor is before the entries that are not before the start. -/
theorem startIter_reads (h : Overlay P (some D) b D) (hN : Within N (some D)) (hfuel : N ≤ fuel)
    (hlook : LookedUp m D.dir) (hnow : epochMillis now = .ok millis) (start : Bound Bytes)
    (fl : TxFreelist) :
    ∃ c e b', Collection.startIter P fuel start (b, fl) =
        .ok ⟨c, .ok e, none, none, none, none, false⟩ (b', fl) ∧
      Knows P fuel now (liveAt m millis) e ∧ Overlay P (some D) b' D ∧
      Ahead P b' D.tree c (D.tree.content.filter fun x => fromStart start x.key) := by
  have hsorted := h.traversable.sorted
  have hkey : ∀ k exclusive, ∃ c e b', Collection.iterFromEncoded P fuel k exclusive (b, fl) =
        .ok ⟨c, .ok e, none, none, none, none, false⟩ (b', fl) ∧
      Knows P fuel now (liveAt m millis) e ∧ Overlay P (some D) b' D ∧
      Ahead P b' D.tree c
        (if exclusive then afterKey k D.tree.content else fromKey k D.tree.content) := by
    intro k exclusive
    obtain ⟨c, links, hcursor, hahead⟩ := cursorFrom_reads h hN hfuel k exclusive fl
    obtain ⟨e, b', hiter, hknows, hover, hsame⟩ :=
      iterWith_reads (h.withParents links) hN hfuel hlook hnow c fl
    refine ⟨c, e, b', ?_, hknows, hover, hahead.congr hsame⟩
    rw [Collection.iterFromEncoded, estate_bind_ok hcursor, hiter]
  cases start with
  | included k =>
    have hfrom := hkey k false
    rw [if_neg (by simp), fromKey_eq_filter hsorted] at hfrom
    exact hfrom
  | excluded k =>
    have hafter := hkey k true
    rw [if_pos rfl, afterKey_eq_filter hsorted] at hafter
    exact hafter
  | unbounded =>
    obtain ⟨e, b', hiter, hknows, hover, hsame⟩ := iterWith_reads h hN hfuel hlook hnow .new fl
    refine ⟨.new, e, b', hiter, hknows, hover, ?_⟩
    simpa [fromStart] using Ahead.new.congr hsame

/-- The end of a range as an iterator tests it. -/
theorem stops_upperOf (c : Cursor) (e : Option InnerBucket) (finish : Bound Bytes) (k : Bytes) :
    CollectionIter.stops ⟨c, .ok e, none, none, none, Collection.upperOf finish, false⟩ k =
      !uptoEnd finish k := by
  cases finish with
  | included t =>
    show (false || (decide (t < k) || (false && k == t))) = !decide (k ≤ t)
    simp only [Bool.false_and, Bool.or_false, Bool.false_or, ← not_le, decide_not]
  | excluded t =>
    show (false || (decide (t < k) || (true && k == t))) = !decide (k < t)
    rw [Bool.eq_iff_iff]
    simp only [Bool.false_or, Bool.true_and, Bool.or_eq_true, decide_eq_true_eq, beq_iff_eq,
      Bool.not_eq_true', decide_eq_false_iff_not, not_lt]
    exact ⟨fun hor => hor.elim le_of_lt Eq.ge, fun hle => (lt_or_eq_of_le hle).imp id Eq.symm⟩
  | unbounded => rfl

/-- What the entries from the start on give, up to the end. -/
theorem produced_range {l : List Leaf} (h : SortedBy Leaf.key l) {stops live : Bytes → Bool}
    {start finish : Bound Bytes} (hstops : ∀ k, stops k = !uptoEnd finish k) :
    produced codec stops live (l.filter fun x => fromStart start x.key) =
      ((records l).filter fun r => contains start finish r.1 && live r.1).map fun r =>
        codec.decode r.1 r.2 := by
  have hcut : ((records l).filter fun r => fromStart start r.1).Pairwise fun r r' =>
      uptoEnd finish r'.1 = true → uptoEnd finish r.1 = true :=
    ((records_sorted h).filter _).imp fun hlt => uptoEnd_of_lt hlt
  simp only [produced, hstops, Bool.not_not]
  rw [records_filter, takeWhile_eq_filter hcut, List.filter_filter, List.filter_filter]
  congr 1
  exact List.filter_congr fun r _ => by
    simp only [contains, Bool.and_comm, Bool.and_left_comm]

/-- A scan with an iterator that starts and ends at bounds. -/
theorem scans_between {make : EStateM Fault BucketTx CollectionIter} {s : BucketTx}
    {fl : TxFreelist} {c : Cursor} {e : Option InnerBucket} {start finish : Bound Bytes}
    (hmake : make s =
      .ok ⟨c, .ok e, none, none, none, Collection.upperOf finish, false⟩ (b, fl))
    (hknows : Knows P fuel now (liveAt m millis) e) (h : Overlay P (some D) b D)
    (hahead : Ahead P b D.tree c (D.tree.content.filter fun x => fromStart start x.key))
    (hlen : D.tree.subs.length + D.tree.content.length + 2 ≤ fuel) :
    ∃ s', Collection.scannedOk P fuel codec now (Collection.storing make) s =
      .ok (.ok (((records D.tree.content).filter fun r =>
        contains start finish r.1 && liveAt m millis r.1).map fun r =>
          codec.decode r.1 r.2)) s' := by
  have hcollect : CollectionIter.collect P fuel b codec now
      ⟨c, .ok e, none, none, none, Collection.upperOf finish, false⟩ = _ :=
    collect_ahead h.traversable hlen rfl rfl (hknows.knowsOf fun _ => True)
      (fun _ _ _ => trivial) rfl hahead
  rw [produced_range h.traversable.sorted (stops_upperOf c e finish)] at hcollect
  refine ⟨(b, fl), ?_⟩
  simp [Collection.scannedOk, Collection.storing, caught, estate_bind, estate_map, hmake, hcollect]

/-- The records within encoded bounds are the rows within the bounds. -/
theorem decode_within [LinearOrder K] (hcodec : OrderPreserving codec) {l : List Leaf}
    {rows : List (Row codec)} (hrows : records l = rows.map Row.encoded) (live : Bytes → Bool)
    {lo hi : Bound K} {start finish : Bound Bytes}
    (hlo : Collection.encodeBound codec lo = .ok start)
    (hhi : Collection.encodeBound codec hi = .ok finish) :
    (((records l).filter fun r => contains start finish r.1 && live r.1).map fun r =>
      codec.decode r.1 r.2) = itemsOf (liveRows live lo hi rows) := by
  rw [hrows, decode_rows rows fun key => contains start finish key && live key, liveRows]
  congr 1
  exact List.filter_congr fun r _ => by rw [hcodec.contains_iff hlo hhi]

variable [LinearOrder K] {rows : List (Row codec)}

/-- `range_bounds` on a collection that was only read. -/
theorem rangeBounds_scans (hcodec : OrderPreserving codec) (h : Overlay P (some D) b D)
    (hN : Within N (some D)) (hfuel : N ≤ fuel)
    (hlen : D.tree.subs.length + D.tree.content.length + 2 ≤ fuel) (hlook : LookedUp m D.dir)
    (hnow : epochMillis now = .ok millis) (hrows : records D.tree.content = rows.map Row.encoded)
    (lo hi : Bound K) (fl : TxFreelist) :
    ∃ s, Collection.scannedOk P fuel codec now (Collection.rangeBounds P fuel codec lo hi) (b, fl) =
      .ok (do
        let _ ← Collection.encodeBound codec lo
        let _ ← Collection.encodeBound codec hi
        return itemsOf (liveRows (liveAt m millis) lo hi rows)) s := by
  rw [Collection.rangeBounds, if_pos hcodec.flag]
  cases hlo : Collection.encodeBound codec lo with
  | error e => exact ⟨(b, fl), by simp [Collection.scannedOk, estate_bind]⟩
  | ok start =>
    cases hhi : Collection.encodeBound codec hi with
    | error e => exact ⟨(b, fl), by simp [Collection.scannedOk, estate_bind]⟩
    | ok finish =>
      obtain ⟨c, e, b', hstart, hknows, hover, hahead⟩ :=
        startIter_reads h hN hfuel hlook hnow start fl
      have hmake : (do return { ← Collection.startIter P fuel start with
          upperBound := Collection.upperOf finish } : EStateM Fault BucketTx CollectionIter)
            (b, fl) =
          .ok ⟨c, .ok e, none, none, none, Collection.upperOf finish, false⟩ (b', fl) := by
        simp [estate_map, hstart]
      obtain ⟨s, hscan⟩ := scans_between hmake hknows hover hahead hlen
      rw [decode_within hcodec hrows (liveAt m millis) hlo hhi] at hscan
      exact ⟨s, hscan⟩

/-- `seek` on a collection that was only read. -/
theorem seek_scans (hcodec : OrderPreserving codec) (h : Overlay P (some D) b D)
    (hN : Within N (some D)) (hfuel : N ≤ fuel)
    (hlen : D.tree.subs.length + D.tree.content.length + 2 ≤ fuel) (hlook : LookedUp m D.dir)
    (hnow : epochMillis now = .ok millis) (hrows : records D.tree.content = rows.map Row.encoded)
    (k : K) (fl : TxFreelist) :
    ∃ s, Collection.scannedOk P fuel codec now (Collection.seekIter P fuel codec k) (b, fl) =
      .ok (do
        let _ ← codec.encodeKey k
        return itemsOf (liveRows (liveAt m millis) (.included k) .unbounded rows)) s := by
  rw [Collection.seekIter, if_pos hcodec.flag]
  cases hk : codec.encodeKey k with
  | error e => exact ⟨(b, fl), by simp [Collection.scannedOk, estate_bind]⟩
  | ok key =>
    have hlo : Collection.encodeBound codec (.included k) = .ok (.included key) := by
      rw [Collection.encodeBound, hk]
      rfl
    have hhi : Collection.encodeBound codec (.unbounded : Bound K) = .ok .unbounded := rfl
    obtain ⟨c, e, b', hstart, hknows, hover, hahead⟩ :=
      startIter_reads h hN hfuel hlook hnow (.included key) fl
    have hmake : Collection.startIter P fuel (.included key) (b, fl) =
        .ok ⟨c, .ok e, none, none, none, Collection.upperOf .unbounded, false⟩ (b', fl) := hstart
    obtain ⟨s, hscan⟩ := scans_between hmake hknows hover hahead hlen
    rw [decode_within hcodec hrows (liveAt m millis) hlo hhi] at hscan
    exact ⟨s, hscan⟩

/-- The rows of a collection are in the order of their keys. -/
theorem rows_sorted (hcodec : OrderPreserving codec) {l : List Leaf} (hl : SortedBy Leaf.key l)
    (hrows : records l = rows.map Row.encoded) : (rows.map Row.key).Pairwise (· < ·) := by
  rw [List.pairwise_map]
  exact (ordered_rows hl hrows).imp fun {r r'} hlt =>
    (hcodec.lt_iff r.encodes r'.encodes).mpr hlt

end Forward

/-- **`range_bounds` yields exactly the live records within the bounds, and `seek` those from
its key on, in ascending order.** -/
theorem typed_scans_exact {K V : Type} [LinearOrder K] {codec : Codec K V}
    (hcodec : OrderPreserving codec) {P : Pages} {m : BucketMeta} {D : Nest}
    (h : Committed P m D) {expirations : Expirations} (hlook : LookedUp expirations D.dir)
    {now : SystemTime} {millis : Nat} (hnow : epochMillis now = .ok millis)
    (rows : List (Row codec)) (hrows : records D.tree.content = rows.map Row.encoded)
    (fl : TxFreelist) (lo hi : Bound K) (k : K) :
    (rows.map Row.key).Pairwise (· < ·) ∧
    ∃ N, ∀ fuel ≥ N,
      (∃ s, Collection.scannedOk P fuel codec now (Collection.rangeBounds P fuel codec lo hi)
          (.fromMeta m, fl) = .ok (do
            let _ ← Collection.encodeBound codec lo
            let _ ← Collection.encodeBound codec hi
            return itemsOf (liveRows (liveAt expirations millis) lo hi rows)) s) ∧
      ∃ s, Collection.scannedOk P fuel codec now (Collection.seekIter P fuel codec k)
          (.fromMeta m, fl) = .ok (do
            let _ ← codec.encodeKey k
            return itemsOf (liveRows (liveAt expirations millis) (.included k) .unbounded rows))
            s := by
  have hover := h.overlay
  refine ⟨rows_sorted hcodec hover.traversable.sorted hrows,
    D.size + D.tree.subs.length + D.tree.content.length + 2, fun fuel hfuel => ?_⟩
  have hsize : D.size ≤ fuel := by omega
  have hlen : D.tree.subs.length + D.tree.content.length + 2 ≤ fuel := by omega
  exact ⟨rangeBounds_scans hcodec hover h.within hsize hlen hlook hnow hrows lo hi fl,
    seek_scans hcodec hover h.within hsize hlen hlook hnow hrows k fl⟩

/-- Byte strings are their own encodings. -/
theorem bytesCodec_orderPreserving : OrderPreserving bytesCodec where
  flag := rfl
  lt_iff := by
    intro a b ea eb ha hb
    rw [Except.ok.inj ha, Except.ok.inj hb]

/-- The rows of records of byte strings. -/
def bytesRows (l : List (Bytes × Bytes)) : List (Row bytesCodec) :=
  l.map fun r => ⟨r.1, r.2, r.1, r.2, rfl, rfl⟩

/-- At time 200 the record `[5]` has expired, so neither scan yields it. -/
theorem typed_scans_exact_timed :
    ∃ N, ∀ fuel ≥ N,
      (∃ s, Collection.scannedOk timedPages fuel bytesCodec 200
          (Collection.rangeBounds timedPages fuel bytesCodec (.excluded [0]) (.included [6]))
          (.fromMeta ⟨2, 4⟩, timedFreelist) = .ok (.ok [.ok ([1], [10]), .ok ([6], [60])]) s) ∧
      ∃ s, Collection.scannedOk timedPages fuel bytesCodec 200
          (Collection.seekIter timedPages fuel bytesCodec [2])
          (.fromMeta ⟨2, 4⟩, timedFreelist) = .ok (.ok [.ok ([6], [60])]) s := by
  have hnow : epochMillis 200 = .ok 200 := rfl
  obtain ⟨-, N, h⟩ := typed_scans_exact bytesCodec_orderPreserving timed_committed timed_lookedUp
    hnow (bytesRows [([1], [10]), ([5], [50]), ([6], [60])]) rfl
    timedFreelist (.excluded [0]) (.included [6]) [2]
  exact ⟨N, h⟩

/-! ## Backward scans -/

section Backward

variable {K V : Type} {codec : Codec K V} {P : Pages} {D : Nest} {b : InnerBucket}
  {N fuel millis : Nat} {now : SystemTime} {m : Expirations}

/-- The entries that a reverse range goes over: those before its end, or the first entry of
all when every entry is beyond the end. -/
def beforeEnd (k : Bytes) : List Leaf → List Leaf
  | [] => []
  | x :: l => if k < x.key then [x] else ((x :: l).filter fun e => e.key < k).reverse

theorem filter_lt_cut {k : Bytes} {l r : List Leaf} (hl : ∀ y ∈ l, y.key < k)
    (hr : ∀ y ∈ r, k ≤ y.key) : ((l ++ r).filter fun e => decide (e.key < k)) = l := by
  rw [List.filter_append, List.filter_eq_self.mpr (by simpa using hl),
    List.filter_eq_nil_iff.mpr (by simpa using hr), List.append_nil]

theorem beforeEnd_append {k : Bytes} {l r : List Leaf} (hne : l ≠ []) (hl : ∀ y ∈ l, y.key < k)
    (hr : ∀ y ∈ r, k ≤ y.key) : beforeEnd k (l ++ r) = l.reverse := by
  cases l with
  | nil => exact absurd rfl hne
  | cons y l =>
    have hy := hl y List.mem_cons_self
    have hcut := filter_lt_cut hl hr
    rw [List.cons_append] at hcut ⊢
    rw [beforeEnd, if_neg hy.not_gt, hcut]

/-- The positioning of `range_rev`. -/
theorem cursorBefore_reads (h : Overlay P (some D) b D) (hN : Within N (some D)) (hfuel : N ≤ fuel)
    (k : Bytes) (fl : TxFreelist) :
    ∃ c links, Collection.cursorBefore P fuel k (b, fl) = .ok c (withParents b links, fl) ∧
      Behind P (withParents b links) D.tree c (beforeEnd k D.tree.content) := by
  obtain ⟨st, links, hseek, hplace⟩ := seekCursor_reads h hN hfuel k fl
  have hb := (h.withParents links).traversable
  rw [Collection.cursorBefore, estate_bind_ok hseek]
  rcases hplace with hblank | ⟨l, x, r, hst, hs⟩
  · refine ⟨⟨st, false, false⟩, links, ?_, ?_⟩
    · simp [hblank.content, entryAt]
    · rw [hblank.content]
      exact .blank false hblank
  · obtain ⟨hfound, -, -⟩ := hst.sought hb hs
    obtain ⟨hl, hr⟩ := hst.split hb
    have hprev := previous_stands hb hst false fuel
    rw [hfound, hst.content]
    cases hs with
    | here hx =>
      -- the end itself is an entry, and one step goes over it
      subst hx
      refine ⟨⟨st, false, true⟩, links, by simp [estate_bind, hprev], ?_⟩
      cases l with
      | nil =>
        have hnone : ((x :: r).filter fun e => decide (e.key < x.key)) = [] :=
          filter_lt_cut (l := []) (by simp) (by simpa using fun y hy => (hr y hy).le)
        rw [List.nil_append, beforeEnd, if_neg (lt_irrefl _), hnone]
        exact .answered false hst
      | cons y l =>
        rw [beforeEnd_append (List.cons_ne_nil y l) hl (by simpa using fun y hy => (hr y hy).le)]
        exact .answered false hst
    | below hx habove =>
      refine ⟨⟨st, false, false⟩, links, by simp [hx.ne], ?_⟩
      have hlow : ∀ y ∈ l ++ [x], y.key < k := by
        simpa [or_imp, forall_and, hx] using fun y hy => (hl y hy).trans hx
      have hsplit : l ++ x :: r = (l ++ [x]) ++ r := by simp
      rw [hsplit, beforeEnd_append (by simp) hlow fun y hy => (habove y hy).le,
        List.reverse_append]
      exact .moved false hst
    | first hnil hx =>
      -- `seek` has nothing before the end to stand on
      subst hnil
      refine ⟨⟨st, false, false⟩, links, by simp [hx.ne'], ?_⟩
      rw [List.nil_append, beforeEnd, if_pos hx]
      exact .moved false hst

/-- An iterator goes over a sorted list in reverse up to its lower bound. -/
theorem produced_reverse {l : List Leaf} (h : SortedBy Leaf.key l) {stops live : Bytes → Bool}
    {start : Bytes} (hstops : ∀ k, stops k = decide (k < start)) :
    produced codec stops live l.reverse =
      (((records l).filter fun r => decide (start ≤ r.1) && live r.1).map fun r =>
        codec.decode r.1 r.2).reverse := by
  have hcut : (records l).reverse.Pairwise fun r r' =>
      (!decide (r'.1 < start)) = true → (!decide (r.1 < start)) = true := by
    refine (List.pairwise_reverse.mpr (records_sorted h)).imp fun {r r'} hlt hin => ?_
    simp only [Bool.not_eq_true', decide_eq_false_iff_not, not_lt] at hin ⊢
    exact hin.trans hlt.le
  have hrecords : records l.reverse = (records l).reverse := List.filterMap_reverse ..
  simp only [produced, hstops, hrecords]
  rw [takeWhile_eq_filter hcut, List.filter_filter, List.filter_reverse, List.map_reverse]
  congr 2
  exact List.filter_congr fun r _ => by
    simp only [Bool.and_comm, ← not_lt, decide_not]

/-- What a reverse range gives is the range in reverse, unless it gives the first entry of all
although that is beyond the end. -/
theorem produced_beforeEnd_iff {l : List Leaf} (h : SortedBy Leaf.key l)
    {stops live : Bytes → Bool} {start finish : Bytes}
    (hstops : ∀ k, stops k = decide (k < start)) :
    produced codec stops live (beforeEnd finish l) =
        (((records l).filter fun r =>
          contains (.included start) (.excluded finish) r.1 && live r.1).map fun r =>
            codec.decode r.1 r.2).reverse ↔
      ∀ k v, l.head? = some (.kv k v) → start ≤ k → finish < k → live k = false := by
  cases l with
  | nil => simp [beforeEnd, records]
  | cons x l =>
    by_cases hx : finish < x.key
    · -- nothing is in the range
      have hnone : ((records (x :: l)).filter fun r =>
          contains (.included start) (.excluded finish) r.1 && live r.1) = [] := by
        rw [← records_filter _ fun k => contains (.included start) (.excluded finish) k && live k]
        have hall : ∀ y ∈ x :: l, finish < y.key := by
          simpa [hx] using fun y hy => hx.trans (List.rel_of_pairwise_cons h hy)
        have hfilter : ((x :: l).filter fun e =>
            contains (.included start) (.excluded finish) e.key && live e.key) = [] :=
          List.filter_eq_nil_iff.mpr fun y hy => by
            simp [contains, uptoEnd, (hall y hy).not_gt]
        rw [hfilter]
        rfl
      rw [hnone, beforeEnd, if_pos hx]
      cases x with
      | bucket name info => simp
      | kv k v =>
        have hk : finish < k := hx
        rw [produced_kv, hstops]
        by_cases hstart : k < start
        · simp [hstart]
        · cases hl : live k <;> simp [hstart, hl, not_lt.mp hstart, hk]
    · have hsub : SortedBy Leaf.key ((x :: l).filter fun e => decide (e.key < finish)) :=
        h.filter _
      rw [beforeEnd, if_neg hx, produced_reverse hsub hstops,
        records_filter _ fun k => decide (k < finish), List.filter_filter]
      refine iff_of_true ?_ ?_
      · congr 2
        exact List.filter_congr fun r _ => by
          rw [contains, fromStart, uptoEnd, Bool.and_right_comm]
      · intro k v hhead hstart hlt
        obtain rfl : x = .kv k v := by simpa using hhead
        exact absurd hlt hx

/-- `range` on a collection that was only read. -/
theorem range_scans [LinearOrder K] {rows : List (Row codec)} (hcodec : OrderPreserving codec)
    (h : Overlay P (some D) b D) (hN : Within N (some D)) (hfuel : N ≤ fuel)
    (hlen : D.tree.subs.length + D.tree.content.length + 2 ≤ fuel) (hlook : LookedUp m D.dir)
    (hnow : epochMillis now = .ok millis) (hrows : records D.tree.content = rows.map Row.encoded)
    (start stop : K) (fl : TxFreelist) :
    ∃ s, Collection.scannedOk P fuel codec now (Collection.rangeIter P fuel codec start stop)
        (b, fl) =
      .ok (do
        let _ ← codec.encodeKey start
        let _ ← codec.encodeKey stop
        return itemsOf (liveRows (liveAt m millis) (.included start) (.excluded stop) rows)) s := by
  obtain ⟨s, hscan⟩ := rangeBounds_scans hcodec h hN hfuel hlen hlook hnow hrows
    (.included start) (.excluded stop) fl
  refine ⟨s, ?_⟩
  rw [Collection.rangeIter, if_pos hcodec.flag, hscan, Collection.encodeBound,
    Collection.encodeBound]
  cases codec.encodeKey start <;> cases codec.encodeKey stop <;> rfl

/-- `range_rev` between two keys that are encoded. -/
theorem rangeRev_scans (hflag : codec.orderPreserving = true) (h : Overlay P (some D) b D)
    (hN : Within N (some D)) (hfuel : N ≤ fuel)
    (hlen : D.tree.subs.length + D.tree.content.length + 2 ≤ fuel) (hlook : LookedUp m D.dir)
    (hnow : epochMillis now = .ok millis) {start stop : K} {first last : Bytes}
    (hstart : codec.encodeKey start = .ok first) (hstop : codec.encodeKey stop = .ok last)
    (fl : TxFreelist) :
    ∃ s, Collection.scannedOk P fuel codec now (Collection.rangeRev P fuel codec start stop)
        (b, fl) =
      .ok (.ok (produced codec (fun k => k < first) (liveAt m millis)
        (beforeEnd last D.tree.content))) s := by
  obtain ⟨c, links, hcursor, hbehind⟩ := cursorBefore_reads h hN hfuel last fl
  obtain ⟨e, b', hiter, hknows, hover, hsame⟩ :=
    iterWith_reads (h.withParents links) hN hfuel hlook hnow c fl
  have hcollect : CollectionIter.collect P fuel b' codec now
      ⟨c, .ok e, none, none, some (first, true), none, true⟩ = _ :=
    collect_behind hover.traversable hlen rfl rfl (hknows.knowsOf fun _ => True)
      (fun _ _ _ => trivial) rfl (hbehind.congr hsame)
  have hstops : CollectionIter.stops ⟨c, .ok e, none, none, some (first, true), none, true⟩ =
      fun k => decide (k < first) := by
    funext k
    simp [CollectionIter.stops]
  rw [hstops] at hcollect
  refine ⟨(b', fl), ?_⟩
  rw [Collection.rangeRev, if_pos hflag, hstart, hstop]
  simp [Collection.scannedOk, Collection.storing, caught, estate_bind, estate_map, hcursor, hiter,
    hcollect]

end Backward

/-- The first entry of the collection is a live record beyond the end of the range and not
before its start. -/
def Overshoots {K V : Type} [LinearOrder K] {codec : Codec K V} (content : List Leaf)
    (rows : List (Row codec)) (live : Bytes → Bool) (start stop : K) : Prop :=
  (∃ first, codec.encodeKey start = .ok first) ∧ (∃ last, codec.encodeKey stop = .ok last) ∧
    ∃ r ∈ rows, content.head? = some (.kv r.encodedKey r.encodedValue) ∧
      live r.encodedKey = true ∧ start ≤ r.key ∧ stop < r.key

/-- The same in terms of the encoded keys. -/
theorem not_overshoots_iff {K V : Type} [LinearOrder K] {codec : Codec K V}
    (hcodec : OrderPreserving codec) {content : List Leaf} {rows : List (Row codec)}
    (hrows : records content = rows.map Row.encoded) (live : Bytes → Bool) {start stop : K}
    {first last : Bytes} (hstart : codec.encodeKey start = .ok first)
    (hstop : codec.encodeKey stop = .ok last) :
    ¬ Overshoots content rows live start stop ↔
      ∀ k v, content.head? = some (.kv k v) → first ≤ k → last < k → live k = false := by
  constructor
  · intro hnot k v hhead hle hlt
    have hmem : (k, v) ∈ records content :=
      List.mem_filterMap.mpr ⟨_, List.mem_of_mem_head? hhead, rfl⟩
    rw [hrows] at hmem
    obtain ⟨r, hr, hencoded⟩ := List.mem_map.mp hmem
    obtain ⟨rfl, rfl⟩ := Prod.mk.inj hencoded
    by_contra hlive
    exact hnot ⟨⟨first, hstart⟩, ⟨last, hstop⟩, r, hr, hhead, by simpa using hlive,
      (hcodec.le_iff hstart r.encodes).mpr hle, (hcodec.lt_iff hstop r.encodes).mpr hlt⟩
  · rintro hnone ⟨-, -, r, -, hhead, hlive, hle, hlt⟩
    have hdead := hnone _ _ hhead ((hcodec.le_iff hstart r.encodes).mp hle)
      ((hcodec.lt_iff hstop r.encodes).mp hlt)
    rw [hlive] at hdead
    cases hdead

/-- **A reverse range is the range in reverse if and only if the first entry of the collection
is no live record that is beyond the end of the range and not before its start.** -/
theorem range_rev_mirrors_iff {K V : Type} [LinearOrder K] {codec : Codec K V}
    (hcodec : OrderPreserving codec) {P : Pages} {m : BucketMeta} {D : Nest}
    (h : Committed P m D) {expirations : Expirations} (hlook : LookedUp expirations D.dir)
    {now : SystemTime} {millis : Nat} (hnow : epochMillis now = .ok millis)
    (rows : List (Row codec)) (hrows : records D.tree.content = rows.map Row.encoded)
    (fl : TxFreelist) (start stop : K) :
    ∃ N, ∀ fuel ≥ N, ∃ forward backward s s',
      Collection.scannedOk P fuel codec now (Collection.rangeIter P fuel codec start stop)
        (.fromMeta m, fl) = .ok forward s ∧
      Collection.scannedOk P fuel codec now (Collection.rangeRev P fuel codec start stop)
        (.fromMeta m, fl) = .ok backward s' ∧
      forward = (do
        let _ ← codec.encodeKey start
        let _ ← codec.encodeKey stop
        return itemsOf (liveRows (liveAt expirations millis) (.included start) (.excluded stop)
          rows)) ∧
      (backward = forward.map List.reverse ↔
        ¬ Overshoots D.tree.content rows (liveAt expirations millis) start stop) := by
  have hover := h.overlay
  refine ⟨D.size + D.tree.subs.length + D.tree.content.length + 2, fun fuel hfuel => ?_⟩
  have hsize : D.size ≤ fuel := by omega
  have hlen : D.tree.subs.length + D.tree.content.length + 2 ≤ fuel := by omega
  obtain ⟨s, hforward⟩ :=
    range_scans hcodec hover h.within hsize hlen hlook hnow hrows start stop fl
  cases hstart : codec.encodeKey start with
  | error e =>
    rw [hstart] at hforward
    refine ⟨_, .error e, s, (.fromMeta m, fl), hforward, ?_, rfl, ?_⟩
    · rw [Collection.rangeRev, if_pos hcodec.flag, hstart]
      simp [Collection.scannedOk, estate_bind]
    · refine iff_of_true rfl ?_
      rintro ⟨⟨first, hfirst⟩, -⟩
      rw [hstart] at hfirst
      cases hfirst
  | ok first =>
    cases hstop : codec.encodeKey stop with
    | error e =>
      rw [hstart, hstop] at hforward
      refine ⟨_, .error e, s, (.fromMeta m, fl), hforward, ?_, rfl, ?_⟩
      · rw [Collection.rangeRev, if_pos hcodec.flag, hstart, hstop]
        simp [Collection.scannedOk, estate_bind]
      · refine iff_of_true rfl ?_
        rintro ⟨-, ⟨last, hlast⟩, -⟩
        rw [hstop] at hlast
        cases hlast
    | ok last =>
      rw [hstart, hstop] at hforward
      obtain ⟨s', hbackward⟩ := rangeRev_scans hcodec.flag hover h.within hsize hlen hlook hnow
        hstart hstop fl
      refine ⟨_, _, s, s', hforward, hbackward, rfl, ?_⟩
      have hlo : Collection.encodeBound codec (.included start) = .ok (.included first) := by
        rw [Collection.encodeBound, hstart]
        rfl
      have hhi : Collection.encodeBound codec (.excluded stop) = .ok (.excluded last) := by
        rw [Collection.encodeBound, hstop]
        rfl
      rw [not_overshoots_iff hcodec hrows (liveAt expirations millis) hstart hstop,
        ← produced_beforeEnd_iff hover.traversable.sorted fun _ => rfl,
        decode_within hcodec hrows _ hlo hhi]
      exact ⟨Except.ok.inj, congrArg Except.ok⟩

/-- A collection with one record. -/
def onePages : Pages where
  validate
    | 2 => .ok ⟨2, 0, .leaf [.kv [5] [50]]⟩
    | _ => .error "page is out of range"
  pagesize := 1024

/-- At time 200 the record `[5]` has expired, so both scans pass over it. -/
theorem range_rev_mirrors_timed :
    ∃ N, ∀ fuel ≥ N, ∃ s s',
      Collection.scannedOk timedPages fuel bytesCodec 200
        (Collection.rangeRev timedPages fuel bytesCodec [1] [7]) (.fromMeta ⟨2, 4⟩, timedFreelist) =
          .ok (.ok [.ok ([6], [60]), .ok ([1], [10])]) s ∧
      Collection.scannedOk timedPages fuel bytesCodec 200
        (Collection.rangeIter timedPages fuel bytesCodec [1] [7])
          (.fromMeta ⟨2, 4⟩, timedFreelist) = .ok (.ok [.ok ([1], [10]), .ok ([6], [60])]) s' := by
  have hnow : epochMillis 200 = .ok 200 := rfl
  obtain ⟨N, h⟩ := range_rev_mirrors_iff bytesCodec_orderPreserving timed_committed timed_lookedUp
    hnow (bytesRows [([1], [10]), ([5], [50]), ([6], [60])]) rfl timedFreelist [1] [7]
  refine ⟨N, fun fuel hfuel => ?_⟩
  obtain ⟨forward, backward, s, s', hforward, hbackward, rfl, hiff⟩ := h fuel hfuel
  have hmirror := hiff.mpr (by rintro ⟨-, -, r, -, hhead, -⟩; cases hhead)
  rw [hmirror] at hbackward
  exact ⟨s', s, hbackward, hforward⟩

/-- The only record is yielded by a reverse range that ends before it. -/
theorem range_rev_overshoots :
    (∃ s, Collection.scannedOk onePages 12 bytesCodec 200
      (Collection.rangeRev onePages 12 bytesCodec [1] [3]) (.fromMeta ⟨2, 1⟩, timedFreelist) =
        .ok (.ok [.ok ([5], [50])]) s) ∧
    ∃ s, Collection.scannedOk onePages 12 bytesCodec 200
      (Collection.rangeIter onePages 12 bytesCodec [1] [3]) (.fromMeta ⟨2, 1⟩, timedFreelist) =
        .ok (.ok []) s := by
  exact ⟨⟨_, by rfl⟩, _, by rfl⟩

end Tagdata.Analysis
