import Tagdata.Analysis.TypedRanges

/-!
# Pages of a scan

`page_after` asks its iterator for one item more than the page holds, even when the iterator
has already reported its end.  A cursor that has come to the end of a collection with an entry
stays there, so the pages are consecutive pieces of the scan.  A cursor on an empty leaf does
not: there the extra call computes `0 - 1`.
-/

set_option autoImplicit false

namespace Tagdata.Analysis

open Tagdata.Library Tagdata.Library.SearchTree Tagdata.Model Tagdata.Interface

/-- The pages are the consecutive pieces of the items: all but the last are full, and exactly
the last has no token. -/
structure PagesExact {K V : Type} (limit : Nat) (items : List (K × V))
    (pages : List (ScanPage K V)) : Prop where
  all : pages.flatMap ScanPage.items = items
  full : ∀ page ∈ pages.dropLast, page.items.length = limit
  more : ∀ page ∈ pages.dropLast, page.next ≠ none
  last : ∃ page, pages.getLast? = some page ∧ page.next = none

section Page

variable {K V : Type} {codec : Codec K V} {P : Pages} {b : InnerBucket} {fuel : Nat}
  {now : SystemTime}

theorem itemsOf_eq (rows : List (Row codec)) : itemsOf rows = (rows.map Row.item).map .ok := by
  rw [itemsOf, List.map_map]
  rfl

/-- The first page of rows. -/
def firstPage (limit : Nat) (rows : List (Row codec)) : ScanPage K V where
  items := (rows.take limit).map Row.item
  next := if rows.length ≤ limit then none else (rows.take limit).getLast?.map Row.encodedKey

variable {it it' : CollectionIter}

/-- The loop of `page_after` takes items until its limit or the end. -/
theorem takeItems_yields (hend : Yields (CollectionIter.next P fuel b codec now) it' [] it')
    (limit : Nat) :
    ∀ {it : CollectionIter} {items : List (K × V)},
      Yields (CollectionIter.next P fuel b codec now) it (items.map .ok) it' →
      ∃ it₁, Collection.takeItems P fuel codec now b limit it = .ok (.ok (items.take limit)) it₁ ∧
        Yields (CollectionIter.next P fuel b codec now) it₁ ((items.drop limit).map .ok) it' := by
  induction limit with
  | zero =>
    intro it items h
    exact ⟨it, rfl, h⟩
  | succ limit ih =>
    intro it items h
    cases items with
    | nil =>
      cases h with
      | done stop =>
        refine ⟨it', ?_, hend⟩
        rw [Collection.takeItems, estate_bind_ok stop]
        rfl
    | cons item items =>
      rw [List.map_cons] at h
      cases h with
      | more step rest =>
        obtain ⟨it₁, htake, hrest⟩ := ih rest
        refine ⟨it₁, ?_, hrest⟩
        rw [Collection.takeItems, estate_bind_ok step]
        simp [estate_bind, htake]

/-- The page of an iterator over rows. -/
theorem pageOf_rows (limit : Nat)
    (hend : Yields (CollectionIter.next P fuel b codec now) it' [] it') {rows : List (Row codec)}
    (h : Yields (CollectionIter.next P fuel b codec now) it (itemsOf rows) it') :
    ∃ it₁, Collection.pageOf P fuel codec now b limit it =
      .ok (.ok (firstPage limit rows)) it₁ := by
  rw [itemsOf_eq] at h
  obtain ⟨it₁, htake, hrest⟩ := takeItems_yields hend limit h
  rw [Collection.pageOf, estate_bind_ok htake, ← List.map_take]
  rw [← List.map_drop] at hrest
  cases hdrop : rows.drop limit with
  | nil =>
    have hle : rows.length ≤ limit := List.drop_eq_nil_iff.mp hdrop
    rw [hdrop] at hrest
    cases hrest with
    | done stop => exact ⟨it', by simp [estate_bind, stop, firstPage, hle]⟩
  | cons r rest =>
    have hlt : ¬ rows.length ≤ limit := fun hle => by
      rw [List.drop_eq_nil_of_le hle] at hdrop
      cases hdrop
    rw [hdrop, List.map_cons, List.map_cons] at hrest
    cases hrest with
    | @more _ it₂ _ _ _ step _ =>
      refine ⟨it₂, ?_⟩
      simp only [estate_bind_ok step, List.getLast?_map]
      cases hlast : (rows.take limit).getLast? with
      | none => simp [firstPage, hlt, hlast]
      | some r => simp [firstPage, hlt, hlast, Row.item, r.encodes]

end Page

/-! ## One page after a token -/

/-- Where the scan of a page starts. -/
def startOf : Option Bytes → Bound Bytes
  | none => .unbounded
  | some token => .excluded token

section After

variable {K V : Type} {codec : Codec K V} {P : Pages} {D : Nest} {b : InnerBucket}
  {N fuel millis : Nat} {now : SystemTime} {m : Expirations} {rows : List (Row codec)}

/-- The live rows after a token. -/
def rowsAfter (live : Bytes → Bool) (rows : List (Row codec)) (after : Option Bytes) :
    List (Row codec) :=
  rows.filter fun r => fromStart (startOf after) r.encodedKey && live r.encodedKey

/-- A forward iterator without bounds yields the live rows and then stays at its end, provided
the collection has an entry. -/
theorem iter_yields (h : Overlay P (some D) b D) (hne : D.tree.content ≠ [])
    (hlen : D.tree.subs.length + D.tree.content.length + 2 ≤ fuel)
    (hrows : records D.tree.content = rows.map Row.encoded) {live : Bytes → Bool} {c : Cursor}
    {e : Option InnerBucket} (hknows : Knows P fuel now live e) {after : Option Bytes}
    (hahead : Ahead P b D.tree c
      (D.tree.content.filter fun x => fromStart (startOf after) x.key)) :
    ∃ it', Yields (CollectionIter.next P fuel b codec now)
        ⟨c, .ok e, none, none, none, none, false⟩ (itemsOf (rowsAfter live rows after)) it' ∧
      Yields (CollectionIter.next P fuel b codec now) it' [] it' := by
  have hb := h.traversable
  have hfilter := D.tree.content.length_filter_le fun x => fromStart (startOf after) x.key
  obtain ⟨top, htop, hmoves⟩ := (hahead.aboutTo hb (by omega : _ ≤ fuel)).yields hb (by omega)
  have hpast : PastEnd P b D.tree top := htop.resolve_right fun hblank => hne hblank.content
  have hstays : Yields (Cursor.advance P b fuel) ⟨top, true, false⟩
    (([] : List Leaf).map Data.ofLeaf)
      ⟨top, true, false⟩ := .done (advance_pastEnd hb hpast false (by omega))
  have hunbounded : ∀ k, CollectionIter.stops ⟨c, .ok e, none, none, none, none, false⟩ k =
      !uptoEnd .unbounded k := stops_upperOf c e .unbounded
  have hitems : produced codec
      (CollectionIter.stops ⟨c, .ok e, none, none, none, none, false⟩) live
        (D.tree.content.filter fun x => fromStart (startOf after) x.key) =
      itemsOf (rowsAfter live rows after) := by
    rw [produced_range hb.sorted hunbounded, hrows,
      decode_rows rows fun k => contains (startOf after) .unbounded k && live k]
    simp only [contains, uptoEnd, Bool.and_true]
    rfl
  obtain ⟨c₁, hyields, hsame⟩ := next_yields codec
    ⟨c, .ok e, none, none, none, none, false⟩ rfl rfl
    (hknows.knowsOf fun _ => True) (fun _ _ _ => trivial) hmoves (by omega)
  obtain rfl := hsame fun k => rfl
  obtain ⟨c₂, hend, hsame⟩ := next_yields codec
    ⟨c, .ok e, none, none, none, none, false⟩ rfl rfl
    (hknows.knowsOf fun _ => True) (fun _ _ _ => trivial) hstays (by simp; omega)
  obtain rfl := hsame fun k => rfl
  rw [hitems] at hyields
  exact ⟨_, hyields, hend⟩

theorem pageIter_eq (after : Option Bytes) :
    Collection.pageIter P fuel after = Collection.startIter P fuel (startOf after) := by
  cases after <;> rfl

/-- `page_after` on a collection that was only read. -/
theorem pageAfter_reads (hflag : codec.orderPreserving = true) (h : Overlay P (some D) b D)
    (hne : D.tree.content ≠ []) (hN : Within N (some D)) (hfuel : N ≤ fuel)
    (hlen : D.tree.subs.length + D.tree.content.length + 2 ≤ fuel) (hlook : LookedUp m D.dir)
    (hnow : epochMillis now = .ok millis) (hrows : records D.tree.content = rows.map Row.encoded)
    {limit maxCapacity : Nat} (hlimit : limit ≠ 0) (hcapacity : limit ≤ maxCapacity)
    (after : Option Bytes) (fl : TxFreelist) :
    ∃ b', Collection.pageAfter P fuel codec now maxCapacity after limit (b, fl) =
        .ok (.ok (firstPage limit (rowsAfter (liveAt m millis) rows after))) (b', fl) ∧
      Overlay P (some D) b' D := by
  obtain ⟨c, e, b', hstart, hknows, hover, hahead⟩ :=
    startIter_reads h hN hfuel hlook hnow (startOf after) fl
  obtain ⟨it', hyields, hend⟩ := iter_yields hover hne hlen hrows hknows hahead
  obtain ⟨it₁, hpage⟩ := pageOf_rows limit hend hyields
  refine ⟨b', ?_, hover⟩
  rw [Collection.pageAfter, if_pos hflag, if_neg hlimit, pageIter_eq]
  simp [Collection.storing, caught, estate_bind, hstart, hpage, Nat.not_lt.mpr hcapacity]

/-- `page_after` with a limit that cannot be allocated. -/
theorem pageAfter_overflow (hflag : codec.orderPreserving = true) (h : Overlay P (some D) b D)
    (hN : Within N (some D)) (hfuel : N ≤ fuel) (hlook : LookedUp m D.dir)
    (hnow : epochMillis now = .ok millis) {limit maxCapacity : Nat} (hlimit : limit ≠ 0)
    (hcapacity : maxCapacity < limit) (after : Option Bytes) (fl : TxFreelist) :
    ∃ s, Collection.pageAfter P fuel codec now maxCapacity after limit (b, fl) =
      .error (.panic "capacity overflow") s := by
  obtain ⟨c, e, b', hstart, -⟩ := startIter_reads h hN hfuel hlook hnow (startOf after) fl
  refine ⟨(b', fl), ?_⟩
  rw [Collection.pageAfter, if_pos hflag, if_neg hlimit, pageIter_eq]
  simp [Collection.storing, caught, estate_bind, hstart, hcapacity]

/-- An iterator that is asked once more on an empty leaf. -/
theorem next_blank_again (codec : Codec K V) (now : SystemTime) (hb : Traversable P b D.tree)
    {st : List SearchPath}
    (hblank : Blank P b D.tree st) (e : Option InnerBucket) (hfuel : 0 < fuel) :
    ∃ it', CollectionIter.next P fuel b codec now
        ⟨⟨st, true, false⟩, .ok e, none, none, none, none, false⟩ =
      .error (.panic "attempt to subtract with overflow") it' := by
  have hagain := advance_blank_again hb hblank false hfuel
  obtain ⟨n, rfl⟩ : ∃ n, fuel = n + 1 := ⟨fuel - 1, by omega⟩
  refine ⟨⟨⟨st, true, false⟩, .ok e, none, none, none, none, false⟩, ?_⟩
  simp [CollectionIter.next, CollectionIter.loop, CollectionIter.step, caught, estate_bind, hagain]

/-- `page_after` on a collection without entries. -/
theorem pageAfter_empty (hflag : codec.orderPreserving = true) (h : Overlay P (some D) b D)
    (hnil : D.tree.content = []) (hN : Within N (some D)) (hfuel : N ≤ fuel)
    (hlen : D.tree.subs.length + 2 ≤ fuel) (hlook : LookedUp m D.dir)
    (hnow : epochMillis now = .ok millis) {limit maxCapacity : Nat} (hlimit : limit ≠ 0)
    (hcapacity : limit ≤ maxCapacity) (fl : TxFreelist) :
    ∃ s, Collection.pageAfter P fuel codec now maxCapacity none limit (b, fl) =
      .error (.panic "attempt to subtract with overflow") s := by
  obtain ⟨e, b', hiter, -, hover, -⟩ := iterWith_reads h hN hfuel hlook hnow Cursor.new fl
  have hb := hover.traversable
  obtain ⟨st, hblank, hadv⟩ : ∃ st, Blank P b' D.tree st ∧
      Cursor.advance P b' fuel Cursor.new = .ok none ⟨st, true, false⟩ := by
    rcases advance_new hb hlen with hblank | ⟨st, x, r, hst, -⟩
    · exact hblank
    · have hcontent := hst.content
      rw [hnil] at hcontent
      cases hcontent
  obtain ⟨it', hagain⟩ := next_blank_again codec now hb hblank e (by omega : 0 < fuel)
  have hfirst : CollectionIter.next P fuel b' codec now
      ⟨Cursor.new, .ok e, none, none, none, none, false⟩ =
      .ok none ⟨⟨st, true, false⟩, .ok e, none, none, none, none, false⟩ := by
    obtain ⟨n, rfl⟩ : ∃ n, fuel = n + 1 := ⟨fuel - 1, by omega⟩
    simp [CollectionIter.next, CollectionIter.loop, CollectionIter.step, caught, estate_bind, hadv]
  obtain ⟨limit, rfl⟩ : ∃ n, limit = n + 1 := ⟨limit - 1, by omega⟩
  refine ⟨(b', fl), ?_⟩
  have hpage : Collection.pageOf P fuel codec now b' (limit + 1)
      ⟨Cursor.new, .ok e, none, none, none, none, false⟩ =
      .error (.panic "attempt to subtract with overflow") it' := by
    simp [Collection.pageOf, Collection.takeItems, estate_bind, hfirst, hagain]
  rw [Collection.pageAfter, if_pos hflag, if_neg hlimit]
  simp [Collection.storing, Collection.pageIter, Collection.iter, caught, estate_bind, hiter, hpage,
    Nat.not_lt.mpr hcapacity]

/-! ## All pages -/

/-- The rows after the last one of a page are the rest of the rows. -/
theorem filter_after_page (h : Ordered rows) {limit : Nat} {last : Row codec}
    (hlast : (rows.take limit).getLast? = some last) :
    (rows.filter fun r => decide (last.encodedKey < r.encodedKey)) = rows.drop limit := by
  obtain ⟨front, hfront⟩ := List.getLast?_eq_some_iff.mp hlast
  have hsplit : rows = (front ++ [last]) ++ rows.drop limit := by
    rw [← hfront, List.take_append_drop]
  rw [Ordered, hsplit, List.pairwise_append] at h
  obtain ⟨hpage, -, hcross⟩ := h
  have hbefore : ∀ r ∈ front ++ [last], ¬ last.encodedKey < r.encodedKey := by
    intro r hr
    rcases List.mem_append.mp hr with hr | hr
    · exact not_lt_of_gt ((List.pairwise_append.mp hpage).2.2 r hr last List.mem_cons_self)
    · rw [List.mem_singleton.mp hr]
      exact lt_irrefl _
  have hafter : ∀ r ∈ rows.drop limit, last.encodedKey < r.encodedKey :=
    fun r hr => hcross last (by simp) r hr
  nth_rewrite 1 [hsplit]
  rw [List.filter_append, List.filter_eq_nil_iff.mpr (by simpa using hbefore),
    List.filter_eq_self.mpr (by simpa using hafter), List.nil_append]

/-- The token of a page leads to the rest of the rows. -/
theorem rowsAfter_token (h : Ordered rows) (live : Bytes → Bool) {after : Option Bytes}
    {limit : Nat} {last : Row codec}
    (hlast : ((rowsAfter live rows after).take limit).getLast? = some last) :
    rowsAfter live rows (some last.encodedKey) = (rowsAfter live rows after).drop limit := by
  have hmem : last ∈ rowsAfter live rows after :=
    List.mem_of_mem_take (List.mem_of_getLast? hlast)
  have hin : fromStart (startOf after) last.encodedKey = true :=
    (Bool.and_eq_true_iff.mp (List.mem_filter.mp hmem).2).1
  have hwider : ∀ k, last.encodedKey < k → fromStart (startOf after) k = true := by
    intro k hlt
    cases after with
    | none => rfl
    | some token =>
      have hlow : token < last.encodedKey := by simpa [startOf, fromStart] using hin
      simpa [startOf, fromStart] using hlow.trans hlt
  have hordered : Ordered (rowsAfter live rows after) := h.filter _
  rw [← filter_after_page hordered hlast, rowsAfter, rowsAfter, List.filter_filter]
  refine List.filter_congr fun r _ => ?_
  have htoken : fromStart (startOf (some last.encodedKey)) r.encodedKey =
      decide (last.encodedKey < r.encodedKey) := rfl
  rw [htoken]
  by_cases hlt : last.encodedKey < r.encodedKey
  · rw [hwider r.encodedKey hlt, decide_eq_true hlt, Bool.true_and, Bool.true_and]
  · rw [decide_eq_false hlt, Bool.false_and, Bool.false_and]

/-- One page before other pages. -/
theorem PagesExact.cons {limit : Nat} {items rest : List (K × V)} {pages : List (ScanPage K V)}
    {token : Bytes} (h : PagesExact limit rest pages) (hfull : items.length = limit) :
    PagesExact limit (items ++ rest) (⟨items, some token⟩ :: pages) := by
  obtain ⟨page, hpage, hnone⟩ := h.last
  have hne : pages ≠ [] := fun hnil => by rw [hnil] at hpage; cases hpage
  have hdrop : ((⟨items, some token⟩ : ScanPage K V) :: pages).dropLast =
      ⟨items, some token⟩ :: pages.dropLast := List.dropLast_cons_of_ne_nil hne
  refine ⟨by rw [List.flatMap_cons, h.all], ?_, ?_, page, ?_, hnone⟩
  · rw [hdrop]
    exact List.forall_mem_cons.mpr ⟨hfull, h.full⟩
  · rw [hdrop]
    exact List.forall_mem_cons.mpr ⟨by simp, h.more⟩
  · rw [List.getLast?_cons, hpage]
    rfl

/-- A reader gets the pages of all rows after its token. -/
theorem allPages_reads (hflag : codec.orderPreserving = true) (hne : D.tree.content ≠ [])
    (hN : Within N (some D)) (hfuel : N ≤ fuel)
    (hlen : D.tree.subs.length + D.tree.content.length + 2 ≤ fuel) (hlook : LookedUp m D.dir)
    (hnow : epochMillis now = .ok millis) (hrows : records D.tree.content = rows.map Row.encoded)
    {limit maxCapacity : Nat} (hlimit : limit ≠ 0) (hcapacity : limit ≤ maxCapacity)
    (fl : TxFreelist) :
    ∀ n (after : Option Bytes) {b : InnerBucket}, Overlay P (some D) b D →
      (rowsAfter (liveAt m millis) rows after).length < n →
      ∃ pages s, Collection.allPages P fuel codec now maxCapacity limit n after (b, fl) =
          .ok (.ok pages) s ∧
        PagesExact limit ((rowsAfter (liveAt m millis) rows after).map Row.item) pages := by
  intro n
  induction n with
  | zero =>
    intro after b h hn
    omega
  | succ n ih =>
    intro after b h hn
    have hordered := ordered_rows h.traversable.sorted hrows
    obtain ⟨b', hpage, hover⟩ := pageAfter_reads hflag h hne hN hfuel hlen hlook hnow hrows
      hlimit hcapacity after fl
    rw [Collection.allPages, estate_bind_ok hpage]
    generalize hR : rowsAfter (liveAt m millis) rows after = R at *
    by_cases hle : R.length ≤ limit
    · -- the last page
      refine ⟨[firstPage limit R], (b', fl), by simp [firstPage, hle], ?_, by simp, by simp,
        _, rfl, by simp [firstPage, hle]⟩
      simp [firstPage, List.take_of_length_le hle]
    · obtain ⟨last, hlast⟩ : ∃ last, (R.take limit).getLast? = some last := by
        refine Option.ne_none_iff_exists'.mp fun hnone => ?_
        have hnil := congrArg List.length (List.getLast?_eq_none_iff.mp hnone)
        rw [List.length_take, List.length_nil] at hnil
        omega
      have hrest : rowsAfter (liveAt m millis) rows (some last.encodedKey) = R.drop limit := by
        subst hR
        exact rowsAfter_token hordered _ hlast
      have hfirst : firstPage limit R =
          ⟨(R.take limit).map Row.item, some last.encodedKey⟩ := by
        simp [firstPage, hle, hlast]
      have hshort : (rowsAfter (liveAt m millis) rows (some last.encodedKey)).length < n := by
        rw [hrest, List.length_drop]
        omega
      obtain ⟨pages, s, hrun, hexact⟩ := ih (some last.encodedKey) hover hshort
      refine ⟨firstPage limit R :: pages, s, by rw [hfirst]; simp [estate_bind, hrun], ?_⟩
      rw [hrest] at hexact
      have hfull : ((R.take limit).map Row.item).length = limit := by
        rw [List.length_map, List.length_take]
        omega
      have hcons : PagesExact limit _ (⟨_, some last.encodedKey⟩ :: pages) := hexact.cons hfull
      rw [← List.map_append, List.take_append_drop] at hcons
      rw [hfirst]
      exact hcons

end After

/-- Reading page by page gives the scan in full pages. -/
def Paginates {K V : Type} (P : Pages) (codec : Codec K V) (now : SystemTime)
    (maxCapacity limit : Nat) (s : BucketTx) : Prop :=
  ∃ N, ∀ fuel ≥ N, ∃ items pages s₁ s₂,
    Collection.scanned P fuel codec now (Collection.iter P fuel) s = .ok (items.map .ok) s₁ ∧
    Collection.allPages P fuel codec now maxCapacity limit fuel none s = .ok (.ok pages) s₂ ∧
    PagesExact limit items pages

/-- **Pages lose and repeat nothing if and only if the collection has an entry and a page of
the limit can be allocated.** -/
theorem pages_exact_iff {K V : Type} [LinearOrder K] {codec : Codec K V}
    (hcodec : OrderPreserving codec) {P : Pages} {m : BucketMeta} {D : Nest}
    (h : Committed P m D) {expirations : Expirations} (hlook : LookedUp expirations D.dir)
    {now : SystemTime} {millis : Nat} (hnow : epochMillis now = .ok millis)
    (rows : List (Row codec)) (hrows : records D.tree.content = rows.map Row.encoded)
    (fl : TxFreelist) (maxCapacity limit : Nat) (hlimit : 1 ≤ limit) :
    Paginates P codec now maxCapacity limit (.fromMeta m, fl) ↔
      D.tree.content ≠ [] ∧ limit ≤ maxCapacity := by
  have hover := h.overlay
  have hzero : limit ≠ 0 := by omega
  constructor
  · rintro ⟨N, hpages⟩
    -- with enough fuel the first page is a panic otherwise
    obtain ⟨items, pages, s₁, s₂, -, hrun, -⟩ :=
      hpages (N + D.size + D.tree.subs.length + 2) (by omega)
    rw [Collection.allPages] at hrun
    have hsize : D.size ≤ N + D.size + D.tree.subs.length + 2 := by omega
    have hcapacity : limit ≤ maxCapacity := by
      by_contra hlt
      obtain ⟨s, hpanic⟩ := pageAfter_overflow hcodec.flag hover h.within hsize hlook hnow hzero
        (not_le.mp hlt) none fl
      rw [estate_bind_error hpanic] at hrun
      cases hrun
    refine ⟨fun hnil => ?_, hcapacity⟩
    obtain ⟨s, hpanic⟩ := pageAfter_empty hcodec.flag hover hnil h.within hsize (by omega) hlook
      hnow hzero hcapacity fl
    rw [estate_bind_error hpanic] at hrun
    cases hrun
  · rintro ⟨hne, hcapacity⟩
    refine ⟨D.size + D.tree.subs.length + D.tree.content.length + rows.length + 2,
      fun fuel hfuel => ?_⟩
    have hsize : D.size ≤ fuel := by omega
    have hlen : D.tree.subs.length + D.tree.content.length + 2 ≤ fuel := by omega
    have hshort : (rowsAfter (liveAt expirations millis) rows none).length < fuel := by
      have hle := rows.length_filter_le fun r =>
        fromStart (startOf none) r.encodedKey && liveAt expirations millis r.encodedKey
      rw [rowsAfter]
      omega
    obtain ⟨c, e, b, hstart, hknows, hover', hahead⟩ :=
      startIter_reads hover h.within hsize hlook hnow (startOf none) fl
    obtain ⟨it', hyields, -⟩ := iter_yields hover' hne hlen hrows hknows hahead
    obtain ⟨pages, s, hrun, hexact⟩ := allPages_reads hcodec.flag hne h.within hsize hlen hlook
      hnow hrows hzero hcapacity fl fuel none hover hshort
    refine ⟨_, pages, (b, fl), s, ?_, hrun, hexact⟩
    have hiter : Collection.iter P fuel (.fromMeta m, fl) =
        .ok ⟨c, .ok e, none, none, none, none, false⟩ (b, fl) := hstart
    have hdrain := hyields.drain .diverge fuel (by rw [itemsOf, List.length_map]; exact hshort)
    rw [← itemsOf_eq]
    simp [Collection.scanned, CollectionIter.collect, estate_bind, hiter, hdrain]

/-- Pages of one record over the collection with an expiration. -/
theorem pages_exact_timed :
    Paginates timedPages bytesCodec 200 1000 1 (.fromMeta ⟨2, 4⟩, timedFreelist) := by
  have hnow : epochMillis 200 = .ok 200 := rfl
  exact (pages_exact_iff bytesCodec_orderPreserving timed_committed timed_lookedUp hnow
    (bytesRows [([1], [10]), ([5], [50]), ([6], [60])]) rfl timedFreelist 1000 1 le_rfl).mpr
    ⟨List.cons_ne_nil _ _, by omega⟩

/-- An empty collection: the root is a leaf without entries. -/
def emptyPages : Pages where
  validate
    | 2 => .ok ⟨2, 0, .leaf []⟩
    | _ => .error "page is out of range"
  pagesize := 1024

/-- The first page of an empty collection is a panic, and so is a page of `usize::MAX` items of
the collection with an expiration. -/
theorem page_after_panics :
    (∃ s, Collection.pageAfter emptyPages 12 bytesCodec 200 1000 none 10
      (.fromMeta ⟨2, 0⟩, timedFreelist) =
        .error (.panic "attempt to subtract with overflow") s) ∧
    ∃ s, Collection.pageAfter timedPages 12 bytesCodec 200 (2 ^ 63 - 1) none (2 ^ 64 - 1)
      (.fromMeta ⟨2, 4⟩, timedFreelist) = .error (.panic "capacity overflow") s := by
  exact ⟨⟨_, by rfl⟩, _, by rfl⟩

end Tagdata.Analysis
