import Tagdata.Analysis.Positions

/-!
# Raw ranges

`Bucket::range` moves its cursor only to an included start.  From there on it answers
elements while they are before the end, so an excluded start is no start at all: the range
is exact if and only if nothing at or below an excluded start is before the end.
-/

set_option autoImplicit false

namespace Tagdata.Analysis

open Tagdata.Library Tagdata.Library.SearchTree Tagdata.Model

section Bounds

variable {K : Type} [LT K] [LE K] [DecidableLT K] [DecidableLE K]

/-- Whether a key is not before the start. -/
def fromStart : Bound K → K → Bool
  | .included s, k => s ≤ k
  | .excluded s, k => s < k
  | .unbounded, _ => true

/-- Whether a key is not after the end. -/
def uptoEnd : Bound K → K → Bool
  | .included t, k => k ≤ t
  | .excluded t, k => k < t
  | .unbounded, _ => true

/-- `RangeBounds::contains`: whether a key lies within the bounds. -/
def contains (lo hi : Bound K) (k : K) : Bool := fromStart lo k && uptoEnd hi k

end Bounds

/-- The test of `Range::next` is the end of the range. -/
theorem withinEnd_eq (endBound : Bound Bytes) (key : Bytes) :
    Range.withinEnd endBound key = uptoEnd endBound key := by
  cases endBound <;> rfl

/-- The content at which a range starts. -/
def startingAt (startBound : Bound Bytes) (content : List Leaf) : List Leaf :=
  match startBound with
  | .included s => fromKey s content
  | _ => content

/-! ## Cuts of a sorted list -/

section Cuts

variable {l : List Leaf}

theorem uptoEnd_of_lt {endBound : Bound Bytes} {a c : Bytes} (hlt : a < c)
    (h : uptoEnd endBound c = true) : uptoEnd endBound a = true := by
  cases endBound with
  | included s =>
    simp only [uptoEnd, decide_eq_true_eq] at h ⊢
    exact hlt.le.trans h
  | excluded s =>
    simp only [uptoEnd, decide_eq_true_eq] at h ⊢
    exact hlt.trans h
  | unbounded => rfl

/-- On a sorted list an end of a range is a cut. -/
theorem takeWhile_uptoEnd (h : SortedBy Leaf.key l) (endBound : Bound Bytes) :
    l.takeWhile (fun e => uptoEnd endBound e.key) =
      l.filter fun e => uptoEnd endBound e.key :=
  takeWhile_eq_filter (h.imp fun hlt => uptoEnd_of_lt hlt)

theorem fromKey_eq_filter (h : SortedBy Leaf.key l) (k : Bytes) :
    fromKey k l = l.filter fun e => decide (k ≤ e.key) := by
  have hcut : l.Pairwise fun a b => decide (b.key < k) = true → decide (a.key < k) = true :=
    h.imp fun hlt hb => by simpa using hlt.trans (by simpa using hb)
  rw [fromKey, dropWhile_eq_filter hcut]
  exact List.filter_congr fun e _ => by simp only [← not_lt, decide_not]

theorem afterKey_eq_filter (h : SortedBy Leaf.key l) (k : Bytes) :
    afterKey k l = l.filter fun e => decide (k < e.key) := by
  have hcut : l.Pairwise fun a b => decide (b.key ≤ k) = true → decide (a.key ≤ k) = true :=
    h.imp fun hlt hb => by simpa using hlt.le.trans (by simpa using hb)
  rw [afterKey, dropWhile_eq_filter hcut]
  exact List.filter_congr fun e _ => by simp only [← not_le, decide_not]

/-- The part of a sorted list that a range yields is the range, unless an excluded start is
ignored. -/
theorem startingAt_exact (h : SortedBy Leaf.key l) (startBound endBound : Bound Bytes) :
    (((startingAt startBound l).takeWhile fun e => uptoEnd endBound e.key).map
        Data.ofLeaf =
      (l.filter fun e => contains startBound endBound e.key).map Data.ofLeaf) ↔
    ∀ s, startBound = .excluded s →
      ∀ e ∈ l, e.key ≤ s → uptoEnd endBound e.key = false := by
  cases startBound with
  | included s =>
    have hsub : SortedBy Leaf.key (fromKey s l) := h.sublist (List.dropWhile_sublist _)
    simp only [startingAt, takeWhile_uptoEnd hsub, reduceCtorEq, false_implies, implies_true,
      iff_true]
    rw [fromKey_eq_filter h, List.filter_filter]
    congr 1
    exact List.filter_congr fun e _ => by simp [contains, fromStart, Bool.and_comm]
  | unbounded =>
    simp only [startingAt, takeWhile_uptoEnd h, reduceCtorEq, false_implies, implies_true,
      iff_true]
    rfl
  | excluded s =>
    simp only [startingAt, takeWhile_uptoEnd h, Bound.excluded.injEq, forall_eq']
    have hboth : (l.filter fun e => contains (.excluded s) endBound e.key) =
        (l.filter fun e => uptoEnd endBound e.key).filter fun e => decide (s < e.key) := by
      rw [List.filter_filter]
      rfl
    rw [hboth]
    constructor
    · intro heq e he hle
      -- nothing is lost by testing the start, so everything before the end passes the test
      have hlen := congrArg List.length heq
      simp only [List.length_map] at hlen
      have hall := List.length_filter_eq_length_iff.mp hlen.symm
      by_contra hin
      have hmem := hall e (List.mem_filter.mpr ⟨he, by simpa using hin⟩)
      exact absurd hle (not_le.mpr (by simpa using hmem))
    · intro hcond
      congr 1
      refine (List.filter_eq_self.mpr fun e he => ?_).symm
      obtain ⟨he, hin⟩ := List.mem_filter.mp he
      by_contra hle
      have hout := hcond e he (by simpa using hle)
      simp [hin] at hout

end Cuts

/-! ## The iterator -/

section Iterator

variable {P : Pages} {b : InnerBucket} {t : NodeTree} {fuel : Nat}
  {startBound endBound : Bound Bytes}

theorem caught_ok {σ α : Type} {m : EStateM Fault σ α} {s s' : σ} {a : α} (h : m s = .ok a s') :
    caught m s = .ok (.ok a) s' := by
  rw [caught, h]

theorem onCursor_ok {α : Type} {m : InnerBucket → EStateM Fault Cursor α} {c c' : Cursor} {a : α}
    (h : m b c = .ok a c') : Range.onCursor m (c, b) = .ok a (c', b) := by
  rw [Range.onCursor, h]

theorem step_of_advance (endBound : Bound Bytes) {c c' : Cursor} {r : Option Data}
    (h : Cursor.advance P b fuel c = .ok r c') :
    Range.step P fuel endBound (c, b) =
      .ok ((r.filter fun data => uptoEnd endBound data.key).map .ok) (c', b) := by
  have hadv : caught (Range.onCursor fun b => Cursor.advance P b fuel) (c, b) =
      .ok (.ok r) (c', b) := caught_ok (onCursor_ok h)
  rw [Range.step, estate_bind_ok hadv]
  cases r with
  | none => rfl
  | some data => by_cases hin : uptoEnd endBound data.key = true <;> simp [withinEnd_eq, hin]

theorem next_of_start {c c' : Cursor} {b' : InnerBucket}
    (h : Range.start P fuel startBound (c, b) = .ok () (c', b')) :
    Range.next P fuel startBound endBound (c, b) = Range.step P fuel endBound (c', b') := by
  rw [Range.next, estate_bind_ok (caught_ok h)]

/-- Once `next` was called the start does not matter any more. -/
theorem start_called (st : List SearchPath) (pc : Bool) :
    Range.start P fuel startBound (⟨st, true, pc⟩, b) = .ok () (⟨st, true, pc⟩, b) := by
  simp [Range.start, estate_bind]

theorem ofLeaf_key (e : Leaf) : (Data.ofLeaf e).key = e.key := by
  cases e <;> rfl

/-- From a cursor that is about to answer `r`, a range yields `r` up to its end. -/
theorem range_yields (endBound : Bound Bytes) (hb : Traversable P b t)
    (hfuel : t.subs.length + 2 ≤ fuel) {r : List Leaf} {c₀ c : Cursor} {b₀ : InnerBucket}
    (hstart : Range.start P fuel startBound (c₀, b₀) = .ok () (c, b)) (h : AboutTo P b t fuel c r) :
    ∃ s, Yields (Range.next P fuel startBound endBound) (c₀, b₀)
      ((r.takeWhile fun e => uptoEnd endBound e.key).map fun e => .ok (Data.ofLeaf e)) s := by
  induction r generalizing c₀ b₀ c with
  | nil =>
    obtain ⟨top, -, hadv⟩ := h
    exact ⟨_, .done ((next_of_start hstart).trans (step_of_advance endBound hadv))⟩
  | cons y r ih =>
    obtain ⟨st, l, hst, hadv⟩ := h
    have hnext := (next_of_start hstart).trans (step_of_advance endBound hadv)
    rw [Option.filter_some, ofLeaf_key] at hnext
    by_cases hin : uptoEnd endBound y.key = true
    · rw [if_pos hin] at hnext
      obtain ⟨s, hrest⟩ := ih (start_called st false) (hst.aboutTo_rest hb hfuel false)
      rw [List.takeWhile_cons, if_pos hin]
      exact ⟨s, .more hnext hrest⟩
    · rw [if_neg hin] at hnext
      rw [List.takeWhile_cons, if_neg hin]
      exact ⟨_, .done hnext⟩

/-- An included start: the cursor is about to answer the content from the start on. -/
theorem start_included (hb : Traversable P b t) (hfuel : t.subs.length + 2 ≤ fuel) (s : Bytes) :
    ∃ c b', Traversable P b' t ∧ AboutTo P b' t fuel c (fromKey s t.content) ∧
      Range.start P fuel (.included s) (Cursor.new, b) = .ok () (c, b') := by
  obtain ⟨st, links, hb', hseek, hplace⟩ := seek_stands hb s Cursor.new (by omega : _ ≤ fuel)
  have hstart : Range.start P fuel (.included s) (Cursor.new, b) =
      Range.seekStart P fuel s (Cursor.new, b) := rfl
  rw [hstart, Range.seekStart, estate_bind_ok hseek]
  rcases hplace with hblank | ⟨l, x, r, hst, hs⟩
  · have hnil := hblank.content
    refine ⟨⟨st, false, false⟩, _, hb', ?_, ?_⟩
    · rw [hnil]
      exact hblank.aboutTo hb' false
    · have hcur := current_blank hb' hblank false false
      simp [hnil, entryAt, estate_bind, hcur]
  · obtain ⟨hfound, hfrom, -⟩ := hst.sought hb' hs
    have hcur := current_stands hb' hst false false
    rw [hfrom, hfound]
    by_cases hlt : x.key < s
    · -- the greatest smaller element is skipped
      have hadv := caught_ok (onCursor_ok (m := fun b => Cursor.advance P b fuel)
        (advance_stands hb' hst false fuel))
      rw [if_pos hlt]
      refine ⟨⟨st, true, false⟩, _, hb', hst.aboutTo_rest hb' hfuel false, ?_⟩
      simp [hlt.ne, estate_bind, estate_map, hcur, ofLeaf_key, hlt, hadv]
    · rw [if_neg hlt]
      refine ⟨⟨st, false, false⟩, _, hb', hst.aboutTo hb' false, ?_⟩
      by_cases heq : x.key = s
      · simp [heq]
      · simp [heq, estate_bind, hcur, ofLeaf_key, hlt]

end Iterator

/-- What iterating a range over a committed bucket yields. -/
theorem range_collects {P : Pages} {m : BucketMeta} {t : NodeTree}
    (h : CommittedTree P m.rootPage t) (startBound endBound : Bound Bytes) {fuel : Nat}
    (hfuel : t.subs.length + t.content.length + 2 ≤ fuel) :
    Bucket.range P fuel startBound endBound (InnerBucket.fromMeta m) =
      .ok (((startingAt startBound t.content).takeWhile fun e =>
        uptoEnd endBound e.key).map fun e => .ok (Data.ofLeaf e)) := by
  have hb := h.traversable
  have hstart : ∃ c b, Traversable P b t ∧ AboutTo P b t fuel c (startingAt startBound t.content) ∧
      Range.start P fuel startBound (Cursor.new, InnerBucket.fromMeta m) = .ok () (c, b) := by
    cases startBound with
    | included s => exact start_included hb (by omega) s
    | excluded s => exact ⟨_, _, hb, aboutTo_new hb (by omega), rfl⟩
    | unbounded => exact ⟨_, _, hb, aboutTo_new hb (by omega), rfl⟩
  obtain ⟨c, b, hb', habout, hrun⟩ := hstart
  obtain ⟨s, hyields⟩ := range_yields endBound hb' (by omega) hrun habout
  have hlen : (startingAt startBound t.content).length ≤ t.content.length := by
    cases startBound with
    | included s => exact (List.dropWhile_sublist _).length_le
    | excluded s => exact le_rfl
    | unbounded => exact le_rfl
  have htake := ((startingAt startBound t.content).takeWhile_sublist fun e =>
    uptoEnd endBound e.key).length_le
  rw [Bucket.range, hyields.drain .diverge fuel (by rw [List.length_map]; omega)]

/-- **A raw range is exact if and only if no element at or below an excluded start is before
its end.** -/
theorem range_exact_iff {P : Pages} {m : BucketMeta} {t : NodeTree}
    (h : CommittedTree P m.rootPage t) (startBound endBound : Bound Bytes) :
    ∃ N, ∀ fuel ≥ N, ∃ items,
      Bucket.range P fuel startBound endBound (InnerBucket.fromMeta m) = .ok items ∧
      (items = ((t.content.filter fun e => contains startBound endBound e.key).map fun e =>
          .ok (Data.ofLeaf e)) ↔
        ∀ s, startBound = .excluded s →
          ∀ e ∈ t.content, e.key ≤ s → uptoEnd endBound e.key = false) := by
  refine ⟨t.subs.length + t.content.length + 2, fun fuel hfuel =>
    ⟨_, range_collects h startBound endBound hfuel, ?_⟩⟩
  rw [← startingAt_exact h.separated.content startBound endBound]
  have hok : Function.Injective (Except.ok : Data → Except Error Data) :=
    fun _ _ heq => Except.ok.inj heq
  rw [← hok.list_map.eq_iff, List.map_map, List.map_map]
  rfl

/-- With an included start the range over the two leaves is exact: the first element is before its
start and the last one is at its end. -/
theorem range_exact_included :
    ∃ N, ∀ fuel ≥ N, Bucket.range twoLeafPages fuel (.included [2]) (.excluded [5])
        (InnerBucket.fromMeta ⟨2, 0⟩) =
      .ok [.ok (.keyValue [2] [20])] := by
  obtain ⟨N, h⟩ := range_exact_iff (m := ⟨2, 0⟩) twoLeafTree_committed (.included [2])
    (.excluded [5])
  refine ⟨N, fun fuel hfuel => ?_⟩
  obtain ⟨items, hitems, hiff⟩ := h fuel hfuel
  rw [hitems, hiff.mpr (by simp)]
  rfl

/-- An excluded start is ignored: the key `[1]` and all after it are yielded. -/
theorem range_ignores_excluded_start :
    Bucket.range twoLeafPages 12 (.excluded [1]) .unbounded (InnerBucket.fromMeta ⟨2, 0⟩) =
        .ok [.ok (.keyValue [1] [10]), .ok (.keyValue [2] [20]), .ok (.keyValue [5] [50])] ∧
      contains (.excluded [1]) .unbounded [1] = false := by
  exact ⟨by rfl, by decide⟩

end Tagdata.Analysis
