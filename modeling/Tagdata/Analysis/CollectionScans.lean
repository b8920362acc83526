import Tagdata.Analysis.Refinement
import Tagdata.Analysis.Positions
import Tagdata.Analysis.Ranges
import Tagdata.Analysis.Scans
import Tagdata.Analysis.TtlIndexes
import Tagdata.Model.CollectionIter

/-!
# Scans of a committed collection

An iterator of a collection looks at what its cursor yields: it skips nested buckets and
expired records, and it stops at the first record that lacks the prefix or is beyond the
bound.  So what it yields is a function of the entries its cursor is about to yield, and the
scans differ only in where they put the cursor.
-/

set_option autoImplicit false

namespace Tagdata.Analysis

open Tagdata.Library Tagdata.Library.SearchTree Tagdata.Model Tagdata.Interface

/-- The records in a list of entries. -/
def records (l : List Leaf) : List (Bytes × Bytes) := l.filterMap Leaf.kvPair

theorem pairsOf_content (l : List Leaf) : pairsOf (l.map Data.ofLeaf) = records l := by
  rw [pairsOf, List.filterMap_map, records]
  congr 1
  funext e
  cases e <;> rfl

/-- What an iterator makes of the entries that its cursor yields. -/
def produced {K V : Type} (codec : Codec K V) (stops live : Bytes → Bool) (l : List Leaf) :
    List (Item K V) :=
  (((records l).takeWhile fun r => !stops r.1).filter fun r => live r.1).map fun r =>
    codec.decode r.1 r.2

/-- What the lookup bucket that an iterator holds says about the keys. -/
def Knows (P : Pages) (fuel : Nat) (now : SystemTime) (live : Bytes → Bool) :
    Option InnerBucket → Prop
  | none => ∀ k, live k = true
  | some e => ∀ k, e.keyIsLive P fuel k now = .ok (live k)

/-- What it says about some of the keys. -/
def KnowsOf (P : Pages) (fuel : Nat) (now : SystemTime) (live : Bytes → Bool)
    (keys : Bytes → Prop) : Option InnerBucket → Prop
  | none => ∀ k, keys k → live k = true
  | some e => ∀ k, keys k → e.keyIsLive P fuel k now = .ok (live k)

theorem Knows.knowsOf {P : Pages} {fuel : Nat} {now : SystemTime} {live : Bytes → Bool}
    {e : Option InnerBucket} (h : Knows P fuel now live e) (keys : Bytes → Prop) :
    KnowsOf P fuel now live keys e := by
  cases e with
  | none => exact fun k _ => h k
  | some e => exact fun k _ => h k

/-- The iterator with its cursor elsewhere. -/
def atCursor (it : CollectionIter) (c : Cursor) : CollectionIter := { it with cursor := c }

/-! ## The loop of `next` -/

section Loop

variable {K V : Type} {codec : Codec K V} {stops live : Bytes → Bool}

@[simp] theorem produced_nil : produced codec stops live [] = [] := rfl

@[simp] theorem produced_bucket (name : Bytes) (m : BucketMeta) (l : List Leaf) :
    produced codec stops live (.bucket name m :: l) = produced codec stops live l := rfl

theorem produced_kv (k v : Bytes) (l : List Leaf) :
    produced codec stops live (.kv k v :: l) =
      if stops k then []
      else if live k then codec.decode k v :: produced codec stops live l
      else produced codec stops live l := by
  have hcons : records (.kv k v :: l) = (k, v) :: records l := rfl
  simp only [produced, hcons, List.takeWhile_cons]
  cases hs : stops k <;> cases hl : live k <;> simp [hl]

variable {P : Pages} {fuel : Nat} {b : InnerBucket} {now : SystemTime} {it : CollectionIter}
  {e : Option InnerBucket} {keys : Bytes → Prop}

theorem live_known (hexp : it.expirations = .ok e) (hknows : KnowsOf P fuel now live keys e)
    (c : Cursor) {k : Bytes} (hk : keys k) :
    CollectionIter.live P fuel now k (atCursor it c) = .ok (.ok (live k)) (atCursor it c) := by
  have hexp' : (atCursor it c).expirations = .ok e := hexp
  cases e with
  | none => simp [CollectionIter.live, estate_bind, hexp', hknows k hk]
  | some e => simp [CollectionIter.live, estate_bind, hexp', caught, hknows k hk]

theorem produce_unlimited (hrem : it.remaining = none) (c : Cursor) (k v : Bytes) :
    CollectionIter.produce codec k v (atCursor it c) =
      .ok (codec.decode k v) (atCursor it c) := by
  have hself : { atCursor it c with remaining := none } = atCursor it c := by
    rw [← hrem]
    rfl
  have hrem' : (atCursor it c).remaining = none := hrem
  simp [CollectionIter.produce, estate_bind, estate_map, hrem', hself]

/-- The cursor steps of an iterator. -/
def moves (P : Pages) (fuel : Nat) (b : InnerBucket) (reverse : Bool) :
    EStateM Fault Cursor (Option Data) :=
  if reverse then Cursor.previous P b fuel else Cursor.advance P b fuel

theorem step_moves {c c' : Cursor} {r : Option Data}
    (h : moves P fuel b it.reverse c = .ok r c') :
    caught (CollectionIter.step P fuel b) (atCursor it c) = .ok (.ok r) (atCursor it c') := by
  have hstep : CollectionIter.step P fuel b (atCursor it c) = .ok r (atCursor it c') := by
    have hmove : (if (atCursor it c).reverse then Cursor.previous P b fuel
        else Cursor.advance P b fuel) (atCursor it c).cursor = .ok r c' := h
    rw [CollectionIter.step, hmove]
    rfl
  exact caught_ok hstep

/-- What the loop of `next` answers when its cursor is about to yield `l`: the next item, or
the end when nothing more is produced. -/
def Answered (P : Pages) (fuel : Nat) (b : InnerBucket) (codec : Codec K V) (now : SystemTime)
    (live : Bytes → Bool) (it : CollectionIter) (c' : Cursor) (n : Nat) (c : Cursor)
    (l : List Leaf) : Prop :=
  (produced codec it.stops live l = [] ∧
    ∃ c'', CollectionIter.loop P fuel b codec now n (atCursor it c) = .ok none (atCursor it c'') ∧
      ((∀ k, it.stops k = false) → c'' = c')) ∨
  ∃ item c₁ l', CollectionIter.loop P fuel b codec now n (atCursor it c) =
      .ok (some item) (atCursor it c₁) ∧
    produced codec it.stops live l = item :: produced codec it.stops live l' ∧
    Yields (moves P fuel b it.reverse) c₁ (l'.map Data.ofLeaf) c' ∧ l'.length < l.length ∧ l' ⊆ l

/-- A round that skips an element goes on with the rest. -/
theorem Answered.skip {c c' c₁ : Cursor} {n : Nat} {x : Leaf} {l : List Leaf}
    (h : Answered P fuel b codec now live it c' n c₁ l)
    (hprod : produced codec it.stops live (x :: l) = produced codec it.stops live l)
    (hrun : CollectionIter.loop P fuel b codec now (n + 1) (atCursor it c) =
      CollectionIter.loop P fuel b codec now n (atCursor it c₁)) :
    Answered P fuel b codec now live it c' (n + 1) c (x :: l) := by
  rcases h with ⟨hnil, c'', hend, hsame⟩ | ⟨item, c₂, l', hitem, hcons, hrest, hlt, hsub⟩
  · exact .inl ⟨hprod.trans hnil, c'', hrun.trans hend, hsame⟩
  · refine .inr ⟨item, c₂, l', hrun.trans hitem, hprod.trans hcons, hrest, ?_, ?_⟩
    · rw [List.length_cons]
      omega
    · exact fun y hy => List.mem_cons_of_mem x (hsub hy)

theorem loop_answers (hrem : it.remaining = none) (hexp : it.expirations = .ok e)
    (hknows : KnowsOf P fuel now live keys e) {c c' : Cursor} {l : List Leaf}
    (hkeys : ∀ k v, Leaf.kv k v ∈ l → keys k)
    (hmoves : Yields (moves P fuel b it.reverse) c (l.map Data.ofLeaf) c') :
    ∀ n, l.length < n → Answered P fuel b codec now live it c' n c l := by
  induction l generalizing c with
  | nil =>
    intro n hn
    obtain ⟨n, rfl⟩ : ∃ m, n = m + 1 := ⟨n - 1, by omega⟩
    cases hmoves with
    | done stop =>
      refine .inl ⟨rfl, c', ?_, fun _ => rfl⟩
      rw [CollectionIter.loop, estate_bind_ok (step_moves stop)]
      rfl
  | cons x l ih =>
    intro n hn
    rw [List.length_cons] at hn
    obtain ⟨n, rfl⟩ : ∃ m, n = m + 1 := ⟨n - 1, by omega⟩
    rw [List.map_cons] at hmoves
    cases hmoves with
    | @more _ c₁ _ _ _ move rest =>
      have hround : CollectionIter.loop P fuel b codec now (n + 1) (atCursor it c) = _ :=
        estate_bind_ok (step_moves move)
      have hrest := ih (fun k v hk => hkeys k v (List.mem_cons_of_mem x hk)) rest n (by omega)
      cases x with
      | bucket name m => exact hrest.skip rfl hround
      | kv k v =>
        have hlive := live_known hexp hknows c₁ (hkeys k v List.mem_cons_self)
        cases hs : it.stops k with
        | true =>
          refine .inl ⟨by rw [produced_kv, hs]; rfl, c₁, hround.trans ?_, fun h => ?_⟩
          · have hs' : (atCursor it c₁).stops k = true := hs
            simp [estate_bind, Data.ofLeaf, hs']
          · simp [h k] at hs
        | false =>
          have hs' : (atCursor it c₁).stops k = false := hs
          cases hl : live k with
          | false =>
            rw [hl] at hlive
            refine hrest.skip (by rw [produced_kv, hs, hl]; rfl) (hround.trans ?_)
            simp [estate_bind, Data.ofLeaf, hs', hlive]
          | true =>
            rw [hl] at hlive
            have hproduce : CollectionIter.produce codec k v (atCursor it c₁) = _ :=
              produce_unlimited hrem c₁ k v
            refine .inr ⟨codec.decode k v, c₁, l, hround.trans ?_, ?_, rest, by simp, by simp⟩
            · simp [estate_bind, estate_map, Data.ofLeaf, hs', hlive, hproduce]
            · rw [produced_kv, hs, hl]
              rfl

theorem next_loop (hrem : it.remaining = none) (c : Cursor) :
    CollectionIter.next P fuel b codec now (atCursor it c) =
      CollectionIter.loop P fuel b codec now fuel (atCursor it c) := by
  have hrem' : (atCursor it c).remaining = none := hrem
  simp [CollectionIter.next, estate_bind, hrem']

/-- What an iterator yields until its first `None`; where it has no bound its cursor is then
at the end. -/
theorem next_yields (codec : Codec K V) (it : CollectionIter) (hrem : it.remaining = none)
    (hexp : it.expirations = .ok e) (hknows : KnowsOf P fuel now live keys e) {c c' : Cursor}
    {l : List Leaf} (hkeys : ∀ k v, Leaf.kv k v ∈ l → keys k)
    (hmoves : Yields (moves P fuel b it.reverse) c (l.map Data.ofLeaf) c')
    (hfuel : l.length < fuel) :
    ∃ c'', Yields (CollectionIter.next P fuel b codec now) (atCursor it c)
      (produced codec it.stops live l) (atCursor it c'') ∧
      ((∀ k, it.stops k = false) → c'' = c') := by
  induction hlen : l.length using Nat.strongRecOn generalizing c l with
  | ind n ih =>
    have hnext : CollectionIter.next P fuel b codec now (atCursor it c) = _ := next_loop hrem c
    have hans : Answered P fuel b codec now live it c' fuel c l :=
      loop_answers hrem hexp hknows hkeys hmoves fuel hfuel
    rcases hans with
      ⟨hnil, c'', hend, hsame⟩ | ⟨item, c₁, l', hitem, hcons, hrest, hlt, hsub⟩
    · rw [hnil]
      exact ⟨c'', .done (hnext.trans hend), hsame⟩
    · obtain ⟨c'', hyields, hsame⟩ := ih l'.length (by omega)
        (fun k v hk => hkeys k v (hsub hk)) hrest (by omega) rfl
      rw [hcons]
      exact ⟨c'', .more (hnext.trans hitem) hyields, hsame⟩

end Loop

/-! ## The lookup bucket -/

/-- The lookup bucket of a collection, if there is one, holds these deadlines. -/
def LookedUp (m : Expirations) (d : Dir) : Prop :=
  (d.entries ttlBucket = none ∧ ∀ k, m k = none) ∨
  ∃ L : Dir, d.entries ttlBucket = some (.bucket L) ∧ (∀ k t, m k = some t → t < 2 ^ 64) ∧
    L.entries = lookupEntries m

/-- Whether a record has not expired. -/
def liveAt (m : Expirations) (millis : Nat) (k : Bytes) : Bool :=
  match m k with
  | none => true
  | some t => millis < t

/-- Whether the record of a key has not expired by a lookup bucket. -/
def entryLive (L : Dir) (now : SystemTime) (k : Bytes) : Except Error Bool :=
  match L.entries k with
  | some (.value bytes) => do
      let deadline ← decodeExpiration bytes
      let now ← epochMillis now
      return now < deadline
  | _ => .ok true

/-- Whether the record of a key has not expired, as the reads of a collection find out. -/
def liveness (d : Dir) (now : SystemTime) (k : Bytes) : Except Error Bool :=
  match d.entries ttlBucket with
  | none => .ok true
  | some (.value _) => .error .incompatibleValue
  | some (.bucket L) => entryLive L now k

/-- The expiration of a key can be read. -/
def Legible (d : Dir) (now : SystemTime) (k : Bytes) : Prop := ∃ a, liveness d now k = .ok a

/-- The record of a key can be read and has not expired. -/
def isLive (d : Dir) (now : SystemTime) (k : Bytes) : Bool :=
  match liveness d now k with
  | .ok a => a
  | .error _ => false

theorem LookedUp.liveness {m : Expirations} {d : Dir} (h : LookedUp m d) {now : SystemTime}
    {millis : Nat} (hnow : epochMillis now = .ok millis) (k : Bytes) :
    liveness d now k = .ok (liveAt m millis k) := by
  obtain ⟨hnone, hm⟩ | ⟨L, hL, hbounded, hentries⟩ := h
  · simp [Analysis.liveness, hnone, liveAt, hm k]
  · cases hk : m k with
    | none => simp [Analysis.liveness, hL, entryLive, hentries, lookupEntries, liveAt, hk]
    | some t =>
      have hdecode : decodeExpiration (beBytes 8 t) = .ok t :=
        decodeExpiration_eight (hbounded k t hk)
      simp [Analysis.liveness, hL, entryLive, hentries, lookupEntries, liveAt, hk, hdecode, hnow]

theorem LookedUp.not_value {m : Expirations} {d : Dir} (h : LookedUp m d) (v : Bytes) :
    d.entries ttlBucket ≠ some (.value v) := by
  intro hv
  obtain ⟨hnone, -⟩ | ⟨L, hL, -⟩ := h
  · rw [hnone] at hv; cases hv
  · rw [hL] at hv; cases hv

theorem isLive_eq {d : Dir} {now : SystemTime} {k : Bytes} {a : Bool}
    (h : liveness d now k = .ok a) : isLive d now k = a := by
  rw [isLive, h]

section Opening

variable {P : Pages} {origin : Option Nest} {D T : Nest} {b : InnerBucket} {N fuel millis : Nat}
  {now : SystemTime} {m : Expirations}

/-- A bucket that was only read walks over its committed tree. -/
theorem Overlay.traversable (h : Overlay P (some D) b D) : Traversable P b D.tree := by
  have hopened := h.opened
  have halive := h.alive
  cases h with
  | mk opened alive counter clean source =>
    obtain ⟨hdisk, -⟩ := source
    cases hdisk with
    | mk tree => exact ⟨hopened.readable, halive, hopened.root, tree.indexed, tree.chunk_ne_nil⟩

/-- `key_is_live` reads the deadlines. -/
theorem keyIsLive_reads (h : Overlay P origin b T)
    (hN : Within N origin) (hfuel : N ≤ fuel) (now : SystemTime) (k : Bytes) :
    b.keyIsLive P fuel k now = (entryLive T.dir now k).mapError .error := by
  have hget := get_readable (k := k) h.opened.readable h.opened.root (h.searchable hN hfuel)
  rcases h.entry_cases k with ⟨hcur, hd⟩ | ⟨v, hcur, hd⟩ | ⟨m', S, hcur, -, hd, -⟩
  · simp [InnerBucket.keyIsLive, h.alive, hget, hcur, entryLive, hd, Except.mapError]
  · cases hdecode : decodeExpiration v with
    | error e =>
      simp [InnerBucket.keyIsLive, h.alive, hget, hcur, Leaf.kvPair, entryLive, hd, hdecode,
        Except.mapError]
    | ok t =>
      cases hnow : epochMillis now <;>
        simp [InnerBucket.keyIsLive, h.alive, hget, hcur, Leaf.kvPair, entryLive, hd, hdecode,
          hnow, Except.mapError]
  · simp [InnerBucket.keyIsLive, h.alive, hget, hcur, Leaf.kvPair, entryLive, hd, Except.mapError]

/-- `expiration_bucket` on a collection that has no record under the name of the lookup bucket. -/
theorem expirationBucket_opens (h : Overlay P origin b T) (hN : Within N origin)
    (hfuel : N ≤ fuel) (hkind : ∀ v, T.dir.entries ttlBucket ≠ some (.value v))
    (now : SystemTime) (fl : TxFreelist) :
    ∃ e b', Collection.expirationBucket P fuel (b, fl) = .ok (.ok e) (b', fl) ∧
      KnowsOf P fuel now (isLive T.dir now) (Legible T.dir now) e ∧ Overlay P origin b' T ∧
      ∀ id, b'.pageNode P id = b.pageNode P id := by
  rcases h.entry_cases ttlBucket with ⟨hcur, hd⟩ | ⟨v, -, hd⟩ | ⟨m', S, hcur, -, hd, -, hchild⟩
  · -- there is no lookup bucket
    obtain ⟨hlookup, -⟩ := h.lookup_none (k := ttlBucket)
      fun m' hm' => by rw [hcur] at hm'; cases hm'
    obtain ⟨links, hget⟩ :=
      bucketGetter_missing h.opened (h.searchable hN hfuel) false hlookup hcur
    refine ⟨none, withParents b links, ?_, fun k _ => by simp [isLive, liveness, hd],
      h.withParents links, pageNode_withParents b links⟩
    simp [Collection.expirationBucket, Bucket.getBucket, Bucket.alive, InnerBucket.getBucket,
      caught, estate_bind, estate_map, h.alive, onBucket, hget]
  · exact absurd hd (hkind v)
  · -- the lookup bucket is opened
    obtain ⟨b', hget, hlookup, hover⟩ := h.opens hN hfuel false hcur fl
    have hsame : ∀ id, b'.pageNode P id = b.pageNode P id := by
      obtain ⟨links, hnamed⟩ := bucketGetter_named h.opened (h.searchable hN hfuel) false hcur
      rw [onBucket, hnamed] at hget
      obtain ⟨-, hstate⟩ := EStateM.Result.ok.inj hget
      obtain ⟨rfl, -⟩ := Prod.mk.inj hstate
      intro id
      cases id <;> rfl
    refine ⟨some (childOf b ttlBucket m'), b', ?_, ?_, hover, hsame⟩
    · simp [Collection.expirationBucket, Bucket.getBucket, Bucket.alive, InnerBucket.getBucket,
        caught, estate_bind, estate_map, h.alive, hget, hlookup]
    · rintro k ⟨a, ha⟩
      have hentry : entryLive S.dir now k = .ok a := by
        rw [← ha, liveness, hd]
      rw [keyIsLive_reads hchild (hN.child ttlBucket m') hfuel now k, hentry, isLive_eq ha]
      rfl

/-- `expiration_bucket` on a collection that was only read. -/
theorem expirationBucket_reads (h : Overlay P (some D) b D) (hN : Within N (some D))
    (hfuel : N ≤ fuel) (hlook : LookedUp m D.dir) (hnow : epochMillis now = .ok millis)
    (fl : TxFreelist) :
    ∃ e b', Collection.expirationBucket P fuel (b, fl) = .ok (.ok e) (b', fl) ∧
      Knows P fuel now (liveAt m millis) e ∧ Overlay P (some D) b' D ∧
      ∀ id, b'.pageNode P id = b.pageNode P id := by
  obtain ⟨e, b', hopen, hknows, hover, hsame⟩ :=
    expirationBucket_opens h hN hfuel hlook.not_value now fl
  have hlive : ∀ k, liveness D.dir now k = .ok (liveAt m millis k) := hlook.liveness hnow
  refine ⟨e, b', hopen, ?_, hover, hsame⟩
  cases e with
  | none => exact fun k => isLive_eq (hlive k) ▸ hknows k ⟨_, hlive k⟩
  | some e => exact fun k => isLive_eq (hlive k) ▸ hknows k ⟨_, hlive k⟩

end Opening

/-! ## Placing the cursor -/

section Placing

variable {P : Pages} {D : Nest} {b : InnerBucket} {N fuel millis : Nat} {now : SystemTime}
  {m : Expirations}

/-- `seek` on a fresh cursor of a collection. -/
theorem seekCursor_reads (h : Overlay P (some D) b D) (hN : Within N (some D)) (hfuel : N ≤ fuel)
    (k : Bytes) (fl : TxFreelist) :
    ∃ st links, Collection.seekCursor P fuel k (b, fl) =
        .ok ((entryAt k D.tree.content).isSome, ⟨st, false, false⟩) (withParents b links, fl) ∧
      (Blank P (withParents b links) D.tree st ∨
        ∃ l x r, Stands P (withParents b links) D.tree st l x r ∧ Sought k l x r) := by
  obtain ⟨st, links, -, hseek, hplace⟩ :=
    seek_stands h.traversable k Cursor.new (h.searchable hN hfuel)
  refine ⟨st, links, ?_, hplace⟩
  simp [Collection.seekCursor, estate_bind, estate_map, hseek]

/-- `iter_from_encoded` puts the cursor before the entries from the key on, or after it. -/
theorem cursorFrom_reads (h : Overlay P (some D) b D) (hN : Within N (some D)) (hfuel : N ≤ fuel)
    (k : Bytes) (exclusive : Bool) (fl : TxFreelist) :
    ∃ c links, Collection.cursorFrom P fuel k exclusive (b, fl) = .ok c (withParents b links, fl) ∧
      Ahead P (withParents b links) D.tree c
        (if exclusive then afterKey k D.tree.content else fromKey k D.tree.content) := by
  obtain ⟨st, links, hseek, hplace⟩ := seekCursor_reads h hN hfuel k fl
  have hb := (h.withParents links).traversable
  rw [Collection.cursorFrom, estate_bind_ok hseek]
  rcases hplace with hblank | ⟨l, x, r, hst, hs⟩
  · have hnil := hblank.content
    have hcur := current_blank hb hblank false false
    refine ⟨⟨st, false, false⟩, links, ?_, ?_⟩
    · simp [hnil, entryAt, estate_bind, Collection.skipCurrent, hcur]
    · rw [hnil]
      simpa [afterKey, fromKey] using Ahead.blank false hblank
  · obtain ⟨hfound, hfrom, hafter⟩ := hst.sought hb hs
    have hcur := current_stands hb hst false false
    have hadv := advance_stands hb hst false fuel
    rw [hfound, hfrom, hafter]
    by_cases hlt : x.key < k
    · -- the greatest smaller entry is skipped
      refine ⟨⟨st, true, false⟩, links, ?_, ?_⟩
      · simp [hlt.ne, estate_bind, Collection.skipCurrent, hcur, ofLeaf_key, hlt, hadv]
      · rw [if_pos hlt, if_pos hlt.le, ite_self]
        exact .answered false hst
    · by_cases heq : x.key = k
      · -- the key itself is skipped when the start is exclusive
        rw [if_neg hlt, if_pos heq.le]
        cases exclusive with
        | true =>
          refine ⟨⟨st, true, false⟩, links, ?_, .answered false hst⟩
          simp [heq, estate_bind, Collection.skipCurrent, hadv]
        | false =>
          refine ⟨⟨st, false, false⟩, links, ?_, .moved false hst⟩
          simp [heq, estate_bind, Collection.skipCurrent]
      · have hgt : k < x.key := lt_of_le_of_ne (not_lt.mp hlt) (Ne.symm heq)
        refine ⟨⟨st, false, false⟩, links, ?_, ?_⟩
        · simp [heq, estate_bind, Collection.skipCurrent, hcur, ofLeaf_key, hlt]
        · rw [if_neg hlt, if_neg hgt.not_ge, ite_self]
          exact .moved false hst

theorem iterWith_reads (h : Overlay P (some D) b D) (hN : Within N (some D)) (hfuel : N ≤ fuel)
    (hlook : LookedUp m D.dir) (hnow : epochMillis now = .ok millis) (c : Cursor)
    (fl : TxFreelist) :
    ∃ e b', Collection.iterWith P fuel c (b, fl) =
        .ok ⟨c, .ok e, none, none, none, none, false⟩ (b', fl) ∧
      Knows P fuel now (liveAt m millis) e ∧ Overlay P (some D) b' D ∧
      ∀ id, b'.pageNode P id = b.pageNode P id := by
  obtain ⟨e, b', hopen, hknows, hover, hsame⟩ := expirationBucket_reads h hN hfuel hlook hnow fl
  refine ⟨e, b', ?_, hknows, hover, hsame⟩
  simp [Collection.iterWith, estate_map, hopen]

end Placing

/-! ## Whole scans -/

section Scans

variable {K V : Type} {codec : Codec K V} {P : Pages} {b : InnerBucket} {t : NodeTree}
  {fuel : Nat} {now : SystemTime} {live : Bytes → Bool} {it : CollectionIter}
  {e : Option InnerBucket} {l : List Leaf} {keys : Bytes → Prop}

theorem length_produced_le (stops : Bytes → Bool) (l : List Leaf) :
    (produced codec stops live l).length ≤ l.length := by
  rw [produced, List.length_map]
  have hfilter := ((records l).takeWhile fun r => !stops r.1).length_filter_le fun r => live r.1
  have htake := ((records l).takeWhile_sublist fun r => !stops r.1).length_le
  have hrecords := l.length_filterMap_le Leaf.kvPair
  rw [records] at hfilter htake ⊢
  omega

theorem atCursor_self (it : CollectionIter) : atCursor it it.cursor = it := rfl

theorem yields_of_moves (codec : Codec K V) (hrem : it.remaining = none)
    (hexp : it.expirations = .ok e) (hknows : KnowsOf P fuel now live keys e)
    (hkeys : ∀ k v, Leaf.kv k v ∈ l → keys k) {c' : Cursor}
    (hmoves : Yields (moves P fuel b it.reverse) it.cursor (l.map Data.ofLeaf) c')
    (hfuel : l.length < fuel) :
    ∃ it', Yields (CollectionIter.next P fuel b codec now) it (produced codec it.stops live l)
      it' := by
  obtain ⟨c'', hyields, -⟩ := next_yields codec it hrem hexp hknows hkeys hmoves hfuel
  rw [atCursor_self] at hyields
  exact ⟨_, hyields⟩

theorem collect_of_yields (hfuel : l.length < fuel) {it' : CollectionIter}
    (hyields : Yields (CollectionIter.next P fuel b codec now) it (produced codec it.stops live l)
      it') : it.collect P fuel b codec now = .ok (produced codec it.stops live l) := by
  have hlen : (produced codec it.stops live l).length ≤ l.length := length_produced_le it.stops l
  rw [CollectionIter.collect, hyields.drain .diverge fuel (by omega)]

/-- What a forward iterator yields. -/
theorem yields_ahead (codec : Codec K V) (it : CollectionIter) (hb : Traversable P b t)
    (hfuel : t.subs.length + t.content.length + 2 ≤ fuel) (hrem : it.remaining = none)
    (hexp : it.expirations = .ok e) (hknows : KnowsOf P fuel now live keys e)
    (hkeys : ∀ k v, Leaf.kv k v ∈ l → keys k) (hreverse : it.reverse = false)
    (h : Ahead P b t it.cursor l) :
    ∃ it', Yields (CollectionIter.next P fuel b codec now) it (produced codec it.stops live l)
      it' := by
  have hl := h.length_le
  obtain ⟨top, -, hyields⟩ := (h.aboutTo hb (by omega : _ ≤ fuel)).yields hb (by omega)
  have hmoves : Yields (moves P fuel b it.reverse) it.cursor (l.map Data.ofLeaf)
      ⟨top, true, false⟩ := by
    rw [hreverse]
    exact hyields
  exact yields_of_moves codec hrem hexp hknows hkeys hmoves (by omega)

/-- A forward iterator. -/
theorem collect_ahead (hb : Traversable P b t) (hfuel : t.subs.length + t.content.length + 2 ≤ fuel)
    (hrem : it.remaining = none) (hexp : it.expirations = .ok e)
    (hknows : KnowsOf P fuel now live keys e)
    (hkeys : ∀ k v, Leaf.kv k v ∈ l → keys k) (hreverse : it.reverse = false)
    (h : Ahead P b t it.cursor l) :
    it.collect P fuel b codec now = .ok (produced codec it.stops live l) := by
  have hl := h.length_le
  obtain ⟨it', hyields⟩ := yields_ahead codec it hb hfuel hrem hexp hknows hkeys hreverse h
  exact collect_of_yields (by omega) hyields

/-- A backward iterator. -/
theorem collect_behind (hb : Traversable P b t)
    (hfuel : t.subs.length + t.content.length + 2 ≤ fuel) (hrem : it.remaining = none)
    (hexp : it.expirations = .ok e) (hknows : KnowsOf P fuel now live keys e)
    (hkeys : ∀ k v, Leaf.kv k v ∈ l → keys k) (hreverse : it.reverse = true)
    (h : Behind P b t it.cursor l) :
    it.collect P fuel b codec now = .ok (produced codec it.stops live l) := by
  have hl := h.length_le
  obtain ⟨c', hyields⟩ := h.yields hb (by omega : _ ≤ fuel)
  have hmoves : Yields (moves P fuel b it.reverse) it.cursor (l.map Data.ofLeaf) c' := by
    rw [hreverse]
    exact hyields
  obtain ⟨it', hyields⟩ := yields_of_moves codec hrem hexp hknows hkeys hmoves (by omega)
  exact collect_of_yields (by omega) hyields

end Scans

/-! ## A collection with an expiration -/

/-- The entries of a bucket whose records all have one value. -/
theorem dir_leaf_records (i : Info) (n : Nat) (names : List Bytes) (v : Bytes) :
    (⟨leaf i (names.map fun k => .kv k v), n, []⟩ : Nest).dir.entries =
      fun x => if x ∈ names then some (.value v) else none := by
  funext x
  rw [Nest.dir_entries]
  simp only [Nest.tree, Nest.subs, content_leaf]
  by_cases hx : x ∈ names
  · have hentry : entryAt x (names.map fun k => .kv k v) = some (.kv x v) := by
      induction names with
      | nil => cases hx
      | cons k names ih =>
        by_cases hk : k = x
        · simp [entryAt, Leaf.key, hk]
        · have hrest := ih ((List.mem_cons.mp hx).resolve_left fun h => hk h.symm)
          simpa [entryAt, Leaf.key, hk] using hrest
    rw [hentry, if_pos hx]
    rfl
  · rw [if_neg hx, entryAt_of_ne fun a ha => ?_]
    · rfl
    · obtain ⟨k, hk, rfl⟩ := List.mem_map.mp ha
      exact fun h => hx (h ▸ hk)

/-- A collection at page 2 whose lookup bucket is at page 3. -/
def timedPages : Pages where
  validate
    | 2 => .ok ⟨2, 0, .leaf [.bucket ttlBucket ⟨3, 1⟩, .kv [1] [10], .kv [5] [50], .kv [6] [60]]⟩
    | 3 => .ok ⟨3, 0, .leaf [.kv [5] (beBytes 8 100)]⟩
    | _ => .error "page is out of range"
  pagesize := 1024

/-- The nest of that file. -/
def timedNest : Nest :=
  ⟨leaf ⟨2, 1, none⟩ [.bucket ttlBucket ⟨3, 1⟩, .kv [1] [10], .kv [5] [50], .kv [6] [60]], 4,
    [(ttlBucket, ⟨leaf ⟨3, 1, none⟩ [.kv [5] (beBytes 8 100)], 1, []⟩)]⟩

/-- The freelist of a transaction on that file. -/
def timedFreelist : TxFreelist :=
  .new ⟨0, magicValue, formatVersion, 1024, ⟨2, 4⟩, 5, 4, 2, 0⟩ .new

/-- The record `[5]` expires at 100. -/
def timedExpirations : Expirations := fun k => if k = [5] then some 100 else none

theorem timed_committed : Committed timedPages ⟨2, 4⟩ timedNest :=
  committed_of_check (by decide +kernel) (by decide +kernel) rfl rfl

theorem timed_lookedUp : LookedUp timedExpirations timedNest.dir := by
  refine .inr ⟨Nest.dir ⟨leaf ⟨3, 1, none⟩ [.kv [5] (beBytes 8 100)], 1, []⟩, ?_, ?_, ?_⟩
  · rw [Nest.dir_entries]
    rfl
  · intro k t hk
    unfold timedExpirations at hk
    split at hk
    · rw [← Option.some.inj hk]
      omega
    · cases hk
  · funext k
    refine (congrFun (dir_leaf_records ⟨3, 1, none⟩ 1 [[5]] (beBytes 8 100)) k).trans ?_
    by_cases hk : k = [5] <;> simp [lookupEntries, timedExpirations, hk]

end Tagdata.Analysis
