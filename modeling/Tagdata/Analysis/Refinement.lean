import Tagdata.Analysis.NestCheck
import Tagdata.Analysis.OverlayOps

/-!
# The operations of a write transaction refine those of a nested map

Every operation of a bucket, at every path and in every state a write transaction can reach,
answers what the nested map answers and leaves an overlay of the changed map.
-/

set_option autoImplicit false

namespace Tagdata.Analysis

open Tagdata.Library Tagdata.Library.SearchTree Tagdata.Model Tagdata.Interface

/-! ## Every operation at every path -/

/-- The answer of an operation and the state it leaves; a panic has no answer. -/
def settle {α : Type} :
    EStateM.Result Fault BucketTx α → Except Fault (Except Error α × BucketTx)
  | .ok a s => .ok (.ok a, s)
  | .error (.error e) s => .ok (.error e, s)
  | .error fault _ => .error fault

/-- The path of the bucket an operation deletes. -/
def removedBy : Op → Dir → Option (List Bytes)
  | .deleteBucket k, d =>
      match d.entries k with
      | some (.bucket _) => some [k]
      | _ => none
  | _, _ => none

/-- The same for an operation at a path. -/
def removedAt (op : Op) : List Bytes → Dir → Option (List Bytes)
  | [], d => removedBy op d
  | name :: path, d =>
      match d.entries name with
      | some (.bucket c) => (removedAt op path c).map (name :: ·)
      | _ => none

/-- A result answers as the nested map does and leaves an overlay of the changed map. -/
def Answers (P : Pages) (origin : Option Nest) (T : Nest) (fl : TxFreelist)
    (r : EStateM.Result Fault BucketTx Output) (want : Except Error Output × Dir)
    (gone : Option (List Bytes)) : Prop :=
  ∃ s, settle r = .ok (want.1, s) ∧ Becomes P origin T fl s want.2 gone

section Steps

variable {P : Pages} {origin : Option Nest} {b : InnerBucket} {T : Nest} (fl : TxFreelist)
  {N fuel : Nat}

theorem Overlay.run_put (h : Overlay P origin b T) (hN : Within N origin) (hfuel : N ≤ fuel)
    (k v : Bytes)
    (hroom : ¬ Dir.Overflows (.put k v) T.dir) :
    Answers P origin T fl (Bucket.put P fuel k v (b, fl)) (Dir.run (.put k v) T.dir) none := by
  rcases hd : T.dir.entries k with - | w | c
  · have hlt := Dir.room_of_counts hroom (by simp [Dir.run, hd, Dir.insert])
    obtain ⟨s, hput, hs⟩ := h.put_done fl hN hfuel v (k := k) (by simp [hd]) fun _ => hlt
    refine ⟨s, ?_, by simpa [Dir.run, hd] using hs⟩
    simp [Bucket.put, Bucket.alive, estate_bind, estate_map, h.alive, hput, settle, Dir.run, hd]
  · obtain ⟨s, hput, hs⟩ := h.put_done fl hN hfuel v (k := k) (by simp [hd]) (by simp [hd])
    refine ⟨s, ?_, by simpa [Dir.run, hd] using hs⟩
    simp [Bucket.put, Bucket.alive, estate_bind, estate_map, h.alive, hput, settle, Dir.run, hd,
      Dir.pairOf]
  · obtain ⟨s, hput, hs⟩ := h.put_refused fl hN hfuel v hd
    refine ⟨s, ?_, by simpa [Dir.run, hd] using hs⟩
    simp [Bucket.put, Bucket.alive, estate_bind, estate_map, h.alive, hput, settle, Dir.run, hd]

theorem Overlay.run_delete (h : Overlay P origin b T) (hN : Within N origin) (hfuel : N ≤ fuel)
    (k : Bytes) :
    Answers P origin T fl (Bucket.delete P fuel k (b, fl)) (Dir.run (.delete k) T.dir) none := by
  rcases hd : T.dir.entries k with - | w | c
  · obtain ⟨s, hdel, hs⟩ := h.delete_refused fl hN hfuel (k := k) (by simp [hd])
    refine ⟨s, ?_, by simpa [Dir.run, hd] using hs⟩
    simp [Bucket.delete, Bucket.alive, estate_bind, estate_map, h.alive, hdel, settle, Dir.run, hd]
  · obtain ⟨s, hdel, hs⟩ := h.delete_done fl hN hfuel hd
    refine ⟨s, ?_, by simpa [Dir.run, hd] using hs⟩
    simp [Bucket.delete, Bucket.alive, estate_bind, estate_map, h.alive, hdel, settle, Dir.run, hd]
  · obtain ⟨s, hdel, hs⟩ := h.delete_refused fl hN hfuel (k := k) (by simp [hd])
    refine ⟨s, ?_, by simpa [Dir.run, hd] using hs⟩
    simp [Bucket.delete, Bucket.alive, estate_bind, estate_map, h.alive, hdel, settle, Dir.run, hd]

theorem Overlay.run_createBucket (h : Overlay P origin b T) (hN : Within N origin)
    (hfuel : N ≤ fuel) (k : Bytes)
    (hroom : ¬ Dir.Overflows (.createBucket k) T.dir) :
    Answers P origin T fl (Bucket.createBucket P fuel k (b, fl))
      (Dir.run (.createBucket k) T.dir) none := by
  rcases hd : T.dir.entries k with - | w | c
  · have hlt := Dir.room_of_counts hroom (by simp [Dir.run, hd, Dir.insert])
    obtain ⟨s, hget, hs⟩ := h.getter_created fl hN hfuel true hd hlt
    refine ⟨s, ?_, by simpa [Dir.run, hd] using hs⟩
    simp [Bucket.createBucket, InnerBucket.createBucket, Bucket.alive, estate_bind, estate_map,
      h.alive, hget, settle, Dir.run, hd]
  · obtain ⟨s, hget, hs⟩ := h.getter_value fl hN hfuel true true hd
    refine ⟨s, ?_, by simpa [Dir.run, hd] using hs⟩
    simp [Bucket.createBucket, InnerBucket.createBucket, Bucket.alive, estate_bind, estate_map,
      h.alive, hget, settle, Dir.run, hd]
  · obtain ⟨s, hget, hs⟩ := h.getter_exists fl hN hfuel true hd
    refine ⟨s, ?_, by simpa [Dir.run, hd] using hs⟩
    simp [Bucket.createBucket, InnerBucket.createBucket, Bucket.alive, estate_bind, estate_map,
      h.alive, hget, settle, Dir.run, hd]

theorem Overlay.run_getOrCreateBucket (h : Overlay P origin b T) (hN : Within N origin)
    (hfuel : N ≤ fuel) (k : Bytes)
    (hroom : ¬ Dir.Overflows (.getOrCreateBucket k) T.dir) :
    Answers P origin T fl (Bucket.getOrCreateBucket P fuel k (b, fl))
      (Dir.run (.getOrCreateBucket k) T.dir) none := by
  rcases hd : T.dir.entries k with - | w | c
  · have hlt := Dir.room_of_counts hroom (by simp [Dir.run, hd, Dir.insert])
    obtain ⟨s, hget, hs⟩ := h.getter_created fl hN hfuel false hd hlt
    refine ⟨s, ?_, by simpa [Dir.run, hd] using hs⟩
    simp [Bucket.getOrCreateBucket, InnerBucket.getOrCreateBucket, Bucket.alive, estate_bind,
      estate_map, h.alive, hget, settle, Dir.run, hd]
  · obtain ⟨s, hget, hs⟩ := h.getter_value fl hN hfuel true false hd
    refine ⟨s, ?_, by simpa [Dir.run, hd] using hs⟩
    simp [Bucket.getOrCreateBucket, InnerBucket.getOrCreateBucket, Bucket.alive, estate_bind,
      estate_map, h.alive, hget, settle, Dir.run, hd]
  · obtain ⟨s, hget, hs⟩ := h.getter_found fl hN hfuel true hd
    refine ⟨s, ?_, by simpa [Dir.run, hd] using hs⟩
    simp [Bucket.getOrCreateBucket, InnerBucket.getOrCreateBucket, Bucket.alive, estate_bind,
      estate_map, h.alive, hget, settle, Dir.run, hd]

theorem Overlay.run_getBucket (h : Overlay P origin b T) (hN : Within N origin)
    (hfuel : N ≤ fuel) (k : Bytes) :
    Answers P origin T fl (Bucket.getBucket P fuel k (b, fl))
      (Dir.run (.getBucket k) T.dir) none := by
  rcases hd : T.dir.entries k with - | w | c
  · obtain ⟨s, hget, hs⟩ := h.getter_missing fl hN hfuel false hd
    refine ⟨s, ?_, by simpa [Dir.run, hd] using hs⟩
    simp [Bucket.getBucket, InnerBucket.getBucket, Bucket.alive, estate_bind, estate_map, h.alive,
      hget, settle, Dir.run, hd]
  · obtain ⟨s, hget, hs⟩ := h.getter_value fl hN hfuel false false hd
    refine ⟨s, ?_, by simpa [Dir.run, hd] using hs⟩
    simp [Bucket.getBucket, InnerBucket.getBucket, Bucket.alive, estate_bind, estate_map, h.alive,
      hget, settle, Dir.run, hd]
  · obtain ⟨s, hget, hs⟩ := h.getter_found fl hN hfuel false hd
    refine ⟨s, ?_, by simpa [Dir.run, hd] using hs⟩
    simp [Bucket.getBucket, InnerBucket.getBucket, Bucket.alive, estate_bind, estate_map, h.alive,
      hget, settle, Dir.run, hd]

theorem Overlay.run_deleteBucket (h : Overlay P origin b T) (hN : Within N origin)
    (hfuel : N ≤ fuel) (k : Bytes) :
    Answers P origin T fl (Bucket.deleteBucket P fuel k (b, fl))
      (Dir.run (.deleteBucket k) T.dir) (removedBy (.deleteBucket k) T.dir) := by
  rcases hd : T.dir.entries k with - | w | c
  · obtain ⟨s, hdel, hs⟩ := h.deleteBucket_refused fl hN hfuel (k := k) (by simp [hd])
    refine ⟨s, ?_, by simpa [Dir.run, removedBy, hd] using hs⟩
    simp [Bucket.deleteBucket, Bucket.alive, estate_bind, estate_map, h.alive, hdel, settle,
      Dir.run, hd]
  · obtain ⟨s, hdel, hs⟩ := h.deleteBucket_refused fl hN hfuel (k := k) (by simp [hd])
    refine ⟨s, ?_, by simpa [Dir.run, removedBy, hd] using hs⟩
    simp [Bucket.deleteBucket, Bucket.alive, estate_bind, estate_map, h.alive, hdel, settle,
      Dir.run, hd]
  · obtain ⟨s, hdel, hs⟩ := h.deleteBucket_done fl hN hfuel hd
    refine ⟨s, ?_, by simpa [Dir.run, removedBy, hd] using hs⟩
    simp [Bucket.deleteBucket, Bucket.alive, estate_bind, estate_map, h.alive, hdel, settle,
      Dir.run, hd]

theorem Overlay.run_putIfAbsent (h : Overlay P origin b T) (hN : Within N origin)
    (hfuel : N ≤ fuel) (k v : Bytes)
    (hroom : ¬ Dir.Overflows (.putIfAbsent k v) T.dir) :
    Answers P origin T fl (Bucket.putIfAbsent P fuel k v (b, fl))
      (Dir.run (.putIfAbsent k v) T.dir) none := by
  have hlookup := h.lookup fl hN hfuel k
  rcases h.entry_cases k with ⟨hcur, hd⟩ | ⟨w, hcur, hd⟩ | ⟨m, S, hcur, -, hd, -⟩ <;>
    rw [hcur] at hlookup
  · have hlt := Dir.room_of_counts hroom (by simp [Dir.run, Dir.observe, hd, Dir.insert])
    obtain ⟨s, hput, hs⟩ := h.put_done fl hN hfuel v (k := k) (by simp [hd]) fun _ => hlt
    refine ⟨s, ?_, by simpa [Dir.run, Dir.observe, hd] using hs⟩
    simp [Bucket.putIfAbsent, Bucket.alive, estate_bind, estate_map, h.alive, hlookup, hput,
      settle, Dir.run, Dir.observe, hd]
  · refine ⟨(b, fl), ?_, by simpa [Dir.run, Dir.observe, hd] using h.becomes_self fl⟩
    simp [Bucket.putIfAbsent, Bucket.alive, estate_bind, h.alive, hlookup, settle, Dir.run,
      Dir.observe, hd]
  · refine ⟨(b, fl), ?_, by simpa [Dir.run, Dir.observe, hd] using h.becomes_self fl⟩
    simp [Bucket.putIfAbsent, Bucket.alive, estate_bind, h.alive, hlookup, settle, Dir.run,
      Dir.observe, hd]

theorem Overlay.run_compareExchange (h : Overlay P origin b T) (hN : Within N origin)
    (hfuel : N ≤ fuel) (k : Bytes) (expected : Option Bytes) (v : Bytes)
    (hroom : ¬ Dir.Overflows (.compareExchange k expected v) T.dir) :
    Answers P origin T fl (Bucket.compareExchange P fuel k expected v (b, fl))
      (Dir.run (.compareExchange k expected v) T.dir) none := by
  have hobserve := h.observe fl hN hfuel k
  cases hd : T.dir.observe k with
  | error e =>
    rw [hd] at hobserve
    refine ⟨(b, fl), ?_, by simpa [Dir.run, hd] using h.becomes_self fl⟩
    simp [Bucket.compareExchange, estate_bind, hobserve, settle, Dir.run, hd]
  | ok observed =>
    rw [hd] at hobserve
    by_cases heq : observed = expected
    · have hvalue : ∀ c, T.dir.entries k ≠ some (.bucket c) := by
        intro c hc
        simp [Dir.observe, hc] at hd
      have hlt : T.dir.entries k = none → T.dir.counter + 1 < 2 ^ 64 := fun hnone =>
        Dir.room_of_counts hroom (by simp [Dir.run, hd, heq, Dir.insert, hnone])
      obtain ⟨s, hput, hs⟩ := h.put_done fl hN hfuel v hvalue hlt
      refine ⟨s, ?_, by simpa [Dir.run, hd, heq] using hs⟩
      simp [Bucket.compareExchange, estate_bind, estate_map, hobserve, heq, hput, settle, Dir.run,
        hd]
    · refine ⟨(b, fl), ?_, by simpa [Dir.run, hd, heq] using h.becomes_self fl⟩
      simp [Bucket.compareExchange, estate_bind, hobserve, heq, settle, Dir.run, hd]

theorem Overlay.run_deleteIfValue (h : Overlay P origin b T) (hN : Within N origin)
    (hfuel : N ≤ fuel) (k expected : Bytes) :
    Answers P origin T fl (Bucket.deleteIfValue P fuel k expected (b, fl))
      (Dir.run (.deleteIfValue k expected) T.dir) none := by
  have hobserve := h.observe fl hN hfuel k
  cases hd : T.dir.observe k with
  | error e =>
    rw [hd] at hobserve
    refine ⟨(b, fl), ?_, by simpa [Dir.run, hd] using h.becomes_self fl⟩
    simp [Bucket.deleteIfValue, estate_bind, hobserve, settle, Dir.run, hd]
  | ok observed =>
    rw [hd] at hobserve
    by_cases heq : observed = some expected
    · have hvalue : T.dir.entries k = some (.value expected) := by
        subst heq
        rcases hentry : T.dir.entries k with - | w | c <;> simp [Dir.observe, hentry] at hd
        rw [hd]
      obtain ⟨s, hdel, hs⟩ := h.delete_done fl hN hfuel hvalue
      refine ⟨s, ?_, by simpa [Dir.run, hd, heq] using hs⟩
      simp [Bucket.deleteIfValue, estate_bind, estate_map, hobserve, heq, hdel, settle, Dir.run,
        hd]
    · refine ⟨(b, fl), ?_, by simpa [Dir.run, hd, heq] using h.becomes_self fl⟩
      simp [Bucket.deleteIfValue, estate_bind, hobserve, heq, settle, Dir.run, hd]

/-- The operations that only read. -/
theorem Overlay.run_reads (h : Overlay P origin b T) (hN : Within N origin) (hfuel : N ≤ fuel)
    (k : Bytes) :
    Answers P origin T fl (Bucket.getData P fuel k (b, fl)) (Dir.run (.get k) T.dir) none ∧
    Answers P origin T fl (Bucket.getKv P fuel k (b, fl)) (Dir.run (.getKv k) T.dir) none ∧
    Answers P origin T fl (Bucket.nextInt (b, fl)) (Dir.run .nextInt T.dir) none := by
  have hlookup := h.lookup fl hN hfuel k
  refine ⟨⟨(b, fl), ?_, h.becomes_self fl⟩, ⟨(b, fl), ?_, h.becomes_self fl⟩,
    ⟨(b, fl), ?_, h.becomes_self fl⟩⟩
  · rcases h.entry_cases k with ⟨hcur, hd⟩ | ⟨w, hcur, hd⟩ | ⟨m, S, hcur, -, hd, -⟩ <;>
      simp [Bucket.getData, Bucket.alive, estate_bind, estate_map, h.alive, hlookup, hcur, settle,
        Dir.run, hd, Data.ofLeaf, Dir.dataOf]
  · rcases h.entry_cases k with ⟨hcur, hd⟩ | ⟨w, hcur, hd⟩ | ⟨m, S, hcur, -, hd, -⟩ <;>
      simp [Bucket.getKv, Bucket.alive, estate_bind, estate_map, h.alive, hlookup, hcur, settle,
        Dir.run, hd, Leaf.kvPair, Dir.pairOf]
  · simp [Bucket.nextInt, Bucket.alive, estate_bind, estate_map, h.alive, settle, Dir.run,
      Nest.dir_counter, h.counter]

/-- One operation of a bucket. -/
theorem Overlay.run (h : Overlay P origin b T) (hN : Within N origin) (hfuel : N ≤ fuel)
    (op : Op) (hroom : ¬ Dir.Overflows op T.dir) :
    Answers P origin T fl (Bucket.run P fuel op (b, fl)) (Dir.run op T.dir)
      (removedBy op T.dir) := by
  cases op with
  | put k v => exact h.run_put fl hN hfuel k v hroom
  | get k => exact (h.run_reads fl hN hfuel k).1
  | getKv k => exact (h.run_reads fl hN hfuel k).2.1
  | delete k => exact h.run_delete fl hN hfuel k
  | createBucket k => exact h.run_createBucket fl hN hfuel k hroom
  | getOrCreateBucket k => exact h.run_getOrCreateBucket fl hN hfuel k hroom
  | getBucket k => exact h.run_getBucket fl hN hfuel k
  | deleteBucket k => exact h.run_deleteBucket fl hN hfuel k
  | putIfAbsent k v => exact h.run_putIfAbsent fl hN hfuel k v hroom
  | compareExchange k expected v => exact h.run_compareExchange fl hN hfuel k expected v hroom
  | deleteIfValue k expected => exact h.run_deleteIfValue fl hN hfuel k expected
  | nextInt => exact (h.run_reads fl hN hfuel []).2.2

/-- An operation that would count past the largest word panics. -/
theorem Overlay.run_full (h : Overlay P origin b T) (hN : Within N origin) (hfuel : N ≤ fuel)
    (op : Op) (hover : Dir.Overflows op T.dir) :
    ∃ s, Bucket.run P fuel op (b, fl) = .error (.panic "attempt to add with overflow") s := by
  obtain ⟨hcounts, hfull⟩ := hover
  obtain ⟨k, hk⟩ := Dir.key_of_counts hcounts
  have hput := fun v => h.put_full fl hN hfuel v hk.1 hfull
  have hget := fun mustCreate => h.getter_full fl hN hfuel mustCreate hk.1 hfull
  have hlookup := h.lookup fl hN hfuel k
  rw [h.entryAt_none hk.1] at hlookup
  have hobserve := h.observe fl hN hfuel k
  rw [Dir.observe, hk.1] at hobserve
  rcases hk.2 with ⟨v, rfl⟩ | rfl | rfl | ⟨v, rfl⟩ | ⟨v, rfl⟩
  · obtain ⟨s, hs⟩ := hput v
    exact ⟨s, by simp [Bucket.run, Bucket.put, Bucket.alive, estate_bind, estate_map, h.alive, hs]⟩
  · obtain ⟨s, hs⟩ := hget true
    exact ⟨s, by simp [Bucket.run, Bucket.createBucket, InnerBucket.createBucket, Bucket.alive,
      estate_bind, estate_map, h.alive, hs]⟩
  · obtain ⟨s, hs⟩ := hget false
    exact ⟨s, by simp [Bucket.run, Bucket.getOrCreateBucket, InnerBucket.getOrCreateBucket,
      Bucket.alive, estate_bind, estate_map, h.alive, hs]⟩
  · obtain ⟨s, hs⟩ := hput v
    exact ⟨s, by simp [Bucket.run, Bucket.putIfAbsent, Bucket.alive, estate_bind, estate_map,
      h.alive,
      hlookup, hs]⟩
  · obtain ⟨s, hs⟩ := hput v
    exact ⟨s, by simp [Bucket.run, Bucket.compareExchange, estate_bind, estate_map, hobserve, hs]⟩

/-- The nested map after an operation on a nested bucket. -/
theorem Nest.dir_inside {t : NodeTree} {n : Nat} {subs : List (Bytes × Nest)} {k : Bytes}
    {m : BucketMeta} (S : Nest) (hcur : entryAt k t.content = some (.bucket k m)) :
    (⟨t, n, Assoc.insert k S subs⟩ : Nest).dir =
      (⟨t, n, subs⟩ : Nest).dir.set k (some (.bucket S.dir)) := by
  refine (Nest.dir_update ⟨t, n, subs⟩ ⟨t, n, Assoc.insert k S subs⟩ (Edit.refl t k)
    fun x hx => Assoc.lookup_insert_ne hx _ _).trans ?_
  rw [Dir.set, Nest.dir_counter, hcur]
  simp only [Nest.counter, Nest.entryOf, Nest.subs, Assoc.lookup_insert_self, Option.map_some]

/-- Puts a nested bucket back into the bucket it is nested in. -/
def putBack {α : Type} (b : InnerBucket) (k : Bytes) :
    EStateM.Result Fault BucketTx α → EStateM.Result Fault BucketTx α
  | .ok a (c, fl) => .ok a (b.setBucket k c, fl)
  | .error e (c, fl) => .error e (b.setBucket k c, fl)

theorem Answers.inside {b : InnerBucket} {k : Bytes} {m : BucketMeta} {S : Nest}
    {r : EStateM.Result Fault BucketTx Output} {want : Except Error Output × Dir}
    {gone : Option (List Bytes)} (h : Overlay P origin b T)
    (hcur : entryAt k T.tree.content = some (.bucket k m)) (hS : T.subs.lookup k = some S)
    (hpage : S.tree.info.page = m.rootPage)
    (hr : Answers P (originOf origin k m) S fl r want gone) :
    Answers P origin T fl (putBack b k r) (want.1, T.dir.set k (some (.bucket want.2)))
      (gone.map (k :: ·)) := by
  obtain ⟨⟨c, fl'⟩, hsettle, S', ps, hfl, hover, hdir, hchange⟩ := hr
  obtain ⟨t, n, subs⟩ := T
  have hpage' : S'.tree.info.page = m.rootPage := (page_of_map hchange.bare).trans hpage
  refine ⟨(b.setBucket k c, fl'), ?_, _, ps, hfl, h.setChild hcur hpage' hover, ?_,
    .inside hS (by rwa [originFor_eq hpage])⟩
  · cases r with
    | ok a s =>
      simp only [settle, putBack, Except.ok.injEq, Prod.mk.injEq] at hsettle ⊢
      obtain ⟨hwant, rfl⟩ := hsettle
      exact ⟨hwant, rfl, rfl⟩
    | error e s =>
      cases e with
      | error e =>
        simp only [settle, putBack, Except.ok.injEq, Prod.mk.injEq] at hsettle ⊢
        obtain ⟨hwant, rfl⟩ := hsettle
        exact ⟨hwant, rfl, rfl⟩
      | _ => cases hsettle
  · rw [← hdir]
    exact Nest.dir_inside S' hcur

/-- One operation at a path. -/
theorem Overlay.runAt (h : Overlay P origin b T) (hN : Within N origin) (hfuel : N ≤ fuel)
    (op : Op) (path : List Bytes) (hroom : ¬ Dir.OverflowsAt op path T.dir) :
    Answers P origin T fl (Bucket.atPath P fuel (Bucket.run P fuel op) path (b, fl))
      (Dir.atPath (Dir.run op) path T.dir) (removedAt op path T.dir) := by
  induction path generalizing origin b T with
  | nil => exact h.run fl hN hfuel op fun hover => hroom ⟨_, rfl, hover⟩
  | cons name path ih =>
    rcases h.entry_cases name with ⟨-, hd⟩ | ⟨v, -, hd⟩ | ⟨m, S, hcur, hS, hd, hpage, hchild⟩
    · obtain ⟨s, hget, hs⟩ := h.getter_missing fl hN hfuel false hd
      refine ⟨s, ?_, by simpa [Dir.atPath, removedAt, hd] using hs⟩
      simp [Bucket.atPath, InnerBucket.getBucket, hget, settle, Dir.atPath, hd]
    · obtain ⟨s, hget, hs⟩ := h.getter_value fl hN hfuel false false hd
      refine ⟨s, ?_, by simpa [Dir.atPath, removedAt, hd] using hs⟩
      simp [Bucket.atPath, InnerBucket.getBucket, hget, settle, Dir.atPath, hd]
    · obtain ⟨b', hget, hlookup, hover⟩ := h.opens hN hfuel false hcur fl
      have hinner : ¬ Dir.OverflowsAt op path S.dir := by
        rintro ⟨c, hc, hfull⟩
        exact hroom ⟨c, by rw [Dir.find, hd]; exact hc, hfull⟩
      have hstep := Answers.inside fl hover hcur hS hpage (ih hchild (hN.child name m) hinner)
      have hwant : Dir.atPath (Dir.run op) (name :: path) T.dir =
          ((Dir.atPath (Dir.run op) path S.dir).1,
            T.dir.set name (some (.bucket (Dir.atPath (Dir.run op) path S.dir).2))) := by
        simp [Dir.atPath, hd]
      have hgone : removedAt op (name :: path) T.dir =
          (removedAt op path S.dir).map (name :: ·) := by
        simp [removedAt, hd]
      rw [hwant, hgone, Bucket.atPath]
      simp only [InnerBucket.getBucket, hget, hlookup]
      exact hstep

/-- An operation at a path that would count past the largest word panics. -/
theorem Overlay.runAt_full (h : Overlay P origin b T) (hN : Within N origin) (hfuel : N ≤ fuel)
    (op : Op) (path : List Bytes) (hover : Dir.OverflowsAt op path T.dir) :
    ∃ s, Bucket.atPath P fuel (Bucket.run P fuel op) path (b, fl) =
      .error (.panic "attempt to add with overflow") s := by
  induction path generalizing origin b T with
  | nil =>
    obtain ⟨c, hc, hfull⟩ := hover
    obtain rfl := Option.some.inj hc
    exact h.run_full fl hN hfuel op hfull
  | cons name path ih =>
    obtain ⟨c, hc, hfull⟩ := hover
    rcases h.entry_cases name with ⟨-, hd⟩ | ⟨v, -, hd⟩ | ⟨m, S, hcur, hS, hd, hpage, hchild⟩ <;>
      rw [Dir.find, hd] at hc
    · cases hc
    · cases hc
    · obtain ⟨b', hget, hlookup, -⟩ := h.opens hN hfuel false hcur fl
      obtain ⟨⟨child, fl'⟩, hinner⟩ := ih hchild (hN.child name m) ⟨c, hc, hfull⟩
      refine ⟨(b'.setBucket name child, fl'), ?_⟩
      simp only [Bucket.atPath, InnerBucket.getBucket, hget, hlookup, hinner]

end Steps

/-! ## Whole transactions -/

/-- What several operations did to a nest, with the paths of the deleted buckets in order. -/
inductive Changes : Option Nest → Nest → Nest → List (List Bytes) → List Nat → Prop
  | nil {o : Option Nest} {T : Nest} : Changes o T T [] []
  | cons {o : Option Nest} {T T' T'' : Nest} {gone : Option (List Bytes)}
      {rest : List (List Bytes)} {ps qs : List Nat} (change : Change o T T' gone ps)
      (changes : Changes o T' T'' rest qs) : Changes o T T'' (gone.toList ++ rest) (ps ++ qs)

/-- The paths of the buckets that a sequence of operations deletes. -/
def removedAll : List Bucket.PathOp → Dir → List (List Bytes)
  | [], _ => []
  | (path, op) :: ops, d =>
      (removedAt op path d).toList ++ removedAll ops (Dir.atPath (Dir.run op) path d).2

section Runs

variable {P : Pages} {origin : Option Nest} {b : InnerBucket} {T : Nest} {N fuel : Nat}

theorem runAll_cons {path : List Bytes} {op : Op} {ops : List Bucket.PathOp} {s s' : BucketTx}
    {r : Except Error Output}
    (h : settle (Bucket.atPath P fuel (Bucket.run P fuel op) path s) = .ok (r, s')) :
    Bucket.runAll P fuel ((path, op) :: ops) s =
      (Bucket.runAll P fuel ops s').map fun x => (r :: x.1, x.2) := by
  rw [Bucket.runAll]
  cases hstep : Bucket.atPath P fuel (Bucket.run P fuel op) path s with
  | ok a s₁ =>
    rw [hstep] at h
    obtain ⟨rfl, rfl⟩ := Prod.mk.inj (Except.ok.inj h)
    cases hrest : Bucket.runAll P fuel ops s₁ <;> simp [hrest, Except.map]
  | error e s₁ =>
    rw [hstep] at h
    cases e with
    | error e =>
      obtain ⟨rfl, rfl⟩ := Prod.mk.inj (Except.ok.inj h)
      cases hrest : Bucket.runAll P fuel ops s₁ <;> simp [hrest, Except.map]
    | _ => cases h

/-- Any sequence of operations of a write transaction. -/
theorem Overlay.runAll (h : Overlay P origin b T) (hN : Within N origin) (hfuel : N ≤ fuel)
    (ops : List Bucket.PathOp) (fl : TxFreelist) (hfits : Dir.Fits ops T.dir) :
    ∃ b' T' ps, Bucket.runAll P fuel ops (b, fl) =
        .ok ((Dir.runAll ops T.dir).1, (b', retire fl ps)) ∧
      Overlay P origin b' T' ∧ T'.dir = (Dir.runAll ops T.dir).2 ∧
      Changes origin T T' (removedAll ops T.dir) ps := by
  induction ops generalizing b T fl with
  | nil => exact ⟨b, T, [], rfl, h, rfl, .nil⟩
  | cons step ops ih =>
    obtain ⟨path, op⟩ := step
    obtain ⟨hroom, hfits⟩ := hfits
    obtain ⟨⟨b₁, fl₁⟩, hsettle, T₁, ps, hfl, hover, hdir, hchange⟩ :=
      h.runAt fl hN hfuel op path hroom
    obtain ⟨b₂, T₂, qs, hrun, hover₂, hdir₂, hchanges⟩ := ih hover fl₁ (by rw [hdir]; exact hfits)
    have hfl₁ : fl₁ = retire fl ps := hfl
    rw [hfl₁, retire_retire, hdir] at hrun
    rw [hdir] at hdir₂ hchanges
    refine ⟨b₂, T₂, ps ++ qs, ?_, hover₂, hdir₂, .cons hchange hchanges⟩
    rw [runAll_cons hsettle, hfl₁, hrun]
    rfl

/-- A sequence that would count past the largest word panics there. -/
theorem Overlay.runAll_full (h : Overlay P origin b T) (hN : Within N origin) (hfuel : N ≤ fuel)
    (ops : List Bucket.PathOp) (fl : TxFreelist) (hfull : ¬ Dir.Fits ops T.dir) :
    Bucket.runAll P fuel ops (b, fl) = .error (.panic "attempt to add with overflow") := by
  induction ops generalizing b T fl with
  | nil => exact absurd trivial hfull
  | cons step ops ih =>
    obtain ⟨path, op⟩ := step
    by_cases hroom : Dir.OverflowsAt op path T.dir
    · obtain ⟨s, hstep⟩ := h.runAt_full fl hN hfuel op path hroom
      simp [Bucket.runAll, hstep]
    · obtain ⟨⟨b₁, fl₁⟩, hsettle, T₁, -, -, hover, hdir, -⟩ := h.runAt fl hN hfuel op path hroom
      have hrest : ¬ Dir.Fits ops T₁.dir := fun hfits => hfull ⟨hroom, by rw [← hdir]; exact hfits⟩
      rw [runAll_cons hsettle, ih hover fl₁ hrest]
      rfl

end Runs

theorem Committed.within {P : Pages} {m : BucketMeta} {D : Nest} (_ : Committed P m D) :
    Within D.size (some D) := by
  refine ⟨?_, fun D' hD' => ?_⟩
  · obtain ⟨t, n, subs⟩ := D
    have hpos : 0 < t.subs.length := List.length_pos_of_mem (self_mem_subs t)
    rw [Nest.size_mk]
    omega
  · obtain rfl := Option.some.inj hD'
    exact le_rfl

open Classical in
/-- A write transaction on any committed bucket answers a sequence of operations as the nested
map does, and ends in an overlay of the map that was reached, if and only if no operation counts
a key in a bucket whose counter is the largest word.  In the nested map an operation that returns
an error or is not applied changes nothing, and the counter of a bucket grows by one exactly when
an absent key is inserted into it. -/
theorem bucket_operations_refine_iff {P : Pages} {m : BucketMeta} {D : Nest}
    (h : Committed P m D) (fl : TxFreelist) (ops : List Bucket.PathOp) (fuel : Nat)
    (hfuel : D.size ≤ fuel) :
    ((∃ b' fl' T', Bucket.runAll P fuel ops (.fromMeta m, fl) =
          .ok ((Dir.runAll ops D.dir).1, (b', fl')) ∧
        Overlay P (some D) b' T' ∧ T'.dir = (Dir.runAll ops D.dir).2) ↔
      Dir.Fits ops D.dir) ∧
    (∀ op path d, Dir.refused (Dir.atPath (Dir.run op) path d).1 = true →
      (Dir.atPath (Dir.run op) path d).2 = d) ∧
    (∀ op d, (Dir.run op d).2.counter = d.counter +
      if ∃ k, d.entries k = none ∧ (Dir.run op d).2.entries k ≠ none then 1 else 0) := by
  refine ⟨⟨?_, ?_⟩, fun op path d => Dir.atPath_refused op path d, fun op d => Dir.run_counter op d⟩
  · rintro ⟨b', fl', T', hrun, -⟩
    by_contra hfull
    rw [h.overlay.runAll_full h.within hfuel ops fl hfull] at hrun
    cases hrun
  · intro hfits
    obtain ⟨b', T', ps, hrun, hover, hdir, -⟩ := h.overlay.runAll h.within hfuel ops fl hfits
    exact ⟨b', retire fl ps, T', hrun, hover, hdir⟩

/-- A bucket at page 2 with a value and a nested bucket at page 3. -/
def nestedPages : Pages where
  validate
    | 2 => .ok ⟨2, 0, .leaf [.kv [1] [10], .bucket [2] ⟨3, 1⟩]⟩
    | 3 => .ok ⟨3, 0, .leaf [.kv [7] [70]]⟩
    | _ => .error "page is out of range"
  pagesize := 1024

/-- The nest of that file. -/
def nestedNest : Nest :=
  ⟨leaf ⟨2, 1, none⟩ [.kv [1] [10], .bucket [2] ⟨3, 1⟩], 2,
    [([2], ⟨leaf ⟨3, 1, none⟩ [.kv [7] [70]], 1, []⟩)]⟩

/-- The freelist of a transaction on that file. -/
def nestedFreelist : TxFreelist :=
  .new ⟨0, magicValue, formatVersion, 1024, ⟨2, 2⟩, 5, 4, 2, 0⟩ .new

/-- Operations in the nested bucket and in the root. -/
def nestedOps : List Bucket.PathOp :=
  [([[2]], .put [8] [80]), ([[2]], .nextInt), ([], .deleteBucket [2]), ([[2]], .get [8]),
    ([], .createBucket [1]), ([], .putIfAbsent [1] [11])]

theorem bucket_operations_refine_nested :
    Committed nestedPages ⟨2, 2⟩ nestedNest ∧ Dir.Fits nestedOps nestedNest.dir ∧
    ∃ s, Bucket.runAll nestedPages 2 nestedOps (.fromMeta ⟨2, 2⟩, nestedFreelist) =
      .ok ([.ok (.pair none), .ok (.int 2), .ok .unit, .error .bucketMissing,
        .error .incompatibleValue, .ok (.atomic ⟨false, some [10], some [10]⟩)], s) := by
  have hcommitted : Committed nestedPages ⟨2, 2⟩ nestedNest :=
    committed_of_check (by decide +kernel) (by decide +kernel) rfl rfl
  have hfits : Dir.Fits nestedOps nestedNest.dir := by
    refine ⟨Dir.fits_step (by decide +kernel), Dir.fits_step (by decide +kernel),
      Dir.fits_step (by decide +kernel), Dir.fits_step (by decide +kernel),
      Dir.fits_step (by decide +kernel), Dir.fits_step (by decide +kernel), trivial⟩
  refine ⟨hcommitted, hfits, ?_⟩
  obtain ⟨b', fl', T', hrun, -⟩ :=
    (bucket_operations_refine_iff hcommitted nestedFreelist nestedOps 2 (by decide)).1.mpr hfits
  exact ⟨(b', fl'), hrun⟩

/-- A bucket whose counter is the largest word, as `merge_next_int` or a file can set it. -/
def fullPages : Pages where
  validate
    | 2 => .ok ⟨2, 0, .leaf [.kv [1] [10]]⟩
    | _ => .error "page is out of range"
  pagesize := 1024

/-- The nest of that file. -/
def fullNest : Nest := ⟨leaf ⟨2, 1, none⟩ [.kv [1] [10]], 2 ^ 64 - 1, []⟩

/-- An old key is put again, and a new key panics where the map counts it. -/
theorem put_overflows :
    Committed fullPages ⟨2, 2 ^ 64 - 1⟩ fullNest ∧
    Bucket.runAll fullPages 2 [([], .put [1] [11]), ([], .put [2] [20])]
        (.fromMeta ⟨2, 2 ^ 64 - 1⟩, nestedFreelist) =
      .error (.panic "attempt to add with overflow") ∧
    (Dir.runAll [([], .put [1] [11]), ([], .put [2] [20])] fullNest.dir).1 =
      [.ok (.pair (some ([1], [10]))), .ok (.pair none)] :=
  ⟨committed_of_check (by decide +kernel) (by decide +kernel) rfl rfl, by rfl, rfl⟩

end Tagdata.Analysis
