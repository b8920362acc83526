import Tagdata.Analysis.NestSteps

/-!
# The operations of a bucket on its overlay

What `put`, `delete`, `bucket_getter` and `delete_bucket` do to an overlay, for every entry the
key can have.  `Change` records how the nest changed and which pages were retired on the way.
-/

set_option autoImplicit false

namespace Tagdata.Analysis

open Tagdata.Library Tagdata.Library.SearchTree Tagdata.Model Tagdata.Interface

/-- The committed nest a nested bucket came from; one that was created stands on page 0. -/
def originFor (o : Option Nest) (name : Bytes) (T : Nest) : Option Nest :=
  if T.tree.info.page = 0 then none else o.bind fun D => D.subs.lookup name

/-- What an operation did to a nest: the path of the bucket it deleted, if any, and the pages
it retired. -/
inductive Change : Option Nest → Nest → Nest → Option (List Bytes) → List Nat → Prop
  | same {o : Option Nest} {T : Nest} : Change o T T none []
  | entry {o : Option Nest} {t t' : NodeTree} {n n' : Nat} {subs : List (Bytes × Nest)}
      (bare : bare t' = bare t) : Change o ⟨t, n, subs⟩ ⟨t', n', subs⟩ none []
  | created {o : Option Nest} {t t' : NodeTree} {n n' : Nat} {subs : List (Bytes × Nest)}
      {name : Bytes} (bare : bare t' = bare t) (fresh : subs.lookup name = none) :
      Change o ⟨t, n, subs⟩ ⟨t', n', Assoc.insert name Nest.empty subs⟩ none []
  | removed {o : Option Nest} {t t' : NodeTree} {n : Nat} {subs : List (Bytes × Nest)}
      {name : Bytes} {T : Nest} {ps : List Nat} (bare : bare t' = bare t)
      (sub : subs.lookup name = some T)
      (pages : ps.Perm (((originFor o name T).map Nest.pages).getD [])) :
      Change o ⟨t, n, subs⟩ ⟨t', n, Assoc.erase name subs⟩ (some [name]) ps
  | inside {o : Option Nest} {t : NodeTree} {n : Nat} {subs : List (Bytes × Nest)} {name : Bytes}
      {T T' : Nest} {gone : Option (List Bytes)} {ps : List Nat}
      (sub : subs.lookup name = some T) (change : Change (originFor o name T) T T' gone ps) :
      Change o ⟨t, n, subs⟩ ⟨t, n, Assoc.insert name T' subs⟩ (gone.map (name :: ·)) ps

theorem originFor_eq {o : Option Nest} {name : Bytes} {m : BucketMeta} {T : Nest}
    (h : T.tree.info.page = m.rootPage) : originFor o name T = originOf o name m := by
  rw [originFor, originOf, h]

/-- The number of rounds that is enough for every loop over the trees of an origin. -/
def Within (N : Nat) (origin : Option Nest) : Prop := 1 ≤ N ∧ ∀ D ∈ origin, D.size ≤ N

/-- The state after an operation on a nest stands for the given map. -/
def Becomes (P : Pages) (origin : Option Nest) (T : Nest) (fl : TxFreelist) (s : BucketTx)
    (d : Dir) (gone : Option (List Bytes)) : Prop :=
  ∃ T' ps, s.2 = retire fl ps ∧ Overlay P origin s.1 T' ∧ T'.dir = d ∧ Change origin T T' gone ps

section Within

variable {P : Pages} {origin : Option Nest} {N : Nat}

theorem subs_length_of_bare {t t' : NodeTree} (h : bare t' = bare t) :
    t'.subs.length = t.subs.length := by
  have hinfos := congrArg (fun u => u.subs.length) h
  simpa [bare, subs_map] using hinfos

/-- Every tree of an overlay can be searched in as many rounds as its origin has nodes. -/
theorem Within.tree {t : NodeTree} (h : Within N origin) (hsource : Source P origin t) :
    t.subs.length ≤ N := by
  cases origin with
  | none =>
    cases t with
    | leaf i d =>
      rw [subs_leaf, List.length_singleton]
      exact h.1
    | branch i ks =>
      have hleaf := hsource.2
      simp at hleaf
  | some D =>
    rw [subs_length_of_bare hsource.2]
    have hsize := h.2 D rfl
    obtain ⟨t₀, n₀, subs₀⟩ := D
    rw [Nest.size_mk] at hsize
    simp only [Nest.tree]
    omega

theorem size_lookup {subs : List (Bytes × Nest)} {name : Bytes} {D : Nest}
    (h : subs.lookup name = some D) : D.size ≤ (subs.map fun e => e.2.size).sum := by
  have hmem : D.size ∈ subs.map fun e => e.2.size :=
    List.mem_map.mpr ⟨(name, D), Assoc.mem_of_lookup h, rfl⟩
  exact List.le_sum_of_mem hmem

theorem originOf_some {name : Bytes} {m : BucketMeta} {D : Nest}
    (h : originOf origin name m = some D) :
    m.rootPage ≠ 0 ∧ ∃ D₀, origin = some D₀ ∧ D₀.subs.lookup name = some D := by
  unfold originOf at h
  by_cases h0 : m.rootPage = 0
  · rw [if_pos h0] at h
    cases h
  · rw [if_neg h0] at h
    obtain ⟨D₀, hD₀, hD⟩ := Option.bind_eq_some_iff.mp h
    exact ⟨h0, D₀, hD₀, hD⟩

theorem Within.child (h : Within N origin) (name : Bytes) (m : BucketMeta) :
    Within N (originOf origin name m) := by
  refine ⟨h.1, fun D hD => ?_⟩
  obtain ⟨-, D₀, hD₀, hlookup⟩ := originOf_some hD
  have hsize := h.2 D₀ hD₀
  have hle := size_lookup hlookup
  obtain ⟨t₀, n₀, subs₀⟩ := D₀
  rw [Nest.size_mk] at hsize
  simp only [Nest.subs] at hle
  omega

end Within

/-! ## One bucket -/

section Bucket

variable {P : Pages} {origin : Option Nest} {b : InnerBucket} {T : Nest} (fl : TxFreelist)
  {N fuel : Nat}

/-- The bucket changed at most in its maps of pages and opened buckets. -/
theorem Overlay.becomes_self {b' : InnerBucket} (h : Overlay P origin b' T) :
    Becomes P origin T fl (b', fl) T.dir none := ⟨T, [], rfl, h, rfl, .same⟩

theorem Overlay.withParents (h : Overlay P origin b T) (links : List (Nat × Nat)) :
    Overlay P origin (withParents b links) T := by
  cases h with
  | mk opened alive counter clean source names cacheKeys cached roots below =>
    exact .mk (opened.withParents links) alive counter clean source names cacheKeys cached roots
      below

/-- A key of an overlay is absent, has a value, or names a bucket. -/
theorem Overlay.entry_cases (h : Overlay P origin b T) (k : Bytes) :
    (entryAt k T.tree.content = none ∧ T.dir.entries k = none) ∨
    (∃ v, entryAt k T.tree.content = some (.kv k v) ∧ T.dir.entries k = some (.value v)) ∨
    ∃ m S, entryAt k T.tree.content = some (.bucket k m) ∧ T.subs.lookup k = some S ∧
      T.dir.entries k = some (.bucket S.dir) ∧ S.tree.info.page = m.rootPage ∧
      Overlay P (originOf origin k m) (childOf b k m) S := by
  obtain ⟨t, n, subs⟩ := T
  rw [Nest.dir_entries]
  simp only [Nest.tree, Nest.subs]
  cases hentry : entryAt k t.content with
  | none => exact .inl ⟨rfl, rfl⟩
  | some a =>
    have hkey := key_of_entryAt hentry
    cases a with
    | kv key v =>
      obtain rfl : key = k := hkey
      exact .inr (.inl ⟨v, rfl, rfl⟩)
    | bucket name m =>
      obtain rfl : name = k := hkey
      obtain ⟨S, hS, hpage, hover⟩ := h.child hentry
      exact .inr (.inr ⟨m, S, rfl, hS, by simp [Nest.entryOf, hS], hpage, hover⟩)

/-- An opened bucket is one that the tree names. -/
theorem Overlay.lookup_none (h : Overlay P origin b T) {k : Bytes}
    (hkind : ∀ m, entryAt k T.tree.content ≠ some (.bucket k m)) :
    b.buckets.lookup k = none ∧ T.subs.lookup k = none := by
  obtain ⟨t, n, subs⟩ := T
  simp only [Nest.tree] at hkind
  cases h with
  | mk opened alive counter clean source names cacheKeys cached roots below =>
    have hnot : ¬ k ∈ bucketNames t.content := by
      rw [mem_bucketNames opened.separated.content]
      rintro ⟨m, hm⟩
      exact hkind m hm
    refine ⟨?_, ?_⟩
    · rw [← Option.not_isSome_iff_eq_none, Assoc.lookup_isSome]
      exact fun hmem => hnot (cached k hmem)
    · rw [← Option.not_isSome_iff_eq_none, Assoc.lookup_isSome]
      exact fun hmem => hnot (names.mem_iff.mp hmem)

/-- A key without a bucket gets a value or loses the one it had. -/
theorem Overlay.setValue {b' : InnerBucket} {t' : NodeTree} {k : Bytes}
    {e : Option Leaf} (h : Overlay P origin b T) (hopen : Opened P b' t')
    (halive : b'.deleted = b.deleted) (hdirty : b'.dirty = true)
    (hbuckets : b'.buckets = b.buckets)
    (hedit : Edit T.tree t' k e) (hkind : ∀ m, entryAt k T.tree.content ≠ some (.bucket k m))
    (he : ∀ a, e = some a → ∃ v, a = .kv k v) :
    Overlay P origin b' ⟨t', b'.bucketMeta.nextInt, T.subs⟩ := by
  obtain ⟨hcached, hnamed⟩ := h.lookup_none hkind
  obtain ⟨t, n, subs⟩ := T
  have hnotCached : ¬ k ∈ Assoc.keys b.buckets := by
    rw [← Assoc.lookup_isSome, hcached]
    exact Bool.false_ne_true
  have hnotNamed : ¬ k ∈ Assoc.keys subs := by
    rw [← Assoc.lookup_isSome, show subs.lookup k = none from hnamed]
    exact Bool.false_ne_true
  have hvalue : ¬ ∃ m, e = some (.bucket k m) := by
    rintro ⟨m, hm⟩
    obtain ⟨v, hv⟩ := he _ hm
    cases hv
  cases h with
  | mk opened alive counter clean source names cacheKeys cached roots below =>
    have hkeys : (Assoc.keys subs).Nodup :=
      names.nodup_iff.mpr (bucketNames_nodup opened.separated.content)
    have hover : Overlay P origin b ⟨t, n, subs⟩ :=
      .mk opened alive counter clean source names cacheKeys cached roots below
    refine hover.update hopen (halive.trans alive) (fun hd => by rw [hdirty] at hd; cases hd) rfl
      hedit (fun x _ => by rw [hbuckets]) (by rwa [hbuckets]) (fun x _ => rfl) hkeys
      ⟨fun hmem => absurd hmem hnotNamed, fun hm => absurd hm hvalue⟩ ?_ ?_
    · rw [hbuckets]
      exact fun hmem => absurd hmem hnotCached
    · exact fun m S hm => absurd ⟨m, hm⟩ hvalue

theorem Overlay.opened (h : Overlay P origin b T) : Opened P b T.tree := by
  cases h with
  | mk opened => exact opened

theorem Overlay.searchable (h : Overlay P origin b T) (hN : Within N origin) (hfuel : N ≤ fuel) :
    T.tree.subs.length ≤ fuel := by
  cases h with
  | mk opened alive counter clean source => exact (hN.tree source).trans hfuel

theorem Overlay.counter (h : Overlay P origin b T) : b.bucketMeta.nextInt = T.counter := by
  cases h with
  | mk opened alive counter => exact counter

/-- The counter after inserting a key. -/
theorem Overlay.counted (h : Overlay P origin b T) (k : Bytes) :
    (counted b.bucketMeta (entryAt k T.tree.content)).nextInt =
      if (T.dir.entries k).isSome then T.dir.counter else T.dir.counter + 1 := by
  rw [Nest.dir_counter, ← h.counter]
  rcases h.entry_cases k with ⟨hcur, hd⟩ | ⟨w, hcur, hd⟩ | ⟨m, S, hcur, -, hd, -⟩ <;>
    rw [hcur, hd] <;> rfl

/-- `put` on the name of a bucket. -/
theorem Overlay.put_refused (h : Overlay P origin b T) (hN : Within N origin) (hfuel : N ≤ fuel)
    {k : Bytes} (v : Bytes) {c : Dir} (hk : T.dir.entries k = some (.bucket c)) :
    ∃ s, onBucket (InnerBucket.put P fuel k v) (b, fl) = .error (.error .incompatibleValue) s ∧
      Becomes P origin T fl s T.dir none := by
  rcases h.entry_cases k with ⟨-, hd⟩ | ⟨w, -, hd⟩ | ⟨m, S, hcur, -⟩
  · rw [hk] at hd; cases hd
  · rw [hk] at hd; cases hd
  · obtain ⟨links, hput⟩ := putLeaf_refused h.opened (h.searchable hN hfuel) (.kv k v) hcur
      (by simp [Leaf.isKv])
    refine ⟨(Analysis.withParents b links, fl), ?_, (h.withParents links).becomes_self fl⟩
    simp [onBucket, InnerBucket.put, estate_bind, hput]

/-- The content has no entry for a key that is absent from the map. -/
theorem Overlay.entryAt_none (h : Overlay P origin b T) {k : Bytes}
    (hk : T.dir.entries k = none) : entryAt k T.tree.content = none := by
  rcases h.entry_cases k with ⟨hcur, -⟩ | ⟨w, -, hd⟩ | ⟨m, S, -, -, hd, -⟩
  · exact hcur
  · rw [hk] at hd; cases hd
  · rw [hk] at hd; cases hd

/-- `put` on an absent key when the counter is the largest word. -/
theorem Overlay.put_full (h : Overlay P origin b T) (hN : Within N origin) (hfuel : N ≤ fuel)
    {k : Bytes} (v : Bytes) (hk : T.dir.entries k = none) (hfull : 2 ^ 64 ≤ T.dir.counter + 1) :
    ∃ s, onBucket (InnerBucket.put P fuel k v) (b, fl) =
      .error (.panic "attempt to add with overflow") s := by
  rw [Nest.dir_counter, ← h.counter] at hfull
  obtain ⟨b', hput⟩ := putLeaf_full h.opened (h.searchable hN hfuel) (.kv k v)
    (h.entryAt_none hk) hfull
  exact ⟨(b', fl), by simp [onBucket, InnerBucket.put, estate_bind, hput]⟩

/-- `put` on any other key. -/
theorem Overlay.put_done (h : Overlay P origin b T) (hN : Within N origin) (hfuel : N ≤ fuel)
    {k : Bytes} (v : Bytes) (hk : ∀ c, T.dir.entries k ≠ some (.bucket c))
    (hroom : T.dir.entries k = none → T.dir.counter + 1 < 2 ^ 64) :
    ∃ s, onBucket (InnerBucket.put P fuel k v) (b, fl) =
        .ok ((T.dir.entries k).bind (Dir.pairOf k)) s ∧
      Becomes P origin T fl s (T.dir.insert k (.value v)) none := by
  have hkind : ∀ m, entryAt k T.tree.content ≠ some (.bucket k m) := by
    intro m hm
    rcases h.entry_cases k with ⟨hcur, -⟩ | ⟨w, hcur, -⟩ | ⟨m, S, -, -, hd, -⟩
    · rw [hm] at hcur; cases hcur
    · rw [hm] at hcur; cases hcur
    · exact hk _ hd
  have hcount : entryAt k T.tree.content = none → b.bucketMeta.nextInt + 1 < 2 ^ 64 := by
    intro hcur
    rw [h.counter, ← Nest.dir_counter]
    refine hroom ?_
    rw [Nest.dir_entries, hcur]
    rfl
  obtain ⟨nodes, pageIds, links, t', hput, hedit, hopen⟩ :=
    putLeaf_done h.opened (h.searchable hN hfuel) (.kv k v) hcount fun cur hcur => by
      cases cur with
      | kv key w => rfl
      | bucket name m =>
        obtain rfl : name = k := key_of_entryAt hcur
        exact absurd hcur (hkind m)
  have hover := h.setValue hopen rfl rfl rfl hedit hkind fun a ha =>
    ⟨v, (Option.some.inj ha).symm⟩
  refine ⟨(_, fl), ?_, _, [], rfl, hover, ?_, ?_⟩
  · rcases h.entry_cases k with ⟨hcur, hd⟩ | ⟨w, hcur, hd⟩ | ⟨m, S, hcur, -⟩
    · rw [hd]
      simp only [onBucket, InnerBucket.put, estate_bind, hput, Leaf.key, hcur]
      rfl
    · rw [hd]
      simp only [onBucket, InnerBucket.put, estate_bind, hput, Leaf.key, hcur]
      rfl
    · exact absurd hcur (hkind m)
  · refine (Nest.dir_update T ⟨t', _, T.subs⟩ hedit fun x _ => rfl).trans ?_
    rw [Dir.insert]
    congr 1
    exact h.counted k
  · cases T
    exact .entry hedit.bare

/-- `delete` on a key without a value. -/
theorem Overlay.delete_refused (h : Overlay P origin b T) (hN : Within N origin)
    (hfuel : N ≤ fuel) {k : Bytes} (hk : ∀ v, T.dir.entries k ≠ some (.value v)) :
    ∃ s, onBucket (InnerBucket.delete P fuel k) (b, fl) =
        .error (.error (if (T.dir.entries k).isSome then .incompatibleValue
          else .keyValueMissing)) s ∧
      Becomes P origin T fl s T.dir none := by
  obtain ⟨links, hdel⟩ := Analysis.delete_refused h.opened (h.searchable hN hfuel) (k := k)
    fun cur hcur => by
      rcases h.entry_cases k with ⟨hcur', -⟩ | ⟨w, -, hd⟩ | ⟨m, S, hcur', -⟩
      · rw [hcur'] at hcur; cases hcur
      · exact absurd hd (hk w)
      · rw [hcur'] at hcur
        rw [← Option.some.inj hcur]
        rfl
  refine ⟨(Analysis.withParents b links, fl), ?_, (h.withParents links).becomes_self fl⟩
  rcases h.entry_cases k with ⟨hcur, hd⟩ | ⟨w, -, hd⟩ | ⟨m, S, hcur, -, hd, -⟩
  · simp [onBucket, hdel, hcur, hd]
  · exact absurd hd (hk w)
  · simp [onBucket, hdel, hcur, hd]

/-- `delete` on a key with a value. -/
theorem Overlay.delete_done (h : Overlay P origin b T) (hN : Within N origin) (hfuel : N ≤ fuel)
    {k v : Bytes} (hk : T.dir.entries k = some (.value v)) :
    ∃ s, onBucket (InnerBucket.delete P fuel k) (b, fl) = .ok (k, v) s ∧
      Becomes P origin T fl s (T.dir.set k none) none := by
  obtain hcur : entryAt k T.tree.content = some (.kv k v) := by
    rcases h.entry_cases k with ⟨-, hd⟩ | ⟨w, hcur, hd⟩ | ⟨m, S, -, -, hd, -⟩
    · rw [hk] at hd; cases hd
    · rw [hk] at hd
      cases hd
      exact hcur
    · rw [hk] at hd; cases hd
  obtain ⟨nodes, pageIds, links, t', hdel, hedit, hopen⟩ :=
    Analysis.delete_done h.opened (h.searchable hN hfuel) hcur
  have hover := h.setValue hopen rfl rfl rfl hedit
    (fun m hm => by rw [hcur] at hm; cases hm) fun a ha => by cases ha
  refine ⟨(_, fl), ?_, _, [], rfl, hover, ?_, ?_⟩
  · simp only [onBucket, hdel]
  · refine (Nest.dir_update T ⟨t', _, T.subs⟩ hedit fun x _ => rfl).trans ?_
    rw [Dir.set, Nest.dir_counter, ← h.counter]
    rfl
  · cases T
    exact .entry hedit.bare

theorem Change.bare {T T' : Nest} {gone : Option (List Bytes)} {ps : List Nat}
    (h : Change origin T T' gone ps) : Analysis.bare T'.tree = Analysis.bare T.tree := by
  cases h with
  | same => rfl
  | entry bare => exact bare
  | created bare => exact bare
  | removed bare => exact bare
  | inside => rfl

/-- Only the deletion of a bucket retires pages. -/
theorem Change.keeps_pages {T T' : Nest} {gone : Option (List Bytes)} {ps : List Nat}
    (h : Change origin T T' gone ps) (hgone : gone = none) : ps = [] := by
  induction h with
  | same => rfl
  | entry => rfl
  | created => rfl
  | removed => cases hgone
  | inside sub change ih => exact ih (Option.map_eq_none_iff.mp hgone)

/-- Opening a nested bucket changes nothing. -/
theorem Overlay.opens (h : Overlay P origin b T) (hN : Within N origin) (hfuel : N ≤ fuel)
    {k : Bytes} {m : BucketMeta} (shouldCreate : Bool)
    (hcur : entryAt k T.tree.content = some (.bucket k m)) (fl : TxFreelist) :
    ∃ b', onBucket (InnerBucket.bucketGetter P fuel k shouldCreate false) (b, fl) =
        .ok () (b', fl) ∧
      b'.buckets.lookup k = some (childOf b k m) ∧ Overlay P origin b' T := by
  obtain ⟨links, hget⟩ := bucketGetter_named h.opened (h.searchable hN hfuel) shouldCreate hcur
  refine ⟨_, by simp only [onBucket, hget]; rfl, ?_, ?_⟩
  · cases hlookup : b.buckets.lookup k with
    | some c => simp [childOf, hlookup]
    | none => simp [childOf, hlookup]
  · cases hlookup : b.buckets.lookup k with
    | some c =>
      simp only
      exact h.withParents links
    | none =>
      simp only
      obtain ⟨t, n, subs⟩ := T
      obtain ⟨S, hS, hpage, hover⟩ := h.child hcur
      have hother : ∀ x, x ≠ k → (Assoc.insert k (.fromMeta m) b.buckets).lookup x =
          b.buckets.lookup x := fun x hx => Assoc.lookup_insert_ne hx _ _
      have hself : (Assoc.insert k (InnerBucket.fromMeta m) b.buckets).lookup k =
          some (.fromMeta m) := Assoc.lookup_insert_self _ _ _
      have hb := h
      cases hb with
      | mk opened alive counter clean source names cacheKeys cached roots below =>
        have hkeys : (Assoc.keys subs).Nodup :=
          names.nodup_iff.mpr (bucketNames_nodup opened.separated.content)
        have hcontent : entryAt k t.content = some (.bucket k m) := hcur
        refine h.update (e := entryAt k t.content) (opened.congr rfl rfl rfl) alive clean counter
          (Edit.refl t k) hother (Assoc.nodup_insert _ _ cacheKeys) (fun x _ => rfl) hkeys
          ⟨fun _ => ⟨m, hcontent⟩, fun _ => ?_⟩ (fun _ => ⟨m, hcontent⟩) ?_
        · rw [← Assoc.lookup_isSome, hS]
          rfl
        · intro m' S' hm' hS'
          rw [hcontent] at hm'
          cases hm'
          rw [hS] at hS'
          cases hS'
          refine ⟨hpage, ?_⟩
          have hchild : childOf b k m = .fromMeta m := by rw [childOf, hlookup]; rfl
          rw [hchild] at hover
          rw [childOf, hself]
          exact hover

/-- A nested bucket is replaced by what an operation made of it. -/
theorem Overlay.setChild {t : NodeTree} {n : Nat} {subs : List (Bytes × Nest)} {k : Bytes}
    {m : BucketMeta} {c : InnerBucket} {S : Nest} (h : Overlay P origin b ⟨t, n, subs⟩)
    (hcur : entryAt k t.content = some (.bucket k m)) (hpage : S.tree.info.page = m.rootPage)
    (hover : Overlay P (originOf origin k m) c S) :
    Overlay P origin (b.setBucket k c) ⟨t, n, Assoc.insert k S subs⟩ := by
  have hb := h
  cases hb with
  | mk opened alive counter clean source names cacheKeys cached roots below =>
    have hkeys : (Assoc.keys subs).Nodup :=
      names.nodup_iff.mpr (bucketNames_nodup opened.separated.content)
    refine h.update (e := entryAt k t.content) (opened.congr rfl rfl rfl) alive clean counter
      (Edit.refl t k) (fun x hx => Assoc.lookup_insert_ne hx _ _)
      (Assoc.nodup_insert _ _ cacheKeys) (fun x hx => Assoc.lookup_insert_ne hx _ _)
      (Assoc.nodup_insert _ _ hkeys) ⟨fun _ => ⟨m, hcur⟩, fun _ => ?_⟩ (fun _ => ⟨m, hcur⟩) ?_
    · rw [← Assoc.lookup_isSome, Assoc.lookup_insert_self]
      rfl
    · intro m' S' hm' hS'
      rw [hcur] at hm'
      cases hm'
      rw [Assoc.lookup_insert_self] at hS'
      cases hS'
      refine ⟨hpage, ?_⟩
      rw [childOf, InnerBucket.setBucket, Assoc.lookup_insert_self]
      exact hover

/-- `bucket_getter` on the key of a value. -/
theorem Overlay.getter_value (h : Overlay P origin b T) (hN : Within N origin) (hfuel : N ≤ fuel)
    {k v : Bytes} (shouldCreate mustCreate : Bool) (hk : T.dir.entries k = some (.value v)) :
    ∃ s, onBucket (InnerBucket.bucketGetter P fuel k shouldCreate mustCreate) (b, fl) =
        .error (.error .incompatibleValue) s ∧ Becomes P origin T fl s T.dir none := by
  rcases h.entry_cases k with ⟨-, hd⟩ | ⟨w, hcur, hd⟩ | ⟨m, S, -, -, hd, -⟩
  · rw [hk] at hd; cases hd
  · obtain ⟨hlookup, -⟩ := h.lookup_none (k := k) fun m hm => by rw [hcur] at hm; cases hm
    obtain ⟨links, hget⟩ := bucketGetter_value h.opened (h.searchable hN hfuel) shouldCreate
      mustCreate hlookup hcur
    refine ⟨(Analysis.withParents b links, fl), ?_, (h.withParents links).becomes_self fl⟩
    simp only [onBucket, hget]
  · rw [hk] at hd; cases hd

/-- `bucket_getter` on an absent key that it does not create. -/
theorem Overlay.getter_missing (h : Overlay P origin b T) (hN : Within N origin)
    (hfuel : N ≤ fuel) {k : Bytes} (mustCreate : Bool) (hk : T.dir.entries k = none) :
    ∃ s, onBucket (InnerBucket.bucketGetter P fuel k false mustCreate) (b, fl) =
        .error (.error .bucketMissing) s ∧ Becomes P origin T fl s T.dir none := by
  rcases h.entry_cases k with ⟨hcur, -⟩ | ⟨w, hcur, hd⟩ | ⟨m, S, -, -, hd, -⟩
  · obtain ⟨hlookup, -⟩ := h.lookup_none (k := k) fun m hm => by rw [hcur] at hm; cases hm
    obtain ⟨links, hget⟩ := bucketGetter_missing h.opened (h.searchable hN hfuel) mustCreate
      hlookup hcur
    refine ⟨(Analysis.withParents b links, fl), ?_, (h.withParents links).becomes_self fl⟩
    simp only [onBucket, hget]
  · rw [hk] at hd; cases hd
  · rw [hk] at hd; cases hd

/-- `bucket_getter` on the name of a bucket that must be new. -/
theorem Overlay.getter_exists (h : Overlay P origin b T) (hN : Within N origin)
    (hfuel : N ≤ fuel) {k : Bytes} (shouldCreate : Bool) {c : Dir}
    (hk : T.dir.entries k = some (.bucket c)) :
    ∃ s, onBucket (InnerBucket.bucketGetter P fuel k shouldCreate true) (b, fl) =
        .error (.error .bucketExists) s ∧ Becomes P origin T fl s T.dir none := by
  rcases h.entry_cases k with ⟨-, hd⟩ | ⟨w, -, hd⟩ | ⟨m, S, hcur, -⟩
  · rw [hk] at hd; cases hd
  · rw [hk] at hd; cases hd
  · cases hlookup : b.buckets.lookup k with
    | some child =>
      have hget : InnerBucket.bucketGetter P fuel k shouldCreate true b = _ :=
        bucketGetter_opened shouldCreate true hlookup
      refine ⟨(b, fl), ?_, h.becomes_self fl⟩
      simp [onBucket, hget]
    | none =>
      obtain ⟨links, hget⟩ := bucketGetter_found h.opened (h.searchable hN hfuel) shouldCreate
        true hlookup hcur
      refine ⟨(Analysis.withParents b links, fl), ?_, (h.withParents links).becomes_self fl⟩
      simp [onBucket, hget]

/-- `bucket_getter` on the name of a bucket that may exist. -/
theorem Overlay.getter_found (h : Overlay P origin b T) (hN : Within N origin)
    (hfuel : N ≤ fuel) {k : Bytes} (shouldCreate : Bool) {c : Dir}
    (hk : T.dir.entries k = some (.bucket c)) :
    ∃ s, onBucket (InnerBucket.bucketGetter P fuel k shouldCreate false) (b, fl) = .ok () s ∧
      Becomes P origin T fl s T.dir none := by
  rcases h.entry_cases k with ⟨-, hd⟩ | ⟨w, -, hd⟩ | ⟨m, S, hcur, -⟩
  · rw [hk] at hd; cases hd
  · rw [hk] at hd; cases hd
  · obtain ⟨b', hget, -, hover⟩ := h.opens hN hfuel shouldCreate hcur fl
    exact ⟨(b', fl), hget, hover.becomes_self fl⟩

/-- `bucket_getter` on an absent key when the counter is the largest word. -/
theorem Overlay.getter_full (h : Overlay P origin b T) (hN : Within N origin)
    (hfuel : N ≤ fuel) {k : Bytes} (mustCreate : Bool) (hk : T.dir.entries k = none)
    (hfull : 2 ^ 64 ≤ T.dir.counter + 1) :
    ∃ s, onBucket (InnerBucket.bucketGetter P fuel k true mustCreate) (b, fl) =
      .error (.panic "attempt to add with overflow") s := by
  have hcur := h.entryAt_none hk
  obtain ⟨hlookup, -⟩ := h.lookup_none (k := k) fun m hm => by rw [hcur] at hm; cases hm
  rw [Nest.dir_counter, ← h.counter] at hfull
  obtain ⟨b', hget⟩ := bucketGetter_full h.opened (h.searchable hN hfuel) mustCreate hlookup hcur
    hfull
  exact ⟨(b', fl), by simp only [onBucket, hget]⟩

/-- `bucket_getter` creates a bucket. -/
theorem Overlay.getter_created (h : Overlay P origin b T) (hN : Within N origin)
    (hfuel : N ≤ fuel) {k : Bytes} (mustCreate : Bool) (hk : T.dir.entries k = none)
    (hroom : T.dir.counter + 1 < 2 ^ 64) :
    ∃ s, onBucket (InnerBucket.bucketGetter P fuel k true mustCreate) (b, fl) = .ok () s ∧
      Becomes P origin T fl s (T.dir.insert k (.bucket Dir.empty)) none := by
  have hcur := h.entryAt_none hk
  obtain ⟨hlookup, hfresh⟩ := h.lookup_none (k := k) fun m hm => by rw [hcur] at hm; cases hm
  obtain ⟨nodes, pageIds, links, t', hget, hedit, hopen⟩ :=
    bucketGetter_created h.opened (h.searchable hN hfuel) mustCreate hlookup hcur
      (by rwa [h.counter, ← Nest.dir_counter])
  have hcount := h.counted k
  rw [hcur, hk] at hcount
  obtain ⟨t, n, subs⟩ := T
  have hb := h
  cases hb with
  | mk opened alive counter clean source names cacheKeys cached roots below =>
    have hkeys : (Assoc.keys subs).Nodup :=
      names.nodup_iff.mpr (bucketNames_nodup opened.separated.content)
    have hover : Overlay P origin _ ⟨t', _, Assoc.insert k Nest.empty subs⟩ := h.update hopen alive
      (fun hd => by cases hd) rfl hedit (fun x hx => Assoc.lookup_insert_ne hx _ _)
      (Assoc.nodup_insert _ _ cacheKeys) (fun x hx => Assoc.lookup_insert_ne hx _ _)
      (Assoc.nodup_insert _ _ hkeys) ⟨fun _ => ⟨_, rfl⟩, fun _ => ?_⟩ (fun _ => ⟨_, rfl⟩) ?_
    · refine ⟨(_, fl), by simp only [onBucket, hget], _, [], rfl, hover, ?_, ?_⟩
      · refine (Nest.dir_update ⟨t, n, subs⟩ ⟨t', _, Assoc.insert k Nest.empty subs⟩ hedit
          fun x hx => Assoc.lookup_insert_ne hx _ _).trans ?_
        rw [Dir.insert, hk]
        congr 1
        simp only [Nest.entryOf, Nest.subs, Assoc.lookup_insert_self, Option.map_some,
          Nest.dir_empty]
      · exact .created hedit.bare hfresh
    · rw [← Assoc.lookup_isSome, Assoc.lookup_insert_self]
      rfl
    · intro m S hm hS
      cases hm
      rw [Assoc.lookup_insert_self] at hS
      cases hS
      refine ⟨rfl, ?_⟩
      rw [childOf, Assoc.lookup_insert_self]
      exact overlay_newBucket

/-- The committed nest of a nested bucket that has pages. -/
theorem Overlay.child_origin {c : InnerBucket} {S : Nest} {k : Bytes} {m : BucketMeta}
    (h : Overlay P (originOf origin k m) c S) (hpage : S.tree.info.page = m.rootPage)
    (hne : m.rootPage ≠ 0) :
    ∃ D, originOf origin k m = some D ∧ OnDisk P D ∧ D.tree.info.page = m.rootPage := by
  cases h with
  | mk opened alive counter clean source =>
    cases horigin : originOf origin k m with
    | none =>
      rw [horigin] at source
      exact absurd (hpage.symm.trans source.1) hne
    | some D =>
      rw [horigin] at source
      exact ⟨D, rfl, source.1, (page_of_map source.2.symm).trans hpage⟩

theorem retired_child {c : InnerBucket} {S : Nest} {k : Bytes} {m : BucketMeta}
    (hN : Within N origin) (hfuel : N ≤ fuel) (hover : Overlay P (originOf origin k m) c S)
    (hpage : S.tree.info.page = m.rootPage) (fl : TxFreelist) :
    ∃ ps, (if c.bucketMeta.rootPage = 0 then retire fl ps = fl
        else freePages P fuel [c.bucketMeta.rootPage] fl = .ok () (retire fl ps)) ∧
      ps.Perm (((originOf origin k m).map Nest.pages).getD []) := by
  have hroot : c.bucketMeta.rootPage = m.rootPage := hover.opened.root.trans hpage
  rw [hroot]
  by_cases hne : m.rootPage = 0
  · refine ⟨[], by rw [if_pos hne]; rfl, ?_⟩
    rw [originOf, if_pos hne]
    exact List.Perm.refl _
  · obtain ⟨D, horigin, hdisk, hDpage⟩ := hover.child_origin hpage hne
    have hsize := (hN.child k m).2 D horigin
    obtain ⟨ps, hwalk, hperm⟩ := hdisk.freePages (hsize.trans hfuel) fl
    rw [hDpage] at hwalk
    refine ⟨ps, by rw [if_neg hne]; exact hwalk, ?_⟩
    rw [horigin]
    exact hperm

/-- `delete_bucket` on the name of a bucket. -/
theorem Overlay.deleteBucket_done (h : Overlay P origin b T) (hN : Within N origin)
    (hfuel : N ≤ fuel) {k : Bytes} {c : Dir} (hk : T.dir.entries k = some (.bucket c)) :
    ∃ s, InnerBucket.deleteBucket P fuel k (b, fl) = .ok () s ∧
      Becomes P origin T fl s (T.dir.set k none) (some [k]) := by
  rcases h.entry_cases k with ⟨-, hd⟩ | ⟨w, -, hd⟩ | ⟨m, S, hcur, hS, -, hpage, hover⟩
  · rw [hk] at hd; cases hd
  · rw [hk] at hd; cases hd
  obtain ⟨ps, hfree, hperm⟩ := retired_child hN hfuel hover hpage fl
  obtain ⟨nodes, pageIds, links, t', hdel, hedit, hopen⟩ :=
    Analysis.deleteBucket_done h.opened (h.searchable hN hfuel) hcur hfree
  obtain ⟨t, n, subs⟩ := T
  have hb := h
  cases hb with
  | mk opened alive counter clean source names cacheKeys cached roots below =>
    have hkeys : (Assoc.keys subs).Nodup :=
      names.nodup_iff.mpr (bucketNames_nodup opened.separated.content)
    have hnot : ∀ {V : Type} (l : List (Bytes × V)), ¬ k ∈ Assoc.keys (Assoc.erase k l) := by
      intro V l hmem
      rw [Assoc.keys_erase] at hmem
      simp at hmem
    have hnodup : ∀ {V : Type} {l : List (Bytes × V)}, (Assoc.keys l).Nodup →
        (Assoc.keys (Assoc.erase k l)).Nodup := by
      intro V l hl
      rw [Assoc.keys_erase]
      exact hl.filter _
    have hnew : Overlay P origin _ ⟨t', n, Assoc.erase k subs⟩ := h.update hopen alive
      (fun hd => by cases hd) counter hedit (fun x hx => Assoc.lookup_erase_ne hx _)
      (hnodup cacheKeys) (fun x hx => Assoc.lookup_erase_ne hx _) (hnodup hkeys)
      ⟨fun hmem => absurd hmem (hnot subs), fun ⟨m, hm⟩ => by cases hm⟩
      (fun hmem => absurd hmem (hnot b.buckets)) (fun m S hm => by cases hm)
    refine ⟨(_, retire fl ps), hdel, _, ps, rfl, hnew, ?_, ?_⟩
    · refine (Nest.dir_update ⟨t, n, subs⟩ ⟨t', n, Assoc.erase k subs⟩ hedit
        fun x hx => Assoc.lookup_erase_ne hx _).trans ?_
      rw [Dir.set, Nest.dir_counter]
      rfl
    · exact .removed hedit.bare hS (by rwa [originFor_eq hpage])

/-- `delete_bucket` on any other key. -/
theorem Overlay.deleteBucket_refused (h : Overlay P origin b T) (hN : Within N origin)
    (hfuel : N ≤ fuel) {k : Bytes} (hk : ∀ c, T.dir.entries k ≠ some (.bucket c)) :
    ∃ s, InnerBucket.deleteBucket P fuel k (b, fl) =
        .error (.error (if (T.dir.entries k).isSome then .incompatibleValue
          else .bucketMissing)) s ∧
      Becomes P origin T fl s T.dir none := by
  cases hd : T.dir.entries k with
  | none =>
    obtain ⟨s, hget, hs⟩ := h.getter_missing fl hN hfuel false hd
    refine ⟨s, ?_, hs⟩
    simp [InnerBucket.deleteBucket, InnerBucket.getBucket, estate_bind, hget]
  | some e =>
    cases e with
    | value v =>
      obtain ⟨s, hget, hs⟩ := h.getter_value fl hN hfuel false false hd
      refine ⟨s, ?_, hs⟩
      simp [InnerBucket.deleteBucket, InnerBucket.getBucket, estate_bind, hget]
    | bucket c => exact absurd hd (hk c)

theorem Overlay.alive (h : Overlay P origin b T) : b.deleted = false := by
  cases h with
  | mk opened alive => exact alive

/-- `get` inside the methods of a bucket. -/
theorem Overlay.lookup (h : Overlay P origin b T) (hN : Within N origin) (hfuel : N ≤ fuel)
    (k : Bytes) :
    Bucket.lookup P fuel k (b, fl) = .ok (entryAt k T.tree.content) (b, fl) := by
  have hget := get_readable (k := k) h.opened.readable h.opened.root (h.searchable hN hfuel)
  simp [Bucket.lookup, estate_bind, hget]

/-- What the conditional operations compare with. -/
theorem Overlay.observe (h : Overlay P origin b T) (hN : Within N origin) (hfuel : N ≤ fuel)
    (k : Bytes) :
    Bucket.observe P fuel k (b, fl) =
      match T.dir.observe k with
      | .ok observed => .ok observed (b, fl)
      | .error e => .error (.error e) (b, fl) := by
  have hlookup := h.lookup fl hN hfuel k
  rcases h.entry_cases k with ⟨hcur, hd⟩ | ⟨v, hcur, hd⟩ | ⟨m, S, hcur, -, hd, -⟩ <;>
    rw [hcur] at hlookup <;>
    simp [Bucket.observe, Bucket.alive, estate_bind, h.alive, hlookup, Dir.observe, hd]

end Bucket

end Tagdata.Analysis
