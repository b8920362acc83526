import Tagdata.Analysis.Opened

/-!
# The operations of one bucket

What `put_leaf`, `delete`, `bucket_getter` and the last part of `delete_bucket` do to the tree
of a bucket: one edit of the content when they succeed, and nothing but recorded parents when
they refuse.
-/

set_option autoImplicit false

namespace Tagdata.Analysis

open Tagdata.Library Tagdata.Library.SearchTree Tagdata.Model

/-- The bucket with another arena and other maps. -/
def moved (b : InnerBucket) (nodes : List Node) (pageIds links : List (Nat × Nat)) :
    InnerBucket :=
  { b with nodes := nodes, pageNodeIds := pageIds, pageParents := links }

/-- The counter after inserting a key that had the given entry. -/
def counted (m : BucketMeta) (e : Option Leaf) : BucketMeta :=
  if e.isSome then m else { m with nextInt := m.nextInt + 1 }

theorem countKey_room {m : BucketMeta} (h : m.nextInt + 1 < 2 ^ 64) :
    m.countKey = .ok (counted m none) := by
  rw [BucketMeta.countKey, addU64, if_pos h]
  rfl

theorem countKey_full {m : BucketMeta} (h : 2 ^ 64 ≤ m.nextInt + 1) :
    m.countKey = .error (.panic "attempt to add with overflow") := by
  rw [BucketMeta.countKey, addU64, if_neg (not_lt.mpr h)]
  rfl

theorem counted_rootPage (m : BucketMeta) (e : Option Leaf) :
    (counted m e).rootPage = m.rootPage := by
  cases e <;> rfl

section Single

variable {P : Pages} {b : InnerBucket} {t : NodeTree} {fuel : Nat}

theorem Opened.withParents (h : Opened P b t) (links : List (Nat × Nat)) :
    Opened P (withParents b links) t := h.congr rfl rfl rfl

/-- What a descent reports, and what `val` reads at the position it found. -/
theorem Opened.find (h : Opened P b t) (k : Bytes) (hfuel : t.subs.length ≤ fuel) :
    ∃ C i d stack links, Descent P b k t C i d stack ∧ SortedBy Leaf.key d ∧
      links = parentLinks C i.page ++ b.pageParents ∧
      search P k fuel b.bucketMeta.rootPage [] b =
        .ok ((entryAt k t.content).isSome, ⟨(leafIndex d k).1, i.nodeId⟩ :: stack)
          (Analysis.withParents b links) ∧
      (∃ pn, (Analysis.withParents b links).pageNode P i.nodeId = .ok pn ∧
        ((entryAt k t.content).isSome → pn.val (leafIndex d k).1 = .ok (entryAt k t.content))) ∧
      entryAt k t.content = entryAt k d := by
  obtain ⟨C, i, d, stack, hdesc, hsearch, -⟩ := search_root (k := k) h.readable fuel hfuel
  have hsorted := hdesc.sorted h.readable
  obtain ⟨hfound, hval⟩ := leafIndex_entryAt hsorted k
  have hentry := hdesc.entryAt
  obtain ⟨pn, hpn, hd⟩ := hdesc.sees h.readable
  refine ⟨C, i, d, stack, _, hdesc, hsorted, rfl, ?_, ⟨pn, ?_, ?_⟩, hentry⟩
  · rw [h.root, hsearch, hentry]
    congr 2
    rw [Bool.eq_iff_iff]
    exact hfound
  · rw [pageNode_withParents]
    exact hpn
  · intro hsome
    rw [hentry] at hsome ⊢
    rw [val_of_leaves hd, hval (hfound.mpr hsome)]

/-- `put_leaf` refuses an entry of the other kind. -/
theorem putLeaf_refused (h : Opened P b t) (hfuel : t.subs.length ≤ fuel) (leaf : Leaf)
    {cur : Leaf} (hcur : entryAt leaf.key t.content = some cur) (hkind : cur.isKv ≠ leaf.isKv) :
    ∃ links, InnerBucket.putLeaf P fuel leaf b =
      .error (.error .incompatibleValue) (withParents b links) := by
  obtain ⟨C, i, d, stack, links, -, -, -, hsearch, ⟨pn, hpn, hval⟩, -⟩ := h.find leaf.key hfuel
  rw [hcur] at hsearch hval
  refine ⟨links, ?_⟩
  simp [InnerBucket.putLeaf, estate_bind, hsearch, hpn, hval, hkind]

/-- `put_leaf` panics on a new key when the counter is the largest word. -/
theorem putLeaf_full (h : Opened P b t) (hfuel : t.subs.length ≤ fuel) (leaf : Leaf)
    (hcur : entryAt leaf.key t.content = none) (hfull : 2 ^ 64 ≤ b.bucketMeta.nextInt + 1) :
    ∃ b', InnerBucket.putLeaf P fuel leaf b =
      .error (.panic "attempt to add with overflow") b' := by
  obtain ⟨C, i, d, stack, links, -, -, -, hsearch, -, -⟩ := h.find leaf.key hfuel
  rw [hcur] at hsearch
  refine ⟨withParents b links, ?_⟩
  have hcount : (withParents b links).bucketMeta.countKey = _ := countKey_full hfull
  simp [InnerBucket.putLeaf, estate_bind, hsearch, hcount]

/-- `put_leaf` writes the entry and counts it when the key is new. -/
theorem putLeaf_done (h : Opened P b t) (hfuel : t.subs.length ≤ fuel) (leaf : Leaf)
    (hroom : entryAt leaf.key t.content = none → b.bucketMeta.nextInt + 1 < 2 ^ 64)
    (hkind : ∀ cur, entryAt leaf.key t.content = some cur → cur.isKv = leaf.isKv) :
    ∃ nodes pageIds links t',
      InnerBucket.putLeaf P fuel leaf b = .ok (entryAt leaf.key t.content)
        { moved b nodes pageIds links with
          bucketMeta := counted b.bucketMeta (entryAt leaf.key t.content), dirty := true } ∧
      Edit t t' leaf.key (some leaf) ∧
      Opened P { moved b nodes pageIds links with
        bucketMeta := counted b.bucketMeta (entryAt leaf.key t.content), dirty := true } t' := by
  obtain ⟨C, i, d, stack, links, hdesc, hsorted, hlinks, hsearch, ⟨pn, hpn, hval⟩, -⟩ :=
    h.find leaf.key hfuel
  obtain ⟨nodes, pageIds, j, r, hnode, hslot, hedit⟩ := h.reach hdesc
    { withParents b links with bucketMeta := counted b.bucketMeta (entryAt leaf.key t.content) }
    rfl rfl (counted_rootPage _ _) hlinks hfuel
  obtain ⟨t', hed, hopen⟩ := hedit (some leaf) fun a ha => by rw [Option.some.inj ha]
  have hinsert := insertData_leaves (n := j.nodeOf r (.leaves d)) rfl hsorted leaf
  refine ⟨_, pageIds, links, t', ?_, hed, hopen.congr rfl rfl rfl⟩
  cases hcur : entryAt leaf.key t.content with
  | none =>
    rw [hcur] at hsearch hnode
    have hcount := countKey_room (hroom hcur)
    simp only [counted, withParents, Option.isSome_none, Bool.false_eq_true, if_false]
      at hnode hsearch hcount
    simp [InnerBucket.putLeaf, estate_bind, hsearch, hcount, hnode, InnerBucket.getNode, hslot,
      hinsert, counted]
    rfl
  | some cur =>
    rw [hcur] at hsearch hnode hval
    simp only [counted, withParents, Option.isSome_some, if_true, forall_const]
      at hnode hsearch hpn hval
    simp [InnerBucket.putLeaf, estate_bind, hsearch, hpn, hval, hkind cur hcur, hnode,
      InnerBucket.getNode, hslot, hinsert, counted]
    rfl

/-- `delete` on a key that is absent or names a bucket. -/
theorem delete_refused (h : Opened P b t) (hfuel : t.subs.length ≤ fuel) {k : Bytes}
    (hkind : ∀ cur, entryAt k t.content = some cur → cur.isKv = false) :
    ∃ links, InnerBucket.delete P fuel k b =
      .error (.error (if (entryAt k t.content).isSome then .incompatibleValue
        else .keyValueMissing)) (withParents b links) := by
  obtain ⟨C, i, d, stack, links, -, -, -, hsearch, ⟨pn, hpn, hval⟩, -⟩ := h.find k hfuel
  refine ⟨links, ?_⟩
  cases hcur : entryAt k t.content with
  | none =>
    rw [hcur] at hsearch
    simp [InnerBucket.delete, estate_bind, hsearch]
  | some cur =>
    rw [hcur] at hsearch hval
    simp [InnerBucket.delete, estate_bind, hsearch, hpn, hval, hkind cur hcur]

/-- `delete` on a key with a value. -/
theorem delete_done (h : Opened P b t) (hfuel : t.subs.length ≤ fuel) {k v : Bytes}
    (hcur : entryAt k t.content = some (.kv k v)) :
    ∃ nodes pageIds links t',
      InnerBucket.delete P fuel k b =
        .ok (k, v) { moved b nodes pageIds links with dirty := true } ∧
      Edit t t' k none ∧ Opened P { moved b nodes pageIds links with dirty := true } t' := by
  obtain ⟨C, i, d, stack, links, hdesc, hsorted, hlinks, hsearch, ⟨pn, hpn, hval⟩, hentry⟩ :=
    h.find k hfuel
  obtain ⟨nodes, pageIds, j, r, hnode, hslot, hedit⟩ := h.reach hdesc
    { withParents b links with dirty := true } rfl rfl rfl hlinks hfuel
  obtain ⟨t', hed, hopen⟩ := hedit none fun a ha => by cases ha
  rw [hcur] at hsearch hval hentry
  have hdelete := delete_leaves (n := j.nodeOf r (.leaves d)) rfl hsorted hentry.symm
  refine ⟨_, pageIds, links, t', ?_, hed, hopen.congr rfl rfl rfl⟩
  simp only [withParents, Option.isSome_some, forall_const] at hnode hsearch hpn hval
  simp [InnerBucket.delete, estate_bind, hsearch, hpn, hval, Leaf.isKv, hnode,
    InnerBucket.getNode, hslot, hdelete]
  rfl

/-- `bucket_getter` on a bucket that was opened before. -/
theorem bucketGetter_opened {name : Bytes} {c : InnerBucket} (shouldCreate mustCreate : Bool)
    (hlookup : b.buckets.lookup name = some c) :
    InnerBucket.bucketGetter P fuel name shouldCreate mustCreate b =
      if mustCreate then .error (.error .bucketExists) b else .ok () b := by
  cases mustCreate <;> simp [InnerBucket.bucketGetter, estate_bind, hlookup]

/-- `bucket_getter` on the name of a bucket that was not opened yet. -/
theorem bucketGetter_found (h : Opened P b t) (hfuel : t.subs.length ≤ fuel) {name : Bytes}
    {m : BucketMeta} (shouldCreate mustCreate : Bool) (hlookup : b.buckets.lookup name = none)
    (hcur : entryAt name t.content = some (.bucket name m)) :
    ∃ links, InnerBucket.bucketGetter P fuel name shouldCreate mustCreate b =
      if mustCreate then .error (.error .bucketExists) (withParents b links)
      else .ok () ((withParents b links).setBucket name (.fromMeta m)) := by
  obtain ⟨C, i, d, stack, links, -, -, -, hsearch, ⟨pn, hpn, hval⟩, -⟩ := h.find name hfuel
  rw [hcur] at hsearch hval
  refine ⟨links, ?_⟩
  cases mustCreate <;>
    simp [InnerBucket.bucketGetter, estate_bind, hlookup, hsearch, hpn, hval]

/-- `bucket_getter` on the key of a value. -/
theorem bucketGetter_value (h : Opened P b t) (hfuel : t.subs.length ≤ fuel) {name v : Bytes}
    (shouldCreate mustCreate : Bool) (hlookup : b.buckets.lookup name = none)
    (hcur : entryAt name t.content = some (.kv name v)) :
    ∃ links, InnerBucket.bucketGetter P fuel name shouldCreate mustCreate b =
      .error (.error .incompatibleValue) (withParents b links) := by
  obtain ⟨C, i, d, stack, links, -, -, -, hsearch, ⟨pn, hpn, hval⟩, -⟩ := h.find name hfuel
  rw [hcur] at hsearch hval
  exact ⟨links, by simp [InnerBucket.bucketGetter, estate_bind, hlookup, hsearch, hpn, hval]⟩

/-- `bucket_getter` on an absent name that it must not create. -/
theorem bucketGetter_missing (h : Opened P b t) (hfuel : t.subs.length ≤ fuel) {name : Bytes}
    (mustCreate : Bool) (hlookup : b.buckets.lookup name = none)
    (hcur : entryAt name t.content = none) :
    ∃ links, InnerBucket.bucketGetter P fuel name false mustCreate b =
      .error (.error .bucketMissing) (withParents b links) := by
  obtain ⟨C, i, d, stack, links, -, -, -, hsearch, -, -⟩ := h.find name hfuel
  rw [hcur] at hsearch
  exact ⟨links, by simp [InnerBucket.bucketGetter, estate_bind, hlookup, hsearch]⟩

/-- `bucket_getter` panics on an absent name when the counter is the largest word. -/
theorem bucketGetter_full (h : Opened P b t) (hfuel : t.subs.length ≤ fuel) {name : Bytes}
    (mustCreate : Bool) (hlookup : b.buckets.lookup name = none)
    (hcur : entryAt name t.content = none) (hfull : 2 ^ 64 ≤ b.bucketMeta.nextInt + 1) :
    ∃ b', InnerBucket.bucketGetter P fuel name true mustCreate b =
      .error (.panic "attempt to add with overflow") b' := by
  obtain ⟨C, i, d, stack, links, -, -, -, hsearch, -, -⟩ := h.find name hfuel
  rw [hcur] at hsearch
  refine ⟨withParents b links, ?_⟩
  have hcount : (withParents b links).bucketMeta.countKey = _ := countKey_full hfull
  simp [InnerBucket.bucketGetter, estate_bind, hlookup, hsearch, hcount]

/-- `bucket_getter` creates an absent bucket and counts it. -/
theorem bucketGetter_created (h : Opened P b t) (hfuel : t.subs.length ≤ fuel) {name : Bytes}
    (mustCreate : Bool) (hlookup : b.buckets.lookup name = none)
    (hcur : entryAt name t.content = none) (hroom : b.bucketMeta.nextInt + 1 < 2 ^ 64) :
    ∃ nodes pageIds links t',
      InnerBucket.bucketGetter P fuel name true mustCreate b =
        .ok () { moved b nodes pageIds links with
          bucketMeta := counted b.bucketMeta none, dirty := true
          buckets := Assoc.insert name InnerBucket.newBucket b.buckets } ∧
      Edit t t' name (some (.bucket name BucketMeta.default)) ∧
      Opened P { moved b nodes pageIds links with
          bucketMeta := counted b.bucketMeta none, dirty := true
          buckets := Assoc.insert name InnerBucket.newBucket b.buckets } t' := by
  obtain ⟨C, i, d, stack, links, hdesc, hsorted, hlinks, hsearch, -, -⟩ := h.find name hfuel
  obtain ⟨nodes, pageIds, j, r, hnode, hslot, hedit⟩ := h.reach hdesc
    { withParents b links with
      bucketMeta := counted b.bucketMeta none, dirty := true
      buckets := Assoc.insert name InnerBucket.newBucket b.buckets }
    rfl rfl (counted_rootPage _ _) hlinks hfuel
  obtain ⟨t', hed, hopen⟩ := hedit (some (.bucket name BucketMeta.default)) fun a ha => by
    rw [← Option.some.inj ha]
    rfl
  have hinsert := insertData_leaves (n := j.nodeOf r (.leaves d)) rfl hsorted
    (.bucket name InnerBucket.newBucket.bucketMeta)
  refine ⟨_, pageIds, links, t', ?_, hed, hopen.congr rfl rfl rfl⟩
  rw [hcur] at hsearch
  have hcount := countKey_room hroom
  simp only [withParents, counted, Option.isSome_none, Bool.false_eq_true, if_false]
    at hnode hsearch hcount
  simp [InnerBucket.bucketGetter, estate_bind, hlookup, hsearch, hcount, hnode,
    InnerBucket.setBucket,
    InnerBucket.getNode, hslot, hinsert, counted]
  rfl

/-- `bucket_getter` on the name of a bucket, opened before or not. -/
theorem bucketGetter_named (h : Opened P b t) (hfuel : t.subs.length ≤ fuel) {name : Bytes}
    {m : BucketMeta} (shouldCreate : Bool)
    (hcur : entryAt name t.content = some (.bucket name m)) :
    ∃ links, InnerBucket.bucketGetter P fuel name shouldCreate false b =
      .ok () { withParents b links with
        buckets := match b.buckets.lookup name with
          | some _ => b.buckets
          | none => Assoc.insert name (.fromMeta m) b.buckets } := by
  cases hlookup : b.buckets.lookup name with
  | some c =>
    refine ⟨b.pageParents, ?_⟩
    rw [bucketGetter_opened shouldCreate false hlookup]
    cases b
    rfl
  | none =>
    obtain ⟨links, hget⟩ := bucketGetter_found h hfuel shouldCreate false hlookup hcur
    exact ⟨links, hget⟩

/-- The last part of `delete_bucket`: the entry of a bucket is deleted. -/
theorem removeEntry_done (h : Opened P b t) (hfuel : t.subs.length ≤ fuel) {name : Bytes}
    {m : BucketMeta} (hcur : entryAt name t.content = some (.bucket name m)) :
    ∃ (j : Nat) (id : PageNodeID) (stack : List SearchPath) (links : List (Nat × Nat))
      (pn : PageNode) (nodes : List Node) (pageIds : List (Nat × Nat)) (n n' : Node)
      (t' : NodeTree),
      search P name fuel b.bucketMeta.rootPage [] b =
        .ok (true, ⟨j, id⟩ :: stack) (withParents b links) ∧
      (withParents b links).pageNode P id = .ok pn ∧
      pn.val j = .ok (some (.bucket name m)) ∧
      InnerBucket.node P fuel id none { withParents b links with dirty := true } =
        .ok n.id { moved b nodes pageIds links with dirty := true } ∧
      nodes[n.id]? = some n ∧ n.delete j = .ok (.bucket name m, n') ∧
      n'.id = n.id ∧ Edit t t' name none ∧
      Opened P { moved b (nodes.set n.id n') pageIds links with dirty := true } t' := by
  obtain ⟨C, i, d, stack, links, hdesc, hsorted, hlinks, hsearch, ⟨pn, hpn, hval⟩, hentry⟩ :=
    h.find name hfuel
  obtain ⟨nodes, pageIds, j, r, hnode, hslot, hedit⟩ := h.reach hdesc
    { withParents b links with dirty := true } rfl rfl rfl hlinks hfuel
  obtain ⟨t', hed, hopen⟩ := hedit none fun a ha => by cases ha
  rw [hcur] at hsearch hval hentry
  have hdelete := delete_leaves (n := j.nodeOf r (.leaves d)) rfl hsorted hentry.symm
  exact ⟨_, _, stack, links, pn, nodes, pageIds, j.nodeOf r (.leaves d), _, t', hsearch, hpn,
    hval rfl, hnode, hslot, hdelete, rfl, hed, hopen.congr rfl rfl rfl⟩

/-- `delete_bucket` on a bucket whose pages can be walked. -/
theorem deleteBucket_done (h : Opened P b t) (hfuel : t.subs.length ≤ fuel) {name : Bytes}
    {m : BucketMeta} {fl fl' : TxFreelist} (hcur : entryAt name t.content = some (.bucket name m))
    (hfree : if ((b.buckets.lookup name).getD (.fromMeta m)).bucketMeta.rootPage = 0 then fl' = fl
      else freePages P fuel [((b.buckets.lookup name).getD (.fromMeta m)).bucketMeta.rootPage] fl =
        .ok () fl') :
    ∃ nodes pageIds links t',
      InnerBucket.deleteBucket P fuel name (b, fl) =
        .ok () ({ moved b nodes pageIds links with
          dirty := true, buckets := Assoc.erase name b.buckets }, fl') ∧
      Edit t t' name none ∧
      Opened P { moved b nodes pageIds links with
          dirty := true, buckets := Assoc.erase name b.buckets } t' := by
  obtain ⟨links₀, hget⟩ := bucketGetter_named h hfuel false hcur
  -- the bucket after `get_bucket` and after its entry in the map was removed
  let b₁ : InnerBucket := { withParents b links₀ with
    buckets := match b.buckets.lookup name with
      | some _ => b.buckets
      | none => Assoc.insert name (.fromMeta m) b.buckets }
  let b₂ : InnerBucket := { b₁ with buckets := Assoc.erase name b.buckets }
  have hchild : b₁.buckets.lookup name = some ((b.buckets.lookup name).getD (.fromMeta m)) := by
    cases hlookup : b.buckets.lookup name with
    | some c => simp [b₁, hlookup]
    | none => simp [b₁, hlookup]
  have herase : { b₁ with buckets := Assoc.erase name b₁.buckets } = b₂ := by
    cases hlookup : b.buckets.lookup name with
    | some c => simp [b₁, b₂, hlookup]
    | none => simp [b₁, b₂, hlookup, Assoc.erase_insert]
  have h₂ : Opened P b₂ t := h.congr rfl rfl rfl
  obtain ⟨j, id, stack, links, pn, nodes, pageIds, n, n', t', hsearch, hpn, hval, hnode, hslot,
    hdelete, hid, hed, hopen⟩ := removeEntry_done h₂ hfuel hcur
  refine ⟨nodes.set n.id n', pageIds, links, t', ?_, hed, hopen⟩
  have hget' : onBucket (InnerBucket.getBucket P fuel name) (b, fl) = .ok () (b₁, fl) := by
    simp only [onBucket, InnerBucket.getBucket, hget]
    rfl
  have hsearch' : ∀ fl, onBucket (search P name fuel b₁.bucketMeta.rootPage []) (b₂, fl) =
      .ok (true, ⟨j, id⟩ :: stack) (withParents b₂ links, fl) := by
    intro fl
    have hstep : search P name fuel b₁.bucketMeta.rootPage [] b₂ = _ := hsearch
    simp only [onBucket, hstep]
  have hnode' : ∀ fl, onBucket (InnerBucket.node P fuel id none)
      ({ withParents b₂ links with dirty := true }, fl) =
        .ok n.id ({ moved b₂ nodes pageIds links with dirty := true }, fl) := by
    intro fl
    simp only [onBucket, hnode]
  have hset : ({ moved b₂ nodes pageIds links with dirty := true } : InnerBucket).setNode n' =
      { moved b (nodes.set n.id n') pageIds links with
        dirty := true, buckets := Assoc.erase name b.buckets } := by
    simp only [InnerBucket.setNode, hid]
    rfl
  have hgetNode : ({ moved b₂ nodes pageIds links with dirty := true } : InnerBucket).getNode n.id =
      .ok n := by
    simp only [InnerBucket.getNode, moved, hslot, except_pure]
  unfold InnerBucket.deleteBucket
  by_cases h0 : ((b.buckets.lookup name).getD (.fromMeta m)).bucketMeta.rootPage = 0
  · rw [if_pos h0] at hfree
    subst hfree
    simp [estate_bind, hget', hchild, herase, h0, hsearch', hpn, hval, Leaf.isKv, hnode',
      hgetNode, hdelete, hset]
  · rw [if_neg h0] at hfree
    simp [estate_bind, hget', hchild, herase, h0, hfree, hsearch', hpn, hval, Leaf.isKv, hnode',
      hgetNode, hdelete, hset]

end Single

end Tagdata.Analysis
