import Tagdata.Analysis.Nests

/-!
# The buckets of a write transaction

`Overlay` ties an opened bucket, with the buckets it has opened itself, to a nest of trees.
A nested bucket that was not opened stands for what its meta says, so opening one changes
nothing.  The origin of a bucket is the committed nest it was read from; a bucket that the
transaction created has none and stands on page 0.
-/

set_option autoImplicit false

namespace Tagdata.Analysis

open Tagdata.Library Tagdata.Library.SearchTree Tagdata.Model

/-- The opened bucket with a name, or else the committed one. -/
def childOf (b : InnerBucket) (name : Bytes) (m : BucketMeta) : InnerBucket :=
  (b.buckets.lookup name).getD (.fromMeta m)

/-- The origin of a nested bucket. -/
def originOf (origin : Option Nest) (name : Bytes) (m : BucketMeta) : Option Nest :=
  if m.rootPage = 0 then none else origin.bind fun D => D.subs.lookup name

/-- The tree of a bucket is that of its origin, but for records and entries. -/
def Source (P : Pages) : Option Nest → NodeTree → Prop
  | none, t => t.info.page = 0 ∧ t.isLeaf = true
  | some D, t => OnDisk P D ∧ bare t = bare D.tree

/-- The nest of trees a bucket of a write transaction stands for. -/
inductive Overlay (P : Pages) : Option Nest → InnerBucket → Nest → Prop
  | mk {origin : Option Nest} {b : InnerBucket} {t : NodeTree} {n : Nat}
      {subs : List (Bytes × Nest)}
      (opened : Opened P b t) (alive : b.deleted = false) (counter : b.bucketMeta.nextInt = n)
      (clean : b.dirty = false → b.nodes = []) (source : Source P origin t)
      (names : (Assoc.keys subs).Perm (bucketNames t.content))
      (cacheKeys : (Assoc.keys b.buckets).Nodup)
      (cached : ∀ name ∈ Assoc.keys b.buckets, name ∈ bucketNames t.content)
      (roots : ∀ name m T, entryAt name t.content = some (.bucket name m) →
        subs.lookup name = some T → T.tree.info.page = m.rootPage)
      (below : ∀ name m T, entryAt name t.content = some (.bucket name m) →
        subs.lookup name = some T →
        Overlay P (originOf origin name m) (childOf b name m) T) :
      Overlay P origin b ⟨t, n, subs⟩

/-! ## A bucket that was just opened -/

section Fresh

variable {P : Pages}

theorem CommittedTree.unloaded {root : Nat} {t : NodeTree} (h : CommittedTree P root t) :
    ∀ u ∈ t.subs, u.info.loaded = none := by
  intro u hu
  have hblock := h.blocks u hu
  cases u with
  | leaf i d => exact hblock.1
  | branch i ks => exact hblock.1.1

theorem CommittedTree.linked {root : Nat} {t : NodeTree} (h : CommittedTree P root t) :
    Holds linkTag linked t := by
  intro u hu
  have hun := h.unloaded u hu
  cases u with
  | leaf i d =>
    intro r hr
    rw [show i.loaded = none from hun] at hr
    cases hr
  | branch i ks =>
    refine ⟨fun hnil => h.bushy _ hu rfl (List.map_eq_nil_iff.mp hnil), ?_⟩
    rw [show i.loaded = none from hun]
    simp only [tags, List.forall_mem_map]
    intro e he
    have hkid : e.2 ∈ t.subs := subs_trans (kid_mem_subs (t := branch i ks) he) hu
    rw [tag_link_unloaded (h.unloaded e.2 hkid), h.indexed _ hu e he]

/-- The page of every block is one of its pages. -/
theorem CommittedTree.head_mem {root : Nat} {t : NodeTree} (h : CommittedTree P root t)
    (hroot : t.info.page ≠ 0) : ∀ i ∈ t.infos, i.page ∈ i.block := by
  have hpages : ∀ i ∈ t.infos, i.page ≠ 0 := by
    intro i hi
    rw [infos_root, List.mem_cons, List.mem_flatMap] at hi
    rcases hi with rfl | ⟨e, he, hi⟩
    · exact hroot
    · obtain ⟨u, hu, rfl⟩ := List.mem_map.mp hi
      obtain ⟨C, hC⟩ := exists_plug (subs_trans hu (kid_mem_subs he))
      cases C with
      | nil =>
        rw [show u = t from hC.symm]
        exact hroot
      | cons f C =>
        have hfill : f.fill u ∈ t.subs := hC ▸ mem_subs_plug C (f.fill u)
        have hpage := (h.blocks _ hfill).2 (f.key, tag pageTag u) (by simp [tags])
        rw [tag_page] at hpage
        omega
  intro i hi
  obtain ⟨u, hu, rfl⟩ := List.mem_map.mp hi
  have hblock : ∃ data, BlockAt P u.info data := by
    have := h.blocks u hu
    cases u with
    | leaf i d => exact ⟨_, this⟩
    | branch i ks => exact ⟨_, this.1⟩
  obtain ⟨data, -, overflow, hspan, -⟩ := hblock
  rw [Info.block_of (hpages _ hi), hspan]
  exact List.mem_range'_1.mpr ⟨le_rfl, by omega⟩

/-- Disjoint blocks start at different pages. -/
theorem nodup_heads {l : List Info} (h : (l.flatMap Info.block).Nodup)
    (hmem : ∀ i ∈ l, i.page ∈ i.block) : (l.map Info.page).Nodup := by
  induction l with
  | nil => simp
  | cons i l ih =>
    rw [List.flatMap_cons, List.nodup_append'] at h
    obtain ⟨-, hl, hdisj⟩ := h
    rw [List.map_cons, List.nodup_cons]
    refine ⟨fun hin => ?_, ih hl fun j hj => hmem j (List.mem_cons_of_mem _ hj)⟩
    obtain ⟨j, hj, heq⟩ := List.mem_map.mp hin
    refine hdisj (hmem i List.mem_cons_self) (List.mem_flatMap.mpr ⟨j, hj, ?_⟩)
    exact heq ▸ hmem j (List.mem_cons_of_mem _ hj)

theorem ids_unloaded {t : NodeTree} (h : ∀ u ∈ t.subs, u.info.loaded = none) : ids t = [] := by
  refine List.filterMap_eq_nil_iff.mpr fun i hi => ?_
  obtain ⟨u, hu, rfl⟩ := List.mem_map.mp hi
  simp [Info.id?, h u hu]

/-- A committed tree, as the bucket that was just opened reads it. -/
theorem CommittedTree.opened {m : BucketMeta} {t : NodeTree} (h : CommittedTree P m.rootPage t)
    (hroot : t.info.page ≠ 0) (hnodup : (t.infos.flatMap Info.block).Nodup) :
    Opened P (.fromMeta m) t where
  stored := h.readable.stored
  linked := h.linked
  root := h.page.symm
  heads := nodup_heads hnodup (h.head_mem hroot)
  ids := by
    rw [ids_unloaded h.unloaded]
    exact List.Perm.refl _
  separated := h.separated
  routable := h.readable.routable
  blank := fun _ => rfl

/-- A committed bucket stands for its nest. -/
theorem OnDisk.overlay {D : Nest} (h : OnDisk P D) :
    ∀ {m : BucketMeta}, D.pages.Nodup → D.tree.info.page = m.rootPage → D.counter = m.nextInt →
      Overlay P (some D) (.fromMeta m) D := by
  induction h with
  | @mk t n subs tree root names metas below ih =>
    intro m hnodup hroot hcounter
    rw [Nest.pages_mk, List.nodup_append'] at hnodup
    obtain ⟨hown, hsubs, -⟩ := hnodup
    have htree : CommittedTree P m.rootPage t := hroot ▸ tree
    have hopened := htree.opened (by omega) hown
    refine .mk hopened rfl hcounter.symm (fun _ => rfl) ⟨.mk tree root names metas below, rfl⟩ names
      List.nodup_nil (by simp [InnerBucket.fromMeta, Assoc.keys]) ?_ ?_
    · intro name m' T hentry hlookup
      exact (metas name m' T hentry hlookup).1
    · intro name m' T hentry hlookup
      have hmem := Assoc.mem_of_lookup hlookup
      obtain ⟨hpage, hcount⟩ := metas name m' T hentry hlookup
      have hne : m'.rootPage ≠ 0 := by
        have hT := below name T hmem
        cases hT with
        | mk tree' root' =>
          have hpage' : _ = m'.rootPage := hpage
          simp only [Nest.tree] at hpage'
          omega
      have hpages : T.pages.Nodup := by
        have hall := (List.nodup_flatMap.mp hsubs).1
        exact hall (name, T) hmem
      have horigin : originOf (some ⟨t, n, subs⟩) name m' = some T := by
        rw [originOf, if_neg hne]
        exact hlookup
      rw [horigin]
      exact ih name T hmem hpages hpage hcount

/-- The nest of a bucket that was just created. -/
def Nest.empty : Nest := ⟨leaf ⟨0, 0, some ⟨0, [], none, none⟩⟩ [], 0, []⟩

theorem overlay_newBucket : Overlay P none .newBucket Nest.empty := by
  refine .mk ⟨?_, ?_, rfl, ?_, ?_, ?_, ?_, ?_⟩ rfl rfl ?_ ⟨rfl, rfl⟩ (List.Perm.refl _)
    List.nodup_nil
    ?_ ?_ ?_
  · refine (holds_leaf _ _).mpr ?_
    exact ⟨rfl, rfl⟩
  · refine (holds_leaf _ _).mpr fun r hr => ?_
    obtain rfl := Option.some.inj hr
    rfl
  · simp [heads]
  · exact List.Perm.refl _
  · exact (separated_leaf Leaf.key _ _).mpr List.Pairwise.nil
  · exact routable_leaf Leaf.key _ _
  · intro hnone
    cases hnone
  · intro hdirty
    cases hdirty
  · intro name hname
    simp [InnerBucket.newBucket, Assoc.keys] at hname
  · intro name m T hentry
    simp [entryAt] at hentry
  · intro name m T hentry
    simp [entryAt] at hentry

end Fresh

end Tagdata.Analysis
