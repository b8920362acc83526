import Tagdata.Analysis.Overlay

/-!
# Checking committed nests

Whether a nest is committed can be decided by looking at each of its blocks.  `nestCheck`
does so, and `Committed` collects what the results about write transactions assume of the
bucket they start from.
-/

set_option autoImplicit false

namespace Tagdata.Analysis

open Tagdata.Library Tagdata.Library.SearchTree Tagdata.Model

/-- A committed bucket with the given meta: its nest is in the file and no page is reached
twice. -/
structure Committed (P : Pages) (m : BucketMeta) (D : Nest) : Prop where
  disk : OnDisk P D
  pages : D.pages.Nodup
  root : D.tree.info.page = m.rootPage
  counter : D.counter = m.nextInt

theorem Committed.overlay {P : Pages} {m : BucketMeta} {D : Nest} (h : Committed P m D) :
    Overlay P (some D) (.fromMeta m) D := h.disk.overlay h.pages h.root h.counter

/-- The block of a node is in the file. -/
def blockCheck (P : Pages) (u : NodeTree) : Bool :=
  match u.info.span, P.nodePage u.info.page with
  | overflow + 1, .ok page =>
      u.info.loaded.isNone && decide (page = ⟨u.info.page, overflow, .ofNodeData (nodeData u)⟩)
  | _, _ => false

/-- The children of a node are in order and their separators are right. -/
def orderCheck (u : NodeTree) : Bool :=
  decide ((ownKeys Leaf.key u).Pairwise (· < ·)) && (u.isLeaf || !u.kids.isEmpty) &&
  (u.kids.all fun e => decide (2 ≤ e.2.info.page) && decide (firstKey? Leaf.key e.2 = some e.1)) &&
  ((u.kids.zip u.kids.tail).all fun p => (keys Leaf.key p.1.2).all fun x => decide (x < p.2.1))

/-- All blocks of a tree. -/
def treeCheck (P : Pages) (t : NodeTree) : Bool :=
  t.subs.all fun u => blockCheck P u && orderCheck u

/-- The metas of the nested buckets agree with their nests. -/
def metaCheck (t : NodeTree) (subs : List (Bytes × Nest)) : Bool :=
  (t.content.filterMap bucketOf).all fun e =>
    match subs.lookup e.1 with
    | some D => decide (D.tree.info.page = e.2.rootPage) && decide (D.counter = e.2.nextInt)
    | none => true

mutual

/-- All trees of a nest. -/
def nestCheck (P : Pages) : Nest → Bool
  | ⟨t, _, subs⟩ =>
      treeCheck P t && decide (2 ≤ t.info.page) &&
      decide (Assoc.keys subs = bucketNames t.content) && metaCheck t subs && subCheck P subs

/-- All trees of several nests. -/
def subCheck (P : Pages) : List (Bytes × Nest) → Bool
  | [] => true
  | (_, T) :: rest => nestCheck P T && subCheck P rest

end

section Sound

variable {P : Pages}

theorem blockCheck_sound {u : NodeTree} (h : blockCheck P u = true) :
    BlockAt P u.info (nodeData u) := by
  unfold blockCheck at h
  split at h
  · next overflow page hspan hpage =>
    obtain ⟨hloaded, heq⟩ := Bool.and_eq_true_iff.mp h
    refine ⟨Option.isNone_iff_eq_none.mp hloaded, overflow, hspan, ?_⟩
    rw [hpage, of_decide_eq_true heq]
  · cases h

theorem treeCheck_sound {t : NodeTree} (h : treeCheck P t = true) :
    CommittedTree P t.info.page t := by
  have hall : ∀ u ∈ t.subs, blockCheck P u = true ∧ orderCheck u = true := by
    intro u hu
    exact Bool.and_eq_true_iff.mp (List.all_eq_true.mp h u hu)
  have horder : ∀ u ∈ t.subs, (ownKeys Leaf.key u).Pairwise (· < ·) ∧
      (u.isLeaf = true ∨ u.kids ≠ []) ∧
      (∀ e ∈ u.kids, 2 ≤ e.2.info.page ∧ firstKey? Leaf.key e.2 = some e.1) ∧
      ∀ p ∈ u.kids.zip u.kids.tail, ∀ x ∈ keys Leaf.key p.1.2, x < p.2.1 := by
    intro u hu
    have hu := (hall u hu).2
    simp only [orderCheck, Bool.and_eq_true, decide_eq_true_eq, Bool.or_eq_true,
      Bool.not_eq_true', List.isEmpty_eq_false_iff, List.all_eq_true] at hu
    exact ⟨hu.1.1.1, hu.1.1.2, hu.1.2, hu.2⟩
  refine ⟨rfl, ?_, fun u hu => (horder u hu).1, ?_, fun u hu e he => ((horder u hu).2.2.1 e he).2,
    ?_⟩
  · intro u hu
    have hblock := blockCheck_sound (hall u hu).1
    cases u with
    | leaf i d => exact hblock
    | branch i ks =>
      refine ⟨hblock, fun e he => ?_⟩
      obtain ⟨kid, hkid, rfl⟩ := List.mem_map.mp he
      rw [tag_page]
      exact ((horder _ hu).2.2.1 kid hkid).1
  · intro u hu pre e e' post hkids x hx
    refine (horder u hu).2.2.2 (e, e') ?_ x hx
    rw [hkids]
    clear hkids
    induction pre with
    | nil => simp
    | cons a pre ih =>
      cases pre with
      | nil => simp
      | cons a' pre =>
        simp only [List.cons_append, List.tail_cons, List.zip_cons_cons] at ih ⊢
        exact List.mem_cons_of_mem _ ih
  · intro u hu hleaf
    rcases (horder u hu).2.1 with htrue | hne
    · rw [hleaf] at htrue
      cases htrue
    · exact hne

theorem metaCheck_sound {t : NodeTree} {subs : List (Bytes × Nest)} (h : metaCheck t subs = true)
    {name : Bytes} {m : BucketMeta} {D : Nest}
    (hentry : entryAt name t.content = some (.bucket name m))
    (hlookup : subs.lookup name = some D) :
    D.tree.info.page = m.rootPage ∧ D.counter = m.nextInt := by
  have hmem : (name, m) ∈ t.content.filterMap bucketOf :=
    List.mem_filterMap.mpr ⟨_, List.mem_of_find?_eq_some hentry, rfl⟩
  have hall := List.all_eq_true.mp h (name, m) hmem
  simp only [hlookup, Bool.and_eq_true, decide_eq_true_eq] at hall
  exact hall

mutual

theorem nestCheck_sound : ∀ {D : Nest}, nestCheck P D = true → OnDisk P D
  | ⟨t, n, subs⟩, h => by
      simp only [nestCheck, Bool.and_eq_true, decide_eq_true_eq] at h
      obtain ⟨⟨⟨⟨htree, hroot⟩, hnames⟩, hmeta⟩, hsubs⟩ := h
      refine .mk (treeCheck_sound htree) hroot (hnames ▸ List.Perm.refl _) ?_ ?_
      · exact fun name m D hentry hlookup => metaCheck_sound hmeta hentry hlookup
      · exact fun name D hmem => subCheck_sound hsubs (name, D) hmem

theorem subCheck_sound : ∀ {subs : List (Bytes × Nest)}, subCheck P subs = true →
    ∀ e ∈ subs, OnDisk P e.2
  | [], _ => by simp
  | (name, T) :: rest, h => by
      simp only [subCheck, Bool.and_eq_true] at h
      intro e he
      rcases List.mem_cons.mp he with rfl | he
      · exact nestCheck_sound h.1
      · exact subCheck_sound h.2 e he

end

/-- The check decides what the results about write transactions assume. -/
theorem committed_of_check {m : BucketMeta} {D : Nest} (h : nestCheck P D = true)
    (hpages : D.pages.Nodup) (hroot : D.tree.info.page = m.rootPage)
    (hcounter : D.counter = m.nextInt) : Committed P m D :=
  ⟨nestCheck_sound h, hpages, hroot, hcounter⟩

end Sound

end Tagdata.Analysis
