import Tagdata.Analysis.CursorWalk

/-!
# The read paths of a committed tree

A committed tree is a tree of blocks of the file that satisfies the tree invariant.  On such
a tree `search`, `search_leaf`, `get`, the forward cursor, the backward cursor and a cursor
moved by `seek` all read the same list of entries.
-/

set_option autoImplicit false

namespace Tagdata.Analysis

open Tagdata.Library Tagdata.Library.SearchTree Tagdata.Model

/-- A label is a block of the file. -/
def BlockAt (P : Pages) (i : Info) (data : NodeData) : Prop :=
  i.loaded = none ∧ ∃ overflow, i.span = overflow + 1 ∧
    P.nodePage i.page = .ok ⟨i.page, overflow, .ofNodeData data⟩

/-- Every label is a block of the file; pages 0 and 1 are those of the metadata. -/
def onDisk (P : Pages) : LocalPred Bytes Info Leaf Nat where
  onLeaf i d := BlockAt P i (.leaves d)
  onBranch i ks := BlockAt P i (branchData ks) ∧ ∀ e ∈ ks, 2 ≤ e.2

/-- The tree invariant: nodes are strictly sorted, a branch key is the first key of its
child, the keys under a branch key are smaller than the next one, and only a root leaf may
be empty. -/
structure CommittedTree (P : Pages) (root : Nat) (t : NodeTree) : Prop where
  page : t.info.page = root
  blocks : Holds pageTag (onDisk P) t
  sorted : ∀ u ∈ t.subs, (ownKeys Leaf.key u).Pairwise (· < ·)
  bounded : ∀ u ∈ t.subs, ∀ pre e e' post, u.kids = pre ++ e :: e' :: post →
    ∀ x ∈ keys Leaf.key e.2, x < e'.1
  indexed : Indexed Leaf.key t
  bushy : ∀ u ∈ t.subs, u.isLeaf = false → u.kids ≠ []

namespace CommittedTree

variable {P : Pages} {root : Nat} {t : NodeTree}

theorem separated (h : CommittedTree P root t) : Separated Leaf.key t :=
  h.indexed.separated h.sorted h.bounded

/-- A bucket that was just opened reads its committed tree. -/
theorem readable {m : BucketMeta} (h : CommittedTree P m.rootPage t) :
    Readable P (InnerBucket.fromMeta m) t where
  stored := by
    refine h.blocks.mono (fun i _ d hd => ?_) (fun i _ ks hks => ⟨?_, hks.2⟩)
    · exact storedAt hd
    · exact storedAt hks.1
  separated := h.separated
  routable := h.indexed.routable h.separated
  bushy := h.bushy
where
  storedAt {m : BucketMeta} {i : Info} {data : NodeData} (h : BlockAt P i data) :
      StoredAt P (InnerBucket.fromMeta m) i data := by
    simp only [StoredAt, h.1]
    exact ⟨rfl, h.2⟩

/-- Below the root no leaf of a committed tree is empty. -/
theorem chunk_ne_nil (h : CommittedTree P root t) (hbranch : t.isLeaf = false) :
    ∀ d ∈ t.chunks, d ≠ [] := by
  intro d hd
  obtain ⟨u, hu, rfl⟩ := List.mem_map.mp hd
  obtain ⟨hu, hleaf⟩ := List.mem_filter.mp hu
  obtain ⟨C, rfl⟩ := exists_plug hu
  cases u with
  | branch i ks => simp at hleaf
  | leaf i d =>
    cases C with
    | nil => simp at hbranch
    | cons f C =>
      have hfill : Indexed Leaf.key (f.fill (leaf i d)) :=
        h.indexed.sub (mem_subs_plug C (f.fill (leaf i d)))
      have hfirst := ((indexed_branch Leaf.key f.info _).mp hfill).1 (f.key, leaf i d) (by simp)
      rintro hnil
      simp [firstKey?, ownKeys, show d = [] from hnil] at hfirst

end CommittedTree

/-! ## Positions of a key -/

/-- The position `index` answers in a sorted leaf, with the cut of the leaf at the key. -/
theorem leafIndex_cases {d : List Leaf} (hd : SortedBy Leaf.key d) (k : Bytes) :
    (∃ below x above, d = below ++ x :: above ∧ x.key = k ∧ (∀ a ∈ below, a.key < k) ∧
      (∀ a ∈ above, k < a.key) ∧ leafIndex d k = (below.length, true)) ∨
    (∃ below above, d = below ++ above ∧ (∀ a ∈ below, a.key < k) ∧ (∀ a ∈ above, k < a.key) ∧
      leafIndex d k = (below.length - 1, false)) := by
  rcases binary_search_cases hd k with
    ⟨below, x, above, hsplit, hx, hb, ha, hsearch⟩ | ⟨below, above, hsplit, hb, ha, hsearch⟩
  · exact .inl ⟨below, x, above, hsplit, hx, hb, ha, by simp [leafIndex, hsearch]⟩
  · exact .inr ⟨below, above, hsplit, hb, ha, by simp [leafIndex, hsearch]⟩

/-- The entry with a key. -/
def entryAt (k : Bytes) (entries : List Leaf) : Option Leaf := entries.find? fun a => a.key = k

theorem entryAt_of_ne {k : Bytes} {l : List Leaf} (h : ∀ a ∈ l, a.key ≠ k) : entryAt k l = none :=
  List.find?_eq_none.mpr fun a ha => by simpa using h a ha

theorem entryAt_append_left {k : Bytes} {l r : List Leaf} (h : ∀ a ∈ l, a.key ≠ k) :
    entryAt k (l ++ r) = entryAt k r := by
  have hl := entryAt_of_ne h
  simp only [entryAt] at hl ⊢
  rw [List.find?_append, hl, Option.none_or]

theorem entryAt_append_right {k : Bytes} {l r : List Leaf} (h : ∀ a ∈ r, a.key ≠ k) :
    entryAt k (l ++ r) = entryAt k l := by
  have hr := entryAt_of_ne h
  simp only [entryAt] at hr ⊢
  rw [List.find?_append, hr, Option.or_none]

/-- The leaf at a place where a key fits holds the entry with that key, if there is one. -/
theorem entryAt_content {C : TreeCtx} {k : Bytes} (h : Gap Leaf.key C k) (d l r : List Leaf)
    (hl : l = before C) (hr : r = after C) : entryAt k (l ++ d ++ r) = entryAt k d := by
  obtain ⟨hbefore, hafter⟩ := h.content
  subst hl hr
  rw [entryAt_append_right fun a ha => (hafter a ha).ne',
    entryAt_append_left fun a ha => (hbefore a ha).ne]

/-- What `get` and `seek` report about the leaf they reach. -/
theorem leafIndex_entryAt {d : List Leaf} (hd : SortedBy Leaf.key d) (k : Bytes) :
    ((leafIndex d k).2 = true ↔ (entryAt k d).isSome) ∧
      ((leafIndex d k).2 = true → d[(leafIndex d k).1]? = entryAt k d) := by
  rcases leafIndex_cases hd k with
    ⟨below, x, above, rfl, hx, hb, ha, hidx⟩ | ⟨below, above, rfl, hb, ha, hidx⟩
  · have hfind : entryAt k (below ++ x :: above) = some x := by
      rw [entryAt_append_left fun a ha => (hb a ha).ne]
      simp [entryAt, hx]
    rw [hidx, hfind]
    simp
  · have hnone : entryAt k (below ++ above) = none := by
      refine entryAt_of_ne fun a hmem => ?_
      rcases List.mem_append.mp hmem with hmem | hmem
      · exact (hb a hmem).ne
      · exact (ha a hmem).ne'
    rw [hidx, hnone]
    simp

section Reads

variable {P : Pages} {b : InnerBucket} {t : NodeTree} {k : Bytes}

/-- The leaf of a descent is sorted. -/
theorem Descent.sorted {C : TreeCtx} {i : Info} {d : List Leaf} {stack : List SearchPath}
    (h : Descent P b k t C i d stack) (ht : Readable P b t) : SortedBy Leaf.key d := by
  have hmem : leaf i d ∈ t.subs := h.place ▸ mem_subs_plug C (leaf i d)
  exact (separated_leaf Leaf.key i d).mp (ht.separated.sub hmem)

/-- The leaf of a descent has the entry with the key, if the tree has one. -/
theorem Descent.entryAt {C : TreeCtx} {i : Info} {d : List Leaf} {stack : List SearchPath}
    (h : Descent P b k t C i d stack) : entryAt k t.content = entryAt k d := by
  rw [← h.place, content_plug, content_leaf]
  exact entryAt_content h.gap d _ _ rfl rfl

/-- `get` reads the content of the tree. -/
theorem get_readable (ht : Readable P b t) (hroot : b.bucketMeta.rootPage = t.info.page)
    {fuel : Nat} (hfuel : t.subs.length ≤ fuel) :
    b.get P fuel k = .ok (entryAt k t.content) := by
  obtain ⟨C, i, d, stack, hdesc, -, hleaf⟩ := search_root (k := k) ht fuel hfuel
  obtain ⟨pn, hpn, hd⟩ := hdesc.sees ht
  obtain ⟨hfound, hentry⟩ := leafIndex_entryAt (hdesc.sorted ht) k
  rw [hdesc.entryAt]
  simp only [InnerBucket.get, hroot, hleaf, except_bind_ok]
  by_cases hex : (leafIndex d k).2 = true
  · simp only [hex, if_true, hpn, except_bind_ok, val_of_leaves hd, hentry hex]
  · have hnone : entryAt k d = none := by
      simpa using mt hfound.mpr hex
    simp [hex, hnone]

/-- The entries a forward iteration yields after `seek`: from the key on if it is present,
else from the greatest smaller key on if there is one, else all of them. -/
def seekSuffix (k : Bytes) (entries : List Leaf) : List Leaf :=
  let below := entries.takeWhile fun a => a.key < k
  let rest := entries.dropWhile fun a => a.key < k
  if (entryAt k entries).isSome then rest else below.getLast?.toList ++ rest

theorem seekSuffix_found {l r : List Leaf} {x : Leaf} (hl : ∀ a ∈ l, a.key < k)
    (hx : x.key = k) : seekSuffix k (l ++ x :: r) = x :: r := by
  have hfind : entryAt k (l ++ x :: r) = some x := by
    rw [entryAt_append_left fun a ha => (hl a ha).ne]
    simp [entryAt, hx]
  have hdrop : (l ++ x :: r).dropWhile (fun a => a.key < k) = x :: r := by
    rw [List.dropWhile_append_of_pos (by simpa using hl), List.dropWhile_cons_of_neg (by simp [hx])]
  simp [seekSuffix, hfind, hdrop]

theorem seekSuffix_absent {l r : List Leaf} (hl : ∀ a ∈ l, a.key < k) (hr : ∀ a ∈ r, k < a.key) :
    seekSuffix k (l ++ r) = l.getLast?.toList ++ r := by
  have hnone : entryAt k (l ++ r) = none := by
    refine entryAt_of_ne fun a hmem => ?_
    rcases List.mem_append.mp hmem with hmem | hmem
    · exact (hl a hmem).ne
    · exact (hr a hmem).ne'
  have hdrop : (l ++ r).dropWhile (fun a => a.key < k) = r := by
    rw [List.dropWhile_append_of_pos (by simpa using hl)]
    cases r with
    | nil => rfl
    | cons a r =>
      have ha := hr a List.mem_cons_self
      exact List.dropWhile_cons_of_neg (by simpa using ha.le)
  have htake : (l ++ r).takeWhile (fun a => a.key < k) = l := by
    rw [List.takeWhile_append_of_pos (by simpa using hl)]
    cases r with
    | nil => simp
    | cons a r =>
      have ha := hr a List.mem_cons_self
      rw [List.takeWhile_cons_of_neg (by simpa using ha.le), List.append_nil]
  simp [seekSuffix, hnone, hdrop, htake]

/-- `seek` moves any cursor to the leaf of the descent. -/
theorem seek_readable (hdel : b.deleted = false) (ht : Readable P b t)
    (hroot : b.bucketMeta.rootPage = t.info.page) (c : Cursor) (fuel : Nat)
    (hfuel : t.subs.length ≤ fuel) :
    ∃ C i d stack, Descent P b k t C i d stack ∧
      Cursor.seek P fuel k (c, b) =
        .ok (leafIndex d k).2
          (⟨⟨(leafIndex d k).1, i.nodeId⟩ :: stack, false, false⟩,
            withParents b (parentLinks C i.page ++ b.pageParents)) := by
  obtain ⟨C, i, d, stack, hdesc, hsearch, -⟩ := search_root (k := k) ht fuel hfuel
  refine ⟨C, i, d, stack, hdesc, ?_⟩
  simp [Cursor.seek, estate_bind, estate_map, hdel, hroot, hsearch]

/-- A traversal sees the same in a bucket that resolves pages alike. -/
theorem AtPath.congr {b' : InnerBucket} (hsame : ∀ id, b'.pageNode P id = b.pageNode P id)
    {stack : List SearchPath} {C : TreeCtx} {s : NodeTree} (h : AtPath P b stack C s) :
    AtPath P b' stack C s := by
  induction C generalizing stack s with
  | nil =>
    cases stack with
    | nil => trivial
    | cons e st => exact absurd h (by simp [AtPath])
  | cons f C ih =>
    cases stack with
    | nil => exact absurd h (by simp [AtPath])
    | cons e st =>
      obtain ⟨hidx, ⟨pn, hpn, hd⟩, hrest⟩ := h
      exact ⟨hidx, ⟨pn, by rw [hsame]; exact hpn, hd⟩, ih hrest⟩

/-- Recording parents changes nothing a traversal sees. -/
theorem AtPath.withParents {stack : List SearchPath} {C : TreeCtx} {s : NodeTree}
    (h : AtPath P b stack C s) (links : List (Nat × Nat)) :
    AtPath P (withParents b links) stack C s :=
  h.congr fun id => pageNode_withParents b links id

theorem Readable.withParents (h : Readable P b t) (links : List (Nat × Nat)) :
    Readable P (withParents b links) t where
  stored := h.stored
  separated := h.separated
  routable := h.routable
  bushy := h.bushy

/-- The backward cursor over a bucket whose root is an empty leaf. -/
theorem collectBack_empty (hdel : b.deleted = false) {i : Info} (ht : Readable P b (leaf i []))
    (hroot : b.bucketMeta.rootPage = i.page) (c : Cursor) (fuel n : Nat) :
    Cursor.run (do Cursor.seekLast P b (fuel + 1); Cursor.collectBack P b (fuel + 1) (n + 1)) c =
      .ok [] := by
  have hdesc := descendLast_empty [] false false ht.sees fuel
  rw [info_leaf, ← hroot] at hdesc
  have hseek : ∀ c, Cursor.seekLast P b (fuel + 1) c = .ok () ⟨[], false, false⟩ := by
    intro c
    simp [Cursor.seekLast, estate_bind, estate_map, hdesc]
  have hprev : Cursor.previous P b (fuel + 1) ⟨[], false, false⟩ =
      .ok none ⟨[], false, true⟩ := by
    simp [Cursor.previous, estate_bind, hseek, Cursor.current, hdel]
  unfold Cursor.run
  rw [estate_bind_ok (hseek c)]
  exact collectBack_none n hprev

/-- Only a root leaf can be empty in a tree without empty leaves below the root. -/
theorem place_of_empty {C : TreeCtx} {i : Info}
    (hne : (plug C (leaf i [])).isLeaf = false → ∀ d ∈ (plug C (leaf i [])).chunks, d ≠ []) :
    C = [] := by
  cases C with
  | nil => rfl
  | cons f C =>
    have hchunk : ([] : List Leaf) ∈ (plug (f :: C) (leaf i [])).chunks := by
      rw [chunks_plug]; simp
    exact absurd rfl (hne (isLeaf_plug_cons f C _) _ hchunk)

/-- The position of a key in the leaf of its descent is where the iteration after `seek`
starts. -/
theorem seekSuffix_plug {C : TreeCtx} {i : Info} {d : List Leaf} (hd : SortedBy Leaf.key d)
    (hgap : Gap Leaf.key C k) (habove : Above C k) (hidx : Indexed Leaf.key (plug C (leaf i d)))
    (hne : (plug C (leaf i d)).isLeaf = false → ∀ x ∈ (plug C (leaf i d)).chunks, x ≠ []) :
    seekSuffix k (plug C (leaf i d)).content = d.drop (leafIndex d k).1 ++ after C := by
  obtain ⟨hbefore, hafter⟩ := hgap.content
  rw [content_plug, content_leaf]
  rcases leafIndex_cases hd k with
    ⟨below, x, above, rfl, hx, hb, -, hpos⟩ | ⟨below, above, rfl, hb, ha, hpos⟩
  · have hl : ∀ a ∈ before C ++ below, a.key < k := List.forall_mem_append.mpr ⟨hbefore, hb⟩
    have hsplit : before C ++ (below ++ x :: above) ++ after C =
        (before C ++ below) ++ x :: (above ++ after C) := by simp
    rw [hsplit, seekSuffix_found hl hx, hpos]
    simp
  · have hl : ∀ a ∈ before C ++ below, a.key < k := List.forall_mem_append.mpr ⟨hbefore, hb⟩
    have hr : ∀ a ∈ above ++ after C, k < a.key := List.forall_mem_append.mpr ⟨ha, hafter⟩
    have hsplit : before C ++ (below ++ above) ++ after C =
        (before C ++ below) ++ (above ++ after C) := by simp
    rw [hsplit, seekSuffix_absent hl hr, hpos]
    rcases List.eq_nil_or_concat' below with rfl | ⟨below, y, rfl⟩
    · -- nothing in the leaf is below the key, so nothing in the tree is
      have hnil : before C = [] := by
        cases above with
        | nil => rw [place_of_empty hne]; rfl
        | cons a above => exact hidx.before_eq_nil rfl habove (ha a List.mem_cons_self)
      simp [hnil]
    · simp

/-- After `seek` a forward iteration yields the rest of the content, when no leaf below the
root is empty. -/
theorem collect_after_seek (hdel : b.deleted = false) (ht : Readable P b t)
    (hroot : b.bucketMeta.rootPage = t.info.page) (hidx : Indexed Leaf.key t)
    (hne : t.isLeaf = false → ∀ d ∈ t.chunks, d ≠ []) (c : Cursor) {fuel n : Nat}
    (hfuel : t.subs.length + 2 ≤ fuel) (hn : t.content.length < n) :
    ∃ c' b', Cursor.seek P fuel k (c, b) = .ok (entryAt k t.content).isSome (c', b') ∧
      Cursor.run (Cursor.collect P b' fuel n) c' =
        .ok ((seekSuffix k t.content).map Data.ofLeaf) := by
  obtain ⟨C, i, d, stack, hdesc, hseek⟩ := seek_readable (k := k) hdel ht hroot c fuel (by omega)
  have hsorted := hdesc.sorted ht
  have hexact : (leafIndex d k).2 = (entryAt k t.content).isSome := by
    rw [hdesc.entryAt, Bool.eq_iff_iff]
    exact (leafIndex_entryAt hsorted k).1
  rw [hexact] at hseek
  refine ⟨_, _, hseek, ?_⟩
  obtain ⟨pn, hpn, hpd⟩ := hdesc.sees ht
  obtain ⟨rfl, hgap, habove, hpath⟩ := hdesc
  have ht' := ht.withParents (parentLinks C i.page ++ b.pageParents)
  have hsees : Sees P (withParents b (parentLinks C i.page ++ b.pageParents)) i.nodeId
      (leaf i d) := ⟨pn, by rw [pageNode_withParents]; exact hpn, hpd⟩
  have hpath' := hpath.withParents (parentLinks C i.page ++ b.pageParents)
  rw [seekSuffix_plug hsorted hgap habove hidx hne]
  by_cases hd : d = []
  · subst hd
    obtain rfl := place_of_empty hne
    obtain ⟨n, rfl⟩ : ∃ m, n = m + 1 := ⟨n - 1, by omega⟩
    have hadv := advance_stay false fuel (List.cons_ne_nil _ _)
      (current_at_leaf (leafIndex [] k).1 stack true false hdel hsees)
    exact collect_none n hadv
  · have hscan : scan (chunksAfter C) = after C := by
      have hnonempty : ∀ x ∈ chunksAfter C, x ≠ [] := by
        cases C with
        | nil => simp [chunksAfter]
        | cons f C =>
          intro x hx
          refine hne (isLeaf_plug_cons f C _) x ?_
          rw [chunks_plug]
          exact List.mem_append_right _ hx
      rw [scan_of_nonempty hnonempty, chunksAfter_flatten]
    have hj : (leafIndex d k).1 < d.length := by
      have hpos : 0 < d.length := List.length_pos_iff.mpr hd
      rcases leafIndex_cases hsorted k with
        ⟨below, x, above, rfl, -, -, -, hidx'⟩ | ⟨below, above, rfl, -, -, hidx'⟩
      · simp [hidx']
      · rw [hidx']; simp only [List.length_append] at hpos ⊢; omega
    have hlen : (d.drop (leafIndex d k).1 ++ scan (chunksAfter C)).length < n := by
      rw [hscan]
      rw [content_plug, content_leaf] at hn
      simp only [List.length_append, List.length_drop] at hn ⊢
      omega
    have hdel' : (withParents b (parentLinks C i.page ++ b.pageParents)).deleted = false := hdel
    rw [← hscan]
    exact collect_seeked hdel' ht' rfl hsees hpath' hj hfuel hlen

end Reads

/-- **All read paths agree on a committed tree.** -/
theorem committed_reads_agree {P : Pages} {m : BucketMeta} {t : NodeTree}
    (h : CommittedTree P m.rootPage t) :
    ∃ N, ∀ fuel ≥ N, ∀ k : Bytes,
      (∃ last rest b,
        search P k fuel m.rootPage [] (InnerBucket.fromMeta m) =
          .ok ((entryAt k t.content).isSome, last :: rest) b ∧
        searchLeaf P k (InnerBucket.fromMeta m) fuel m.rootPage =
          .ok ((entryAt k t.content).isSome, last)) ∧
      (InnerBucket.fromMeta m).get P fuel k = .ok (entryAt k t.content) ∧
      Cursor.run (Cursor.collect P (InnerBucket.fromMeta m) fuel fuel) Cursor.new =
        .ok (t.content.map Data.ofLeaf) ∧
      (∀ c, Cursor.run (do
          Cursor.seekLast P (InnerBucket.fromMeta m) fuel
          Cursor.collectBack P (InnerBucket.fromMeta m) fuel fuel) c =
        .ok (t.content.reverse.map Data.ofLeaf)) ∧
      ∀ c, ∃ c' b,
        Cursor.seek P fuel k (c, InnerBucket.fromMeta m) =
          .ok (entryAt k t.content).isSome (c', b) ∧
        Cursor.run (Cursor.collect P b fuel fuel) c' =
          .ok ((seekSuffix k t.content).map Data.ofLeaf) := by
  have ht := h.readable
  have hroot : (InnerBucket.fromMeta m).bucketMeta.rootPage = t.info.page := h.page.symm
  have hdel : (InnerBucket.fromMeta m).deleted = false := rfl
  have hne : t.isLeaf = false → ∀ d ∈ t.chunks, d ≠ [] := h.chunk_ne_nil
  refine ⟨t.subs.length + t.content.length + 2, fun fuel hfuel k => ⟨?_, ?_, ?_, ?_, ?_⟩⟩
  · obtain ⟨C, i, d, stack, hdesc, hsearch, hleaf⟩ := search_root (k := k) ht fuel (by omega)
    have hexact : (leafIndex d k).2 = (entryAt k t.content).isSome := by
      rw [hdesc.entryAt, Bool.eq_iff_iff]
      exact (leafIndex_entryAt (hdesc.sorted ht) k).1
    rw [h.page, hexact] at hsearch hleaf
    exact ⟨_, _, _, hsearch, hleaf⟩
  · exact get_readable ht hroot (by omega)
  · have hscan : scan t.chunks = t.content := by
      cases hleaf : t.isLeaf with
      | false => rw [scan_of_nonempty (hne hleaf), chunks_flatten]
      | true =>
        cases t with
        | branch i ks => simp at hleaf
        | leaf i d => cases d <;> simp [scan]
    rw [← hscan]
    exact collect_fresh hdel ht hroot (by omega) (by rw [hscan]; omega)
  · intro c
    cases hleaf : t.isLeaf with
    | false => exact collectBack_seekLast hdel ht hroot (hne hleaf) c (by omega) (by omega)
    | true =>
      cases t with
      | branch i ks => simp at hleaf
      | leaf i d =>
        cases d with
        | nil =>
          obtain ⟨fuel, rfl⟩ : ∃ n, fuel = n + 1 := ⟨fuel - 1, by omega⟩
          exact collectBack_empty hdel ht hroot c fuel fuel
        | cons x d =>
          exact collectBack_seekLast hdel ht hroot (by simp) c (by omega) (by omega)
  · exact fun c => collect_after_seek hdel ht hroot h.indexed hne c (by omega) (by omega)

/-- A file with a branch at page 2 over the leaves at pages 3 and 4. -/
def twoLeafPages : Pages where
  validate
    | 2 => .ok ⟨2, 0, .branch [⟨[1], 3⟩, ⟨[5], 4⟩]⟩
    | 3 => .ok ⟨3, 0, .leaf [.kv [1] [10], .kv [2] [20]]⟩
    | 4 => .ok ⟨4, 0, .leaf [.kv [5] [50]]⟩
    | _ => .error "page is out of range"
  pagesize := 1024

/-- The tree of that file. -/
def twoLeafTree : NodeTree :=
  .branch ⟨2, 1, none⟩
    [([1], .leaf ⟨3, 1, none⟩ [.kv [1] [10], .kv [2] [20]]),
      ([5], .leaf ⟨4, 1, none⟩ [.kv [5] [50]])]

theorem twoLeafTree_committed : CommittedTree twoLeafPages 2 twoLeafTree where
  page := rfl
  blocks := by
    simp only [twoLeafTree, holds_branch, List.forall_mem_cons, holds_leaf]
    refine ⟨⟨⟨rfl, 0, rfl, rfl⟩, by decide⟩, ⟨rfl, 0, rfl, rfl⟩, ⟨rfl, 0, rfl, rfl⟩, by simp⟩
  sorted := by
    simp only [twoLeafTree, subs_branch, List.flatMap_cons, List.flatMap_nil, subs_leaf,
      List.cons_append, List.nil_append, List.append_nil, List.forall_mem_cons]
    exact ⟨by decide, by decide, by decide, by simp⟩
  bounded := by
    simp only [twoLeafTree, subs_branch, List.flatMap_cons, List.flatMap_nil, subs_leaf,
      List.cons_append, List.nil_append, List.append_nil, List.forall_mem_cons]
    refine ⟨?_, by simp, by simp, by simp⟩
    rintro pre e e' post h
    cases pre with
    | nil =>
      simp only [kids_branch, List.nil_append, List.cons.injEq] at h
      obtain ⟨rfl, rfl, -⟩ := h
      simp only [keys_leaf]
      decide
    | cons a pre => cases pre <;> simp at h
  indexed := by
    simp only [twoLeafTree, indexed_branch, List.forall_mem_cons]
    exact ⟨⟨rfl, rfl, by simp⟩, by simp, by simp, by simp⟩
  bushy := by
    simp only [twoLeafTree, subs_branch, List.flatMap_cons, List.flatMap_nil, subs_leaf,
      List.cons_append, List.nil_append, List.append_nil, List.forall_mem_cons]
    exact ⟨by simp, by simp, by simp, by simp⟩

/-- The two leaves, read forward. -/
theorem committed_reads_two_leaves :
    ∃ N, ∀ fuel ≥ N,
      Cursor.run (Cursor.collect twoLeafPages (InnerBucket.fromMeta ⟨2, 0⟩) fuel fuel) Cursor.new =
        .ok [.keyValue [1] [10], .keyValue [2] [20], .keyValue [5] [50]] := by
  obtain ⟨N, h⟩ := committed_reads_agree (m := ⟨2, 0⟩) twoLeafTree_committed
  exact ⟨N, fun fuel hfuel => (h fuel hfuel []).2.2.1⟩

end Tagdata.Analysis
