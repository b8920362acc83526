import Tagdata.Analysis.Refinement

/-!
# Scans inside a write transaction

A cursor walks over uncommitted nodes, and a leaf that lost all its entries stays in the tree
until the commit.  A forward scan ends at such a leaf, and `seek_last` stops above it.  So the
scans of a bucket are right exactly when no leaf but the root is empty; then everything that is
built on a scan acts on the whole content.
-/

set_option autoImplicit false

namespace Tagdata.Analysis

open Tagdata.Library Tagdata.Library.SearchTree Tagdata.Model Tagdata.Interface

/-- No loaded leaf but the root is empty. -/
def NoEmptyLeaf (b : InnerBucket) : Prop :=
  ∀ n ∈ b.nodes, n.pageId ≠ b.bucketMeta.rootPage → n.data ≠ .leaves []

instance (b : InnerBucket) : Decidable (NoEmptyLeaf b) :=
  inferInstanceAs (Decidable (∀ n ∈ b.nodes, n.pageId ≠ b.bucketMeta.rootPage →
    n.data ≠ .leaves []))

/-- The elements of a map in the order of their keys. -/
structure Lists (d : Dir) (l : List Data) : Prop where
  sorted : (l.map Data.key).Pairwise (· < ·)
  mem : ∀ x, x ∈ l ↔ ∃ k e, d.entries k = some e ∧ x = Dir.dataOf k e

/-- The forward and the backward scan yield every element, in order, and do not panic. -/
def ScansExact (P : Pages) (fuel : Nat) (b : InnerBucket) (d : Dir) : Prop :=
  ∃ l, Lists d l ∧
    Cursor.run (Cursor.collect P b fuel fuel) Cursor.new = .ok l ∧
    Cursor.run (do Cursor.seekLast P b fuel; Cursor.collectBack P b fuel fuel) Cursor.new =
      .ok l.reverse

/-- The key/value pairs in a list of elements. -/
def pairsOf (l : List Data) : List (Bytes × Bytes) := l.filterMap Data.kvPair

/-- The keys of those pairs that pass a test. -/
def keysOf (l : List Data) (test : Bytes → Bool) : List Bytes :=
  ((pairsOf l).map Prod.fst).filter test

/-- The state of a bucket stands for a map. -/
def StandsFor (P : Pages) (s : BucketTx) (d : Dir) : Prop :=
  ∃ origin T, Overlay P origin s.1 T ∧ T.dir = d

section Leaves

variable {P : Pages} {b : InnerBucket} {t : NodeTree}

/-- The node of a loaded label. -/
theorem Opened.node_of {u : NodeTree} {r : NodeRec} (h : Opened P b t) (hu : u ∈ t.subs)
    (hr : u.info.loaded = some r) : b.nodes[r.id]? = some (u.info.nodeOf r (nodeData u)) := by
  have hstored := stored_root (t := u) fun v hv => h.stored v (subs_trans hv hu)
  unfold StoredAt at hstored
  rw [hr] at hstored
  exact hstored.2

/-- Every node of the arena belongs to a label of the tree. -/
theorem Opened.label_of {n : Node} (h : Opened P b t) (hn : n ∈ b.nodes) :
    ∃ u ∈ t.subs, ∃ r, u.info.loaded = some r ∧ n = u.info.nodeOf r (nodeData u) := by
  obtain ⟨j, hj, rfl⟩ := List.mem_iff_getElem.mp hn
  have hmem : j ∈ Analysis.ids t := h.ids.mem_iff.mpr (List.mem_range.mpr hj)
  obtain ⟨i, hi, hid⟩ := List.mem_filterMap.mp hmem
  obtain ⟨u, hu, rfl⟩ := List.mem_map.mp hi
  obtain ⟨r, hr, rfl⟩ := Option.map_eq_some_iff.mp hid
  refine ⟨u, hu, r, hr, ?_⟩
  have hnode := h.node_of hu hr
  rw [List.getElem?_eq_getElem hj] at hnode
  exact Option.some.inj hnode

/-- Below a branch every leaf has another page than the root. -/
theorem Opened.page_ne_root {i : Info} {ks : Kids} {u : NodeTree} (h : Opened P b (branch i ks))
    (hu : u ∈ (branch i ks).subs) (hleaf : u.isLeaf = true) : u.info.page ≠ i.page := by
  have hheads := h.heads
  rw [Analysis.heads, infos_branch, List.map_cons, List.nodup_cons] at hheads
  rw [subs_branch, List.mem_cons, List.mem_flatMap] at hu
  rcases hu with rfl | ⟨e, he, hu⟩
  · simp at hleaf
  · intro heq
    refine hheads.1 (heq ▸ List.mem_map_of_mem (List.mem_flatMap.mpr ⟨e, he, ?_⟩))
    exact List.mem_map_of_mem hu

/-- A leaf that was not loaded is not empty, unless it is the root. -/
theorem Opened.unloaded_nonempty {i j : Info} {ks : Kids} {d : List Leaf}
    (h : Opened P b (branch i ks)) (hu : leaf j d ∈ (branch i ks).subs) (hun : j.loaded = none) :
    d ≠ [] := by
  obtain ⟨C, hC⟩ := exists_plug hu
  cases C with
  | nil => cases hC
  | cons f C =>
    have hlinked : Holds linkTag Analysis.linked (plug (f :: C) (leaf j d)) := hC ▸ h.linked
    have hfirst := firstKey_unloaded hlinked hun
    rintro rfl
    cases hfirst

/-- The leaves of a branch are all inhabited exactly when no loaded leaf is empty. -/
theorem Opened.chunks_nonempty {i : Info} {ks : Kids} (h : Opened P b (branch i ks)) :
    (∀ d ∈ (branch i ks : NodeTree).chunks, d ≠ []) ↔ NoEmptyLeaf b := by
  have hroot : b.bucketMeta.rootPage = i.page := h.root
  constructor
  · intro hall n hn hne hempty
    obtain ⟨u, hu, r, hr, rfl⟩ := h.label_of hn
    have hdata : nodeData u = .leaves [] := hempty
    cases u with
    | leaf j d =>
      obtain rfl : d = [] := NodeData.leaves.inj hdata
      exact hall [] (List.mem_map.mpr ⟨_, List.mem_filter.mpr ⟨hu, rfl⟩, rfl⟩) rfl
    | branch j ks' => cases hdata
  · intro hno d hd hempty
    obtain ⟨u, hu, rfl⟩ := List.mem_map.mp hd
    obtain ⟨hu, hleaf⟩ := List.mem_filter.mp hu
    cases u with
    | branch j ks' => cases hleaf
    | leaf j d =>
      obtain rfl : d = [] := hempty
      cases hj : j.loaded with
      | none => exact h.unloaded_nonempty hu hj rfl
      | some r =>
        have hnode := h.node_of hu hj
        refine hno _ (List.mem_of_getElem? hnode) ?_ rfl
        rw [hroot]
        exact h.page_ne_root hu rfl

end Leaves

/-! ## What the scans yield -/

section Exact

variable {P : Pages} {origin : Option Nest} {b : InnerBucket} {T : Nest} {fuel : Nat}

theorem key_ofLeaf (a : Leaf) : (Data.ofLeaf a).key = a.key := by cases a <;> rfl

/-- The content of the tree, as the caller sees it, lists the map. -/
theorem Overlay.lists (h : Overlay P origin b T) :
    Lists T.dir (T.tree.content.map Data.ofLeaf) := by
  have hsorted : SortedBy Leaf.key T.tree.content := h.opened.separated.content
  constructor
  · rw [List.map_map, List.pairwise_map]
    refine hsorted.imp fun {a c} hlt => ?_
    simpa only [Function.comp_apply, key_ofLeaf] using hlt
  · intro x
    constructor
    · intro hx
      obtain ⟨a, ha, rfl⟩ := List.mem_map.mp hx
      have hentry := (entryAt_eq_some hsorted).mpr ⟨ha, rfl⟩
      rcases h.entry_cases a.key with ⟨hcur, -⟩ | ⟨v, hcur, hd⟩ | ⟨m, S, hcur, -, hd, -⟩ <;>
        rw [hentry] at hcur
      · cases hcur
      · refine ⟨_, _, hd, ?_⟩
        rw [Option.some.inj hcur]
        rfl
      · refine ⟨_, _, hd, ?_⟩
        rw [Option.some.inj hcur]
        rfl
    · rintro ⟨k, e, hd, rfl⟩
      rcases h.entry_cases k with ⟨-, hd'⟩ | ⟨v, hcur, hd'⟩ | ⟨m, S, hcur, -, hd', -⟩ <;>
        rw [hd] at hd' <;> cases hd'
      · exact List.mem_map.mpr ⟨_, ((entryAt_eq_some hsorted).mp hcur).1, rfl⟩
      · exact List.mem_map.mpr ⟨_, ((entryAt_eq_some hsorted).mp hcur).1, rfl⟩

/-- A map has one list of its elements. -/
theorem Lists.unique {d : Dir} {l l' : List Data} (h : Lists d l) (h' : Lists d l') : l = l' := by
  refine SortedBy.ext (f := Data.key) (List.pairwise_map.mp h.sorted)
    (List.pairwise_map.mp h'.sorted) fun x => ?_
  rw [h.mem, h'.mem]

/-- Every leaf below a branch is inhabited. -/
def Filled (t : NodeTree) : Prop := t.isLeaf = false → ∀ d ∈ t.chunks, d ≠ []

theorem Overlay.filled (h : Overlay P origin b T) (hno : NoEmptyLeaf b) : Filled T.tree := by
  have hopen := h.opened
  intro hbranch
  cases hT : T.tree with
  | leaf i d =>
    rw [hT] at hbranch
    cases hbranch
  | branch i ks =>
    rw [hT] at hopen
    exact hopen.chunks_nonempty.mpr hno

/-- The scans of a bucket with inhabited leaves. -/
theorem Overlay.scans_of_filled (h : Overlay P origin b T) (hfilled : Filled T.tree)
    (hfuel : T.tree.subs.length + T.tree.content.length + 2 ≤ fuel) :
    Cursor.run (Cursor.collect P b fuel fuel) Cursor.new =
        .ok (T.tree.content.map Data.ofLeaf) ∧
      Cursor.run (do Cursor.seekLast P b fuel; Cursor.collectBack P b fuel fuel) Cursor.new =
        .ok (T.tree.content.map Data.ofLeaf).reverse := by
  have ht := h.opened.readable
  have hroot := h.opened.root
  rw [← List.map_reverse]
  cases hT : T.tree with
  | branch i ks =>
    rw [hT] at hfilled ht hroot hfuel
    have hne := hfilled rfl
    have hscan : scan (branch i ks).chunks = (branch i ks).content := by
      rw [scan_of_nonempty hne, chunks_flatten]
    refine ⟨?_, collectBack_seekLast h.alive ht hroot hne _ (by omega) (by omega)⟩
    rw [← hscan]
    exact collect_fresh h.alive ht hroot (by omega) (by rw [hscan]; omega)
  | leaf i d =>
    rw [hT] at ht hroot hfuel
    have hscan : scan (leaf i d : NodeTree).chunks = (leaf i d : NodeTree).content := by
      cases d <;> simp [scan]
    refine ⟨?_, ?_⟩
    · rw [← hscan]
      exact collect_fresh h.alive ht hroot (by omega) (by rw [hscan]; omega)
    · cases d with
      | nil =>
        obtain ⟨fuel, rfl⟩ : ∃ n, fuel = n + 1 := ⟨fuel - 1, by omega⟩
        exact collectBack_empty h.alive ht hroot _ fuel fuel
      | cons x d => exact collectBack_seekLast h.alive ht hroot (by simp) _ (by omega) (by omega)

/-- A loop that collects what an iterator answers. -/
theorem yields_of_all {step : EStateM Fault Cursor (Option Data)}
    {all : Nat → EStateM Fault Cursor (List Data)}
    (hzero : ∀ c, Cursor.run (all 0) c = .error .diverge)
    (hall : ∀ n, all (n + 1) = do
      match ← step with
      | none => return []
      | some d =>
          let rest ← all n
          return d :: rest)
    (n : Nat) {c : Cursor} {l : List Data} (h : Cursor.run (all n) c = .ok l) :
    ∃ c', Yields step c l c' := by
  induction n generalizing c l with
  | zero =>
    rw [hzero] at h
    cases h
  | succ n ih =>
    unfold Cursor.run at h
    rw [hall, estate_bind] at h
    cases hstep : step c with
    | error e c' => rw [hstep] at h; cases h
    | ok r c' =>
      rw [hstep] at h
      cases r with
      | none =>
        obtain rfl := Except.ok.inj h
        exact ⟨c', .done hstep⟩
      | some x =>
        simp only [estate_bind] at h
        cases hrest : all n c' with
        | error e c'' => rw [hrest] at h; cases h
        | ok ds c'' =>
          rw [hrest] at h
          obtain rfl := Except.ok.inj h
          obtain ⟨c₃, hyields⟩ := ih (c := c') (l := ds) (by rw [Cursor.run, hrest])
          exact ⟨c₃, .more hstep hyields⟩

/-- What a fresh cursor yields. -/
theorem Overlay.yields_new (h : Overlay P origin b T) (hfilled : Filled T.tree)
    (hfuel : T.tree.subs.length + T.tree.content.length + 2 ≤ fuel) :
    ∃ c, Yields (Cursor.advance P b fuel) Cursor.new (T.tree.content.map Data.ofLeaf) c :=
  yields_of_all (fun _ => rfl) (fun _ => rfl) fuel (h.scans_of_filled hfilled hfuel).1

/-- What a cursor yields backwards after `seek_last`. -/
theorem Overlay.yields_last (h : Overlay P origin b T) (hfilled : Filled T.tree)
    (hfuel : T.tree.subs.length + T.tree.content.length + 2 ≤ fuel) :
    ∃ c c', Cursor.seekLast P b fuel Cursor.new = .ok () c ∧
      Yields (Cursor.previous P b fuel) c (T.tree.content.reverse.map Data.ofLeaf) c' := by
  have hback := (h.scans_of_filled hfilled hfuel).2
  rw [← List.map_reverse] at hback
  cases hseek : Cursor.seekLast P b fuel Cursor.new with
  | error e c =>
    rw [Cursor.run, estate_bind_error hseek] at hback
    cases hback
  | ok u c =>
    rw [Cursor.run, estate_bind_ok hseek] at hback
    obtain ⟨c', hyields⟩ := yields_of_all (fun _ => rfl) (fun _ => rfl) fuel hback
    exact ⟨c, c', rfl, hyields⟩

/-- `seek_last` looks at the pages and nodes only. -/
theorem seekLast_congr {b' : InnerBucket} (hsame : ∀ id, b'.pageNode P id = b.pageNode P id)
    (hroot : b'.bucketMeta.rootPage = b.bucketMeta.rootPage) (c : Cursor) :
    Cursor.seekLast P b' fuel c = Cursor.seekLast P b fuel c := by
  have hdescend : ∀ fuel id, Cursor.descendLast P b' fuel id = Cursor.descendLast P b fuel id := by
    intro fuel
    induction fuel with
    | zero => exact fun _ => rfl
    | succ fuel ih =>
      intro id
      simp only [Cursor.descendLast, hsame, ih]
  simp only [Cursor.seekLast, hroot, hdescend]

/-- With an empty leaf below the root one of the scans goes wrong. -/
theorem Overlay.nonempty_of_scans (h : Overlay P origin b T) (hscan : ScansExact P fuel b T.dir)
    (hfuel : T.tree.subs.length + T.tree.content.length + 2 ≤ fuel) : NoEmptyLeaf b := by
  have hopen := h.opened
  have ht := hopen.readable
  have hroot := hopen.root
  have hlists := h.lists
  obtain ⟨l, hl, hforward, hbackward⟩ := hscan
  obtain rfl := hl.unique hlists
  cases hT : T.tree with
  | leaf i d =>
    -- the only node is the root
    rw [hT] at hopen
    intro n hn hne
    obtain ⟨u, hu, r, -, rfl⟩ := hopen.label_of hn
    obtain rfl : u = leaf i d := by simpa using hu
    exact absurd hopen.root.symm hne
  | branch i ks =>
    rw [hT] at hopen ht hroot hfuel hforward hbackward
    rw [← hopen.chunks_nonempty]
    intro d hd hempty
    subst hempty
    obtain ⟨front, last, hchunks⟩ : ∃ front last,
        (branch i ks : NodeTree).chunks = front ++ [last] :=
      ⟨_, _, (List.dropLast_append_getLast (List.ne_nil_of_mem hd)).symm⟩
    by_cases hlast : last = []
    · -- an empty last leaf makes the backward scan panic
      obtain ⟨fuel, rfl⟩ : ∃ n, fuel = n + 1 := ⟨fuel - 1, by omega⟩
      obtain ⟨pn, hpanic⟩ := collectBack_panics h.alive ht hroot rfl (by rw [hchunks, hlast]; simp)
        Cursor.new (show _ ≤ fuel + 1 by omega) fuel
      rw [hbackward] at hpanic
      cases hpanic
    · -- any other empty leaf ends the forward scan before the last leaf
      have hmem : [] ∈ front := by
        rw [hchunks] at hd
        simpa [Ne.symm hlast] using hd
      have hlt : (scan (branch i ks : NodeTree).chunks).length <
          (branch i ks : NodeTree).content.length := by
        rw [← chunks_flatten, hchunks]
        exact scan_length_lt hlast hmem
      have hcollect := collect_fresh h.alive ht hroot (n := fuel) (show _ ≤ fuel by omega)
        (by omega)
      rw [hforward] at hcollect
      have hlen := congrArg List.length (Except.ok.inj hcollect)
      rw [List.length_map, List.length_map] at hlen
      omega

end Exact

/-! ## What is built on the scans -/

section Built

variable {P : Pages} {origin : Option Nest} {b : InnerBucket} {T : Nest} {N fuel : Nat}

/-- A loop that stops at the first pair finds the first pair of the loop that goes on. -/
theorem first_pair_of_all {step : EStateM Fault Cursor (Option Data)}
    {all : Nat → EStateM Fault Cursor (List Data)}
    {one : Nat → EStateM Fault Cursor (Option (Bytes × Bytes))}
    (hzero : ∀ c, Cursor.run (all 0) c = .error .diverge)
    (hall : ∀ n, all (n + 1) = do
      match ← step with
      | none => return []
      | some d =>
          let rest ← all n
          return d :: rest)
    (hone : ∀ n, one (n + 1) = do
      match ← step with
      | none => return none
      | some (.keyValue k v) => return some (k, v)
      | some (.bucket _) => one n)
    (n : Nat) {c : Cursor} {l : List Data} (h : Cursor.run (all n) c = .ok l) :
    Cursor.run (one n) c = .ok (pairsOf l).head? := by
  induction n generalizing c l with
  | zero =>
    rw [hzero] at h
    cases h
  | succ n ih =>
    unfold Cursor.run at h ⊢
    rw [hall, estate_bind] at h
    rw [hone, estate_bind]
    cases hstep : step c with
    | error e c' => rw [hstep] at h; cases h
    | ok r c' =>
      rw [hstep] at h
      cases r with
      | none =>
        obtain rfl := Except.ok.inj h
        rfl
      | some x =>
        simp only [estate_bind] at h
        cases hrest : all n c' with
        | error e c'' => rw [hrest] at h; cases h
        | ok ds c'' =>
          rw [hrest] at h
          obtain rfl := Except.ok.inj h
          cases x with
          | keyValue k v => rfl
          | bucket name =>
            have htail := ih (c := c') (l := ds) (by rw [Cursor.run, hrest])
            exact htail

/-- `first` reads the first pair of the forward scan. -/
theorem first_of_collect {l : List Data}
    (h : Cursor.run (Cursor.collect P b fuel fuel) Cursor.new = .ok l) :
    Bucket.first P fuel b = .ok (pairsOf l).head? :=
  first_pair_of_all (fun _ => rfl) (fun _ => rfl) (fun _ => rfl) fuel h

/-- `last` reads the first pair of the backward scan. -/
theorem last_of_collectBack {l : List Data}
    (h : Cursor.run (do Cursor.seekLast P b fuel; Cursor.collectBack P b fuel fuel) Cursor.new =
      .ok l.reverse) : Bucket.last P fuel b = .ok (pairsOf l).getLast? := by
  unfold Bucket.last
  have hreverse : (pairsOf l).getLast? = (pairsOf l.reverse).head? := by
    rw [pairsOf, pairsOf, List.filterMap_reverse, List.head?_reverse]
  rw [hreverse]
  cases hseek : Cursor.seekLast P b fuel Cursor.new with
  | error e c =>
    rw [Cursor.run, estate_bind_error hseek] at h
    cases h
  | ok u c =>
    rw [Cursor.run, estate_bind_ok hseek] at h
    rw [Cursor.run, estate_bind_ok hseek]
    exact first_pair_of_all (fun _ => rfl) (fun _ => rfl) (fun _ => rfl) fuel h

/-- Deletes keys that all have values. -/
theorem Overlay.deleteKeys (h : Overlay P origin b T) (hN : Within N origin) (hfuel : N ≤ fuel)
    (fl : TxFreelist) (keys : List Bytes) (hnodup : keys.Nodup)
    (hvalues : ∀ k ∈ keys, ∃ v, T.dir.entries k = some (.value v)) :
    ∃ b' T', Bucket.deleteKeys P fuel keys (b, fl) = .ok () (b', fl) ∧ Overlay P origin b' T' ∧
      T'.dir = ⟨T.dir.counter, fun k => if k ∈ keys then none else T.dir.entries k⟩ := by
  induction keys generalizing b T with
  | nil => exact ⟨b, T, rfl, h, by simp⟩
  | cons k keys ih =>
    obtain ⟨hk, hnodup⟩ := List.nodup_cons.mp hnodup
    obtain ⟨v, hv⟩ := hvalues k List.mem_cons_self
    obtain ⟨⟨b₁, fl₁⟩, hdel, T₁, ps, hfl, hover, hdir, hchange⟩ := h.delete_done fl hN hfuel hv
    obtain rfl : ps = [] := hchange.keeps_pages rfl
    obtain rfl : fl₁ = fl := hfl
    have hvalues₁ : ∀ x ∈ keys, ∃ w, T₁.dir.entries x = some (.value w) := by
      intro x hx
      have hne : x ≠ k := fun heq => hk (heq ▸ hx)
      obtain ⟨w, hw⟩ := hvalues x (List.mem_cons_of_mem _ hx)
      refine ⟨w, ?_⟩
      rw [hdir]
      simpa [Dir.set, Function.update_of_ne hne] using hw
    obtain ⟨b₂, T₂, hrest, hover₂, hdir₂⟩ := ih hover hnodup hvalues₁
    refine ⟨b₂, T₂, ?_, hover₂, ?_⟩
    · simp [Bucket.deleteKeys, Bucket.delete, Bucket.alive, estate_bind, estate_map, h.alive, hdel,
        hrest]
    · rw [hdir₂, hdir]
      congr 1
      funext x
      by_cases hx : x = k
      · simp [hx, Dir.set]
      · simp [hx, Dir.set]

theorem mem_pairsOf {d : Dir} {l : List Data} (h : Lists d l) {k v : Bytes} :
    (k, v) ∈ pairsOf l ↔ d.entries k = some (.value v) := by
  rw [pairsOf, List.mem_filterMap]
  constructor
  · rintro ⟨x, hx, hpair⟩
    obtain ⟨k', e, hd, rfl⟩ := (h.mem x).mp hx
    cases e with
    | value w =>
      cases hpair
      exact hd
    | bucket c => cases hpair
  · intro hd
    exact ⟨_, (h.mem _).mpr ⟨k, _, hd, rfl⟩, rfl⟩

theorem keysOf_nodup {d : Dir} {l : List Data} (h : Lists d l) (test : Bytes → Bool) :
    (keysOf l test).Nodup := by
  refine List.Nodup.filter _ ?_
  have hsub : ((pairsOf l).map Prod.fst).Sublist (l.map Data.key) := by
    clear h
    induction l with
    | nil => exact List.Sublist.refl _
    | cons x l ih =>
      cases x with
      | bucket name => exact ih.cons name
      | keyValue k v => exact ih.cons_cons k
  exact (h.sorted.imp fun {a c} (hlt : a < c) => hlt.ne).sublist hsub

/-- Deletes every value whose key passes a test, when the scan sees them all. -/
theorem Overlay.deleteWhere (h : Overlay P origin b T) (hN : Within N origin) (hfuel : N ≤ fuel)
    {l : List Data} (hl : Lists T.dir l)
    (hscan : Cursor.run (Cursor.collect P b fuel fuel) Cursor.new = .ok l) (fl : TxFreelist)
    (test : Bytes → Bool) :
    ∃ s, Bucket.deleteWhere P fuel test (b, fl) = .ok (keysOf l test).length s ∧
      StandsFor P s (T.dir.without test) := by
  have hmem : ∀ k, k ∈ keysOf l test ↔ (∃ v, T.dir.entries k = some (.value v)) ∧
      test k = true := by
    intro k
    simp only [keysOf, List.mem_filter, List.mem_map, Prod.exists, exists_and_right,
      exists_eq_right,
      mem_pairsOf hl]
  obtain ⟨b', T', hdel, hover, hdir⟩ := h.deleteKeys hN hfuel fl (keysOf l test)
    (keysOf_nodup hl test) fun k hk => ((hmem k).mp hk).1
  refine ⟨(b', fl), ?_, origin, T', hover, ?_⟩
  · have hpairs : Bucket.kvPairs P fuel b = .ok (pairsOf l) := by
      simp [Bucket.kvPairs, hscan, pairsOf]
    simp only [keysOf] at hdel
    simp [Bucket.deleteWhere, estate_bind, estate_map, hpairs, hdel, keysOf]
  · rw [hdir, Dir.without]
    congr 1
    funext k
    rcases hk : T.dir.entries k with - | v | c
    · simp [hmem, hk]
    · simp [hmem, hk]
    · simp [hmem, hk]

end Built

/-! ## Every bucket of every transaction -/

section Reached

variable {P : Pages} {N fuel : Nat}

/-- A path leads to the bucket the map has there. -/
theorem Overlay.bucketAt (hfuel : N ≤ fuel) (path : List Bytes) :
    ∀ {origin : Option Nest} {b c : InnerBucket} {T : Nest} {fl : TxFreelist},
      Overlay P origin b T → Within N origin → Bucket.bucketAt P fuel path (b, fl) = .ok c →
      ∃ origin' S, Overlay P origin' c S ∧ Within N origin' ∧ Dir.find path T.dir = some S.dir := by
  induction path with
  | nil =>
    intro origin b c T fl h hN hat
    obtain rfl : b = c := Except.ok.inj hat
    exact ⟨origin, T, h, hN, rfl⟩
  | cons name path ih =>
    intro origin b c T fl h hN hat
    rcases h.entry_cases name with ⟨-, hd⟩ | ⟨v, -, hd⟩ | ⟨m, S, hcur, hS, hd, hpage, hchild⟩
    · obtain ⟨s, hget, -⟩ := h.getter_missing fl hN hfuel false hd
      simp [Bucket.bucketAt, Bucket.atPath, InnerBucket.getBucket, hget] at hat
    · obtain ⟨s, hget, -⟩ := h.getter_value fl hN hfuel false false hd
      simp [Bucket.bucketAt, Bucket.atPath, InnerBucket.getBucket, hget] at hat
    · obtain ⟨b', hget, hlookup, -⟩ := h.opens hN hfuel false hcur fl
      have hinner : Bucket.bucketAt P fuel path (childOf b name m, fl) = .ok c := by
        simp only [Bucket.bucketAt, Bucket.atPath, InnerBucket.getBucket, hget, hlookup] at hat
        rw [Bucket.bucketAt]
        cases hrest : Bucket.atPath P fuel get path (childOf b name m, fl) with
        | ok a s =>
          rw [hrest] at hat
          exact hat
        | error e s =>
          rw [hrest] at hat
          cases hat
      obtain ⟨origin', S', hover, hN', hfind⟩ := ih hchild (hN.child name m) hinner
      refine ⟨origin', S', hover, hN', ?_⟩
      rw [Dir.find, hd]
      exact hfind

end Reached

/-! ## A bucket with two leaves -/

/-- A value so large that two of them fill a leaf. -/
def largeValue : Bytes := List.replicate 300 7

/-- A root bucket at page 2 with one nested bucket, whose four entries are in two leaves. -/
def twoLeafBucketPages : Pages where
  validate
    | 2 => .ok ⟨2, 0, .leaf [.bucket [98] ⟨3, 4⟩]⟩
    | 3 => .ok ⟨3, 0, .branch [⟨[1], 4⟩, ⟨[5], 5⟩]⟩
    | 4 => .ok ⟨4, 0, .leaf [.kv [1] largeValue, .kv [2] largeValue]⟩
    | 5 => .ok ⟨5, 0, .leaf [.kv [5] largeValue, .kv [6] largeValue]⟩
    | _ => .error "page is out of range"
  pagesize := 1024

/-- The nest of that file. -/
def twoLeafBucketNest : Nest :=
  ⟨leaf ⟨2, 1, none⟩ [.bucket [98] ⟨3, 4⟩], 1,
    [([98], ⟨branch ⟨3, 1, none⟩
      [([1], leaf ⟨4, 1, none⟩ [.kv [1] largeValue, .kv [2] largeValue]),
        ([5], leaf ⟨5, 1, none⟩ [.kv [5] largeValue, .kv [6] largeValue])], 4, []⟩)]⟩

/-- The freelist of a transaction on that file. -/
def twoLeafBucketFreelist : TxFreelist :=
  .new ⟨0, magicValue, formatVersion, 1024, ⟨2, 1⟩, 7, 6, 2, 0⟩ .new

theorem twoLeafBucket_committed : Committed twoLeafBucketPages ⟨2, 1⟩ twoLeafBucketNest :=
  committed_of_check (by decide +kernel) (by decide +kernel) rfl rfl

/-- Runs operations on a file and reads something of the bucket `[98]` afterwards. -/
def readAfter {α : Type} (P : Pages) (fl : TxFreelist) (ops : List Bucket.PathOp)
    (read : InnerBucket → Except Fault α) : Except Fault α := do
  let (_, s) ← Bucket.runAll P 20 ops (.fromMeta ⟨2, 1⟩, fl)
  let b ← Bucket.bucketAt P 20 [[98]] s
  read b

theorem readAfter_ok {α : Type} {P : Pages} {fl : TxFreelist} {ops : List Bucket.PathOp}
    {read : InnerBucket → Except Fault α} {a : α} (h : readAfter P fl ops read = .ok a) :
    ∃ answers s b, Bucket.runAll P 20 ops (.fromMeta ⟨2, 1⟩, fl) = .ok (answers, s) ∧
      Bucket.bucketAt P 20 [[98]] s = .ok b ∧ read b = .ok a := by
  obtain ⟨⟨answers, s⟩, hrun, hrest⟩ := except_bind_eq_ok.mp h
  obtain ⟨b, hb, hread⟩ := except_bind_eq_ok.mp hrest
  exact ⟨answers, s, b, hrun, hb, hread⟩

end Tagdata.Analysis
