import Tagdata.Analysis.BucketOps

/-!
# Nested buckets

A `Nest` is the tree of a bucket, its counter, and the nests of the buckets named in its
leaves.  `OnDisk` says that a nest is committed: all its trees are trees of blocks of the file.
`Overlay` says that a nest is what a bucket of a write transaction stands for, together with
the buckets it has opened; a bucket that was not opened is read as it was committed.

Every bucket that existed when the transaction began has an origin, the committed nest it came
from.  The page walk of `delete_bucket` follows that nest.
-/

set_option autoImplicit false

namespace Tagdata.Analysis

open Tagdata.Library Tagdata.Library.SearchTree Tagdata.Model

/-- The trees of a bucket and of the buckets nested in it. -/
inductive Nest where
  | mk (tree : NodeTree) (counter : Nat) (subs : List (Bytes × Nest))

/-- The name and the meta of an entry that names a bucket. -/
def bucketOf : Leaf → Option (Bytes × BucketMeta)
  | .bucket name m => some (name, m)
  | .kv _ _ => none

/-- The names of the buckets in a list of entries. -/
def bucketNames (l : List Leaf) : List Bytes := (l.filterMap bucketOf).map Prod.fst

namespace Nest

def tree : Nest → NodeTree
  | ⟨t, _, _⟩ => t

def counter : Nest → Nat
  | ⟨_, n, _⟩ => n

def subs : Nest → List (Bytes × Nest)
  | ⟨_, _, subs⟩ => subs

mutual

/-- The pages of all blocks. -/
def pages : Nest → List Nat
  | ⟨t, _, subs⟩ => t.infos.flatMap Info.block ++ subPages subs

/-- The pages of several nests. -/
def subPages : List (Bytes × Nest) → List Nat
  | [] => []
  | (_, T) :: rest => pages T ++ subPages rest

end

mutual

/-- The number of nodes of all trees. -/
def size : Nest → Nat
  | ⟨t, _, subs⟩ => t.subs.length + subSize subs

/-- The number of nodes of several nests. -/
def subSize : List (Bytes × Nest) → Nat
  | [] => 0
  | (_, T) :: rest => size T + subSize rest

end

theorem subPages_eq (subs : List (Bytes × Nest)) :
    subPages subs = subs.flatMap fun e => e.2.pages := by
  induction subs with
  | nil => rfl
  | cons e rest ih => rw [subPages, ih, List.flatMap_cons]

theorem subSize_eq (subs : List (Bytes × Nest)) :
    subSize subs = (subs.map fun e => e.2.size).sum := by
  induction subs with
  | nil => rfl
  | cons e rest ih => rw [subSize, ih, List.map_cons, List.sum_cons]

theorem pages_mk (t : NodeTree) (n : Nat) (subs : List (Bytes × Nest)) :
    pages ⟨t, n, subs⟩ = t.infos.flatMap Info.block ++ subs.flatMap fun e => e.2.pages := by
  rw [pages, subPages_eq]

theorem size_mk (t : NodeTree) (n : Nat) (subs : List (Bytes × Nest)) :
    size ⟨t, n, subs⟩ = t.subs.length + (subs.map fun e => e.2.size).sum := by
  rw [size, subSize_eq]

end Nest

/-- A committed bucket with everything nested in it. -/
inductive OnDisk (P : Pages) : Nest → Prop
  | mk {t : NodeTree} {n : Nat} {subs : List (Bytes × Nest)}
      (tree : CommittedTree P t.info.page t) (root : 2 ≤ t.info.page)
      (names : (Assoc.keys subs).Perm (bucketNames t.content))
      (metas : ∀ name m D, entryAt name t.content = some (.bucket name m) →
        subs.lookup name = some D → D.tree.info.page = m.rootPage ∧ D.counter = m.nextInt)
      (below : ∀ name D, (name, D) ∈ subs → OnDisk P D) : OnDisk P ⟨t, n, subs⟩

/-! ## Names -/

theorem bucketNames_sublist (l : List Leaf) : (bucketNames l).Sublist (l.map Leaf.key) := by
  induction l with
  | nil => simp [bucketNames]
  | cons a l ih =>
    cases a with
    | bucket name m => exact ih.cons_cons name
    | kv k v => exact ih.cons k

theorem bucketNames_nodup {l : List Leaf} (h : SortedBy Leaf.key l) : (bucketNames l).Nodup := by
  refine List.Nodup.sublist (bucketNames_sublist l) ?_
  exact (List.pairwise_map.mpr h).imp fun hlt => hlt.ne

/-- In a sorted list the entry with a key is the element that carries it. -/
theorem entryAt_eq_some {l : List Leaf} (h : SortedBy Leaf.key l) {k : Bytes} {a : Leaf} :
    entryAt k l = some a ↔ a ∈ l ∧ a.key = k := by
  constructor
  · intro hfind
    refine ⟨List.mem_of_find?_eq_some hfind, ?_⟩
    simpa using List.find?_some hfind
  · rintro ⟨hmem, rfl⟩
    obtain ⟨c, hc⟩ : ∃ c, entryAt a.key l = some c := by
      rw [← Option.isSome_iff_exists, entryAt, List.find?_isSome]
      exact ⟨a, hmem, by simp⟩
    have hck : c.key = a.key := by simpa using List.find?_some hc
    rw [hc, h.eq_of_key (List.mem_of_find?_eq_some hc) hmem hck]

theorem mem_bucketNames {l : List Leaf} (h : SortedBy Leaf.key l) {name : Bytes} :
    name ∈ bucketNames l ↔ ∃ m, entryAt name l = some (.bucket name m) := by
  simp only [bucketNames, List.mem_map, List.mem_filterMap, entryAt_eq_some h]
  constructor
  · rintro ⟨e, ⟨a, ha, hae⟩, rfl⟩
    cases a with
    | bucket other m =>
      obtain rfl := Option.some.inj hae
      exact ⟨m, ha, rfl⟩
    | kv k v => cases hae
  · rintro ⟨m, hm, -⟩
    exact ⟨(name, m), ⟨_, hm, rfl⟩, rfl⟩

/-! ## The page walk of `delete_bucket` -/

theorem Info.block_of {i : Info} (h : i.page ≠ 0) : i.block = List.range' i.page i.span :=
  if_neg h

/-- The freelist after retiring pages one after another. -/
def retire (fl : TxFreelist) (pages : List Nat) : TxFreelist :=
  { fl with inner := pages.foldl (fun f id => f.free fl.txMeta.txId id) fl.inner }

theorem free_eq_retire (fl : TxFreelist) (page n : Nat) :
    fl.free page n = retire fl (List.range' page n) := rfl

theorem retire_retire (fl : TxFreelist) (ps qs : List Nat) :
    retire (retire fl ps) qs = retire fl (ps ++ qs) := by
  simp [retire, List.foldl_append]

/-- The walk over the pages on a stack takes some rounds and retires some pages. -/
def Frees (P : Pages) (stack : List Nat) (rounds : Nat) (pages : List Nat) : Prop :=
  ∀ fuel rest fl, freePages P (rounds + fuel) (stack ++ rest) fl =
    freePages P fuel rest (retire fl pages)

section Walk

variable {P : Pages}

theorem frees_nil : Frees P [] 0 [] := fun fuel rest fl => by simp [retire]

theorem Frees.append {s₁ s₂ : List Nat} {n₁ n₂ : Nat} {p₁ p₂ : List Nat} (h₁ : Frees P s₁ n₁ p₁)
    (h₂ : Frees P s₂ n₂ p₂) : Frees P (s₁ ++ s₂) (n₁ + n₂) (p₁ ++ p₂) := by
  intro fuel rest fl
  rw [Nat.add_assoc, List.append_assoc, h₁, h₂, retire_retire]

/-- A block, and then what it points to. -/
theorem frees_block {page overflow n : Nat} {body : PageBody} {ps : List Nat}
    (hpage : P.nodePage page = .ok ⟨page, overflow, body⟩)
    (h : Frees P body.below.reverse n ps) :
    Frees P [page] (n + 1) (List.range' page (overflow + 1) ++ ps) := by
  intro fuel rest fl
  have hround : n + 1 + fuel = n + fuel + 1 := by omega
  rw [hround, List.singleton_append, freePages, hpage]
  simp only
  rw [free_eq_retire, h, retire_retire]

/-- Several subtrees or buckets, pushed on the stack in order. -/
theorem frees_list {α : Type} (page : α → Nat) (want : α → List Nat) (cost : α → Nat) :
    ∀ xs : List α,
      (∀ x ∈ xs, ∃ ps, Frees P [page x] (cost x) ps ∧ ps.Perm (want x)) →
      ∃ ps, Frees P (xs.map page).reverse (xs.map cost).sum ps ∧ ps.Perm (xs.flatMap want) := by
  intro xs
  induction xs with
  | nil => exact fun _ => ⟨[], frees_nil, List.Perm.refl _⟩
  | cons x xs ih =>
    intro h
    obtain ⟨ps, hps, hperm⟩ := h x List.mem_cons_self
    obtain ⟨qs, hqs, hqperm⟩ := ih fun y hy => h y (List.mem_cons_of_mem _ hy)
    refine ⟨qs ++ ps, ?_, ?_⟩
    · rw [List.map_cons, List.reverse_cons, List.map_cons, List.sum_cons, Nat.add_comm]
      exact hqs.append hps
    · rw [List.flatMap_cons]
      exact List.perm_append_comm.trans (hperm.append hqperm)

/-- The root pages of the buckets named in a leaf. -/
theorem below_leaf (d : List Leaf) :
    (PageBody.leaf d).below = (d.filterMap bucketOf).map fun e => e.2.rootPage := by
  rw [PageBody.below, List.map_filterMap]
  refine List.filterMap_congr fun a _ => ?_
  cases a <;> rfl

theorem bucketNames_flatMap {α : Type} (l : List α) (f : α → List Leaf) :
    bucketNames (l.flatMap f) = l.flatMap fun x => bucketNames (f x) := by
  simp only [bucketNames, List.filterMap_flatMap, List.map_flatMap]

theorem sum_length_add {α β γ : Type} (f : α → List β) (g : α → List γ) (cost : γ → Nat)
    (l : List α) : (l.flatMap f).length + ((l.flatMap g).map cost).sum =
      (l.map fun x => (f x).length + ((g x).map cost).sum).sum := by
  induction l with
  | nil => rfl
  | cons x l ih =>
    simp only [List.flatMap_cons, List.length_append, List.map_append, List.sum_append,
      List.map_cons, List.sum_cons, ← ih]
    omega

/-- The walk below a block of a committed tree, when the walks of the buckets named in it are
known. -/
theorem frees_tree (want : Bytes → List Nat) (cost : Bytes → Nat) {u : NodeTree}
    (h : Holds pageTag (onDisk P) u) (hroot : u.info.page ≠ 0)
    (hsub : ∀ name m, .bucket name m ∈ u.content →
      ∃ ps, Frees P [m.rootPage] (cost name) ps ∧ ps.Perm (want name)) :
    ∃ ps, Frees P [u.info.page] (u.subs.length + ((bucketNames u.content).map cost).sum) ps ∧
      ps.Perm (u.infos.flatMap Info.block ++ (bucketNames u.content).flatMap want) := by
  induction u using SearchTree.induct with
  | leaf i d =>
    obtain ⟨-, overflow, hspan, hpage⟩ := (holds_leaf i d).mp h
    obtain ⟨ps, hps, hperm⟩ := frees_list (P := P) (fun e : Bytes × BucketMeta => e.2.rootPage)
      (fun e => want e.1) (fun e => cost e.1)
      (d.filterMap bucketOf) fun e he => by
          obtain ⟨a, ha, hae⟩ := List.mem_filterMap.mp he
          cases a with
          | bucket name m =>
            obtain rfl := Option.some.inj hae
            exact hsub name m (by simpa using ha)
          | kv k v => cases hae
    rw [← below_leaf] at hps
    refine ⟨List.range' i.page (overflow + 1) ++ ps, ?_, ?_⟩
    · have hblock := frees_block hpage hps
      rw [content_leaf, bucketNames, List.map_map, subs_leaf, List.length_singleton, Nat.add_comm]
      exact hblock
    · have hi : i.block = List.range' i.page (overflow + 1) := hspan ▸ Info.block_of hroot
      rw [infos_leaf, List.flatMap_singleton, hi, content_leaf, bucketNames, List.flatMap_map]
      exact hperm.append_left _
  | branch i ks ih =>
    obtain ⟨⟨⟨-, overflow, hspan, hpage⟩, hpages⟩, hkids⟩ := (holds_branch i ks).mp h
    obtain ⟨ps, hps, hperm⟩ := frees_list (P := P) (fun e : Bytes × NodeTree => e.2.info.page)
      (fun e => e.2.infos.flatMap Info.block ++ (bucketNames e.2.content).flatMap want)
      (fun e => e.2.subs.length + ((bucketNames e.2.content).map cost).sum) ks fun e he => by
        have hpos : 2 ≤ tag pageTag e.2 := hpages (e.1, tag pageTag e.2) (List.mem_map_of_mem he)
        rw [tag_page] at hpos
        refine ih e he (hkids e he) (by omega) fun name m hm => hsub name m ?_
        rw [content_branch]
        exact List.mem_flatMap.mpr ⟨e, he, hm⟩
    have hbelow : (PageBody.ofNodeData (branchData (tags pageTag ks))).below =
        ks.map fun e => e.2.info.page := by
      simp [PageBody.ofNodeData, branchData, PageBody.below, tags]
    rw [← hbelow] at hps
    refine ⟨List.range' i.page (overflow + 1) ++ ps, ?_, ?_⟩
    · have hblock := frees_block hpage hps
      have hcost : (branch i ks).subs.length +
            ((bucketNames (branch i ks).content).map cost).sum =
          (ks.map fun e => e.2.subs.length + ((bucketNames e.2.content).map cost).sum).sum + 1 := by
        rw [subs_branch, content_branch, bucketNames_flatMap, List.length_cons,
          ← sum_length_add]
        omega
      rw [hcost]
      exact hblock
    · have hi : i.block = List.range' i.page (overflow + 1) := hspan ▸ Info.block_of hroot
      rw [infos_branch, List.flatMap_cons, hi, content_branch, bucketNames_flatMap,
        List.flatMap_assoc, List.flatMap_assoc, List.append_assoc]
      exact (hperm.trans (List.flatMap_append_perm ks _ _).symm).append_left _

/-- The walk of a committed bucket retires its pages and those of everything nested in it. -/
theorem OnDisk.frees {D : Nest} (h : OnDisk P D) :
    ∃ ps, Frees P [D.tree.info.page] D.size ps ∧ ps.Perm D.pages := by
  induction h with
  | @mk t n subs tree root names metas below ih =>
    have hsorted := tree.separated.content
    have hkeys : (Assoc.keys subs).Nodup := names.nodup_iff.mpr (bucketNames_nodup hsorted)
    -- the walk of a named bucket is that of its nest
    let want : Bytes → List Nat := fun name => ((subs.lookup name).map Nest.pages).getD []
    let cost : Bytes → Nat := fun name => ((subs.lookup name).map Nest.size).getD 0
    have hlookup : ∀ e ∈ subs, subs.lookup e.1 = some e.2 := fun e he =>
      Assoc.lookup_of_mem hkeys he
    have hwant : subs.flatMap (fun e => e.2.pages) = (Assoc.keys subs).flatMap want := by
      rw [Assoc.keys, List.flatMap_map]
      exact List.flatMap_congr fun e he => by simp [want, hlookup e he]
    have hcost : (subs.map fun e => e.2.size) = (Assoc.keys subs).map cost := by
      rw [Assoc.keys, List.map_map]
      exact List.map_congr_left fun e he => by simp [cost, hlookup e he]
    obtain ⟨ps, hps, hperm⟩ := frees_tree want cost tree.blocks (by omega) fun name m hm => by
      have hentry : entryAt name t.content = some (.bucket name m) :=
        (entryAt_eq_some hsorted).mpr ⟨hm, rfl⟩
      have hmem : name ∈ Assoc.keys subs :=
        names.mem_iff.mpr ((mem_bucketNames hsorted).mpr ⟨m, hentry⟩)
      obtain ⟨e, he, rfl⟩ := List.mem_map.mp hmem
      obtain ⟨ps, hps, hperm⟩ := ih e.1 e.2 he
      rw [(metas e.1 m e.2 hentry (hlookup e he)).1] at hps
      refine ⟨ps, ?_, ?_⟩
      · simpa [cost, hlookup e he] using hps
      · simpa [want, hlookup e he] using hperm
    refine ⟨ps, ?_, ?_⟩
    · rw [Nest.size_mk, hcost, (names.map cost).sum_eq]
      exact hps
    · rw [Nest.pages_mk, hwant]
      exact hperm.trans ((names.symm.flatMap_right want).append_left _)

/-- `delete_bucket`'s walk of a committed bucket, with enough rounds. -/
theorem OnDisk.freePages {D : Nest} (h : OnDisk P D) {fuel : Nat} (hfuel : D.size ≤ fuel)
    (fl : TxFreelist) :
    ∃ ps, Model.freePages P fuel [D.tree.info.page] fl = .ok () (retire fl ps) ∧
      ps.Perm D.pages := by
  obtain ⟨ps, hps, hperm⟩ := h.frees
  obtain ⟨rest, rfl⟩ : ∃ n, fuel = D.size + n := ⟨fuel - D.size, by omega⟩
  refine ⟨ps, ?_, hperm⟩
  have hwalk := hps rest [] fl
  rw [List.append_nil] at hwalk
  rw [hwalk]
  cases rest <;> rfl

end Walk

end Tagdata.Analysis
