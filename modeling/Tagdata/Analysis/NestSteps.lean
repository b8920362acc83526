import Tagdata.Analysis.Overlay
import Tagdata.Interface.NestedMap

/-!
# The nested map a nest stands for

`Nest.dir` forgets the trees of a nest.  Every operation of a bucket changes a nest at one key:
the lemmas here say when the changed bucket is again an overlay, and which nested map the
changed nest stands for.
-/

set_option autoImplicit false

namespace Tagdata.Analysis

open Tagdata.Library Tagdata.Library.SearchTree Tagdata.Model Tagdata.Interface

namespace Nest

mutual

/-- The nested map of a nest. -/
def dir : Nest → Dir
  | ⟨t, n, subs⟩ => ⟨n, fun k =>
      match entryAt k t.content with
      | none => none
      | some (.kv _ v) => some (.value v)
      | some (.bucket _ _) => subDir k subs⟩

/-- The nested map of the nest with a name. -/
def subDir (k : Bytes) : List (Bytes × Nest) → Option Entry
  | [] => none
  | (name, T) :: rest => if k = name then some (.bucket (dir T)) else subDir k rest

end

theorem subDir_eq (k : Bytes) (subs : List (Bytes × Nest)) :
    subDir k subs = (subs.lookup k).map fun T => .bucket T.dir := by
  induction subs with
  | nil => rfl
  | cons e rest ih =>
    obtain ⟨name, T⟩ := e
    by_cases h : k = name
    · subst h
      rw [subDir, if_pos rfl, Assoc.lookup_cons_self]
      rfl
    · rw [subDir, if_neg h, Assoc.lookup_cons_ne h, ih]

/-- The entry a leaf element stands for. -/
def entryOf (subs : List (Bytes × Nest)) (k : Bytes) : Option Leaf → Option Entry
  | none => none
  | some (.kv _ v) => some (.value v)
  | some (.bucket _ _) => (subs.lookup k).map fun T => .bucket T.dir

theorem dir_counter (T : Nest) : T.dir.counter = T.counter := by
  cases T
  rw [dir]
  rfl

theorem dir_entries (T : Nest) (k : Bytes) :
    T.dir.entries k = entryOf T.subs k (entryAt k T.tree.content) := by
  obtain ⟨t, n, subs⟩ := T
  rw [dir]
  simp only [tree, Nest.subs]
  cases hentry : entryAt k t.content with
  | none => rfl
  | some a =>
    cases a with
    | kv key v => rfl
    | bucket name m => exact subDir_eq k subs

/-- The nested map after a change at one key. -/
theorem dir_update (T T' : Nest) {k : Bytes} {e : Option Leaf}
    (hedit : Edit T.tree T'.tree k e)
    (hsubs : ∀ x, x ≠ k → T'.subs.lookup x = T.subs.lookup x) :
    T'.dir = ⟨T'.counter, Function.update T.dir.entries k (entryOf T'.subs k e)⟩ := by
  have hentries : T'.dir.entries = Function.update T.dir.entries k (entryOf T'.subs k e) := by
    funext x
    rw [dir_entries, hedit.entry]
    by_cases hx : x = k
    · subst hx
      rw [if_pos rfl, Function.update_self]
    · rw [if_neg hx, Function.update_of_ne hx, dir_entries]
      cases hentry : entryAt x T.tree.content with
      | none => rfl
      | some a => cases a <;> simp [entryOf, hsubs x hx]
  rw [← hentries, ← dir_counter]

theorem dir_empty : Nest.empty.dir = Dir.empty := by
  have hentries : Nest.empty.dir.entries = fun _ => none := by
    funext k
    rw [dir_entries]
    rfl
  rw [Dir.empty, ← hentries]
  rfl

end Nest

theorem Edit.refl (t : NodeTree) (k : Bytes) : Edit t t k (entryAt k t.content) := by
  refine ⟨rfl, fun x => ?_⟩
  by_cases hx : x = k
  · rw [if_pos hx, hx]
  · rw [if_neg hx]

section Update

variable {P : Pages} {origin : Option Nest} {b b' : InnerBucket} {t t' : NodeTree} {n n' : Nat}
  {subs subs' : List (Bytes × Nest)} {k : Bytes} {e : Option Leaf}

theorem key_of_entryAt {l : List Leaf} {a : Leaf} (h : entryAt k l = some a) : a.key = k := by
  simpa using List.find?_some h

/-- Trees that agree but for records and entries have the same origin. -/
theorem Source.congr (h : Source P origin t) (hbare : bare t' = bare t) : Source P origin t' := by
  cases origin with
  | none =>
    obtain ⟨hpage, hleaf⟩ := h
    refine ⟨(page_of_map hbare).trans hpage, ?_⟩
    cases t with
    | leaf i d =>
      cases t' with
      | leaf i' d' => rfl
      | branch i' ks' => simp [bare, SearchTree.map] at hbare
    | branch i ks => simp at hleaf
  | some D => exact ⟨h.1, hbare.trans h.2⟩

/-- A bucket changed at one key, in its tree and in the map of opened buckets. -/
theorem Overlay.update (h : Overlay P origin b ⟨t, n, subs⟩) (hopen : Opened P b' t')
    (halive : b'.deleted = false) (hclean : b'.dirty = false → b'.nodes = [])
    (hcount : b'.bucketMeta.nextInt = n') (hedit : Edit t t' k e)
    (hcache : ∀ x, x ≠ k → b'.buckets.lookup x = b.buckets.lookup x)
    (hcacheKeys : (Assoc.keys b'.buckets).Nodup)
    (hsubs : ∀ x, x ≠ k → subs'.lookup x = subs.lookup x) (hsubsKeys : (Assoc.keys subs').Nodup)
    (hname : k ∈ Assoc.keys subs' ↔ ∃ m, e = some (.bucket k m))
    (hopened : k ∈ Assoc.keys b'.buckets → ∃ m, e = some (.bucket k m))
    (hsub : ∀ m T, e = some (.bucket k m) → subs'.lookup k = some T →
      T.tree.info.page = m.rootPage ∧ Overlay P (originOf origin k m) (childOf b' k m) T) :
    Overlay P origin b' ⟨t', n', subs'⟩ := by
  cases h with
  | mk opened alive counter clean source names cacheKeys cached roots below =>
    have hsorted := opened.separated.content
    have hsorted' := hopen.separated.content
    have hself : entryAt k t'.content = e := by rw [hedit.entry, if_pos rfl]
    have hother : ∀ x, x ≠ k → entryAt x t'.content = entryAt x t.content := by
      intro x hx
      rw [hedit.entry, if_neg hx]
    -- away from the key the two maps of nested buckets have the same names
    have hmem : ∀ x, x ≠ k → (x ∈ Assoc.keys subs' ↔ x ∈ bucketNames t'.content) := by
      intro x hx
      rw [← Assoc.lookup_isSome, hsubs x hx, Assoc.lookup_isSome, names.mem_iff,
        mem_bucketNames hsorted, mem_bucketNames hsorted', hother x hx]
    refine .mk hopen halive hcount hclean (source.congr hedit.bare) ?_ hcacheKeys ?_ ?_ ?_
    · refine (List.perm_ext_iff_of_nodup hsubsKeys (bucketNames_nodup hsorted')).mpr fun x => ?_
      by_cases hx : x = k
      · rw [hx, hname, mem_bucketNames hsorted', hself]
      · exact hmem x hx
    · intro x hxmem
      by_cases hx : x = k
      · rw [hx, mem_bucketNames hsorted', hself]
        exact hopened (hx ▸ hxmem)
      · rw [← Assoc.lookup_isSome, hcache x hx, Assoc.lookup_isSome] at hxmem
        have hold := cached x hxmem
        rw [mem_bucketNames hsorted] at hold
        rwa [mem_bucketNames hsorted', hother x hx]
    · intro x m T hentry hlookup
      by_cases hx : x = k
      · subst hx
        exact (hsub m T (hself.symm.trans hentry) hlookup).1
      · exact roots x m T (by rwa [← hother x hx]) (by rwa [← hsubs x hx])
    · intro x m T hentry hlookup
      by_cases hx : x = k
      · subst hx
        exact (hsub m T (hself.symm.trans hentry) hlookup).2
      · have hchild : childOf b' x m = childOf b x m := by rw [childOf, childOf, hcache x hx]
        rw [hchild]
        exact below x m T (by rwa [← hother x hx]) (by rwa [← hsubs x hx])

/-- The nest of a named bucket. -/
theorem Overlay.child {m : BucketMeta} (h : Overlay P origin b ⟨t, n, subs⟩)
    (hentry : entryAt k t.content = some (.bucket k m)) :
    ∃ T, subs.lookup k = some T ∧ T.tree.info.page = m.rootPage ∧
      Overlay P (originOf origin k m) (childOf b k m) T := by
  cases h with
  | mk opened alive counter clean source names cacheKeys cached roots below =>
    have hmem : k ∈ Assoc.keys subs :=
      names.mem_iff.mpr ((mem_bucketNames opened.separated.content).mpr ⟨m, hentry⟩)
    obtain ⟨T, hT⟩ := Option.isSome_iff_exists.mp (Assoc.lookup_isSome.mpr hmem)
    exact ⟨T, hT, roots k m T hentry hT, below k m T hentry hT⟩

end Update

end Tagdata.Analysis
