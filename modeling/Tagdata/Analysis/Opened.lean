import Tagdata.Analysis.Loading

/-!
# A bucket inside a write transaction

`Opened` ties a bucket that a write transaction has opened to its tree: the tree is stored in
the arena and the file, its nodes refer to each other as they should, every slot of the arena
is a node of the tree, and a descent by separators finds every key.

The operations change the tree in one leaf at a time.  `Edit` says what such a change does to
the content; branches, separators and pages stay as they were committed, so `bare` is the same
before and after.
-/

set_option autoImplicit false

namespace Tagdata.Analysis

open Tagdata.Library Tagdata.Library.SearchTree Tagdata.Model

/-- The tree without records and without entries: what a transaction does not change before
it commits. -/
def bare (t : NodeTree) : NodeTree := t.map Info.strip fun _ => []

/-- The tree a bucket of a write transaction stands for, before the commit. -/
structure Opened (P : Pages) (b : InnerBucket) (t : NodeTree) : Prop where
  stored : Holds pageTag (stored P b) t
  linked : Holds linkTag linked t
  root : b.bucketMeta.rootPage = t.info.page
  heads : (heads t).Nodup
  ids : (ids t).Perm (List.range b.nodes.length)
  separated : Separated Leaf.key t
  routable : Routable Leaf.key t
  blank : t.info.loaded = none → b.pageNodeIds = []

/-- What an operation on one key did to a tree. -/
structure Edit (t t' : NodeTree) (k : Bytes) (e : Option Leaf) : Prop where
  bare : bare t' = bare t
  entry : ∀ x, entryAt x t'.content = if x = k then e else entryAt x t.content

section Labels

variable {t t' : NodeTree} {g : List Leaf → List Leaf}

theorem heads_of_map (h : t'.map Info.strip g = t.map Info.strip g) :
    Analysis.heads t' = Analysis.heads t := by
  have hinfos := congrArg infos h
  rw [infos_map, infos_map] at hinfos
  have hpages := congrArg (List.map Info.page) hinfos
  simpa [Analysis.heads, Function.comp_def, Info.strip] using hpages

theorem page_of_map (h : t'.map Info.strip g = t.map Info.strip g) :
    t'.info.page = t.info.page := by
  have hinfo := congrArg info h
  rw [info_map, info_map] at hinfo
  have hpage := congrArg Info.page hinfo
  simpa [Info.strip] using hpage

end Labels

theorem keys_setInfo (i : Info) (s : NodeTree) :
    keys Leaf.key (s.setInfo i) = keys Leaf.key s := by
  cases s <;> simp [setInfo, keys, ownKeys]

theorem separated_setInfo (i : Info) (s : NodeTree) :
    Separated Leaf.key (s.setInfo i) ↔ Separated Leaf.key s := by
  cases s <;> simp [setInfo, separated_branch]

theorem routable_setInfo (i : Info) (s : NodeTree) :
    Routable Leaf.key (s.setInfo i) ↔ Routable Leaf.key s := by
  cases s <;> simp [setInfo, routable_branch]

/-- In a linked tree everything above a loaded node is loaded. -/
theorem root_loaded {C : TreeCtx} {s : NodeTree} {r : NodeRec}
    (h : Holds linkTag linked (plug C s)) (hr : s.info.loaded = some r) :
    ∃ q, (plug C s).info.loaded = some q := by
  induction C generalizing s r with
  | nil => exact ⟨r, hr⟩
  | cons f C ih =>
    obtain ⟨⟨⟨-, hkids⟩, -, -⟩, -⟩ := (holds_plug (f :: C) s).mp h
    cases hf : f.info.loaded with
    | some q => exact ih (s := f.fill s) h hf
    | none =>
      simp only [hf] at hkids
      have hs := hkids (f.key, tag linkTag s) (by simp)
      have htag : tag linkTag s = .loaded r.id r.parent r.originalKey := by
        cases s with
        | leaf i d => simp [linkTag, Info.link, show i.loaded = some r from hr]
        | branch i ks => simp [linkTag, Info.link, show i.loaded = some r from hr]
      simp [htag] at hs

/-- The first key of a block is its separator. -/
theorem firstKey_unloaded {f : Frame Bytes Info Leaf} {C : TreeCtx} {s : NodeTree}
    (h : Holds linkTag linked (plug (f :: C) s)) (hun : s.info.loaded = none) :
    firstKey? Leaf.key s = some f.key := by
  obtain ⟨⟨⟨-, hkids⟩, -, -⟩, -⟩ := (holds_plug (f :: C) s).mp h
  rw [tag_link_unloaded hun] at hkids
  cases hf : f.info.loaded with
  | none =>
    simp only [hf] at hkids
    exact Link.onDisk.inj (hkids (f.key, .onDisk (firstKey? Leaf.key s)) (by simp))
  | some q =>
    simp only [hf] at hkids
    rcases hkids.2 (f.key, .onDisk (firstKey? Leaf.key s)) (by simp) with hd | ⟨id, hd⟩
    · exact Link.onDisk.inj hd
    · cases hd

theorem sameFrames_load (C : TreeCtx) (kid next : Nat) : SameFrames (loadCtx C kid next) C := by
  induction C generalizing kid next with
  | nil => exact .nil
  | cons f C ih =>
    cases hf : f.info.loaded with
    | some r =>
      simp only [loadCtx, hf]
      exact .cons ⟨rfl, rfl, rfl⟩ (SameFrames.refl C)
    | none =>
      simp only [loadCtx, hf]
      exact .cons ⟨rfl, rfl, rfl⟩ (ih next (next + 1))

namespace Opened

variable {P : Pages} {b b' : InnerBucket} {t : NodeTree}

theorem bushy (h : Opened P b t) : ∀ u ∈ t.subs, u.isLeaf = false → u.kids ≠ [] := by
  intro u hu hleaf
  have hroot := h.linked u hu
  cases u with
  | leaf i d => simp at hleaf
  | branch i ks =>
    intro hnil
    obtain rfl : ks = [] := hnil
    exact hroot.1 rfl

theorem readable (h : Opened P b t) : Readable P b t where
  stored := h.stored
  separated := h.separated
  routable := h.routable
  bushy := h.bushy

/-- Only the arena, the map of pages and the root page matter. -/
theorem congr (h : Opened P b t) (hnodes : b'.nodes = b.nodes)
    (hids : b'.pageNodeIds = b.pageNodeIds)
    (hroot : b'.bucketMeta.rootPage = b.bucketMeta.rootPage) : Opened P b' t where
  stored := holds_agrees h.stored fun i _ => ⟨by rw [hids], fun r _ => by rw [hnodes]⟩
  linked := h.linked
  root := hroot.trans h.root
  heads := h.heads
  ids := by rw [hnodes]; exact h.ids
  separated := h.separated
  routable := h.routable
  blank := fun hr => hids.trans (h.blank hr)

theorem ids_nodup (h : Opened P b t) : (Analysis.ids t).Nodup :=
  h.ids.nodup_iff.mpr List.nodup_range

/-- `node` at a place of the tree: the place is loaded, and the tree is the same but for its
records. -/
theorem fetch {C : TreeCtx} {s : NodeTree} (h : Opened P b (plug C s)) (fuel : Nat)
    (hrec : Recorded b C s.info.page) (hfuel : C.length < fuel) :
    ∃ nodes pageIds D i r,
      InnerBucket.node P fuel s.info.nodeId none b =
        .ok r.id { b with nodes := nodes, pageNodeIds := pageIds } ∧
      i.loaded = some r ∧ SameFrames D C ∧
      (∀ g : List Leaf → List Leaf,
        (plug D (s.setInfo i)).map Info.strip g = (plug C s).map Info.strip g) ∧
      Opened P { b with nodes := nodes, pageNodeIds := pageIds } (plug D (s.setInfo i)) := by
  cases hl : s.info.loaded with
  | some r =>
    have hroot := (stored_parts h.stored).2.2
    simp only [StoredAt, hl] at hroot
    obtain ⟨fuel, rfl⟩ : ∃ n, fuel = n + 1 := ⟨fuel - 1, by omega⟩
    have hself : s.setInfo s.info = s := by cases s <;> rfl
    have hnode := node_id (P := P) fuel none hroot.2
    refine ⟨b.nodes, b.pageNodeIds, C, s.info, r, ?_, hl, SameFrames.refl C, fun g => ?_, ?_⟩
    · rw [Info.nodeId, hl]
      cases b
      exact hnode
    · rw [hself]
    · rw [hself]
      exact h.congr rfl rfl rfl
  | none =>
    have hfirst : C ≠ [] → ∃ k, firstKey? Leaf.key s = some k := by
      intro hne
      cases C with
      | nil => exact absurd rfl hne
      | cons f C => exact ⟨f.key, firstKey_unloaded h.linked hl⟩
    obtain ⟨nodes, pageIds, count, hnode, hstored, hlen, hids⟩ :=
      node_load h.stored h.heads h.ids_nodup hl h.root hrec hfirst hfuel
    have hlinked := linked_load h.linked hl b.nodes.length (b.nodes.length + 1)
    have hmap := fun g => map_load g C s (firstKey? Leaf.key s) b.nodes.length
      (b.nodes.length + 1) b.nodes.length (ctxId C (b.nodes.length + 1))
    have hframes := sameFrames_load C b.nodes.length (b.nodes.length + 1)
    refine ⟨nodes, pageIds, _, _, _, ?_, rfl, hframes, hmap, ?_⟩
    · rw [Info.nodeId, hl]
      exact hnode
    · have hkeys : keys Leaf.key (s.setInfo (s.info.fresh (firstKey? Leaf.key s) b.nodes.length
          (ctxId C (b.nodes.length + 1)))) = keys Leaf.key s := keys_setInfo _ s
      obtain ⟨hgap, habove, hsepC, hroutC⟩ := hframes.order Leaf.key
      refine ⟨hstored, hlinked, ?_, ?_, ?_, ?_, ?_, ?_⟩
      · exact h.root.trans (page_of_map (hmap id)).symm
      · rw [heads_of_map (hmap id)]
        exact h.heads
      · refine hids.trans ((h.ids.append_right _).trans ?_)
        show List.Perm _ (List.range nodes.length)
        have hsplit := @List.range'_append_1 0 b.nodes.length count
        rw [Nat.zero_add] at hsplit
        rw [hlen, List.range_eq_range', List.range_eq_range', hsplit]
      · obtain ⟨hC, hs, hfit⟩ := (separated_plug C s).mp h.separated
        refine (separated_plug _ _).mpr ⟨hsepC.mpr hC, ?_, fun x hx => (hgap x).mpr ?_⟩
        · exact (separated_setInfo _ s).mpr hs
        · exact hfit x (hkeys ▸ hx)
      · obtain ⟨hC, hs, hfit⟩ := (routable_plug C s).mp h.routable
        refine (routable_plug _ _).mpr ⟨hroutC.mpr hC, ?_, fun x hx => (habove x).mpr ?_⟩
        · exact (routable_setInfo _ s).mpr hs
        · exact hfit x (hkeys ▸ hx)
      · intro hnone
        obtain ⟨q, hq⟩ := root_loaded hlinked (by rw [info_setInfo]; rfl)
        rw [hq] at hnone
        cases hnone

/-- Writing a loaded leaf, with keys that fit at its place. -/
theorem setLeaf {C : TreeCtx} {i : Info} {d d' : List Leaf} {r : NodeRec}
    (h : Opened P b (plug C (leaf i d))) (hr : i.loaded = some r) (hsorted : SortedBy Leaf.key d')
    (hfit : ∀ a ∈ d', Gap Leaf.key C a.key ∧ Above C a.key) :
    Opened P (b.setNode (i.nodeOf r (.leaves d'))) (plug C (leaf i d')) := by
  obtain ⟨hC, -, hroot⟩ := stored_parts h.stored
  simp only [StoredAt, info_leaf, hr] at hroot
  have hinfos : (plug C (leaf i d')).infos.Perm (plug C (leaf i d)).infos :=
    (infos_plug C (leaf i d')).trans (infos_plug C (leaf i d)).symm
  have hkeys : ∀ x ∈ keys Leaf.key (leaf i d' : NodeTree), ∃ a ∈ d', a.key = x := by
    intro x hx
    simpa using hx
  have hinfo : (plug C (leaf i d')).info = (plug C (leaf i d)).info := by
    cases C with
    | nil => rfl
    | cons f C => exact info_plug_cons f C _ _
  refine ⟨?_, ?_, ?_, ?_, ?_, ?_, ?_, ?_⟩
  · exact stored_replace (s := leaf i d') hC (by simp) hr hroot.1
      (List.getElem?_eq_some_iff.mp hroot.2).1 (by simpa using (id_not_elsewhere h.ids_nodup hr).1)
  · obtain ⟨haround, hleaf⟩ := (holds_plug C _).mp h.linked
    refine (holds_plug C _).mpr ⟨?_, (holds_leaf i d').mpr ((holds_leaf i d).mp hleaf)⟩
    have htag : tag linkTag (leaf i d' : NodeTree) = tag linkTag (leaf i d : NodeTree) := by
      simp [linkTag, Info.link, hr]
    rw [htag]
    exact haround
  · rw [hinfo]
    exact h.root
  · exact (hinfos.map _).nodup_iff.mpr h.heads
  · have hlen : (b.setNode (i.nodeOf r (.leaves d'))).nodes.length = b.nodes.length := by
      simp [InnerBucket.setNode]
    rw [hlen]
    exact (hinfos.filterMap _).trans h.ids
  · obtain ⟨hsep, -, -⟩ := (separated_plug C _).mp h.separated
    refine (separated_plug C _).mpr ⟨hsep, (separated_leaf Leaf.key i d').mpr hsorted, ?_⟩
    intro x hx
    obtain ⟨a, ha, rfl⟩ := hkeys x hx
    exact (hfit a ha).1
  · obtain ⟨hroute, -, -⟩ := (routable_plug C _).mp h.routable
    refine (routable_plug C _).mpr ⟨hroute, routable_leaf Leaf.key i d', ?_⟩
    intro x hx
    obtain ⟨a, ha, rfl⟩ := hkeys x hx
    exact (hfit a ha).2
  · rw [hinfo]
    exact h.blank

end Opened

/-! ## Changing one leaf -/

/-- A sorted leaf, cut at a key. -/
theorem leaf_cut {d : List Leaf} (hd : SortedBy Leaf.key d) (k : Bytes) :
    ∃ below above, d = below ++ (entryAt k d).toList ++ above ∧
      (∀ a ∈ below, a.key < k) ∧ (∀ a ∈ above, k < a.key) ∧
      (∀ a, entryAt k d = some a → a.key = k) ∧
      (binarySearchByKey k Leaf.key d =
        if (entryAt k d).isSome then .ok below.length else .error below.length) := by
  rcases binary_search_cases hd k with
    ⟨below, x, above, rfl, hx, hb, ha, hsearch⟩ | ⟨below, above, rfl, hb, ha, hsearch⟩
  · have hfind : entryAt k (below ++ x :: above) = some x := by
      rw [entryAt_append_left fun a ha => (hb a ha).ne]
      simp [entryAt, hx]
    refine ⟨below, above, by simp [hfind], hb, ha, fun a haa => ?_, by simp [hfind, hsearch]⟩
    rw [hfind] at haa
    exact Option.some.inj haa ▸ hx
  · have hnone : entryAt k (below ++ above) = none := by
      refine entryAt_of_ne fun a hmem => ?_
      rcases List.mem_append.mp hmem with hmem | hmem
      · exact (hb a hmem).ne
      · exact (ha a hmem).ne'
    refine ⟨below, above, by simp [hnone], hb, ha, fun a haa => ?_, by simp [hnone, hsearch]⟩
    rw [hnone] at haa
    cases haa

/-- The entries of a list whose middle part was exchanged, when the middle parts have one key
only. -/
theorem entryAt_exchange {k : Bytes} {l r : List Leaf} {e e' : Option Leaf}
    (hl : ∀ a ∈ l, a.key < k) (hr : ∀ a ∈ r, k < a.key) (he : ∀ a, e = some a → a.key = k)
    (he' : ∀ a, e' = some a → a.key = k) (x : Bytes) :
    entryAt x (l ++ e'.toList ++ r) = if x = k then e' else entryAt x (l ++ e.toList ++ r) := by
  by_cases hx : x = k
  · subst hx
    rw [if_pos rfl, entryAt_append_right fun a ha => (hr a ha).ne',
      entryAt_append_left fun a ha => (hl a ha).ne]
    cases e' with
    | none => rfl
    | some a => simp [entryAt, he' a rfl]
  · rw [if_neg hx]
    have hskip : ∀ o : Option Leaf, (∀ a, o = some a → a.key = k) →
        entryAt x (l ++ o.toList ++ r) = entryAt x (l ++ r) := by
      intro o ho
      cases o with
      | none => simp
      | some a =>
        have hne : a.key ≠ x := fun h => hx (h ▸ ho a rfl)
        simp [entryAt, List.find?_append, hne]
    rw [hskip e he, hskip e' he']

theorem sorted_exchange {k : Bytes} {l r : List Leaf} {e e' : Option Leaf}
    (hs : SortedBy Leaf.key (l ++ e.toList ++ r)) (hl : ∀ a ∈ l, a.key < k)
    (hr : ∀ a ∈ r, k < a.key) (he' : ∀ a, e' = some a → a.key = k) :
    SortedBy Leaf.key (l ++ e'.toList ++ r) := by
  have hcross : ∀ a ∈ l, ∀ c ∈ r, a.key < c.key := fun a ha c hc => (hl a ha).trans (hr c hc)
  simp only [SortedBy, List.append_assoc, List.pairwise_append, List.mem_append] at hs ⊢
  obtain ⟨hsl, ⟨-, hsr, -⟩, -⟩ := hs
  cases e' with
  | none => simpa using ⟨hsl, hsr, hcross⟩
  | some a =>
    have hkey := he' a rfl
    refine ⟨hsl, ⟨by simp, hsr, ?_⟩, ?_⟩
    · intro c hc y hy
      obtain rfl : c = a := by simpa using hc
      exact hkey ▸ hr y hy
    · rintro c hc y (hy | hy)
      · obtain rfl : y = a := by simpa using hy
        exact hkey ▸ hl c hc
      · exact hcross c hc y hy

/-- A leaf with another entry, or none, for a key. -/
def leafWith (k : Bytes) (e : Option Leaf) (d : List Leaf) : List Leaf :=
  d.filter (fun a => a.key < k) ++ e.toList ++ d.filter (fun a => k < a.key)

theorem leafWith_cut {k : Bytes} {below above : List Leaf} {o : Option Leaf}
    (hb : ∀ a ∈ below, a.key < k) (ha : ∀ a ∈ above, k < a.key)
    (ho : ∀ a, o = some a → a.key = k) (e : Option Leaf) :
    leafWith k e (below ++ o.toList ++ above) = below ++ e.toList ++ above := by
  have hmid : ∀ p : Leaf → Bool, (∀ a, a.key = k → p a = false) → o.toList.filter p = [] := by
    intro p hp
    refine List.filter_eq_nil_iff.mpr fun a hmem => ?_
    rw [Option.mem_toList] at hmem
    simp [hp a (ho a hmem)]
  have hbelow : below.filter (fun a => decide (a.key < k)) = below :=
    List.filter_eq_self.mpr fun a hmem => by simpa using hb a hmem
  have hbelow' : below.filter (fun a => decide (k < a.key)) = [] :=
    List.filter_eq_nil_iff.mpr fun a hmem => by simpa using (hb a hmem).le
  have habove : above.filter (fun a => decide (k < a.key)) = above :=
    List.filter_eq_self.mpr fun a hmem => by simpa using ha a hmem
  have habove' : above.filter (fun a => decide (a.key < k)) = [] :=
    List.filter_eq_nil_iff.mpr fun a hmem => by simpa using (ha a hmem).le
  simp only [leafWith, List.filter_append, hbelow, hbelow', habove, habove']
  rw [hmid _ (by simp +contextual), hmid _ (by simp +contextual)]
  simp

/-- `insert_data` on a sorted leaf. -/
theorem insertData_leaves {n : Node} {d : List Leaf} (hn : n.data = .leaves d)
    (hd : SortedBy Leaf.key d) (a : Leaf) :
    n.insertData a = .ok { n with data := .leaves (leafWith a.key (some a) d) } := by
  obtain ⟨below, above, hcut, hb, ha, ho, hsearch⟩ := leaf_cut hd a.key
  have hwith := leafWith_cut hb ha ho (some a)
  rw [← hcut] at hwith
  rw [Node.insertData, hn]
  simp only [hsearch, hwith]
  cases ho' : entryAt a.key d with
  | none =>
    rw [ho', Option.toList_none, List.append_nil] at hcut
    simp [hcut, insertIdx_append]
  | some x =>
    rw [ho', Option.toList_some] at hcut
    simp [hcut]

/-- `delete` at the position a descent found. -/
theorem delete_leaves {n : Node} {d : List Leaf} {k : Bytes} {x : Leaf} (hn : n.data = .leaves d)
    (hd : SortedBy Leaf.key d) (hx : entryAt k d = some x) :
    n.delete (leafIndex d k).1 = .ok (x, { n with data := .leaves (leafWith k none d) }) := by
  obtain ⟨below, above, hcut, hb, ha, ho, hsearch⟩ := leaf_cut hd k
  have hwith := leafWith_cut hb ha ho none
  rw [← hcut] at hwith
  rw [hx, Option.toList_some] at hcut
  have hidx : (leafIndex d k).1 = below.length := by simp [leafIndex, hsearch, hx]
  rw [Node.delete, hn, hidx]
  simp only [hwith]
  simp [hcut, List.eraseIdx_append_of_length_le]

/-- The content of a tree after one leaf was changed at a key that fits there. -/
theorem edit_leaf {C D : TreeCtx} {i j : Info} {d : List Leaf} {k : Bytes} {e : Option Leaf}
    (hd : SortedBy Leaf.key d) (hgap : Gap Leaf.key C k) (hframes : SameFrames D C)
    (hmap : bare (plug D (leaf j d)) = bare (plug C (leaf i d)))
    (he : ∀ a, e = some a → a.key = k) :
    Edit (plug C (leaf i d)) (plug D (leaf j (leafWith k e d))) k e := by
  obtain ⟨below, above, hcut, hb, ha, ho, -⟩ := leaf_cut hd k
  obtain ⟨hbefore, hafter⟩ := hgap.content
  obtain ⟨hDb, hDa⟩ := hframes.content
  refine ⟨?_, fun x => ?_⟩
  · rw [← hmap]
    simp only [bare, plug_map, map_leaf]
  · have hwith := leafWith_cut hb ha ho e
    rw [← hcut] at hwith
    rw [content_plug, content_plug, hDb, hDa, content_leaf, content_leaf, hwith]
    have hl : ∀ a ∈ before C ++ below, a.key < k := List.forall_mem_append.mpr ⟨hbefore, hb⟩
    have hr : ∀ a ∈ above ++ after C, k < a.key := List.forall_mem_append.mpr ⟨ha, hafter⟩
    have hex := entryAt_exchange hl hr ho he x
    have hassoc : ∀ o : Option Leaf, before C ++ (below ++ o.toList ++ above) ++ after C =
        (before C ++ below) ++ o.toList ++ (above ++ after C) := by
      intro o
      simp
    rw [hassoc, hex, ← hassoc, ← hcut]

/-! ## The leaf of a descent -/

theorem length_ctx_lt (C : TreeCtx) (s : NodeTree) : C.length < (plug C s).subs.length := by
  have hle : ∀ (C : TreeCtx) (s : NodeTree), C.length + s.subs.length ≤ (plug C s).subs.length := by
    intro C
    induction C with
    | nil => simp
    | cons f C ih =>
      intro s
      have hstep := ih (f.fill s)
      have hfill : s.subs.length + 1 ≤ (f.fill s).subs.length := by
        simp only [Frame.fill, subs_branch, List.flatMap_append, List.flatMap_cons,
          List.length_cons, List.length_append]
        omega
      simp only [List.length_cons, plug_cons]
      omega
  have hpos : 0 < s.subs.length := List.length_pos_of_mem (self_mem_subs s)
  have := hle C s
  omega

/-- The pages on the way to a place are different. -/
theorem nodup_path {C : TreeCtx} {s : NodeTree} (h : (heads (plug C s)).Nodup) :
    (s.info.page :: C.map fun f => f.info.page).Nodup := by
  have hsub : ∀ C : TreeCtx, (C.map fun f => f.info).Sublist (ctxInfos C) := by
    intro C
    induction C with
    | nil => simp
    | cons f C ih =>
      rw [ctxInfos_cons, List.map_cons]
      exact (List.singleton_sublist.mpr (by simp)).append ih
  have hnodup := (heads_plug C s).nodup_iff.mp h
  rw [heads, infos_root s, List.map_cons] at hnodup
  have hcons := List.perm_middle.nodup_iff.mp hnodup
  refine hcons.sublist (List.Sublist.cons_cons _ ?_)
  have hpages := (hsub C).map Info.page
  rw [List.map_map] at hpages
  exact hpages.trans (List.sublist_append_left _ _)

/-- A descent records the parents of the pages on its way. -/
theorem recorded_links {C : TreeCtx} {b : InnerBucket} :
    ∀ (page : Nat) (links old : List (Nat × Nat)),
      (Assoc.keys links ++ page :: C.map fun f => f.info.page).Nodup →
      b.pageParents = links ++ (parentLinks C page ++ old) → Recorded b C page := by
  induction C with
  | nil => exact fun _ _ _ _ _ => trivial
  | cons f C ih =>
    intro page links old hnodup hparents
    have hpage : page ∉ Assoc.keys links := by
      intro hmem
      exact (List.nodup_append'.mp hnodup).2.2 hmem List.mem_cons_self
    refine ⟨?_, ih f.info.page (links ++ [(page, f.info.page)]) old ?_ ?_⟩
    · rw [hparents, Assoc.lookup_append_of_notMem hpage, parentLinks, List.cons_append]
      exact Assoc.lookup_cons_self _ _ _
    · simpa [Assoc.keys] using hnodup
    · simpa [parentLinks] using hparents

/-- `node` on the leaf a descent for `k` ended in, in a bucket that differs from the searched
one in its recorded parents, its counter and its flags only: the leaf is loaded, and giving it
another entry for `k` is an edit of the tree. -/
theorem Opened.reach {P : Pages} {b : InnerBucket} {t : NodeTree} {k : Bytes} {C : TreeCtx}
    {i : Info} {d : List Leaf} {stack : List SearchPath} {old : List (Nat × Nat)} {fuel : Nat}
    (h : Opened P b t) (hdesc : Descent P b k t C i d stack) (b₀ : InnerBucket)
    (hnodes : b₀.nodes = b.nodes)
    (hids : b₀.pageNodeIds = b.pageNodeIds)
    (hroot : b₀.bucketMeta.rootPage = b.bucketMeta.rootPage)
    (hlinks : b₀.pageParents = parentLinks C i.page ++ old) (hfuel : t.subs.length ≤ fuel) :
    ∃ nodes pageIds j r,
      InnerBucket.node P fuel i.nodeId none b₀ =
        .ok r.id { b₀ with nodes := nodes, pageNodeIds := pageIds } ∧
      nodes[r.id]? = some (Info.nodeOf j r (.leaves d)) ∧
      ∀ e, (∀ a, e = some a → a.key = k) →
        ∃ t', Edit t t' k e ∧
          Opened P { b₀ with
            nodes := nodes.set r.id (Info.nodeOf j r (.leaves (leafWith k e d)))
            pageNodeIds := pageIds } t' := by
  have hsorted := hdesc.sorted h.readable
  obtain ⟨rfl, hgap, habove, -⟩ := hdesc
  have h₀ : Opened P b₀ (plug C (leaf i d)) := h.congr hnodes hids hroot
  have hrec : Recorded b₀ C i.page :=
    recorded_links i.page [] old (by simpa [Assoc.keys] using nodup_path h.heads) hlinks
  have hlen := length_ctx_lt C (leaf i d)
  obtain ⟨nodes, pageIds, D, j, r, hnode, hr, hframes, hmap, hopen⟩ :=
    h₀.fetch fuel hrec (by omega)
  have hslot := (stored_parts hopen.stored).2.2
  simp only [StoredAt, info_setInfo, hr, nodeData_setInfo] at hslot
  refine ⟨nodes, pageIds, j, r, hnode, hslot.2, fun e he => ?_⟩
  obtain ⟨hgapD, haboveD, -, -⟩ := hframes.order Leaf.key
  obtain ⟨below, above, hcut, hb, ha, ho, -⟩ := leaf_cut hsorted k
  have hwith := leafWith_cut hb ha ho e
  rw [← hcut] at hwith
  refine ⟨plug D (leaf j (leafWith k e d)), edit_leaf hsorted hgap hframes (hmap _) he, ?_⟩
  refine hopen.setLeaf (C := D) (i := j) hr ?_ fun a hmem => ?_
  · rw [hwith]
    refine sorted_exchange (e := entryAt k d) ?_ hb ha he
    rw [← hcut]
    exact hsorted
  · -- every other key of the leaf was there before, and the new one fits
    rw [hgapD, haboveD]
    have hkey : a ∈ d ∨ a.key = k := by
      rw [hwith, List.append_assoc, List.mem_append, List.mem_append, Option.mem_toList] at hmem
      rw [hcut, List.append_assoc, List.mem_append, List.mem_append]
      rcases hmem with hmem | hmem | hmem
      · exact .inl (.inl hmem)
      · exact .inr (he a hmem)
      · exact .inl (.inr (.inr hmem))
    rcases hkey with hold | hk
    · have hin : a.key ∈ keys Leaf.key (leaf i d : NodeTree) := by
        rw [keys_leaf]
        exact List.mem_map_of_mem hold
      exact ⟨((separated_plug C _).mp h.separated).2.2 _ hin,
        ((routable_plug C _).mp h.routable).2.2 _ hin⟩
    · exact ⟨hk ▸ hgap, hk ▸ habove⟩

end Tagdata.Analysis
