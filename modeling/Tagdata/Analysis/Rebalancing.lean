import Tagdata.Analysis.MergedNodes
import Tagdata.Analysis.ScanUses

/-!
# The walk of `merge_nodes`

`merge_nodes` walks over the loaded nodes, children before parents, and every visit changes one
list of children.  `Processed` collects what holds of such a list after some of its children were
visited; it composes along the walk.

A root branch whose children are empty leaves and one block that was never loaded is replaced by
that block, and no other root is.  A leaf without entries stays where it is when it is an only
child, so none is left behind as long as every branch below the root has an entry.
-/

set_option autoImplicit false

namespace Tagdata.Analysis

open Tagdata.Library Tagdata.Library.SearchTree Tagdata.Model

/-- Every branch has an entry below it. -/
def Populated (u : NodeTree) : Prop := ∀ v ∈ u.subs, v.isLeaf = false → v.content ≠ []

/-- No leaf is empty. -/
def Clean (u : NodeTree) : Prop := [] ∉ u.chunks

/-- A loaded node that is not an empty leaf. -/
def Solid (u : NodeTree) : Prop := u.info.loaded.isSome = true ∧ nodeData u ≠ .leaves []

/-- Empty leaves can only be left below the children `l`, unless a leaf is an only child. -/
def TidyBut (l : List Nat) (ks : Kids) : Prop :=
  (∀ e ∈ ks, Clean e.2 ∨ ∃ x ∈ l, e.2.info.id? = some x) ∨ ∃ e, ks = [e] ∧ e.2.isLeaf = true

/-- One block that was never loaded stands among empty leaves. -/
def BlockAlone (ks : Kids) : Prop :=
  (∀ e ∈ ks, ¬ Solid e.2) ∧ ks.countP (fun e => e.2.info.loaded.isNone) = 1

/-- What holds of the children of a branch after those with the ids `l` were visited; that they are
left tidy depends on `A`. -/
structure Processed (A : Prop) (l : List Nat) (ks ks' : Kids) : Prop where
  others : ∀ x ∈ kidIds ks, x ∉ l → x ∈ kidIds ks'
  content : (ks'.flatMap fun e => e.2.content).Perm (ks.flatMap fun e => e.2.content)
  populated : (∀ e ∈ ks, Populated e.2) → ∀ e ∈ ks', Populated e.2
  tidy : A → ∀ X, TidyBut (l ++ X) ks → TidyBut X ks'
  alone : BlockAlone ks' ↔ BlockAlone ks

section Trees

variable {n s u w : NodeTree} {i : Info} {ks : Kids} {r : NodeRec} {moved : List Nat}

theorem populated_branch : Populated (branch i ks) ↔
    (branch i ks : NodeTree).content ≠ [] ∧ ∀ e ∈ ks, Populated e.2 := by
  simp only [Populated, subs_branch, List.mem_cons, List.mem_flatMap, forall_eq_or_imp,
    isLeaf_branch, forall_const]
  refine and_congr_right fun _ => ⟨fun h e he v hv => h v ⟨e, he, hv⟩, ?_⟩
  rintro h v ⟨e, he, hv⟩
  exact h e he v hv

theorem populated_leaf (i : Info) (d : List Leaf) : Populated (leaf i d) := by
  simp [Populated]

theorem clean_branch : Clean (branch i ks) ↔ ∀ e ∈ ks, Clean e.2 := by simp [Clean]

theorem clean_leaf {d : List Leaf} : Clean (leaf i d) ↔ d ≠ [] := by simp [Clean, eq_comm]

theorem populated_setInfo : Populated (u.setInfo i) ↔ Populated u := by
  cases u with
  | leaf i d => exact iff_of_true (populated_leaf _ _) (populated_leaf _ _)
  | branch i ks => simp only [setInfo, populated_branch, content_branch]

theorem clean_setInfo : Clean (u.setInfo i) ↔ Clean u := by
  cases u <;> simp [Clean, setInfo]

theorem content_setInfo : (u.setInfo i).content = u.content := by
  cases u <;> simp [setInfo]

theorem adopt_eq (p : Nat) (u : NodeTree) : ∃ i, adopt p u = u.setInfo i := by
  cases h : u.info.loaded with
  | none => exact ⟨u.info, by rw [adopt_block h]; cases u <;> rfl⟩
  | some r => exact ⟨_, adopt_loaded h⟩

theorem Joined.content (h : Joined r moved s n w) : w.content.Perm (s.content ++ n.content) := by
  cases h with
  | leaves perm => simpa using perm
  | @branches i j ks us ws perm =>
    simp only [content_branch]
    refine (perm.flatMap_right _).trans (.of_eq ?_)
    rw [List.flatMap_append, List.flatMap_map]
    congr 1
    refine List.flatMap_congr fun e _ => ?_
    obtain ⟨i, hi⟩ := adopt_eq r.id e.2
    rw [hi, content_setInfo]

theorem Joined.populated (h : Joined r moved s n w) (hs : Populated s) (hn : Populated n) :
    Populated w := by
  have hcontent := h.content
  cases h with
  | leaves perm => exact populated_leaf _ _
  | @branches i j ks us ws perm =>
    obtain ⟨hne, hks⟩ := populated_branch.mp hs
    refine populated_branch.mpr ⟨fun hnil => hne ?_, fun e he => ?_⟩
    · rw [hnil, List.nil_perm, List.append_eq_nil_iff] at hcontent
      exact hcontent.1
    · rcases List.mem_append.mp (perm.mem_iff.mp he) with he | he
      · exact hks e he
      · obtain ⟨v, hv, rfl⟩ := List.mem_map.mp he
        obtain ⟨i, hi⟩ := adopt_eq r.id v.2
        rw [hi, populated_setInfo]
        exact (populated_branch.mp hn).2 v hv

theorem Joined.clean (h : Joined r moved s n w) (hs : Clean s ∨ s.isLeaf = true) (hn : Clean n) :
    Clean w := by
  cases h with
  | leaves perm =>
    refine clean_leaf.mpr fun hnil => clean_leaf.mp hn ?_
    rw [hnil, List.nil_perm, List.append_eq_nil_iff] at perm
    exact perm.2
  | @branches i j ks us ws perm =>
    refine clean_branch.mpr fun e he => ?_
    rcases List.mem_append.mp (perm.mem_iff.mp he) with he | he
    · exact clean_branch.mp (hs.resolve_right (by simp)) e he
    · obtain ⟨v, hv, rfl⟩ := List.mem_map.mp he
      obtain ⟨i, hi⟩ := adopt_eq r.id v.2
      rw [hi, clean_setInfo]
      exact clean_branch.mp hn v hv

theorem Joined.solid (h : Joined r moved s n w) (hn : (nodeData n).len ≠ 0) : Solid w := by
  refine ⟨by rw [h.info]; rfl, fun hempty => ?_⟩
  cases h with
  | leaves perm =>
    rw [nodeData_leaf, NodeData.leaves.injEq] at hempty
    rw [hempty, List.nil_perm, List.append_eq_nil_iff] at perm
    exact hn (by rw [perm.2]; rfl)
  | branches perm => cases hempty

end Trees

section Lists

variable {n : NodeTree} {i i' : Info} {k : Bytes} {c : Nat} {l l' : List Nat}
  {ks ks' ks'' rest us us' : Kids} {A A' : Prop}

theorem kidIds_perm (h : ks.Perm ks') : (kidIds ks).Perm (kidIds ks') := h.filterMap _

theorem kidIds_cons (e : Bytes × NodeTree) (ks : Kids) :
    kidIds (e :: ks) = e.2.info.id?.toList ++ kidIds ks := by
  cases h : e.2.info.id? <;> simp [kidIds, h]

theorem BlockAlone.perm (h : ks.Perm ks') : BlockAlone ks ↔ BlockAlone ks' := by
  simp only [BlockAlone, h.mem_iff, h.countP_eq]

theorem blockAlone_cons {e : Bytes × NodeTree} (he : e.2.info.loaded.isSome = true) :
    BlockAlone (e :: ks) ↔ ¬ Solid e.2 ∧ BlockAlone ks := by
  have hsome : e.2.info.loaded.isNone = false := by simpa using he
  simp [BlockAlone, hsome, and_assoc]

theorem Processed.refl (A : Prop) (ks : Kids) : Processed A [] ks ks :=
  ⟨fun _ hx _ => hx, .refl _, fun h => h, fun _ _ h => h, Iff.rfl⟩

theorem Processed.imp (h : Processed A l ks ks') (hA : A' → A) : Processed A' l ks ks' :=
  { h with tidy := fun ha => h.tidy (hA ha) }

theorem Processed.trans (h : Processed A l ks ks') (h' : Processed A l' ks' ks'') :
    Processed A (l ++ l') ks ks'' where
  others x hx hl := by
    rw [List.mem_append, not_or] at hl
    exact h'.others x (h.others x hx hl.1) hl.2
  content := h'.content.trans h.content
  populated hks := h'.populated (h.populated hks)
  tidy ha X hX := h'.tidy ha X (h.tidy ha _ (by rwa [← List.append_assoc]))
  alone := h'.alone.trans h.alone

/-- One visit. -/
theorem Visited.processed (hv : Visited k n rest ks') (hks : ks.Perm ((k, n) :: rest))
    (hc : n.info.id? = some c) (hnodup : (kidIds ks).Nodup)
    (hclean : n.isLeaf = true ∨ (A → Clean n)) : Processed A [c] ks ks' := by
  have hids : (kidIds ks).Perm (c :: kidIds rest) := by
    refine (kidIds_perm hks).trans (.of_eq ?_)
    rw [kidIds_cons, hc]
    rfl
  have hloaded : n.info.loaded.isSome = true := by
    cases hl : n.info.loaded with
    | none => simp [Info.id?, hl] at hc
    | some r => rfl
  have hother : ∀ x ∈ kidIds ks, x ∉ [c] → x ∈ kidIds rest := by
    intro x hx hne
    exact (List.mem_cons.mp (hids.mem_iff.mp hx)).resolve_left (by simpa using hne)
  have hrest : ∀ X, rest ≠ [] → TidyBut ([c] ++ X) ks →
      ∀ e ∈ rest, Clean e.2 ∨ ∃ x ∈ X, e.2.info.id? = some x := by
    rintro X hne (hall | ⟨e, rfl, -⟩) a ha
    · refine (hall a (hks.mem_iff.mpr (.tail _ ha))).imp_right ?_
      rintro ⟨x, hx, hid⟩
      refine ⟨x, (List.mem_cons.mp hx).resolve_left ?_, hid⟩
      rintro rfl
      refine (List.nodup_cons.mp (hids.nodup_iff.mp hnodup)).1 ?_
      exact List.mem_filterMap.mpr ⟨a, ha, hid⟩
    · exact absurd (by simpa using hks.length_eq) hne
  have hfull : (nodeData n).len ≠ 0 → A → Clean n := by
    intro hlen ha
    cases n with
    | leaf i d => exact clean_leaf.mpr fun hnil => hlen (by simp [hnil, NodeData.len])
    | branch i us => exact hclean.resolve_left (by simp) ha
  cases hv with
  | kept h perm =>
    have hperm := perm.trans hks.symm
    refine ⟨fun x hx _ => (kidIds_perm hperm).mem_iff.mpr hx, hperm.flatMap_right _,
      fun hpop e he => hpop e (hperm.mem_iff.mp he), fun ha X hX => ?_, BlockAlone.perm hperm⟩
    by_cases hr : rest = []
    · subst hr
      obtain rfl := List.perm_singleton.mp perm
      rcases hclean with hleaf | hclean
      · exact .inr ⟨_, rfl, hleaf⟩
      · exact .inl fun e he => .inl (List.mem_singleton.mp he ▸ hclean ha)
    · refine .inl fun e he => ?_
      rcases List.mem_cons.mp (perm.mem_iff.mp he) with rfl | he
      · exact .inl (hfull (h.resolve_right hr) ha)
      · exact hrest X hr hX e he
  | dropped empty others perm =>
    subst empty
    refine ⟨fun x hx hne => (kidIds_perm perm).mem_iff.mpr (hother x hx hne), ?_,
      fun hpop e he => hpop e (hks.mem_iff.mpr (.tail _ (perm.mem_iff.mp he))),
      fun _ X hX => .inl fun e he => hrest X others hX e (perm.mem_iff.mp he), ?_⟩
    · refine (perm.flatMap_right _).trans (.trans (.of_eq ?_) (hks.flatMap_right _).symm)
      simp
    · rw [BlockAlone.perm perm, BlockAlone.perm hks, blockAlone_cons hloaded]
      simp [Solid]
  | @merged k' s w rest' filled sibling perm takes =>
    obtain ⟨rs, moved, i, hj, hsame⟩ := takes
    have hs : (k', s) ∈ rest := sibling.mem_iff.mpr List.mem_cons_self
    have hw : w.info.id? = some rs.id := by rw [hj.info]; rfl
    refine ⟨fun x hx hne => (kidIds_perm perm).mem_iff.mpr ?_, ?_, fun hpop e he => ?_,
      fun ha X hX => .inl fun e he => ?_, iff_of_false (fun h => ?_) fun h => ?_⟩
    · have hx' := (kidIds_perm sibling).mem_iff.mp (hother x hx hne)
      rw [kidIds_cons, List.mem_append] at hx' ⊢
      refine hx'.imp_left fun hx => ?_
      obtain ⟨q, hq, rfl⟩ := Option.map_eq_some_iff.mp (Option.mem_toList.mp hx)
      simp [hw, hsame q hq]
    · refine (perm.flatMap_right _).trans (.trans ?_
        ((hks.trans (sibling.cons _)).flatMap_right _).symm)
      simp only [List.flatMap_cons, ← List.append_assoc]
      refine (hj.content.trans ?_).append_right _
      rw [content_setInfo]
      exact List.perm_append_comm
    · have hall := hpop _ (hks.mem_iff.mpr List.mem_cons_self)
      rcases List.mem_cons.mp (perm.mem_iff.mp he) with rfl | he
      · exact hj.populated (populated_setInfo.mpr (hpop _ (hks.mem_iff.mpr (.tail _ hs)))) hall
      · exact hpop e (hks.mem_iff.mpr (.tail _ (sibling.mem_iff.mpr (.tail _ he))))
    · have hall := hrest X (List.ne_nil_of_mem hs) hX
      rcases List.mem_cons.mp (perm.mem_iff.mp he) with rfl | he
      · refine (hall _ hs).imp (fun hclean => ?_) ?_
        · exact hj.clean (.inl (clean_setInfo.mpr hclean)) (hfull filled ha)
        · rintro ⟨x, hx, hid⟩
          obtain ⟨q, hq, rfl⟩ := Option.map_eq_some_iff.mp hid
          exact ⟨_, hx, by rw [hw, hsame q hq]⟩
      · exact hall e (sibling.mem_iff.mpr (.tail _ he))
    · exact h.1 _ (perm.mem_iff.mpr List.mem_cons_self) (hj.solid filled)
    · refine h.1 _ (hks.mem_iff.mpr List.mem_cons_self) ⟨hloaded, fun hempty => filled ?_⟩
      rw [hempty]
      rfl

/-- A child branch whose own children were all visited. -/
theorem Processed.within (h : Processed (∀ e ∈ us, Populated e.2) l us us') (htidy : TidyBut l us)
    (hid : i'.id? = i.id?) (hloaded : i.loaded.isSome = true) (pre post : Kids) (k : Bytes) :
    Processed (Populated (branch i us)) [] (pre ++ (k, branch i us) :: post)
        (pre ++ (k, branch i' us') :: post) ∧
      (Populated (branch i us) → Clean (branch i' us')) := by
  have hclean : Populated (branch i us) → Clean (branch i' us') := by
    intro hpop
    obtain ⟨hne, hkids⟩ := populated_branch.mp hpop
    refine clean_branch.mpr ?_
    rcases h.tidy hkids [] (by simpa using htidy) with hall | ⟨⟨k, u⟩, rfl, hleaf⟩
    · exact fun e he => (hall e he).resolve_right (by simp)
    · cases u with
      | branch i us => cases hleaf
      | leaf i d =>
        simp only [List.mem_singleton, forall_eq, clean_leaf]
        rintro rfl
        have hcontent := h.content
        simp only [List.flatMap_cons, List.flatMap_nil, content_leaf, List.append_nil,
          List.nil_perm] at hcontent
        exact hne (by rwa [content_branch])
  have hloaded' : i'.loaded.isSome = true := by
    simpa [Info.id?, hloaded] using congrArg Option.isSome hid
  refine ⟨⟨fun x hx _ => ?_, ?_, fun hpop e he => ?_, fun hself X hX => ?_, ?_⟩, hclean⟩
  · simpa [kidIds, hid] using hx
  · simp only [List.flatMap_append, List.flatMap_cons, content_branch]
    exact (h.content.append_right _).append_left _
  · have hself := populated_branch.mp (hpop (k, branch i us) (by simp))
    rcases List.mem_cons.mp (List.perm_middle.mem_iff.mp he) with rfl | he
    · refine populated_branch.mpr ⟨fun hnil => hself.1 ?_, h.populated hself.2⟩
      have hcontent := h.content
      rw [content_branch] at hnil ⊢
      rwa [hnil, List.nil_perm] at hcontent
    · exact hpop e (List.perm_middle.mem_iff.mpr (.tail _ he))
  · rcases hX with hall | ⟨e, he, hleaf⟩
    · refine .inl fun e he => ?_
      rcases List.mem_cons.mp (List.perm_middle.mem_iff.mp he) with rfl | he
      · exact .inl (hclean hself)
      · exact hall e (List.perm_middle.mem_iff.mpr (.tail _ he))
    · have hmem : (k, branch i us) ∈ [e] := he ▸ by simp
      rw [← List.mem_singleton.mp hmem] at hleaf
      cases hleaf
  · rw [BlockAlone.perm List.perm_middle, BlockAlone.perm List.perm_middle,
      blockAlone_cons (e := (k, branch i' us')) hloaded',
      blockAlone_cons (e := (k, branch i us)) hloaded]
    simp [Solid, hloaded, hloaded', branchData]

end Lists

/-! ## The walk -/

section Walk

variable {P : Pages} {b b' : InnerBucket} {C : TreeCtx} {x R fuel : Nat} {ks : Kids} {l : List Nat}
  {rest : List (Bool × Nat)} {fl : TxFreelist} {s : BucketTx} {u : NodeTree} {r : NodeRec}

/-- A block has no empty leaf. -/
theorem clean_block {k : Bytes} (h : SearchTree.Holds linkTag linked u)
    (hk : tag linkTag u = .onDisk (some k)) : Clean u := by
  induction u using SearchTree.induct generalizing k with
  | leaf i d =>
    refine clean_leaf.mpr ?_
    rintro rfl
    cases hl : i.loaded <;> simp [linkTag, Info.link, hl] at hk
  | branch i us ih =>
    obtain ⟨⟨-, hkids⟩, hbelow⟩ := (holds_branch i us).mp h
    cases hl : i.loaded with
    | some r => simp [linkTag, Info.link, hl] at hk
    | none =>
      simp only [hl, tags, List.forall_mem_map] at hkids
      exact clean_branch.mpr fun e he => ih e he (hbelow e he) (hkids e he)

/-- Empty leaves are left below loaded children only. -/
theorem tidyBut_children (h : SearchTree.Holds linkTag linked u) (hr : u.info.loaded = some r) :
    TidyBut r.children u.kids := by
  have hperm := linked_children h hr
  cases u with
  | leaf i d => exact .inl (by simp)
  | branch i us =>
    obtain ⟨-, -, hkids⟩ := (linked_branch hr).mp h
    refine .inl fun e he => ?_
    cases hl : e.2.info.loaded with
    | some q =>
      have hid : e.2.info.id? = some q.id := by simp [Info.id?, hl]
      exact .inr ⟨_, hperm.mem_iff.mpr (List.mem_filterMap.mpr ⟨e, he, hid⟩), hid⟩
    | none =>
      obtain ⟨hhangs, hlinked⟩ := hkids e he
      rw [Hangs, tag_link_unloaded hl] at hhangs
      refine .inl (clean_block hlinked (k := e.1) ?_)
      rw [tag_link_unloaded hl]
      exact hhangs.resolve_right (by simp)

/-- In a given number of rounds the walk over one child of a loaded branch comes back to the rest
of the stack. -/
def Walks (P : Pages) (fuel R : Nat) : Prop :=
  ∀ {b : InnerBucket} {C : TreeCtx} {x : Nat} {ks : Kids} {c : Nat} {rest : List (Bool × Nat)}
    {fl : TxFreelist} {s : BucketTx}, Arranges P b C x ks → c ∈ kidIds ks →
    InnerBucket.mergeLoop P fuel R ((false, c) :: rest) (b, fl) = .ok s →
    ∃ R' < R, ∃ b' fl' ks', InnerBucket.mergeLoop P fuel R' rest (b', fl') = .ok s ∧
      Arranges P b' C x ks' ∧ Processed (∀ e ∈ ks, Populated e.2) [c] ks ks'

/-- The walk over several children. -/
theorem walks_children (hwalks : ∀ R' ≤ R, Walks P fuel R') (h : Arranges P b C x ks)
    (hl : ∀ c ∈ l, c ∈ kidIds ks) (hnodup : l.Nodup)
    (hrun : InnerBucket.mergeLoop P fuel R (l.map (fun c => (false, c)) ++ rest) (b, fl) = .ok s) :
    ∃ R' ≤ R, ∃ b' fl' ks', InnerBucket.mergeLoop P fuel R' rest (b', fl') = .ok s ∧
      Arranges P b' C x ks' ∧ Processed (∀ e ∈ ks, Populated e.2) l ks ks' := by
  induction l generalizing b fl ks R with
  | nil => exact ⟨R, le_rfl, b, fl, ks, hrun, h, .refl _ ks⟩
  | cons c l ih =>
    obtain ⟨R₁, hlt, b₁, fl₁, ks₁, hrest, harr, hproc⟩ :=
      hwalks R le_rfl h (hl c List.mem_cons_self) hrun
    rw [List.nodup_cons] at hnodup
    have hl₁ : ∀ y ∈ l, y ∈ kidIds ks₁ := fun y hy =>
      hproc.others y (hl y (.tail _ hy)) (by rintro hy'; grind)
    obtain ⟨R₂, hle, b₂, fl₂, ks₂, hrest, harr, hproc'⟩ :=
      ih (fun R' hR' => hwalks R' (by omega)) harr hl₁ hnodup.2 hrest
    exact ⟨R₂, by omega, b₂, fl₂, ks₂, hrest, harr,
      hproc.trans (hproc'.imp hproc.populated)⟩

theorem Arranged.nodup_kidIds {j : Info} (h : Arranged P b (plug C (branch j ks)))
    (hr : j.loaded = some r) : (kidIds ks).Nodup := by
  have hall := ((ids_plug C _).nodup_iff.mp h.ids).of_append_right
  rw [ids_branch_loaded hr, ((allIds_perm ks).cons _).nodup_iff, List.nodup_cons] at hall
  exact hall.2.of_append_left

theorem walks (P : Pages) (fuel R : Nat) : Walks P fuel R := by
  induction R using Nat.strong_induction_on with
  | _ R ih =>
  intro b C x ks c rest fl s h hc hrun
  obtain ⟨j, r, harr, hr, rfl⟩ := h
  obtain ⟨⟨k, n⟩, hmem, hid⟩ := List.mem_filterMap.mp hc
  obtain ⟨pre, post, rfl⟩ := List.append_of_mem hmem
  obtain ⟨rn, hrn, rfl⟩ := Option.map_eq_some_iff.mp hid
  obtain _ | R := R
  · cases hrun
  have hn := (stored_parts (C := ⟨j, pre, k, post⟩ :: C) (s := n) harr.stored).2.2
  simp only [InnerBucket.mergeLoop, getNode_of_stored hn hrn, except_bind_ok] at hrun
  cases n with
  | leaf i d =>
    obtain ⟨⟨b₁, fl₁⟩, hvisit, hrest⟩ := except_bind_eq_ok.mp hrun
    obtain ⟨ks', hv, harr'⟩ := harr.visit hr hrn hvisit
    exact ⟨R, by omega, b₁, fl₁, ks', hrest, harr',
      hv.processed List.perm_middle hid (harr.nodup_kidIds hr) (.inl rfl)⟩
  | branch i us =>
    obtain ⟨-, hlinked⟩ := (holds_plug (⟨j, pre, k, post⟩ :: C) _).mp harr.linked
    have hchildren := linked_children hlinked hrn
    have hinner : Arranges P b (⟨j, pre, k, post⟩ :: C) rn.id us := ⟨i, rn, harr, hrn, rfl⟩
    have hnodup := Arranged.nodup_kidIds (C := ⟨j, pre, k, post⟩ :: C) harr hrn
    obtain ⟨R₁, hle, b₁, fl₁, us', hrest, ⟨i', rn', harr', hrn', hrid⟩, hproc⟩ :=
      walks_children (fun R' hR' => ih R' (by omega)) hinner
        (fun c hc => hchildren.mem_iff.mp hc) (hchildren.nodup_iff.mpr hnodup) hrun
    obtain _ | R₁ := R₁
    · cases hrest
    have hn' := (stored_parts (C := ⟨j, pre, k, post⟩ :: C) harr'.stored).2.2
    rw [← hrid] at hrest
    simp only [InnerBucket.mergeLoop, getNode_of_stored hn' hrn', except_bind_ok, Bool.true_or,
      if_true] at hrest
    obtain ⟨⟨b₂, fl₂⟩, hvisit, hrest⟩ := except_bind_eq_ok.mp hrest
    replace harr' : Arranged P b₁ (plug C (branch j (pre ++ (k, branch i' us') :: post))) := harr'
    obtain ⟨ks', hv, hfinal⟩ := harr'.visit hr hrn' hvisit
    have hid' : i'.id? = some rn.id := by simp [Info.id?, hrn', hrid]
    obtain ⟨hwithin, hclean⟩ := hproc.within (tidyBut_children hlinked hrn)
      (hid'.trans hid.symm) (by rw [hrn]; rfl) pre post k
    have hvisited := hv.processed List.perm_middle hid' (harr'.nodup_kidIds hr) (.inr hclean)
    exact ⟨R₁, by omega, b₂, fl₂, ks', hrest, hfinal,
      (hwithin.trans hvisited).imp fun hpop => hpop (k, branch i us) hmem⟩

end Walk

/-! ## The bucket before the walk -/

section Start

variable {P : Pages} {b b' : InnerBucket} {t u : NodeTree} {fuel : Nat} {fl fl' : TxFreelist}

theorem mem_span_of_levels {k : Bytes} {p : Nat × Bytes}
    (h : p ∈ (0, k) :: (levels u).map (Prod.map Nat.succ id)) : p.2 ∈ span Leaf.key (k, u) := by
  induction u using SearchTree.induct generalizing k p with
  | leaf i d => simp_all [span]
  | branch i ks ih =>
    rcases List.mem_cons.mp h with rfl | h
    · exact List.mem_cons_self
    obtain ⟨q, hq, rfl⟩ := List.mem_map.mp h
    rw [levels_branch, kidLevels_eq, List.mem_flatMap] at hq
    obtain ⟨e, he, hq⟩ := hq
    have hspan : q.2 ∈ span Leaf.key e := ih e he hq
    exact .tail _ ((mem_keys_branch _).mpr ⟨e, he, hspan⟩)

/-- Separators at one depth are different. -/
theorem nodup_levels_of_separated (h : Separated Leaf.key t) : (levels t).Nodup := by
  induction t using SearchTree.induct with
  | leaf i d => simp
  | branch i ks ih =>
    obtain ⟨hapart, hkids⟩ := (separated_branch _ i ks).mp h
    rw [levels_branch, kidLevels_eq, List.nodup_flatMap]
    refine ⟨fun e he => List.nodup_cons.mpr ⟨by simp, ?_⟩, hapart.imp fun {a c} hlt p ha hc => ?_⟩
    · exact (ih e he (hkids e he)).map (Prod.map_injective.mpr ⟨Nat.succ_injective, fun _ _ h => h⟩)
    · exact lt_irrefl _ (hlt _ (mem_span_of_levels ha) _ (mem_span_of_levels hc))

/-- The node with an id of the tree. -/
theorem label_of_id (h : SearchTree.Holds pageTag (stored P b) t) {x : Nat} (hx : x ∈ ids t) :
    ∃ u ∈ t.subs, ∃ r, u.info.loaded = some r ∧ r.id = x ∧
      b.nodes[x]? = some (u.info.nodeOf r (nodeData u)) := by
  obtain ⟨i, hi, hid⟩ := List.mem_filterMap.mp hx
  obtain ⟨u, hu, rfl⟩ := List.mem_map.mp hi
  obtain ⟨r, hr, rfl⟩ := Option.map_eq_some_iff.mp hid
  have hstored := stored_root (t := u) fun v hv => h v (subs_trans hv hu)
  simp only [StoredAt, hr] at hstored
  exact ⟨u, hu, r, hr, rfl, hstored.2⟩

theorem Opened.arranged (h : Opened P b t) : Arranged P b t := by
  have hall : ∀ x n, b.nodes[x]? = some n → x ∈ Analysis.ids t := fun x n hx =>
    h.ids.mem_iff.mpr (List.mem_range.mpr (List.getElem?_eq_some_iff.mp hx).1)
  refine ⟨h.stored, h.linked, h.root, h.heads, h.ids_nodup, nodup_levels_of_separated h.separated,
    fun x n hx => ?_, fun x n hx _ => hall x n hx⟩
  obtain ⟨u, -, r, -, rfl, hnode⟩ := label_of_id h.stored (hall x n hx)
  rw [← Option.some.inj (hnode.symm.trans hx)]
  rfl

/-- `merge_nodes` starts from the loaded root. -/
theorem Opened.mergeNodes (h : Opened P b t)
    (hrun : InnerBucket.mergeNodes P fuel (b, fl) = .ok (b', fl')) :
    ∃ b₁ i r, Arranged P b₁ (t.setInfo i) ∧ i.loaded = some r ∧
      InnerBucket.mergeLoop P fuel fuel [(false, r.id)] (b₁, fl) = .ok (b', fl') := by
  have hroot := stored_root h.stored
  simp only [InnerBucket.mergeNodes] at hrun
  cases hl : t.info.loaded with
  | some r =>
    simp only [StoredAt, hl] at hroot
    rw [← h.root] at hroot
    have hne : b.pageNodeIds.isEmpty = false := by
      cases hids : b.pageNodeIds with
      | nil => simp [hids] at hroot
      | cons p l => rfl
    simp only [hne, Bool.false_eq_true, if_false, except_pure, except_bind_ok, hroot.1] at hrun
    have hself : t.setInfo t.info = t := by cases t <;> rfl
    exact ⟨b, t.info, r, by rw [hself]; exact h.arranged, hl, hrun⟩
  | none =>
    rw [h.blank hl] at hrun
    obtain _ | fuel := fuel
    · cases hrun
    obtain ⟨nodes, pageIds, D, i, r, hnode, hi, hD, -, hnew⟩ :=
      Opened.fetch (C := []) (s := t) h (fuel + 1) trivial (by simp)
    obtain rfl : D = [] := List.forall₂_nil_right_iff.mp hD
    rw [Info.nodeId, hl, ← h.root] at hnode
    have hslot := stored_root hnew.stored
    simp only [plug, info_setInfo, StoredAt, hi] at hslot
    have hpage : b.bucketMeta.rootPage = i.page := by simpa [plug] using hnew.root
    simp only [List.isEmpty_nil, if_true, hnode, except_pure, except_bind_ok] at hrun
    rw [hpage, hslot.1] at hrun
    exact ⟨_, i, r, hnew.arranged, hi, hrun⟩

end Start

/-! ## The root -/

section Root

variable {P : Pages} {b b' : InnerBucket} {x fuel R : Nat} {fl fl' : TxFreelist} {j : Info}
  {ks : Kids} {r : NodeRec} {i : Info} {d : List Leaf}

/-- A root leaf stays as it is. -/
theorem root_leaf (h : Arranged P b (leaf i d)) (hr : i.loaded = some r)
    (hrun : InnerBucket.mergeLoop P fuel R [(false, r.id)] (b, fl) = .ok (b', fl')) : b' = b := by
  obtain _ | R := R
  · cases hrun
  have hget := getNode_of_stored (stored_root h.stored) hr
  have hroot : (leaf i d : NodeTree).info.page = b.bucketMeta.rootPage := h.root.symm
  simp only [InnerBucket.mergeLoop, hget, except_bind_ok] at hrun
  obtain ⟨⟨b₁, fl₁⟩, hvisit, hrest⟩ := except_bind_eq_ok.mp hrun
  obtain ⟨rfl, rfl⟩ := Prod.mk.inj (Except.ok.inj hrest)
  simp only [InnerBucket.mergeVisit, hget, except_bind_ok, Info.nodeOf, if_pos hroot,
    nodeData_leaf, except_pure, ite_self] at hvisit
  exact (Prod.mk.inj (Except.ok.inj hvisit)).1.symm

/-- Before the root branch itself is visited, all its loaded children were. -/
theorem root_branch (h : Arranged P b (branch j ks)) (hr : j.loaded = some r)
    (hrun : InnerBucket.mergeLoop P fuel R [(false, r.id)] (b, fl) = .ok (b', fl')) :
    ∃ b₁ fl₁ ks', Arranges P b₁ [] r.id ks' ∧
      Processed (∀ e ∈ ks, Populated e.2) r.children ks ks' ∧
      InnerBucket.mergeVisit P fuel r.id (b₁, fl₁) = .ok (b', fl') := by
  obtain _ | R := R
  · cases hrun
  have hchildren := linked_children h.linked hr
  simp only [InnerBucket.mergeLoop, getNode_of_stored (stored_root h.stored) hr,
    except_bind_ok] at hrun
  obtain ⟨R₁, -, b₁, fl₁, ks', hrest, ⟨j', r', harr, hr', hid⟩, hproc⟩ :=
    walks_children (C := []) (fun R' _ => walks P fuel R') ⟨j, r, h, hr, rfl⟩
      (fun c hc => hchildren.mem_iff.mp hc)
      (hchildren.nodup_iff.mpr (Arranged.nodup_kidIds (C := []) h hr)) hrun
  obtain _ | R₁ := R₁
  · cases hrest
  have hget := getNode_of_stored (stored_root harr.stored) hr'
  rw [hid] at hget
  simp only [InnerBucket.mergeLoop, plug, hget, except_bind_ok, Bool.true_or, if_true] at hrest
  obtain ⟨s, hvisit, hdone⟩ := except_bind_eq_ok.mp hrest
  rw [Except.ok.inj hdone] at hvisit
  exact ⟨b₁, fl₁, ks', ⟨j', r', harr, hr', hid⟩, hproc, hvisit⟩

/-- The visit of a root branch: an only child takes its place. -/
theorem root_visit (h : Arranges P b [] x ks)
    (hrun : InnerBucket.mergeVisit P fuel x (b, fl) = .ok (b', fl')) :
    (∃ e, ks = [e] ∧ b'.pageNodeIds = b.pageNodeIds ∧
      b'.bucketMeta.rootPage = e.2.info.page ∧ (∀ y ≠ x, b'.nodes[y]? = b.nodes[y]?) ∧
      ∀ m : Node, b'.nodes[x]? = some m → m.deleted = true) ∨
    (∀ e, ks ≠ [e]) ∧ b' = b := by
  obtain ⟨j, r, harr, hr, rfl⟩ := h
  have hget := getNode_of_stored (stored_root harr.stored) hr
  have hroot : (branch j ks : NodeTree).info.page = b.bucketMeta.rootPage := harr.root.symm
  have hslot := (List.getElem?_eq_some_iff.mp (getNode_ok.mp hget)).1
  have hne := ((linked_branch hr).mp harr.linked).1
  simp only [InnerBucket.mergeVisit, plug, hget, except_bind_ok, Info.nodeOf, if_pos hroot,
    nodeData_branch, branchData] at hrun
  obtain _ | ⟨e, _ | ⟨e', ks⟩⟩ := ks
  · exact absurd rfl hne
  · refine .inl ⟨e, rfl, ?_⟩
    simp only [tags, List.map_cons, List.map_nil, Node.needsMerging, NodeData.len, minKeysPerNode,
      List.length_singleton, Nat.one_lt_ofNat, decide_true, Bool.true_or, not_true,
      if_false] at hrun
    obtain ⟨rfl, -⟩ := Prod.mk.inj (Except.ok.inj hrun)
    refine ⟨rfl, tag_page e.2, fun y hy => ?_, fun m hm => ?_⟩
    · simp [InnerBucket.setNode, freePage_id, hy.symm]
    · simp only [InnerBucket.setNode, freePage_id, List.getElem?_set_self hslot] at hm
      rw [← Option.some.inj hm]
  · refine .inr ⟨by simp, ?_⟩
    simp [tags] at hrun
    exact hrun.1.symm

end Root

/-- Of the pages below a root branch exactly one is not loaded, and the others are empty leaves. -/
def Stranded (P : Pages) (b : InnerBucket) : Prop :=
  ∃ pn es, b.pageNode P (.page b.bucketMeta.rootPage) = .ok pn ∧
    pn.data = some (.branches es) ∧
    es.countP (fun e => (b.pageNodeIds.lookup e.page).isNone) = 1 ∧
    ∀ e ∈ es, ∀ x n, b.pageNodeIds.lookup e.page = some x → b.nodes[x]? = some n →
      n.data = .leaves []

section Promotion

variable {P : Pages} {b b' : InnerBucket} {t u : NodeTree} {fuel : Nat} {fl fl' : TxFreelist}
  {j : Info} {ks : Kids} {r : NodeRec}

/-- A page of a stored tree has a node exactly when it is loaded. -/
theorem lookup_isNone (h : SearchTree.Holds pageTag (stored P b) u) :
    (b.pageNodeIds.lookup u.info.page).isNone = u.info.loaded.isNone := by
  have hroot := stored_root h
  cases hl : u.info.loaded <;> simp only [StoredAt, hl] at hroot <;> simp [hroot.1]

/-- The node of a page holds the elements the tree gives it. -/
theorem data_of_lookup {x : Nat} {n : Node} (h : SearchTree.Holds pageTag (stored P b) u)
    (hx : b.pageNodeIds.lookup u.info.page = some x) (hn : b.nodes[x]? = some n) :
    u.info.loaded.isSome = true ∧ n.data = nodeData u := by
  have hroot := stored_root h
  cases hl : u.info.loaded with
  | none =>
    simp only [StoredAt, hl] at hroot
    rw [hroot.1] at hx
    cases hx
  | some r =>
    simp only [StoredAt, hl] at hroot
    obtain rfl : r.id = x := Option.some.inj (hroot.1.symm.trans hx)
    obtain rfl := Option.some.inj (hroot.2.symm.trans hn)
    exact ⟨rfl, rfl⟩

theorem Opened.stranded_iff (h : Opened P b (branch j ks)) : Stranded P b ↔ BlockAlone ks := by
  obtain ⟨pn, hpn, -, hdata, -⟩ := (stored_root h.stored).pageNode
  have hkids := (stored_parts (C := []) h.stored).2.1
  have hroot : b.bucketMeta.rootPage = (branch j ks : NodeTree).info.page := h.root
  rw [← hroot] at hpn
  have hcount : ((tags pageTag ks).map fun e => (⟨e.1, e.2⟩ : Branch)).countP
      (fun e => (b.pageNodeIds.lookup e.page).isNone) =
      ks.countP fun e => e.2.info.loaded.isNone := by
    rw [tags, List.map_map, List.countP_map]
    refine List.countP_congr fun e he => ?_
    simp only [Function.comp_apply, tag_page, lookup_isNone (hkids e he).1]
  constructor
  · rintro ⟨pn', es, hpn', hes, hone, hempty⟩
    obtain rfl : pn = pn' := Except.ok.inj (hpn.symm.trans hpn')
    obtain rfl : _ = es := NodeData.branches.inj (Option.some.inj (hdata.symm.trans hes))
    refine ⟨fun e he hsolid => hsolid.2 ?_, hcount.symm.trans hone⟩
    obtain ⟨q, hq⟩ := Option.isSome_iff_exists.mp hsolid.1
    have hslot := stored_root (hkids e he).1
    simp only [StoredAt, hq] at hslot
    refine hempty ⟨e.1, e.2.info.page⟩ ?_ _ _ hslot.1 hslot.2
    simp only [tags, List.map_map, List.mem_map, Function.comp_apply, tag_page]
    exact ⟨e, he, rfl⟩
  · rintro ⟨hsolid, hone⟩
    refine ⟨pn, _, hpn, hdata, hcount.trans hone, fun e he x n hx hn => ?_⟩
    simp only [tags, List.map_map, List.mem_map, Function.comp_apply, tag_page] at he
    obtain ⟨e, he, rfl⟩ := he
    obtain ⟨hloaded, hsame⟩ := data_of_lookup (hkids e he).1 hx hn
    by_contra hne
    exact hsolid e he ⟨hloaded, hsame ▸ hne⟩

/-- Without empty leaves but for an only child, a block alone is the only child. -/
theorem alone_single (htidy : TidyBut [] ks) (halone : BlockAlone ks) : ∃ e, ks = [e] := by
  rcases htidy with hall | ⟨e, rfl, -⟩
  · have hnone : ∀ e ∈ ks, e.2.info.loaded.isNone = true := by
      intro e he
      by_contra hloaded
      have hempty : nodeData e.2 = .leaves [] := by
        by_contra hne
        exact halone.1 e he ⟨by simpa [Option.isSome_iff_ne_none] using hloaded, hne⟩
      have hclean := (hall e he).resolve_right (by simp)
      cases hu : e.2 with
      | branch i us => simp [hu, branchData] at hempty
      | leaf i d =>
        rw [hu] at hempty hclean
        exact clean_leaf.mp hclean (NodeData.leaves.inj hempty)
    have hlen := halone.2
    rw [List.countP_eq_length.mpr hnone] at hlen
    exact List.length_eq_one_iff.mp hlen
  · exact ⟨e, rfl⟩

/-- A tree without empty leaves has an entry. -/
theorem content_of_clean (hlinked : SearchTree.Holds linkTag linked u) (h : Clean u) :
    u.content ≠ [] := by
  intro hnil
  have hchunks : u.chunks ≠ [] := by
    refine chunks_ne_nil fun w hw hleaf => ?_
    have hself := hlinked w hw
    cases w with
    | leaf i d => cases hleaf
    | branch i us => exact fun hus => hself.1 (by rw [show us = [] from hus]; rfl)
  obtain ⟨d, hd⟩ := List.exists_mem_of_ne_nil _ hchunks
  rw [← chunks_flatten, List.flatten_eq_nil_iff] at hnil
  exact h (hnil d hd ▸ hd)

theorem clean_sub {v : NodeTree} (h : Clean u) (hv : v ∈ u.subs) : Clean v := by
  intro hempty
  obtain ⟨w, hw, hnil⟩ := List.mem_map.mp hempty
  obtain ⟨hw, hleaf⟩ := List.mem_filter.mp hw
  exact h (List.mem_map.mpr ⟨w, List.mem_filter.mpr ⟨subs_trans hw hv, hleaf⟩, hnil⟩)

theorem populated_of_clean (hlinked : SearchTree.Holds linkTag linked u) (h : Clean u) :
    Populated u :=
  fun _ hv _ => content_of_clean (fun w hw => hlinked w (subs_trans hw hv)) (clean_sub h hv)

/-- A loaded branch over one block and empty leaves. -/
theorem populated_of_alone (h : SearchTree.Holds linkTag linked (branch j ks))
    (hr : j.loaded = some r)
    (halone : BlockAlone ks) : ∀ e ∈ ks, Populated e.2 := by
  intro e he
  obtain ⟨hhangs, hlinked⟩ := ((linked_branch hr).mp h).2.2 e he
  cases hl : e.2.info.loaded with
  | none =>
    rw [Hangs, tag_link_unloaded hl] at hhangs
    refine populated_of_clean hlinked (clean_block hlinked (k := e.1) ?_)
    rw [tag_link_unloaded hl]
    exact hhangs.resolve_right (by simp)
  | some q =>
    have hempty : nodeData e.2 = .leaves [] := by
      by_contra hne
      exact halone.1 e he ⟨by rw [hl]; rfl, hne⟩
    cases hu : e.2 with
    | leaf i d => exact populated_leaf i d
    | branch i us => simp [hu, branchData] at hempty

/-- After `merge_nodes` the root has a node unless the root branch was left to a block. -/
theorem Opened.root_found (h : Opened P b t)
    (hrun : InnerBucket.mergeNodes P fuel (b, fl) = .ok (b', fl')) :
    (b'.pageNodeIds.lookup b'.bucketMeta.rootPage).isNone = true ↔ Stranded P b := by
  obtain ⟨b₁, i, r, harr, hi, hloop⟩ := h.mergeNodes hrun
  cases t with
  | leaf j d =>
    obtain rfl := root_leaf harr hi hloop
    refine iff_of_false ?_ ?_
    · rw [harr.root, lookup_isNone harr.stored, info_setInfo, hi]
      simp
    · rintro ⟨pn', es, hpn', hes, -⟩
      obtain ⟨pn, hpn, -, hdata, -⟩ := (stored_root h.stored).pageNode
      rw [← h.root, hpn'] at hpn
      rw [← Except.ok.inj hpn, hes] at hdata
      cases hdata
  | branch j ks =>
    obtain ⟨b₂, fl₂, ks', ⟨j', r', harr', hr', hid⟩, hproc, hvisit⟩ := root_branch harr hi hloop
    rw [h.stranded_iff, ← hproc.alone]
    rcases root_visit ⟨j', r', harr', hr', hid⟩ hvisit with
      ⟨e, rfl, hids, hroot, -⟩ | ⟨hmany, rfl⟩
    · rw [hids, hroot, lookup_isNone ((stored_parts (C := []) harr'.stored).2.1 e (by simp)).1]
      cases hl : e.2.info.loaded <;> simp [BlockAlone, Solid, hl]
    · refine iff_of_false ?_ fun halone => ?_
      · rw [harr'.root, lookup_isNone harr'.stored]
        simp [plug, hr']
      · have hpop := populated_of_alone harr.linked hi (hproc.alone.mp halone)
        have htidy := hproc.tidy hpop [] (by simpa using tidyBut_children harr.linked hi)
        obtain ⟨e, he⟩ := alone_single htidy halone
        exact hmany e he

end Promotion

/-! ## Empty nodes -/

/-- A page that is not loaded, a leaf with an entry, or a branch over such a page. -/
inductive HasEntry (ids : List (Nat × Nat)) (nodes : List Node) : Nat → Prop
  | block {page : Nat} (h : ids.lookup page = none) : HasEntry ids nodes page
  | leaf {page x : Nat} {n : Node} {l : List Leaf} (h : ids.lookup page = some x)
      (hn : nodes[x]? = some n) (hl : n.data = .leaves l) (hne : l ≠ []) : HasEntry ids nodes page
  | branch {page x : Nat} {n : Node} {es : List Branch} {e : Branch} (h : ids.lookup page = some x)
      (hn : nodes[x]? = some n) (hes : n.data = .branches es) (he : e ∈ es)
      (below : HasEntry ids nodes e.page) : HasEntry ids nodes page

/-- Below every loaded branch but the root there is an entry. -/
def BranchesInhabited (b : InnerBucket) : Prop :=
  ∀ n ∈ b.nodes, n.pageId ≠ b.bucketMeta.rootPage → n.data.isLeaves = false →
    HasEntry b.pageNodeIds b.nodes n.pageId

section Empty

variable {P : Pages} {b b' : InnerBucket} {t u : NodeTree} {fuel : Nat} {fl fl' : TxFreelist}
  {j : Info} {ks : Kids}

/-- A page of the tree with an entry below it. -/
theorem HasEntry.content {page : Nat} (hentry : HasEntry b.pageNodeIds b.nodes page) :
    ∀ {f : Frame Bytes Info Leaf} {C : TreeCtx} {u : NodeTree}, Opened P b (plug (f :: C) u) →
      u.info.page = page → u.content ≠ [] := by
  induction hentry with
  | block hpage =>
    intro f C u h heq
    have hstored := (holds_plug (f :: C) u).mp h.stored
    have hlinked := ((holds_plug (f :: C) u).mp h.linked).2
    have hun : u.info.loaded = none := by
      have hnone := lookup_isNone hstored.2
      rw [heq, hpage] at hnone
      simpa using hnone.symm
    refine content_of_clean hlinked (clean_block hlinked (k := f.key) ?_)
    rw [tag_link_unloaded hun, firstKey_unloaded h.linked hun]
  | leaf hpage hn hl hne =>
    intro f C u h heq
    subst heq
    have hsame := (data_of_lookup ((holds_plug (f :: C) u).mp h.stored).2 hpage hn).2
    cases u with
    | leaf i d =>
      obtain rfl := NodeData.leaves.inj (hl.symm.trans hsame)
      simpa using hne
    | branch i us => cases hl.symm.trans hsame
  | branch hpage hn hes he below ih =>
    intro f C u h heq
    subst heq
    have hsame := (data_of_lookup ((holds_plug (f :: C) u).mp h.stored).2 hpage hn).2
    cases u with
    | leaf i d => cases hes.symm.trans hsame
    | branch i us =>
      obtain rfl := NodeData.branches.inj (hes.symm.trans hsame)
      simp only [tags, List.map_map, List.mem_map, Function.comp_apply, tag_page] at he
      obtain ⟨⟨k, v⟩, hv, rfl⟩ := he
      obtain ⟨pre, post, rfl⟩ := List.append_of_mem hv
      have hne := ih (f := ⟨i, pre, k, post⟩) (C := f :: C) h rfl
      simp [hne]

/-- Below the root every branch of the tree has an entry. -/
theorem Opened.populated (h : Opened P b (branch j ks)) (hentries : BranchesInhabited b) :
    ∀ e ∈ ks, Populated e.2 := by
  intro e he v hv hbranch
  have hmem : v ∈ (branch j ks : NodeTree).subs := subs_trans hv (kid_mem_subs he)
  have hpage : v.info.page ≠ b.bucketMeta.rootPage := by
    have hnodup := h.heads
    rw [heads_eq, List.nodup_cons] at hnodup
    intro heq
    rw [h.root] at heq
    refine hnodup.1 (List.mem_flatMap.mpr ⟨e, he, ?_⟩)
    rw [← heq]
    exact List.mem_map_of_mem (List.mem_map_of_mem hv)
  have hentry : HasEntry b.pageNodeIds b.nodes v.info.page := by
    cases hl : v.info.loaded with
    | none =>
      refine .block (Option.isNone_iff_eq_none.mp ?_)
      rw [lookup_isNone fun w hw => h.stored w (subs_trans hw hmem), hl]
      rfl
    | some r =>
      have hnode := h.node_of hmem hl
      refine hentries _ (List.mem_of_getElem? hnode) hpage ?_
      cases v with
      | leaf i d => cases hbranch
      | branch i us => rfl
  obtain ⟨C, hC⟩ := exists_plug hmem
  cases C with
  | nil => exact absurd ((congrArg (fun u => u.info.page) hC).symm.trans h.root.symm) hpage
  | cons f C => exact hentry.content (hC ▸ h) rfl

end Empty

/-! ## Every bucket of every transaction -/

section Reached

variable {P : Pages} {m : BucketMeta} {D : Nest} {fuel rounds : Nat} {ops : List Bucket.PathOp}
  {answers : List (Except Error Output)} {s : BucketTx} {path : List Bytes}
  {b b' : InnerBucket} {fl' : TxFreelist}

/-- For every bucket of every write transaction: after `merge_nodes`, which the commit calls when
the opened buckets below were rebalanced, the root page has a node exactly when the root branch was
not left to a block that was never loaded. -/
theorem root_found_iff (h : Committed P m D) (fl : TxFreelist) (hfuel : D.size ≤ fuel)
    (hrun : Bucket.runAll P fuel ops (.fromMeta m, fl) = .ok (answers, s))
    (hb : Bucket.bucketAt P fuel path s = .ok b) (opened : List (Bytes × InnerBucket))
    (fl₁ : TxFreelist) (hmerge : InnerBucket.mergeNodes P rounds
      ({ b with dirty := true, buckets := opened }, fl₁) = .ok (b', fl')) :
    (b'.pageNodeIds.lookup b'.bucketMeta.rootPage).isSome = true ↔ ¬ Stranded P b := by
  obtain ⟨origin, S, hS, -, -⟩ := h.reached fl ops hfuel hrun path hb
  have hopened : Opened P { b with dirty := true, buckets := opened } S.tree :=
    hS.opened.congr rfl rfl rfl
  have hfound : _ ↔ Stranded P b := hopened.root_found hmerge
  rw [← hfound]
  cases b'.pageNodeIds.lookup b'.bucketMeta.rootPage <;> simp

end Reached

/-- The maps of opened buckets are visited in the order in which they were filled. -/
def inOrder : HashOrder :=
  ⟨fun _ names => names, fun _ names => names, fun _ _ => .refl _, fun _ _ => .refl _⟩

/-- A commit of some operations, up to the new root. -/
def spilledAfter (P : Pages) (fl : TxFreelist) (ops : List Bucket.PathOp) :
    Except Fault BucketMeta := do
  let (_, s) ← Bucket.runAll P 20 ops (.fromMeta ⟨2, 1⟩, fl)
  let s ← InnerBucket.rebalance P inOrder 20 3 [] s
  let (m, _) ← InnerBucket.spill P inOrder 20 3 [] s
  pure m

/-- What `merge_nodes` makes of an opened bucket. -/
def mergedWith {α : Type} (P : Pages) (fl : TxFreelist) (read : InnerBucket → α)
    (b : InnerBucket) : Except Fault α := do
  let (b, _) ← InnerBucket.mergeNodes P 20 ({ b with dirty := true, buckets := b.buckets }, fl)
  pure (read b)

theorem mergedWith_ok {α : Type} {P : Pages} {fl : TxFreelist} {read : InnerBucket → α}
    {b : InnerBucket} {a : α} (h : mergedWith P fl read b = .ok a) :
    ∃ b' fl', InnerBucket.mergeNodes P 20 ({ b with dirty := true, buckets := b.buckets }, fl) =
      .ok (b', fl') ∧ read b' = a := by
  obtain ⟨⟨b', fl'⟩, hmerge, hread⟩ := except_bind_eq_ok.mp h
  exact ⟨b', fl', hmerge, Except.ok.inj hread⟩

/-- When a leaf with one entry is merged, its sibling is loaded and becomes the root. -/
theorem root_found_after_merge :
    ∃ answers s b b' fl', Bucket.runAll twoLeafBucketPages 20 [([[98]], .delete [1])]
        (.fromMeta ⟨2, 1⟩, twoLeafBucketFreelist) = .ok (answers, s) ∧
      Bucket.bucketAt twoLeafBucketPages 20 [[98]] s = .ok b ∧
      InnerBucket.mergeNodes twoLeafBucketPages 20
        ({ b with dirty := true, buckets := b.buckets }, twoLeafBucketFreelist) =
          .ok (b', fl') ∧
      b'.bucketMeta.rootPage = 5 ∧ b'.pageNodeIds.lookup 5 = some 2 ∧
      ¬ Stranded twoLeafBucketPages b := by
  have hread : readAfter twoLeafBucketPages twoLeafBucketFreelist [([[98]], .delete [1])]
      (mergedWith twoLeafBucketPages twoLeafBucketFreelist fun b =>
        (b.bucketMeta.rootPage, b.pageNodeIds.lookup 5)) = .ok (5, some 2) := by decide +kernel
  obtain ⟨answers, s, b, hrun, hb, hmerged⟩ := readAfter_ok hread
  obtain ⟨b', fl', hmerge, heq⟩ := mergedWith_ok hmerged
  obtain ⟨hroot, hid⟩ := Prod.mk.inj heq
  refine ⟨answers, s, b, b', fl', hrun, hb, hmerge, hroot, hid, ?_⟩
  refine (root_found_iff twoLeafBucket_committed _ (by decide +kernel) hrun hb _ _ hmerge).mp ?_
  rw [hroot, hid]
  rfl

/-- Deleting both keys of the first of two leaves makes the other one the root, which was never
loaded; the commit panics. -/
theorem emptied_leaf_loses_root :
    Committed twoLeafBucketPages ⟨2, 1⟩ twoLeafBucketNest ∧
    readAfter twoLeafBucketPages twoLeafBucketFreelist
      [([[98]], .delete [1]), ([[98]], .delete [2])]
      (mergedWith twoLeafBucketPages twoLeafBucketFreelist fun b =>
        (b.bucketMeta.rootPage, b.pageNodeIds.lookup b.bucketMeta.rootPage)) = .ok (5, none) ∧
    spilledAfter twoLeafBucketPages twoLeafBucketFreelist
      [([[98]], .delete [1]), ([[98]], .delete [2])] =
        .error (.panic "no entry found for key") :=
  ⟨twoLeafBucket_committed, by decide +kernel, by decide +kernel⟩

end Tagdata.Analysis
