import Tagdata.Library.Search
import Tagdata.Library.SearchTree

/-!
# Order in multiway trees

Two properties are kept apart.  A tree is `Separated` when leaves are sorted and whatever
stands under a child, its separator included, is below whatever stands under a later
child.  It is `Routable` when the separator of every child but the first is a lower bound of
what stands under it, so that a descent by separators finds every key.  `Gap` and `Above`
say where a key fits into the surroundings of a place, and `separated_plug` and
`routable_plug` cut the two properties there.

A tree is `Indexed` when every separator is the first key of its child; a separated tree
that is indexed is routable.
-/

set_option autoImplicit false

namespace Tagdata.Library

namespace SearchTree

variable {K I E : Type} (key : E → K)

/-- The keys the root itself holds. -/
def ownKeys : SearchTree K I E → List K
  | .leaf _ d => d.map key
  | .branch _ ks => ks.map Prod.fst

/-- The keys of all elements and all separators. -/
def keys (t : SearchTree K I E) : List K := t.subs.flatMap (ownKeys key)

/-- A separator and the keys under it. -/
def span (e : K × SearchTree K I E) : List K := e.1 :: keys key e.2

/-- The first key the root holds. -/
def firstKey? (t : SearchTree K I E) : Option K := (ownKeys key t).head?

/-- Every separator is the first key of its child. -/
def Indexed (t : SearchTree K I E) : Prop :=
  ∀ u ∈ t.subs, ∀ e ∈ u.kids, firstKey? key e.2 = some e.1

@[simp] theorem keys_leaf (i : I) (d : List E) :
    keys key (leaf i d : SearchTree K I E) = d.map key := by simp [keys, ownKeys]

theorem mem_keys_branch {i : I} {ks : List (K × SearchTree K I E)} {x : K} :
    x ∈ keys key (branch i ks) ↔ ∃ e ∈ ks, x ∈ span key e := by
  simp only [keys, subs_branch, List.flatMap_cons, List.mem_append, List.mem_flatMap, ownKeys,
    span, List.mem_cons, List.mem_map]
  constructor
  · rintro (⟨e, he, rfl⟩ | ⟨u, ⟨e, he, hu⟩, hx⟩)
    · exact ⟨e, he, .inl rfl⟩
    · exact ⟨e, he, .inr ⟨u, hu, hx⟩⟩
  · rintro ⟨e, he, rfl | ⟨u, hu, hx⟩⟩
    · exact .inl ⟨e, he, rfl⟩
    · exact .inr ⟨u, ⟨e, he, hu⟩, hx⟩

theorem mem_span {e : K × SearchTree K I E} {x : K} :
    x ∈ span key e ↔ x = e.1 ∨ x ∈ keys key e.2 := List.mem_cons

/-- The key of an element is a key of the tree. -/
theorem key_mem_keys {t : SearchTree K I E} {a : E} (ha : a ∈ t.content) : key a ∈ keys key t := by
  obtain ⟨u, hu, ha⟩ := List.mem_flatMap.mp ha
  refine List.mem_flatMap.mpr ⟨u, hu, ?_⟩
  cases u with
  | leaf i d => exact List.mem_map_of_mem ha
  | branch i ks => simp at ha

@[simp] theorem indexed_leaf (i : I) (d : List E) :
    Indexed key (leaf i d : SearchTree K I E) := by
  simp [Indexed]

theorem indexed_branch (i : I) (ks : List (K × SearchTree K I E)) :
    Indexed key (branch i ks) ↔
      (∀ e ∈ ks, firstKey? key e.2 = some e.1) ∧ ∀ e ∈ ks, Indexed key e.2 := by
  simp only [Indexed, subs_branch, List.mem_cons, List.mem_flatMap, forall_eq_or_imp, kids_branch]
  refine and_congr_right fun _ => ⟨fun h e he u hu => h u ⟨e, he, hu⟩, ?_⟩
  rintro h u ⟨e, he, hu⟩
  exact h e he u hu

variable {key} in
theorem Indexed.sub {s t : SearchTree K I E} (h : Indexed key t) (hs : s ∈ t.subs) :
    Indexed key s := fun u hu => h u (subs_trans hu hs)

variable [LinearOrder K]

/-- Children whose spans follow each other. -/
def Apart (ks : List (K × SearchTree K I E)) : Prop :=
  ks.Pairwise fun a b => ∀ x ∈ span key a, ∀ y ∈ span key b, x < y

/-- Every separator but the first bounds the keys under it. -/
def Bounding (ks : List (K × SearchTree K I E)) : Prop :=
  ∀ e ∈ ks.tail, ∀ x ∈ keys key e.2, e.1 ≤ x

/-- Leaves are sorted and children follow each other. -/
def Separated (t : SearchTree K I E) : Prop :=
  ∀ u ∈ t.subs, SortedBy key u.elems ∧ Apart key u.kids

/-- A descent by separators finds every key. -/
def Routable (t : SearchTree K I E) : Prop := ∀ u ∈ t.subs, Bounding key u.kids

@[simp] theorem separated_leaf (i : I) (d : List E) :
    Separated key (leaf i d : SearchTree K I E) ↔ SortedBy key d := by
  simp [Separated, Apart]

theorem separated_branch (i : I) (ks : List (K × SearchTree K I E)) :
    Separated key (branch i ks) ↔ Apart key ks ∧ ∀ e ∈ ks, Separated key e.2 := by
  simp only [Separated, subs_branch, List.mem_cons, List.mem_flatMap, forall_eq_or_imp,
    elems_branch, kids_branch]
  refine and_congr (by simp [SortedBy]) ⟨fun h e he u hu => h u ⟨e, he, hu⟩, ?_⟩
  rintro h u ⟨e, he, hu⟩
  exact h e he u hu

@[simp] theorem routable_leaf (i : I) (d : List E) :
    Routable key (leaf i d : SearchTree K I E) := by
  simp [Routable, Bounding]

theorem routable_branch (i : I) (ks : List (K × SearchTree K I E)) :
    Routable key (branch i ks) ↔ Bounding key ks ∧ ∀ e ∈ ks, Routable key e.2 := by
  simp only [Routable, subs_branch, List.mem_cons, List.mem_flatMap, forall_eq_or_imp, kids_branch]
  refine and_congr_right fun _ => ⟨fun h e he u hu => h u ⟨e, he, hu⟩, ?_⟩
  rintro h u ⟨e, he, hu⟩
  exact h e he u hu

variable {key}

theorem Separated.sub {s t : SearchTree K I E} (h : Separated key t) (hs : s ∈ t.subs) :
    Separated key s := fun u hu => h u (subs_trans hu hs)

theorem Routable.sub {s t : SearchTree K I E} (h : Routable key t) (hs : s ∈ t.subs) :
    Routable key s := fun u hu => h u (subs_trans hu hs)

/-- The separators of children that follow each other are sorted. -/
theorem Apart.sorted {ks : List (K × SearchTree K I E)} (h : Apart key ks) :
    SortedBy Prod.fst ks :=
  h.imp fun hab => hab _ (List.mem_cons_self) _ (List.mem_cons_self)

/-- Children that follow each other have sorted contents that follow each other. -/
theorem Apart.content {ks : List (K × SearchTree K I E)} (h : Apart key ks)
    (hks : ∀ e ∈ ks, SortedBy key e.2.content) :
    SortedBy key (ks.flatMap fun e => e.2.content) := by
  refine List.pairwise_flatMap.mpr ⟨hks, h.imp ?_⟩
  intro a b hab x hx y hy
  exact hab _ (List.mem_cons_of_mem _ (key_mem_keys key hx)) _
    (List.mem_cons_of_mem _ (key_mem_keys key hy))

/-- The content of a separated tree is sorted. -/
theorem Separated.content {t : SearchTree K I E} (h : Separated key t) :
    SortedBy key t.content := by
  induction t with
  | leaf i d => simpa using h
  | branch i ks ih =>
    obtain ⟨hks, hsub⟩ := (separated_branch key i ks).mp h
    rw [content_branch]
    exact hks.content fun e he => ih e he (hsub e he)

/-- In a separated, indexed tree the first key is the least one. -/
theorem Indexed.firstKey_le {t : SearchTree K I E} (hi : Indexed key t) (hs : Separated key t)
    {k : K} (hk : firstKey? key t = some k) {x : K} (hx : x ∈ keys key t) : k ≤ x := by
  induction t generalizing k with
  | leaf i d =>
    obtain ⟨a, ha, rfl⟩ := List.mem_map.mp (by simpa using hx)
    cases d with
    | nil => simp at ha
    | cons b d =>
      obtain rfl : key b = k := by simpa [firstKey?, ownKeys] using hk
      rcases List.mem_cons.mp ha with rfl | ha
      · exact le_rfl
      · have hsorted : SortedBy key (b :: d) := by simpa using hs
        exact (List.rel_of_pairwise_cons hsorted ha).le
  | branch i ks ih =>
    obtain ⟨hks, hsub⟩ := (separated_branch key i ks).mp hs
    obtain ⟨hfirst, hidx⟩ := (indexed_branch key i ks).mp hi
    obtain ⟨e, he, hxe⟩ := (mem_keys_branch key).mp hx
    cases ks with
    | nil => simp at he
    | cons a ks =>
      obtain rfl : a.1 = k := by simpa [firstKey?, ownKeys] using hk
      rcases List.mem_cons.mp he with rfl | he'
      · rcases (mem_span key).mp hxe with rfl | hxe
        · exact le_rfl
        · exact ih e he (hidx e he) (hsub e he) (hfirst e he) hxe
      · exact (List.rel_of_pairwise_cons hks he' _ List.mem_cons_self _ hxe).le

/-- In a separated, indexed tree every separator bounds what stands under it. -/
theorem Indexed.routable {t : SearchTree K I E} (hi : Indexed key t) (hs : Separated key t) :
    Routable key t := by
  intro u hu e he x hx
  have he' : e ∈ u.kids := List.mem_of_mem_tail he
  have hmem : e.2 ∈ t.subs := subs_trans (kid_mem_subs he') hu
  exact (hi.sub hmem).firstKey_le (hs.sub hmem) (hi u hu e he') hx

/-- Children whose separators are sorted, whose keys reach up to the next separator and not
below their own, follow each other. -/
theorem apart_of_bounded {ks : List (K × SearchTree K I E)}
    (hsorted : SortedBy Prod.fst ks) (hlower : ∀ e ∈ ks, ∀ x ∈ keys key e.2, e.1 ≤ x)
    (hupper : ∀ pre e e' post, ks = pre ++ e :: e' :: post → ∀ x ∈ keys key e.2, x < e'.1) :
    Apart key ks := by
  induction ks with
  | nil => exact List.Pairwise.nil
  | cons a ks ih =>
    obtain ⟨ha, hks⟩ := List.pairwise_cons.mp hsorted
    have ih := ih hks (fun e he => hlower e (List.mem_cons_of_mem _ he))
      (fun pre e e' post h => hupper (a :: pre) e e' post (by rw [h, List.cons_append]))
    refine List.pairwise_cons.mpr ⟨fun c hc x hx y hy => ?_, ih⟩
    cases ks with
    | nil => simp at hc
    | cons b ks =>
      -- everything under `a` is below the separator of `b`, everything from `b` on is not
      have hxb : x < b.1 := by
        rcases (mem_span key).mp hx with rfl | hx
        · exact ha b List.mem_cons_self
        · exact hupper [] a b ks rfl x hx
      have hbc : b.1 ≤ c.1 := by
        rcases List.mem_cons.mp hc with rfl | hc
        · exact le_rfl
        · exact (List.rel_of_pairwise_cons hks hc).le
      have hcy : c.1 ≤ y := by
        rcases (mem_span key).mp hy with rfl | hy
        · exact le_rfl
        · exact hlower c (List.mem_cons_of_mem _ hc) y hy
      exact hxb.trans_le (hbc.trans hcy)

/-- An indexed tree is separated when its nodes are sorted and the keys under a child are
below the next separator. -/
theorem Indexed.separated {t : SearchTree K I E} (hi : Indexed key t)
    (hsorted : ∀ u ∈ t.subs, (ownKeys key u).Pairwise (· < ·))
    (hupper : ∀ u ∈ t.subs, ∀ pre e e' post, u.kids = pre ++ e :: e' :: post →
      ∀ x ∈ keys key e.2, x < e'.1) : Separated key t := by
  induction t with
  | leaf i d =>
    have h := hsorted _ (self_mem_subs _)
    simpa [ownKeys, SortedBy, List.pairwise_map] using h
  | branch i ks ih =>
    obtain ⟨hfirst, hidx⟩ := (indexed_branch key i ks).mp hi
    have hkid : ∀ e ∈ ks, e.2 ∈ (branch i ks).subs :=
      fun e he => kid_mem_subs (t := branch i ks) he
    have hsub : ∀ e ∈ ks, Separated key e.2 := fun e he =>
      ih e he (hidx e he) (fun u hu => hsorted u (subs_trans hu (hkid e he)))
        (fun u hu => hupper u (subs_trans hu (hkid e he)))
    have hkeys : SortedBy Prod.fst ks := by
      have h := hsorted _ (self_mem_subs _)
      simpa [ownKeys, SortedBy, List.pairwise_map] using h
    refine (separated_branch key i ks).mpr ⟨apart_of_bounded hkeys ?_ ?_, hsub⟩
    · exact fun e he x hx => (hidx e he).firstKey_le (hsub e he) (hfirst e he) hx
    · exact hupper _ (self_mem_subs _)

/-! ## Labels do not matter -/

/-! ## Order around a place -/

variable (key)

/-- A key lies between what stands left and what stands right of a place. -/
def Gap : Ctx K I E → K → Prop
  | [], _ => True
  | f :: C, x =>
      (∀ e ∈ f.pre, ∀ y ∈ span key e, y < x) ∧ (∀ e ∈ f.post, ∀ y ∈ span key e, x < y) ∧ Gap C x

/-- A key is not below the separators that lead to a place. -/
def Above : Ctx K I E → K → Prop
  | [], _ => True
  | f :: C, x => (f.pre ≠ [] → f.key ≤ x) ∧ Above C x

/-- The keys of a frame. -/
def frameKeys (f : Frame K I E) : List K := f.key :: f.sides.flatMap (span key)

/-- The surroundings of a place are separated. -/
def SeparatedCtx : Ctx K I E → Prop
  | [] => True
  | f :: C =>
      Apart key f.sides ∧ (∀ e ∈ f.pre, ∀ y ∈ span key e, y < f.key) ∧
      (∀ e ∈ f.post, ∀ y ∈ span key e, f.key < y) ∧ (∀ e ∈ f.sides, Separated key e.2) ∧
      (∀ x ∈ frameKeys key f, Gap key C x) ∧ SeparatedCtx C

/-- The surroundings of a place are routable. -/
def RoutableCtx : Ctx K I E → Prop
  | [] => True
  | f :: C =>
      (∀ e ∈ f.pre.tail ++ f.post, ∀ x ∈ keys key e.2, e.1 ≤ x) ∧
      (∀ e ∈ f.sides, Routable key e.2) ∧ (∀ x ∈ frameKeys key f, Above C x) ∧ RoutableCtx C

variable {key}

/-- Two contexts that differ in their labels only. -/
def SameFrames (C D : Ctx K I E) : Prop :=
  List.Forall₂ (fun f g => f.pre = g.pre ∧ f.key = g.key ∧ f.post = g.post) C D

omit [LinearOrder K] in
theorem SameFrames.refl (C : Ctx K I E) : SameFrames C C := by
  induction C with
  | nil => exact .nil
  | cons f C ih => exact .cons ⟨rfl, rfl, rfl⟩ ih

/-- Order does not look at labels. -/
theorem SameFrames.order {C D : Ctx K I E} (h : SameFrames C D) (key : E → K) :
    (∀ x, Gap key C x ↔ Gap key D x) ∧ (∀ x, Above C x ↔ Above D x) ∧
      (SeparatedCtx key C ↔ SeparatedCtx key D) ∧ (RoutableCtx key C ↔ RoutableCtx key D) := by
  induction h with
  | nil => exact ⟨fun _ => Iff.rfl, fun _ => Iff.rfl, Iff.rfl, Iff.rfl⟩
  | cons hf _ ih =>
    obtain ⟨hpre, hkey, hpost⟩ := hf
    obtain ⟨hgap, habove, hsep, hroute⟩ := ih
    simp only [Gap, Above, SeparatedCtx, RoutableCtx, frameKeys, Frame.sides, hpre, hkey, hpost,
      hgap, habove, hsep, hroute]
    simp

omit [LinearOrder K] in
theorem SameFrames.content {C D : Ctx K I E} (h : SameFrames C D) :
    before C = before D ∧ after C = after D := by
  induction h with
  | nil => exact ⟨rfl, rfl⟩
  | cons hf _ ih =>
    obtain ⟨hpre, -, hpost⟩ := hf
    simp only [before, after, hpre, hpost, ih.1, ih.2]
    simp

omit [LinearOrder K] in
theorem mem_keys_fill {f : Frame K I E} {s : SearchTree K I E} {x : K} :
    x ∈ keys key (f.fill s) ↔ x ∈ frameKeys key f ∨ x ∈ keys key s := by
  rw [Frame.fill, mem_keys_branch]
  simp only [frameKeys, Frame.sides, List.mem_append, List.mem_cons, List.mem_flatMap]
  constructor
  · rintro ⟨e, he | rfl | he, hx⟩
    · exact .inl (.inr ⟨e, .inl he, hx⟩)
    · rcases (mem_span key).mp hx with rfl | hx
      · exact .inl (.inl rfl)
      · exact .inr hx
    · exact .inl (.inr ⟨e, .inr he, hx⟩)
  · rintro ((rfl | ⟨e, he | he, hx⟩) | hx)
    · exact ⟨(f.key, s), .inr (.inl rfl), List.mem_cons_self⟩
    · exact ⟨e, .inl he, hx⟩
    · exact ⟨e, .inr (.inr he), hx⟩
    · exact ⟨(f.key, s), .inr (.inl rfl), List.mem_cons_of_mem _ hx⟩

/-- Children follow each other when they do without one of them and this one fits in. -/
theorem apart_fill {f : Frame K I E} {s : SearchTree K I E} :
    Apart key (f.pre ++ (f.key, s) :: f.post) ↔
      Apart key f.sides ∧ (∀ e ∈ f.pre, ∀ y ∈ span key e, y < f.key) ∧
      (∀ e ∈ f.post, ∀ y ∈ span key e, f.key < y) ∧
      ∀ x ∈ keys key s,
        (∀ e ∈ f.pre, ∀ y ∈ span key e, y < x) ∧ ∀ e ∈ f.post, ∀ y ∈ span key e, x < y := by
  have hspan : ∀ x, x ∈ span key (f.key, s) ↔ x = f.key ∨ x ∈ keys key s := fun x => mem_span key
  simp only [Apart, Frame.sides, List.pairwise_append, List.pairwise_cons, List.forall_mem_cons,
    hspan]
  constructor
  · rintro ⟨hpre, ⟨hpost, hpp⟩, hcross⟩
    refine ⟨⟨hpre, hpp, fun a ha b hb => (hcross a ha).2 b hb⟩,
      fun e he y hy => (hcross e he).1 y hy _ (.inl rfl),
      fun e he y hy => hpost e he _ (.inl rfl) y hy,
      fun x hx => ⟨fun e he y hy => (hcross e he).1 y hy x (.inr hx),
        fun e he y hy => hpost e he x (.inr hx) y hy⟩⟩
  · rintro ⟨⟨hpre, hpp, hcross⟩, hl, hr, hx⟩
    refine ⟨hpre, ⟨?_, hpp⟩, fun a ha => ⟨?_, hcross a ha⟩⟩
    · rintro b hb x (rfl | hmem) y hy
      · exact hr b hb y hy
      · exact (hx x hmem).2 b hb y hy
    · rintro y hy x (rfl | hmem)
      · exact hl a ha y hy
      · exact (hx x hmem).1 a ha y hy

/-- The order of a tree, cut at a place. -/
theorem separated_plug (C : Ctx K I E) (s : SearchTree K I E) :
    Separated key (plug C s) ↔
      SeparatedCtx key C ∧ Separated key s ∧ ∀ x ∈ keys key s, Gap key C x := by
  induction C generalizing s with
  | nil => simp [SeparatedCtx, Gap]
  | cons f C ih =>
    rw [plug_cons, ih]
    have hfill : Separated key (f.fill s) ↔
        Apart key (f.pre ++ (f.key, s) :: f.post) ∧
          (∀ e ∈ f.sides, Separated key e.2) ∧ Separated key s := by
      rw [Frame.fill, separated_branch]
      refine and_congr_right fun _ => ?_
      simp only [Frame.sides, List.forall_mem_append, List.forall_mem_cons]
      tauto
    simp only [hfill, apart_fill, SeparatedCtx, Gap, mem_keys_fill, or_imp, forall_and]
    tauto

/-- Routability of a tree, cut at a place. -/
theorem routable_plug (C : Ctx K I E) (s : SearchTree K I E) :
    Routable key (plug C s) ↔
      RoutableCtx key C ∧ Routable key s ∧ ∀ x ∈ keys key s, Above C x := by
  induction C generalizing s with
  | nil => simp [RoutableCtx, Above]
  | cons f C ih =>
    rw [plug_cons, ih]
    have hfill : Routable key (f.fill s) ↔
        ((∀ e ∈ f.pre.tail ++ f.post, ∀ x ∈ keys key e.2, e.1 ≤ x) ∧
          ∀ x ∈ keys key s, f.pre ≠ [] → f.key ≤ x) ∧
          (∀ e ∈ f.sides, Routable key e.2) ∧ Routable key s := by
      rw [Frame.fill, routable_branch]
      refine and_congr ?_ ?_
      · cases hpre : f.pre with
        | nil => simp [Bounding]
        | cons a pre =>
          simp only [Bounding, List.cons_append, List.tail_cons, List.forall_mem_append,
            List.forall_mem_cons, ne_eq, reduceCtorEq, not_false_eq_true, true_implies]
          tauto
      · simp only [Frame.sides, List.forall_mem_append, List.forall_mem_cons]
        tauto
    simp only [hfill, RoutableCtx, Above, mem_keys_fill, or_imp, forall_and]
    tauto

/-- What stands left of a place is below a key that fits there, what stands right above. -/
theorem Gap.content {C : Ctx K I E} {x : K} (h : Gap key C x) :
    (∀ a ∈ before C, key a < x) ∧ ∀ a ∈ after C, x < key a := by
  induction C with
  | nil => simp [before, after]
  | cons f C ih =>
    obtain ⟨hpre, hpost, hC⟩ := h
    obtain ⟨hb, ha⟩ := ih hC
    constructor
    · intro a hmem
      rcases List.mem_append.mp hmem with hmem | hmem
      · exact hb a hmem
      · obtain ⟨e, he, hmem⟩ := List.mem_flatMap.mp hmem
        exact hpre e he _ (List.mem_cons_of_mem _ (key_mem_keys key hmem))
    · intro a hmem
      rcases List.mem_append.mp hmem with hmem | hmem
      · obtain ⟨e, he, hmem⟩ := List.mem_flatMap.mp hmem
        exact hpost e he _ (List.mem_cons_of_mem _ (key_mem_keys key hmem))
      · exact ha a hmem

/-- In an indexed tree nothing stands left of a place whose first key is above a key that
leads there. -/
theorem Indexed.before_eq_nil {C : Ctx K I E} :
    ∀ {s : SearchTree K I E} {k x : K}, Indexed key (plug C s) → firstKey? key s = some k →
      Above C x → x < k → before C = [] := by
  induction C with
  | nil => intros; rfl
  | cons f C ih =>
    intro s k x hi hk habove hx
    have hfill : Indexed key (f.fill s) := hi.sub (mem_subs_plug C (f.fill s))
    have hkey : some k = some f.key :=
      hk.symm.trans (((indexed_branch key f.info _).mp hfill).1 (f.key, s) (by simp))
    obtain rfl : k = f.key := Option.some.inj hkey
    have hpre : f.pre = [] := by
      by_contra hne
      exact absurd (habove.1 hne) (not_le_of_gt hx)
    have hfirst : firstKey? key (f.fill s) = some f.key := by
      simp [firstKey?, Frame.fill, ownKeys, hpre]
    rw [before, ih hi hfirst habove.2 hx, hpre]
    rfl

/-- The child a descent takes: the last one whose separator is not above the key, or the
first one. -/
structure Taken (ks : List (K × SearchTree K I E)) (x : K) (pre : List (K × SearchTree K I E))
    (e : K × SearchTree K I E) (post : List (K × SearchTree K I E)) : Prop where
  split : ks = pre ++ e :: post
  lower : pre ≠ [] → e.1 ≤ x
  upper : ∀ a ∈ post, x < a.1

/-- In a tree that is separated and routable, a key that fits at a branch fits at the child
the descent takes. -/
theorem Taken.room {C : Ctx K I E} {i : I} {ks pre post : List (K × SearchTree K I E)}
    {e : K × SearchTree K I E} {x : K} (h : Taken ks x pre e post) (hs : Apart key ks)
    (hr : Bounding key ks) (hgap : Gap key C x) (habove : Above C x) :
    Gap key (⟨i, pre, e.1, post⟩ :: C) x ∧ Above (⟨i, pre, e.1, post⟩ :: C) x := by
  obtain ⟨rfl, hlower, hupper⟩ := h
  refine ⟨⟨?_, ?_, hgap⟩, hlower, habove⟩
  · intro a ha y hy
    have hcross := (List.pairwise_append.mp hs).2.2 a ha e List.mem_cons_self
    exact (hcross y hy e.1 List.mem_cons_self).trans_le (hlower (List.ne_nil_of_mem ha))
  · intro a ha y hy
    rcases (mem_span key).mp hy with rfl | hy
    · exact hupper a ha
    · have htail : a ∈ (pre ++ e :: post).tail := by
        cases pre with
        | nil => exact ha
        | cons b pre => simp [ha]
      exact (hupper a ha).trans_le (hr a htail y hy)

/-- The search of the separators finds the child a descent takes. -/
theorem exists_taken {ks : List (K × SearchTree K I E)} (hsorted : SortedBy Prod.fst ks)
    (hne : ks ≠ []) (x : K) :
    ∃ pre e post, Taken ks x pre e post ∧
      (binarySearchByKey x Prod.fst ks = .ok pre.length ∨
        ∃ j, binarySearchByKey x Prod.fst ks = .error j ∧ j - 1 = pre.length) := by
  rcases binary_search_cases hsorted x with
    ⟨pre, e, post, hsplit, he, -, hpost, hfound⟩ | ⟨below, above, hsplit, hbelow, habove, hfound⟩
  · exact ⟨pre, e, post, ⟨hsplit, fun _ => he.le, hpost⟩, .inl hfound⟩
  · rcases List.eq_nil_or_concat below with rfl | ⟨pre, e, rfl⟩
    · cases above with
      | nil => exact absurd hsplit hne
      | cons e post =>
        refine ⟨[], e, post, ⟨hsplit, fun h => absurd rfl h, ?_⟩, .inr ⟨_, hfound, rfl⟩⟩
        exact fun a ha => habove a (List.mem_cons_of_mem _ ha)
    · refine ⟨pre, e, above, ⟨?_, fun _ => ?_, habove⟩, .inr ⟨_, hfound, by simp⟩⟩
      · simpa using hsplit
      · exact (hbelow e (by simp)).le

end SearchTree

end Tagdata.Library
