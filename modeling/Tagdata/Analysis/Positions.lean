import Tagdata.Analysis.CommittedReads
import Tagdata.Library.Iterators

/-!
# Positions of a cursor

A stack that leads to an element of a leaf is a cut of the content of the tree at that
element.  `seek`, `next` and `previous` move the cut; what the code does at the two ends and
on an empty root leaf is kept apart, since a cursor may be called again after it answered
`None`.
-/

set_option autoImplicit false

namespace Tagdata.Analysis

open Tagdata.Library Tagdata.Library.SearchTree Tagdata.Model

/-- What a cursor needs of the bucket it walks over: only a root leaf may be empty. -/
structure Traversable (P : Pages) (b : InnerBucket) (t : NodeTree) : Prop where
  readable : Readable P b t
  alive : b.deleted = false
  root : b.bucketMeta.rootPage = t.info.page
  indexed : Indexed Leaf.key t
  filled : t.isLeaf = false → ∀ d ∈ t.chunks, d ≠ []

theorem CommittedTree.traversable {P : Pages} {m : BucketMeta} {t : NodeTree}
    (h : CommittedTree P m.rootPage t) : Traversable P (InnerBucket.fromMeta m) t :=
  ⟨h.readable, rfl, h.page.symm, h.indexed, h.chunk_ne_nil⟩

/-- The stack of a cursor stands on `x`, with `l` before it and `r` after it. -/
def Stands (P : Pages) (b : InnerBucket) (t : NodeTree) (st : List SearchPath)
    (l : List Leaf) (x : Leaf) (r : List Leaf) : Prop :=
  ∃ C i pre post id rest, plug C (leaf i (pre ++ x :: post)) = t ∧
    Sees P b id (leaf i (pre ++ x :: post)) ∧ AtPath P b rest C (leaf i (pre ++ x :: post)) ∧
    st = ⟨pre.length, id⟩ :: rest ∧ l = before C ++ pre ∧ r = post ++ after C

/-- The stack of a cursor stands on a root leaf without elements. -/
def Blank (P : Pages) (b : InnerBucket) (t : NodeTree) (st : List SearchPath) : Prop :=
  ∃ i id, t = leaf i [] ∧ Sees P b id t ∧ st = [⟨0, id⟩]

section Moves

variable {P : Pages} {b : InnerBucket} {t : NodeTree} {st : List SearchPath}
  {l r : List Leaf} {x : Leaf}

theorem Stands.content (h : Stands P b t st l x r) : t.content = l ++ x :: r := by
  obtain ⟨C, i, pre, post, id, rest, rfl, -, -, -, rfl, rfl⟩ := h
  simp [content_plug]

theorem Stands.ne_nil (h : Stands P b t st l x r) : st ≠ [] := by
  obtain ⟨C, i, pre, post, id, rest, -, -, -, rfl, -, -⟩ := h
  exact List.cons_ne_nil _ _

theorem Blank.content (h : Blank P b t st) : t.content = [] := by
  obtain ⟨i, id, rfl, -, -⟩ := h
  exact content_leaf i []

theorem Traversable.withParents (h : Traversable P b t) (links : List (Nat × Nat)) :
    Traversable P (withParents b links) t :=
  ⟨h.readable.withParents links, h.alive, h.root, h.indexed, h.filled⟩

theorem Traversable.sorted (h : Traversable P b t) : SortedBy Leaf.key t.content :=
  h.readable.separated.content

/-- A cursor stands where it stood in a bucket that resolves pages alike. -/
theorem Stands.congr {b' : InnerBucket} (hsame : ∀ id, b'.pageNode P id = b.pageNode P id)
    (h : Stands P b t st l x r) : Stands P b' t st l x r := by
  obtain ⟨C, i, pre, post, id, rest, hplug, ⟨pn, hpn, hd⟩, hpath, hst, hl, hr⟩ := h
  exact ⟨C, i, pre, post, id, rest, hplug, ⟨pn, by rw [hsame]; exact hpn, hd⟩, hpath.congr hsame,
    hst, hl, hr⟩

theorem Blank.congr {b' : InnerBucket} (hsame : ∀ id, b'.pageNode P id = b.pageNode P id)
    (h : Blank P b t st) : Blank P b' t st := by
  obtain ⟨i, id, ht, ⟨pn, hpn, hd⟩, hst⟩ := h
  exact ⟨i, id, ht, ⟨pn, by rw [hsame]; exact hpn, hd⟩, hst⟩

/-- The leaves beside a place below the root are not empty. -/
theorem Traversable.sides (h : Traversable P b t) {C : TreeCtx} {u : NodeTree}
    (hplug : plug C u = t) :
    (∀ d ∈ chunksBefore C, d ≠ []) ∧ ∀ d ∈ chunksAfter C, d ≠ [] := by
  cases C with
  | nil => simp [chunksBefore, chunksAfter]
  | cons f C =>
    have hall := h.filled (hplug ▸ isLeaf_plug_cons f C u)
    rw [← hplug, chunks_plug] at hall
    exact ⟨fun d hd => hall d (by simp [hd]), fun d hd => hall d (by simp [hd])⟩

/-- The rounds a walk up from a place takes. -/
theorem ctx_rounds {C : TreeCtx} {u : NodeTree} {fuel : Nat} (hplug : plug C u = t)
    (hfuel : t.subs.length + 2 ≤ fuel) : (ctxInfos C).length + 2 ≤ fuel := by
  have hperm := (infos_plug C u).length_eq
  rw [hplug] at hperm
  simp only [infos, List.length_map, List.length_append] at hperm
  omega

/-! ## Forward -/

theorem current_stands (hb : Traversable P b t) (h : Stands P b t st l x r) (nc pc : Bool) :
    Cursor.current P b ⟨st, nc, pc⟩ = .ok (some (Data.ofLeaf x)) := by
  obtain ⟨C, i, pre, post, id, rest, -, hsees, -, rfl, -, -⟩ := h
  rw [current_at_leaf _ _ _ _ hb.alive hsees]
  simp

theorem current_blank (hb : Traversable P b t) (h : Blank P b t st) (nc pc : Bool) :
    Cursor.current P b ⟨st, nc, pc⟩ = .ok none := by
  obtain ⟨i, id, rfl, hsees, rfl⟩ := h
  exact current_at_leaf 0 [] nc pc hb.alive hsees

/-- `next` on a cursor that was moved to an element answers it. -/
theorem advance_stands (hb : Traversable P b t) (h : Stands P b t st l x r) (pc : Bool)
    (fuel : Nat) :
    Cursor.advance P b fuel ⟨st, false, pc⟩ = .ok (some (Data.ofLeaf x)) ⟨st, true, false⟩ :=
  advance_stay pc fuel h.ne_nil (current_stands hb h true false)

/-- `next` on a cursor whose element was answered goes to the next element. -/
theorem advance_on (hb : Traversable P b t) {y : Leaf} (h : Stands P b t st l x (y :: r))
    (pc : Bool) {fuel : Nat} (hfuel : t.subs.length + 2 ≤ fuel) :
    ∃ st', Stands P b t st' (l ++ [x]) y r ∧
      Cursor.advance P b fuel ⟨st, true, pc⟩ = .ok (some (Data.ofLeaf y)) ⟨st', true, false⟩ := by
  obtain ⟨C, i, pre, post, id, rest, hplug, hsees, hpath, rfl, rfl, hr⟩ := h
  cases post with
  | cons z post =>
    -- in the same leaf
    rw [List.cons_append, List.cons.injEq] at hr
    obtain ⟨rfl, rfl⟩ := hr
    have hstep : Cursor.stepForward P b fuel ⟨⟨pre.length, id⟩ :: rest, true, false⟩ =
        .ok true ⟨⟨pre.length + 1, id⟩ :: rest, true, false⟩ := by
      obtain ⟨fuel, rfl⟩ : ∃ m, fuel = m + 2 := ⟨fuel - 2, by omega⟩
      exact stepForward_on hb.alive hsees (by simp [NodeData.len]) _ (descendFirst_leaf hsees _)
    have hlist : (pre ++ [x]) ++ y :: post = pre ++ x :: y :: post := by simp
    have hst : Stands P b t (⟨pre.length + 1, id⟩ :: rest) (before C ++ pre ++ [x]) y
        (post ++ after C) :=
      ⟨C, i, pre ++ [x], post, id, rest, hlist ▸ hplug, hlist ▸ hsees, hlist ▸ hpath, by simp,
        by simp, rfl⟩
    exact ⟨_, hst, advance_step pc (List.cons_ne_nil _ _) hstep (current_stands hb hst true false)⟩
  | nil =>
    -- in the next leaf, which is not empty
    rw [List.nil_append] at hr
    have hlen : (nodeData (leaf i (pre ++ [x]))).len = pre.length + 1 := by simp [NodeData.len]
    rcases stepForward_up (j := pre.length) true false hb.alive (hplug ▸ hb.readable) hsees hpath
        (by rw [hlen]; omega) (by rw [hlen]) fuel (ctx_rounds hplug hfuel) with
      ⟨hnil, -⟩ | ⟨C', i', d', st', id', hplug', hsees', hpath', hchunks, hstep⟩
    · rw [← chunksAfter_flatten, hnil] at hr
      cases hr
    · have hd' : d' ≠ [] := (hb.sides hplug).2 d' (by rw [← hchunks]; simp)
      have hafter : d' ++ after C' = y :: r := by
        rw [hr, ← chunksAfter_flatten, ← chunksAfter_flatten, ← hchunks, List.flatten_cons]
      cases d' with
      | nil => exact absurd rfl hd'
      | cons z d' =>
        rw [List.cons_append, List.cons.injEq] at hafter
        obtain ⟨rfl, rfl⟩ := hafter
        have hplace := hplug'.trans hplug
        have hl : before C' = before C ++ pre ++ [x] := by
          have h1 : t.content = before C ++ (pre ++ [x]) ++ after C := by
            rw [← hplug, content_plug, content_leaf]
          have h2 : t.content = before C' ++ (z :: d') ++ after C' := by
            rw [← hplace, content_plug, content_leaf]
          rw [h2, ← hr, List.append_assoc] at h1
          simpa using List.append_cancel_right h1
        have hst : Stands P b t (⟨0, id'⟩ :: st') (before C ++ pre ++ [x]) z (d' ++ after C') :=
          ⟨C', i', [], d', id', st', hplace, hsees', hpath', rfl, by simp [hl], rfl⟩
        exact ⟨_, hst,
          advance_step pc (List.cons_ne_nil _ _) hstep (current_stands hb hst true false)⟩

/-- `next` after the last element. -/
theorem advance_last (hb : Traversable P b t) (h : Stands P b t st l x []) (pc : Bool)
    {fuel : Nat} (hfuel : t.subs.length + 2 ≤ fuel) :
    ∃ top, PastEnd P b t top ∧
      Cursor.advance P b fuel ⟨st, true, pc⟩ = .ok none ⟨top, true, false⟩ := by
  obtain ⟨C, i, pre, post, id, rest, hplug, hsees, hpath, rfl, rfl, hr⟩ := h
  obtain ⟨rfl, hafter⟩ := List.append_eq_nil_iff.mp hr.symm
  have hlen : (nodeData (leaf i (pre ++ [x]))).len = pre.length + 1 := by simp [NodeData.len]
  rcases stepForward_up (j := pre.length) true false hb.alive (hplug ▸ hb.readable) hsees hpath
      (by rw [hlen]; omega) (by rw [hlen]) fuel (ctx_rounds hplug hfuel) with
    ⟨-, top, hpast, hstep⟩ | ⟨C', i', d', st', id', -, -, -, hchunks, -⟩
  · exact ⟨top, hplug ▸ hpast, advance_end pc (List.cons_ne_nil _ _) hstep⟩
  · have hd' : d' ≠ [] := (hb.sides hplug).2 d' (by rw [← hchunks]; simp)
    rw [← chunksAfter_flatten, ← hchunks, List.flatten_cons, List.append_eq_nil_iff] at hafter
    exact absurd hafter.1 hd'

/-- A cursor past the end stays there. -/
theorem advance_pastEnd (hb : Traversable P b t) (h : PastEnd P b t st) (pc : Bool)
    {fuel : Nat} (hfuel : 0 < fuel) :
    Cursor.advance P b fuel ⟨st, true, pc⟩ = .ok none ⟨st, true, false⟩ := by
  obtain ⟨j, id, rfl, hsees, hpos, hj⟩ := h
  obtain ⟨fuel, rfl⟩ : ∃ m, fuel = m + 1 := ⟨fuel - 1, by omega⟩
  exact advance_end pc (List.cons_ne_nil _ _) (stepForward_end hb.alive hsees hpos hj fuel)

theorem advance_blank (hb : Traversable P b t) (h : Blank P b t st) (pc : Bool) (fuel : Nat) :
    Cursor.advance P b fuel ⟨st, false, pc⟩ = .ok none ⟨st, true, false⟩ := by
  have hst : st ≠ [] := by
    obtain ⟨i, id, -, -, rfl⟩ := h
    exact List.cons_ne_nil _ _
  exact advance_stay pc fuel hst (current_blank hb h true false)

/-- `next` once more on an empty root leaf computes `len() - 1`. -/
theorem advance_blank_again (hb : Traversable P b t) (h : Blank P b t st) (pc : Bool)
    {fuel : Nat} (hfuel : 0 < fuel) :
    Cursor.advance P b fuel ⟨st, true, pc⟩ =
      .error (.panic "attempt to subtract with overflow") ⟨st, true, false⟩ := by
  obtain ⟨i, id, rfl, ⟨pn, hpn, hd⟩, rfl⟩ := h
  obtain ⟨fuel, rfl⟩ : ∃ m, fuel = m + 1 := ⟨fuel - 1, by omega⟩
  have hlen : pn.len = 0 := len_of_leaves hd
  simp [Cursor.advance, Cursor.stepForward, estate_bind, hb.alive, hpn, hlen]

/-- `next` on a cursor without a stack goes to the first element, whatever its flags. -/
theorem advance_unset (hb : Traversable P b t) (nc pc : Bool) {fuel : Nat}
    (hfuel : t.subs.length + 2 ≤ fuel) :
    (∃ st, Blank P b t st ∧
      Cursor.advance P b fuel ⟨[], nc, pc⟩ = .ok none ⟨st, true, false⟩) ∨
    ∃ st x r, Stands P b t st [] x r ∧
      Cursor.advance P b fuel ⟨[], nc, pc⟩ = .ok (some (Data.ofLeaf x)) ⟨st, true, false⟩ := by
  obtain ⟨C, i, d, st, id, hplug, hsees, hpath, hchunks, hdesc⟩ :=
    descendFirst_to_leaf hb.readable (D := []) nc false hb.readable.sees
      (show AtPath P b [] [] t from trivial) fuel (by omega)
  rw [← hb.root] at hdesc
  have hplace : plug C (leaf i d) = t := hplug
  have hbefore : chunksBefore C = [] := by
    have h1 : t.chunks = chunksBefore C ++ [d] ++ chunksAfter C := by
      rw [← hplace, chunks_plug, chunks_leaf]
    have h2 : t.chunks = d :: chunksAfter C := by simpa [chunksAfter] using hchunks.symm
    have hlen := congrArg List.length (h1.symm.trans h2)
    simp only [List.length_append, List.length_cons, List.length_nil] at hlen
    exact List.eq_nil_of_length_eq_zero (by omega)
  cases d with
  | nil =>
    left
    obtain rfl : C = [] := by
      cases C with
      | nil => rfl
      | cons f C =>
        have hmem : ([] : List Leaf) ∈ t.chunks := by
          rw [← hplace, chunks_plug]; simp
        exact absurd rfl (hb.filled (hplace ▸ isLeaf_plug_cons f C _) [] hmem)
    obtain rfl : st = [] := by
      cases st with
      | nil => rfl
      | cons e st => exact absurd hpath (by simp [AtPath])
    subst hplace
    have hblank : Blank P b (leaf i []) [⟨0, id⟩] := ⟨i, id, rfl, hsees, rfl⟩
    exact ⟨_, hblank, advance_first pc hdesc (current_blank hb hblank true false)⟩
  | cons x d =>
    right
    have hb0 : before C = [] := by
      rw [← chunksBefore_flatten, hbefore]; rfl
    have hst : Stands P b t (⟨0, id⟩ :: st) [] x (d ++ after C) :=
      ⟨C, i, [], d, id, st, hplace, hsees, hpath, rfl, by simp [hb0], rfl⟩
    exact ⟨_, _, _, hst, advance_first pc hdesc (current_stands hb hst true false)⟩

/-- `next` on a fresh cursor goes to the first element. -/
theorem advance_new (hb : Traversable P b t) {fuel : Nat} (hfuel : t.subs.length + 2 ≤ fuel) :
    (∃ st, Blank P b t st ∧
      Cursor.advance P b fuel Cursor.new = .ok none ⟨st, true, false⟩) ∨
    ∃ st x r, Stands P b t st [] x r ∧
      Cursor.advance P b fuel Cursor.new = .ok (some (Data.ofLeaf x)) ⟨st, true, false⟩ :=
  advance_unset hb false false hfuel

/-! ## Backward -/

/-- `previous` on a cursor that was moved to an element answers it. -/
theorem previous_stands (hb : Traversable P b t) (h : Stands P b t st l x r) (nc : Bool)
    (fuel : Nat) :
    Cursor.previous P b fuel ⟨st, nc, false⟩ = .ok (some (Data.ofLeaf x)) ⟨st, false, true⟩ := by
  rw [previous_stay nc fuel h.ne_nil, current_stands hb h false true]
  rfl

/-- `previous` on a cursor whose element was answered goes to the element before. -/
theorem previous_on (hb : Traversable P b t) {y : Leaf} (h : Stands P b t st (l ++ [y]) x r)
    (nc : Bool) {fuel : Nat} (hfuel : t.subs.length + 2 ≤ fuel) :
    ∃ st', Stands P b t st' l y (x :: r) ∧
      Cursor.previous P b fuel ⟨st, nc, true⟩ = .ok (some (Data.ofLeaf y)) ⟨st', false, true⟩ := by
  obtain ⟨C, i, pre, post, id, rest, hplug, hsees, hpath, rfl, hl, rfl⟩ := h
  rcases List.eq_nil_or_concat' pre with rfl | ⟨pre, z, rfl⟩
  · -- in the leaf before, which is not empty
    rw [List.append_nil] at hl
    rcases stepBack_up id nc true (hplug ▸ hb.readable) hpath (hb.sides hplug).1 fuel
        (ctx_rounds hplug hfuel) with
      ⟨hnil, -⟩ | ⟨C', i', d', st', id', hplug', hsees', hpath', hd', hchunks, hstep⟩
    · rw [← chunksBefore_flatten, hnil] at hl
      simp at hl
    · obtain ⟨d', z, rfl⟩ := (List.eq_nil_or_concat' d').resolve_left hd'
      have hbefore : (before C' ++ d') ++ [z] = l ++ [y] := by
        rw [hl, ← chunksBefore_flatten, ← chunksBefore_flatten, ← hchunks, List.flatten_append]
        simp
      obtain ⟨rfl, hzy⟩ := List.append_inj' hbefore rfl
      obtain rfl : z = y := by simpa using hzy
      have hplace := hplug'.trans hplug
      have hr : after C' = x :: (post ++ after C) := by
        have h1 : t.content = before C ++ (x :: post) ++ after C := by
          rw [← hplug, content_plug, content_leaf, List.nil_append]
        have h2 : t.content = before C' ++ (d' ++ [z]) ++ after C' := by
          rw [← hplace, content_plug, content_leaf]
        rw [h2, ← hl, ← List.append_assoc (before C'), List.append_assoc (_ ++ [z])] at h1
        simpa using h1
      have hst : Stands P b t (⟨d'.length, id'⟩ :: st') (before C' ++ d') z
          (x :: (post ++ after C)) :=
        ⟨C', i', d', [], id', st', hplace, hsees', hpath', rfl, rfl, by rw [List.nil_append, hr]⟩
      have hcur := current_stands hb hst false true
      have hlen : (d' ++ [z]).length - 1 = d'.length := by simp
      rw [hlen] at hstep
      exact ⟨_, hst, previous_step nc (List.cons_ne_nil _ _) hstep hcur⟩
  · -- in the same leaf
    rw [← List.append_assoc] at hl
    obtain ⟨rfl, hzy⟩ := List.append_inj' hl rfl
    obtain rfl : y = z := by simpa using hzy
    have hlist : pre ++ y :: x :: post = (pre ++ [y]) ++ x :: post := by simp
    have hst : Stands P b t (⟨pre.length, id⟩ :: rest) (before C ++ pre) y
        (x :: (post ++ after C)) :=
      ⟨C, i, pre, x :: post, id, rest, hlist ▸ hplug, hlist ▸ hsees, hlist ▸ hpath, rfl, rfl, rfl⟩
    obtain ⟨fuel, rfl⟩ : ∃ m, fuel = m + 1 := ⟨fuel - 1, by omega⟩
    have hstep := stepBack_leaf (j := pre.length) rest nc true hsees fuel
    rw [List.length_append, List.length_singleton]
    exact ⟨_, hst, previous_step nc (List.cons_ne_nil _ _) hstep (current_stands hb hst false true)⟩

/-- `previous` before the first element. -/
theorem previous_first (hb : Traversable P b t) (h : Stands P b t st [] x r) (nc : Bool)
    {fuel : Nat} (hfuel : t.subs.length + 2 ≤ fuel) :
    Cursor.previous P b fuel ⟨st, nc, true⟩ = .ok none ⟨[], nc, true⟩ := by
  obtain ⟨C, i, pre, post, id, rest, hplug, hsees, hpath, rfl, hl, rfl⟩ := h
  obtain ⟨hbefore, rfl⟩ := List.append_eq_nil_iff.mp hl.symm
  rcases stepBack_up id nc true (hplug ▸ hb.readable) hpath (hb.sides hplug).1 fuel
      (ctx_rounds hplug hfuel) with
    ⟨-, hstep⟩ | ⟨C', i', d', st', id', -, -, -, hd', hchunks, -⟩
  · exact previous_end nc (List.cons_ne_nil _ _) hstep
  · rw [← chunksBefore_flatten, ← hchunks, List.flatten_append, List.append_eq_nil_iff] at hbefore
    exact absurd (by simpa using hbefore.2) hd'

theorem previous_blank (hb : Traversable P b t) (h : Blank P b t st) (nc : Bool) (fuel : Nat) :
    Cursor.previous P b fuel ⟨st, nc, false⟩ = .ok none ⟨st, false, true⟩ := by
  have hst : st ≠ [] := by
    obtain ⟨i, id, -, -, rfl⟩ := h
    exact List.cons_ne_nil _ _
  rw [previous_stay nc fuel hst, current_blank hb h false true]
  rfl

/-! ## Seeking -/

/-- Where `seek` leaves the cut: at the key, at the greatest smaller key, or at the first
element when there is no smaller one. -/
inductive Sought (k : Bytes) (l : List Leaf) (x : Leaf) (r : List Leaf) : Prop
  | here (key : x.key = k)
  | below (key : x.key < k) (above : ∀ y ∈ r, k < y.key)
  | first (none : l = []) (key : k < x.key)

/-- `seek` on any cursor. -/
theorem seek_stands (hb : Traversable P b t) (k : Bytes) (c : Cursor) {fuel : Nat}
    (hfuel : t.subs.length ≤ fuel) :
    ∃ st links, Traversable P (withParents b links) t ∧
      Cursor.seek P fuel k (c, b) =
        .ok (entryAt k t.content).isSome (⟨st, false, false⟩, withParents b links) ∧
      (Blank P (withParents b links) t st ∨
        ∃ l x r, Stands P (withParents b links) t st l x r ∧ Sought k l x r) := by
  obtain ⟨C, i, d, stack, hdesc, hseek⟩ :=
    seek_readable (k := k) hb.alive hb.readable hb.root c fuel hfuel
  have hsorted := hdesc.sorted hb.readable
  have hexact : (leafIndex d k).2 = (entryAt k t.content).isSome := by
    rw [hdesc.entryAt, Bool.eq_iff_iff]
    exact (leafIndex_entryAt hsorted k).1
  rw [hexact] at hseek
  have hsees := hdesc.sees hb.readable
  obtain ⟨pn, hpn, hpd⟩ := hsees
  obtain ⟨hplug, hgap, habove, hpath⟩ := hdesc
  have hb' := hb.withParents (parentLinks C i.page ++ b.pageParents)
  have hsees : Sees P (withParents b (parentLinks C i.page ++ b.pageParents)) i.nodeId
      (leaf i d) := ⟨pn, by rw [pageNode_withParents]; exact hpn, hpd⟩
  have hpath' := hpath.withParents (parentLinks C i.page ++ b.pageParents)
  refine ⟨_, _, hb', hseek, ?_⟩
  -- the stack leads to the element at the answered index
  have hstands : ∀ {pre x post}, d = pre ++ x :: post → (leafIndex d k).1 = pre.length →
      Stands P (withParents b (parentLinks C i.page ++ b.pageParents)) t
        (⟨(leafIndex d k).1, i.nodeId⟩ :: stack) (before C ++ pre) x (post ++ after C) := by
    intro pre x post hd hj
    subst hd
    exact ⟨C, i, pre, post, i.nodeId, stack, hplug, hsees, hpath', by rw [hj], rfl, rfl⟩
  rcases leafIndex_cases hsorted k with
    ⟨below, x, above, hd, hx, hlow, hhigh, hpos⟩ | ⟨below, above, hd, hlow, hhigh, hpos⟩
  · exact .inr ⟨_, x, _, hstands hd (by rw [hpos]), .here hx⟩
  · rcases List.eq_nil_or_concat' below with rfl | ⟨below, y, rfl⟩
    · cases above with
      | nil =>
        left
        obtain rfl : d = [] := hd
        have hne : (plug C (leaf i [])).isLeaf = false →
            ∀ d ∈ (plug C (leaf i [])).chunks, d ≠ [] := by
          rw [hplug]
          exact hb.filled
        obtain rfl := place_of_empty hne
        obtain rfl : stack = [] := by
          cases stack with
          | nil => rfl
          | cons e st => exact absurd hpath (by simp [AtPath])
        have hplug : leaf i [] = t := hplug
        subst hplug
        exact ⟨i, i.nodeId, rfl, hsees, by rw [hpos]; rfl⟩
      | cons a above =>
        -- nothing in the leaf is below the key, so nothing in the tree is
        have hnil : before C = [] :=
          (hplug ▸ hb.indexed).before_eq_nil (by rw [hd]; rfl) habove (hhigh a List.mem_cons_self)
        have hcut : d = [] ++ a :: above := hd
        refine .inr ⟨_, a, _, hstands hcut (by rw [hpos]; rfl), .first ?_ ?_⟩
        · rw [hnil, List.nil_append]
        · exact hhigh a List.mem_cons_self
    · have hd' : d = below ++ y :: above := by rw [hd]; simp
      refine .inr ⟨_, y, _, hstands hd' (by rw [hpos]; simp), .below ?_ ?_⟩
      · exact hlow y (by simp)
      · exact List.forall_mem_append.mpr ⟨hhigh, hgap.content.2⟩

/-! ## Whole iterations -/

/-- What a cursor is about to answer, going forward. -/
def AboutTo (P : Pages) (b : InnerBucket) (t : NodeTree) (fuel : Nat) (c : Cursor) :
    List Leaf → Prop
  | [] => ∃ top, (PastEnd P b t top ∨ Blank P b t top) ∧
      Cursor.advance P b fuel c = .ok none ⟨top, true, false⟩
  | y :: r => ∃ st l, Stands P b t st l y r ∧
      Cursor.advance P b fuel c = .ok (some (Data.ofLeaf y)) ⟨st, true, false⟩

variable {fuel : Nat}

theorem Stands.aboutTo (h : Stands P b t st l x r) (hb : Traversable P b t) (pc : Bool) :
    AboutTo P b t fuel ⟨st, false, pc⟩ (x :: r) :=
  ⟨st, l, h, advance_stands hb h pc fuel⟩

theorem Blank.aboutTo (h : Blank P b t st) (hb : Traversable P b t) (pc : Bool) :
    AboutTo P b t fuel ⟨st, false, pc⟩ [] :=
  ⟨st, .inr h, advance_blank hb h pc fuel⟩

theorem Stands.aboutTo_rest (h : Stands P b t st l x r) (hb : Traversable P b t)
    (hfuel : t.subs.length + 2 ≤ fuel) (pc : Bool) : AboutTo P b t fuel ⟨st, true, pc⟩ r := by
  cases r with
  | nil =>
    obtain ⟨top, hpast, hadv⟩ := advance_last hb h pc hfuel
    exact ⟨top, .inl hpast, hadv⟩
  | cons y r =>
    obtain ⟨st', hst', hadv⟩ := advance_on hb h pc hfuel
    exact ⟨st', _, hst', hadv⟩

theorem aboutTo_new (hb : Traversable P b t) (hfuel : t.subs.length + 2 ≤ fuel) :
    AboutTo P b t fuel Cursor.new t.content := by
  rcases advance_new hb hfuel with ⟨st, hblank, hadv⟩ | ⟨st, x, r, hst, hadv⟩
  · rw [hblank.content]
    exact ⟨st, .inr hblank, hadv⟩
  · rw [hst.content]
    exact ⟨st, [], hst, hadv⟩

/-- What `next` yields until its first `None`. -/
theorem AboutTo.yields (hb : Traversable P b t) (hfuel : t.subs.length + 2 ≤ fuel) {c : Cursor}
    (h : AboutTo P b t fuel c r) :
    ∃ top, (PastEnd P b t top ∨ Blank P b t top) ∧
      Yields (Cursor.advance P b fuel) c (r.map Data.ofLeaf) ⟨top, true, false⟩ := by
  induction r generalizing c with
  | nil =>
    obtain ⟨top, htop, hadv⟩ := h
    exact ⟨top, htop, .done hadv⟩
  | cons y r ih =>
    obtain ⟨st, l, hst, hadv⟩ := h
    obtain ⟨top, htop, hrest⟩ := ih (hst.aboutTo_rest hb hfuel false)
    exact ⟨top, htop, .more hadv hrest⟩

/-- What `previous` yields until its first `None`. -/
theorem Stands.yields_back (h : Stands P b t st l x r) (hb : Traversable P b t)
    (hfuel : t.subs.length + 2 ≤ fuel) (nc : Bool) :
    ∃ c, Yields (Cursor.previous P b fuel) ⟨st, nc, true⟩ (l.reverse.map Data.ofLeaf) c := by
  induction l using List.reverseRecOn generalizing st x r nc with
  | nil => exact ⟨_, .done (previous_first hb h nc hfuel)⟩
  | append_singleton l y ih =>
    obtain ⟨st', hst', hprev⟩ := previous_on hb h nc hfuel
    obtain ⟨c, hrest⟩ := ih hst' false
    rw [List.reverse_append, List.reverse_singleton, List.singleton_append, List.map_cons]
    exact ⟨c, .more hprev hrest⟩

/-- A cursor that `next` takes over the entries `r`. -/
inductive Ahead (P : Pages) (b : InnerBucket) (t : NodeTree) : Cursor → List Leaf → Prop
  | new : Ahead P b t Cursor.new t.content
  | moved {st : List SearchPath} {l : List Leaf} {x : Leaf} {r : List Leaf} (pc : Bool)
      (place : Stands P b t st l x r) :
      Ahead P b t ⟨st, false, pc⟩ (x :: r)
  | answered {st : List SearchPath} {l : List Leaf} {x : Leaf} {r : List Leaf} (pc : Bool)
      (place : Stands P b t st l x r) : Ahead P b t ⟨st, true, pc⟩ r
  | blank {st : List SearchPath} (pc : Bool) (place : Blank P b t st) :
      Ahead P b t ⟨st, false, pc⟩ []

/-- A cursor that `previous` takes over the entries `l`. -/
inductive Behind (P : Pages) (b : InnerBucket) (t : NodeTree) : Cursor → List Leaf → Prop
  | moved {st : List SearchPath} {l : List Leaf} {x : Leaf} {r : List Leaf} (nc : Bool)
      (place : Stands P b t st l x r) :
      Behind P b t ⟨st, nc, false⟩ (x :: l.reverse)
  | answered {st : List SearchPath} {l : List Leaf} {x : Leaf} {r : List Leaf} (nc : Bool)
      (place : Stands P b t st l x r) :
      Behind P b t ⟨st, nc, true⟩ l.reverse
  | blank {st : List SearchPath} (nc : Bool) (place : Blank P b t st) :
      Behind P b t ⟨st, nc, false⟩ []

theorem Ahead.congr {b' : InnerBucket} (hsame : ∀ id, b'.pageNode P id = b.pageNode P id)
    {c : Cursor} (h : Ahead P b t c r) : Ahead P b' t c r := by
  cases h with
  | new => exact .new
  | moved pc place => exact .moved pc (place.congr hsame)
  | answered pc place => exact .answered pc (place.congr hsame)
  | blank pc place => exact .blank pc (place.congr hsame)

theorem Behind.congr {b' : InnerBucket} (hsame : ∀ id, b'.pageNode P id = b.pageNode P id)
    {c : Cursor} (h : Behind P b t c l) : Behind P b' t c l := by
  cases h with
  | moved nc place => exact .moved nc (place.congr hsame)
  | answered nc place => exact .answered nc (place.congr hsame)
  | blank nc place => exact .blank nc (place.congr hsame)

theorem Ahead.length_le {c : Cursor} (h : Ahead P b t c r) : r.length ≤ t.content.length := by
  cases h with
  | new => exact le_rfl
  | moved pc place =>
    rw [place.content, List.length_append]
    omega
  | answered pc place =>
    rw [place.content, List.length_append, List.length_cons]
    omega
  | blank pc place => exact Nat.zero_le _

theorem Behind.length_le {c : Cursor} (h : Behind P b t c l) : l.length ≤ t.content.length := by
  cases h with
  | moved nc place =>
    rw [place.content, List.length_append, List.length_cons, List.length_cons, List.length_reverse]
    omega
  | answered nc place =>
    rw [place.content, List.length_append, List.length_reverse]
    omega
  | blank nc place => exact Nat.zero_le _

theorem Ahead.aboutTo (hb : Traversable P b t) (hfuel : t.subs.length + 2 ≤ fuel) {c : Cursor}
    (h : Ahead P b t c r) : AboutTo P b t fuel c r := by
  cases h with
  | new => exact aboutTo_new hb hfuel
  | moved pc place => exact place.aboutTo hb pc
  | answered pc place => exact place.aboutTo_rest hb hfuel pc
  | blank pc place => exact place.aboutTo hb pc

theorem Behind.yields (hb : Traversable P b t) (hfuel : t.subs.length + 2 ≤ fuel) {c : Cursor}
    (h : Behind P b t c l) :
    ∃ c', Yields (Cursor.previous P b fuel) c (l.map Data.ofLeaf) c' := by
  cases h with
  | moved nc place =>
    obtain ⟨c', hrest⟩ := place.yields_back hb hfuel false
    exact ⟨c', .more (previous_stands hb place nc fuel) hrest⟩
  | answered nc place => exact place.yields_back hb hfuel nc
  | blank nc place => exact ⟨_, .done (previous_blank hb place nc fuel)⟩

/-! ## Starting at a key -/

/-- The content from a key on. -/
def fromKey (k : Bytes) (content : List Leaf) : List Leaf :=
  content.dropWhile fun e => e.key < k

/-- The content after a key. -/
def afterKey (k : Bytes) (content : List Leaf) : List Leaf :=
  content.dropWhile fun e => e.key ≤ k

theorem afterKey_cut {k : Bytes} (hl : ∀ y ∈ l, y.key ≤ k) (hr : ∀ y ∈ r.head?, k < y.key) :
    afterKey k (l ++ r) = r := by
  rw [afterKey, List.dropWhile_append_of_pos (by simpa using hl)]
  cases r with
  | nil => rfl
  | cons y r => exact List.dropWhile_cons_of_neg (by simpa using hr y rfl)

theorem fromKey_cut {k : Bytes} (hl : ∀ y ∈ l, y.key < k) (hr : ∀ y ∈ r.head?, k ≤ y.key) :
    fromKey k (l ++ r) = r := by
  rw [fromKey, List.dropWhile_append_of_pos (by simpa using hl)]
  cases r with
  | nil => rfl
  | cons y r => exact List.dropWhile_cons_of_neg (by simpa using hr y rfl)

theorem Stands.split (h : Stands P b t st l x r) (hb : Traversable P b t) :
    (∀ y ∈ l, y.key < x.key) ∧ ∀ y ∈ r, x.key < y.key := by
  have hsorted := hb.sorted
  rw [h.content, SortedBy, List.pairwise_append, List.pairwise_cons] at hsorted
  exact ⟨fun y hy => hsorted.2.2 y hy x List.mem_cons_self, hsorted.2.1.1⟩

/-- What `seek` reports, and where the content from the key on begins. -/
theorem Stands.sought (h : Stands P b t st l x r) (hb : Traversable P b t) {k : Bytes}
    (hs : Sought k l x r) :
    (entryAt k t.content).isSome = decide (x.key = k) ∧
      fromKey k t.content = (if x.key < k then r else x :: r) ∧
      afterKey k t.content = if x.key ≤ k then r else x :: r := by
  obtain ⟨hl, hr⟩ := h.split hb
  rw [h.content]
  cases hs with
  | here hx =>
    subst hx
    have hfind : entryAt x.key (l ++ x :: r) = some x := by
      rw [entryAt_append_left fun a ha => (hl a ha).ne]
      simp [entryAt]
    have hle : ∀ y ∈ l ++ [x], y.key ≤ x.key := by
      simpa [or_imp, forall_and] using fun y hy => (hl y hy).le
    have hsplit : l ++ x :: r = (l ++ [x]) ++ r := by simp
    refine ⟨by rw [hfind]; simp, ?_, ?_⟩
    · rw [if_neg (lt_irrefl _), fromKey_cut hl (by simp)]
    · rw [if_pos le_rfl, hsplit, afterKey_cut hle fun y hy => hr y (List.mem_of_mem_head? hy)]
  | below hx habove =>
    have hsplit : l ++ x :: r = (l ++ [x]) ++ r := by simp
    have hlow : ∀ y ∈ l ++ [x], y.key < k := by
      simpa [or_imp, forall_and, hx] using fun y hy => (hl y hy).trans hx
    have hnone : entryAt k (l ++ x :: r) = none := by
      rw [hsplit, entryAt_append_left fun a ha => (hlow a ha).ne]
      exact entryAt_of_ne fun a ha => (habove a ha).ne'
    have hhead : ∀ y ∈ r.head?, k < y.key := fun y hy => habove y (List.mem_of_mem_head? hy)
    refine ⟨by rw [hnone]; simp [hx.ne], ?_, ?_⟩
    · rw [if_pos hx, hsplit, fromKey_cut hlow fun y hy => (hhead y hy).le]
    · rw [if_pos hx.le, hsplit, afterKey_cut (fun y hy => (hlow y hy).le) hhead]
  | first hnil hx =>
    subst hnil
    have hhigh : ∀ y ∈ x :: r, k < y.key := by
      simpa [hx] using fun y hy => hx.trans (hr y hy)
    have hnone : entryAt k ([] ++ x :: r) = none := entryAt_of_ne fun a ha => (hhigh a ha).ne'
    have hhead : ∀ y ∈ (x :: r).head?, k < y.key := fun y hy => hhigh y (List.mem_of_mem_head? hy)
    refine ⟨by rw [hnone]; simp [hx.ne'], ?_, ?_⟩
    · rw [if_neg hx.not_gt, fromKey_cut (by simp) fun y hy => (hhead y hy).le]
    · rw [if_neg hx.not_ge, afterKey_cut (by simp) hhead]

end Moves

end Tagdata.Analysis
