import Tagdata.Analysis.ReadPaths

/-!
# Cursors

A cursor visits the leaves of the tree in order.  The forward walk returns `None` at the
first leaf it finds empty, so what it yields is `scan` of the leaves: all of them exactly
when none is empty.  The backward walk is followed over trees without empty leaves; over a
tree whose last leaf is empty it panics.
-/

set_option autoImplicit false

namespace Tagdata.Analysis

open Tagdata.Library Tagdata.Library.SearchTree Tagdata.Model

/-- What a walk that stops at the first empty leaf yields. -/
def scan : List (List Leaf) → List Leaf
  | [] => []
  | d :: ds => if d.isEmpty then [] else d ++ scan ds

theorem scan_of_nonempty {ds : List (List Leaf)} (h : ∀ d ∈ ds, d ≠ []) :
    scan ds = ds.flatten := by
  induction ds with
  | nil => rfl
  | cons d ds ih =>
    obtain ⟨hd, hds⟩ := List.forall_mem_cons.mp h
    simp [scan, hd, ih hds]

/-- A walk that stops early misses something when the last leaf is not empty. -/
theorem scan_length_lt {ds : List (List Leaf)} {d : List Leaf} (hd : d ≠ [])
    (hempty : [] ∈ ds) : (scan (ds ++ [d])).length < (ds ++ [d]).flatten.length := by
  induction ds with
  | nil => simp at hempty
  | cons a ds ih =>
    have hpos : 0 < d.length := List.length_pos_iff.mpr hd
    by_cases ha : a = []
    · subst ha
      simp only [List.cons_append, scan, List.isEmpty_nil, if_true, List.length_nil,
        List.flatten_cons, List.nil_append, List.flatten_append, List.length_append,
        List.flatten_nil, List.append_nil]
      omega
    · have hmem : [] ∈ ds := by simpa [Ne.symm ha] using hempty
      have ih := ih hmem
      simp only [List.cons_append, scan, List.isEmpty_iff, ha, if_false, List.length_append,
        List.flatten_cons]
      omega

section Walk

variable {P : Pages} {b : InnerBucket}

/-! ## Single steps -/

theorem descendFirst_leaf {id : PageNodeID} {i : Info} {d : List Leaf} {j : Nat}
    {st : List SearchPath} {nc pc : Bool} (h : Sees P b id (leaf i d)) (fuel : Nat) :
    Cursor.descendFirst P b (fuel + 1) ⟨⟨j, id⟩ :: st, nc, pc⟩ =
      .ok () ⟨⟨j, id⟩ :: st, nc, pc⟩ := by
  obtain ⟨pn, hpn, hd⟩ := h
  simp [Cursor.descendFirst, estate_bind, hpn, leaf_of_leaves hd]

theorem descendFirst_branch {id : PageNodeID} {i : Info} {pre post : Kids}
    {e : Bytes × NodeTree} (st : List SearchPath) (nc pc : Bool)
    (h : Sees P b id (branch i (pre ++ e :: post))) (fuel : Nat) :
    Cursor.descendFirst P b (fuel + 1) ⟨⟨pre.length, id⟩ :: st, nc, pc⟩ =
      Cursor.descendFirst P b fuel
        ⟨⟨0, .page e.2.info.page⟩ :: ⟨pre.length, id⟩ :: st, nc, pc⟩ := by
  obtain ⟨pn, hpn, hd⟩ := h
  have hlen : ¬ pn.len = 0 := by rw [len_of_branches hd]; simp
  rw [Cursor.descendFirst]
  simp [estate_bind, hpn, leaf_of_branches hd, hlen, indexPage_of_branches hd]

/-- `seek_first` below the top of the stack reaches the first leaf there. -/
theorem descendFirst_to_leaf {u : NodeTree} (hu : Readable P b u) :
    ∀ {D : TreeCtx} {st : List SearchPath} {id : PageNodeID} (nc pc : Bool),
      Sees P b id u → AtPath P b st D u → ∀ fuel, u.subs.length ≤ fuel →
      ∃ C i d st' id', plug C (leaf i d) = plug D u ∧ Sees P b id' (leaf i d) ∧
        AtPath P b st' C (leaf i d) ∧ d :: chunksAfter C = u.chunks ++ chunksAfter D ∧
        Cursor.descendFirst P b fuel ⟨⟨0, id⟩ :: st, nc, pc⟩ =
          .ok () ⟨⟨0, id'⟩ :: st', nc, pc⟩ := by
  induction u using SearchTree.induct with
  | leaf i d =>
    intro D st id nc pc hsees hpath fuel hfuel
    obtain ⟨fuel, rfl⟩ : ∃ n, fuel = n + 1 := ⟨fuel - 1, by simp at hfuel; omega⟩
    exact ⟨D, i, d, st, id, rfl, hsees, hpath, by simp, descendFirst_leaf hsees fuel⟩
  | branch i ks ih =>
    intro D st id nc pc hsees hpath fuel hfuel
    obtain ⟨fuel, rfl⟩ : ∃ n, fuel = n + 1 := ⟨fuel - 1, by simp at hfuel; omega⟩
    cases ks with
    | nil => exact absurd rfl (hu.bushy _ (self_mem_subs _) rfl)
    | cons e post =>
      have he : e ∈ e :: post := List.mem_cons_self
      have hkid := hu.sub (kid_mem_subs (t := branch i (e :: post)) he)
      have hfuel' : e.2.subs.length ≤ fuel := by
        simp only [subs_branch, List.flatMap_cons, List.length_cons, List.length_append] at hfuel
        omega
      have hpath' : AtPath P b (⟨0, id⟩ :: st) (⟨i, [], e.1, post⟩ :: D) e.2 :=
        ⟨rfl, hsees, hpath⟩
      obtain ⟨C, i', d, st', id', hplug, hsees', hat, hchunks, hrun⟩ :=
        ih e he hkid nc pc hkid.sees hpath' fuel hfuel'
      refine ⟨C, i', d, st', id', hplug, hsees', hat, ?_, ?_⟩
      · rw [hchunks, chunksAfter, chunks_branch, List.flatMap_cons, List.append_assoc]
      · have hsees' : Sees P b id (branch i ([] ++ e :: post)) := hsees
        exact (descendFirst_branch st nc pc hsees' fuel).trans hrun

theorem stepForward_pop {id : PageNodeID} {u : NodeTree} {j : Nat} (e : SearchPath)
    (st : List SearchPath) (nc pc : Bool) (hdel : b.deleted = false) (h : Sees P b id u)
    (hpos : 0 < (nodeData u).len) (hj : (nodeData u).len ≤ j + 1) (fuel : Nat) :
    Cursor.stepForward P b (fuel + 1) ⟨⟨j, id⟩ :: e :: st, nc, pc⟩ =
      Cursor.stepForward P b fuel ⟨e :: st, nc, pc⟩ := by
  obtain ⟨pn, hpn, hd⟩ := h
  have hlen : pn.len = (nodeData u).len := by simp [PageNode.len, hd]
  have h0 : ¬ pn.len = 0 := by omega
  have h1 : pn.len ≤ j + 1 := by omega
  rw [Cursor.stepForward]
  simp [estate_bind, hdel, hpn, h0, h1]

theorem stepForward_end {id : PageNodeID} {u : NodeTree} {j : Nat} {nc pc : Bool}
    (hdel : b.deleted = false) (h : Sees P b id u) (hpos : 0 < (nodeData u).len)
    (hj : (nodeData u).len ≤ j + 1) (fuel : Nat) :
    Cursor.stepForward P b (fuel + 1) ⟨[⟨j, id⟩], nc, pc⟩ = .ok false ⟨[⟨j, id⟩], nc, pc⟩ := by
  obtain ⟨pn, hpn, hd⟩ := h
  have hlen : pn.len = (nodeData u).len := by simp [PageNode.len, hd]
  have h0 : ¬ pn.len = 0 := by omega
  have h1 : pn.len ≤ j + 1 := by omega
  rw [Cursor.stepForward]
  simp [estate_bind, hdel, hpn, h0, h1]

theorem stepForward_on {id : PageNodeID} {u : NodeTree} {j : Nat} {st : List SearchPath}
    {nc pc : Bool} (hdel : b.deleted = false) (h : Sees P b id u)
    (hj : j + 1 < (nodeData u).len) {c : Cursor} (fuel : Nat)
    (hrun : Cursor.descendFirst P b fuel ⟨⟨j + 1, id⟩ :: st, nc, pc⟩ = .ok () c) :
    Cursor.stepForward P b (fuel + 1) ⟨⟨j, id⟩ :: st, nc, pc⟩ = .ok true c := by
  obtain ⟨pn, hpn, hd⟩ := h
  have hlen : pn.len = (nodeData u).len := by simp [PageNode.len, hd]
  have h0 : ¬ pn.len = 0 := by omega
  have h1 : ¬ pn.len ≤ j + 1 := by omega
  rw [Cursor.stepForward]
  simp [estate_bind, estate_map, hdel, hpn, h0, h1, Cursor.seekFirst, hrun]

theorem nodeData_branch_len (i : Info) (ks : Kids) : (nodeData (branch i ks)).len = ks.length := by
  simp [branchData, NodeData.len, tags]

/-- A stack whose only step is the last one of the root. -/
def PastEnd (P : Pages) (b : InnerBucket) (t : NodeTree) (st : List SearchPath) : Prop :=
  ∃ j id, st = [⟨j, id⟩] ∧ Sees P b id t ∧ 0 < (nodeData t).len ∧ (nodeData t).len ≤ j + 1

/-- From an exhausted node the forward step goes to the next leaf, or ends. -/
theorem stepForward_up {C : TreeCtx} :
    ∀ {u : NodeTree} {st : List SearchPath} {id : PageNodeID} {j : Nat} (nc pc : Bool),
      b.deleted = false → Readable P b (plug C u) → Sees P b id u → AtPath P b st C u →
      0 < (nodeData u).len → (nodeData u).len ≤ j + 1 →
      ∀ fuel, (ctxInfos C).length + 2 ≤ fuel →
      (chunksAfter C = [] ∧ ∃ top, PastEnd P b (plug C u) top ∧
        Cursor.stepForward P b fuel ⟨⟨j, id⟩ :: st, nc, pc⟩ = .ok false ⟨top, nc, pc⟩) ∨
      ∃ C' i d st' id', plug C' (leaf i d) = plug C u ∧ Sees P b id' (leaf i d) ∧
        AtPath P b st' C' (leaf i d) ∧ d :: chunksAfter C' = chunksAfter C ∧
        Cursor.stepForward P b fuel ⟨⟨j, id⟩ :: st, nc, pc⟩ =
          .ok true ⟨⟨0, id'⟩ :: st', nc, pc⟩ := by
  induction C with
  | nil =>
    intro u st id j nc pc hdel hread hsees hpath hpos hj fuel hfuel
    obtain ⟨fuel, rfl⟩ : ∃ n, fuel = n + 1 := ⟨fuel - 1, by omega⟩
    cases st with
    | nil =>
      exact .inl ⟨rfl, _, ⟨j, id, rfl, hsees, hpos, hj⟩, stepForward_end hdel hsees hpos hj fuel⟩
    | cons e st => exact absurd hpath (by simp [AtPath])
  | cons f C ih =>
    intro u st id j nc pc hdel hread hsees hpath hpos hj fuel hfuel
    cases st with
    | nil => exact absurd hpath (by simp [AtPath])
    | cons e st =>
      obtain ⟨heidx, hesees, hpath'⟩ := hpath
      obtain ⟨fuel, rfl⟩ : ∃ n, fuel = n + 1 := ⟨fuel - 1, by omega⟩
      rw [stepForward_pop e st nc pc hdel hsees hpos hj fuel]
      obtain ⟨ej, eid⟩ := e
      obtain rfl : ej = f.pre.length := heidx
      have hlen : (nodeData (f.fill u)).len = f.pre.length + 1 + f.post.length := by
        rw [Frame.fill, nodeData_branch_len]; simp; omega
      have hfuelC : (ctxInfos C).length + 2 ≤ fuel := by
        rw [ctxInfos_cons] at hfuel
        simp only [List.length_append, List.length_cons] at hfuel
        omega
      cases hpost : f.post with
      | nil =>
        -- the branch above is exhausted as well
        have hstep := ih (j := f.pre.length) nc pc hdel hread hesees hpath' (by rw [hlen]; omega)
          (by rw [hlen, hpost]; simp) fuel hfuelC
        have hafter : chunksAfter (f :: C) = chunksAfter C := by simp [chunksAfter, hpost]
        rw [hafter]
        exact hstep
      | cons a post =>
        -- the branch above has a next child: descend to its first leaf
        right
        have hbranch : f.fill u = branch f.info ((f.pre ++ [(f.key, u)]) ++ a :: post) := by
          simp [Frame.fill, hpost]
        have ha : a.2 ∈ (plug C (f.fill u)).subs := by
          refine subs_trans ?_ (mem_subs_plug C (f.fill u))
          exact kid_mem_subs (e := a) (by simp [Frame.fill, hpost])
        have hkid := hread.sub ha
        obtain ⟨fuel, rfl⟩ : ∃ n, fuel = n + 2 := ⟨fuel - 2, by omega⟩
        have hfuel' : a.2.subs.length ≤ fuel := by
          have hmem : a ∈ f.sides := by simp [Frame.sides, hpost]
          have hle : a.2.infos.length ≤ (f.sides.flatMap fun e => e.2.infos).length :=
            length_infos_le hmem
          have hsubs : a.2.infos.length = a.2.subs.length := by simp [infos]
          rw [ctxInfos_cons] at hfuel
          simp only [List.length_append, List.length_cons] at hfuel
          omega
        have hpath'' : AtPath P b (⟨f.pre.length + 1, eid⟩ :: st)
            (⟨f.info, f.pre ++ [(f.key, u)], a.1, post⟩ :: C) a.2 := by
          refine ⟨by simp, ?_, ?_⟩
          · simpa [Frame.fill, hpost] using hesees
          · simpa [Frame.fill, hpost] using hpath'
        obtain ⟨C', i, d, st', id', hplug, hsees', hat, hchunks, hrun⟩ :=
          descendFirst_to_leaf hkid nc pc hkid.sees hpath'' fuel hfuel'
        refine ⟨C', i, d, st', id', ?_, hsees', hat, ?_, ?_⟩
        · rw [hplug]; simp [Frame.fill, hpost]
        · rw [hchunks]; simp [chunksAfter, hpost]
        · refine stepForward_on hdel hesees (by rw [hlen, hpost]; simp) (fuel + 1) ?_
          have hstep := descendFirst_branch st nc pc (hbranch ▸ hesees) fuel
          rw [List.length_append, List.length_singleton] at hstep
          exact hstep.trans hrun

/-! ## Walking forward -/

theorem current_at_leaf {id : PageNodeID} {i : Info} {d : List Leaf} (j : Nat)
    (st : List SearchPath) (nc pc : Bool) (hdel : b.deleted = false)
    (h : Sees P b id (leaf i d)) :
    Cursor.current P b ⟨⟨j, id⟩ :: st, nc, pc⟩ = .ok (d[j]?.map Data.ofLeaf) := by
  obtain ⟨pn, hpn, hd⟩ := h
  simp [Cursor.current, hdel, hpn, val_of_leaves hd]

theorem advance_step {st : List SearchPath} (pc : Bool) {c : Cursor} {r : Option Data} {fuel : Nat}
    (hst : st ≠ []) (hstep : Cursor.stepForward P b fuel ⟨st, true, false⟩ = .ok true c)
    (hcur : Cursor.current P b { c with nextCalled := true } = .ok r) :
    Cursor.advance P b fuel ⟨st, true, pc⟩ = .ok r { c with nextCalled := true } := by
  simp [Cursor.advance, estate_bind, hst, hstep, hcur]

theorem advance_end {st : List SearchPath} (pc : Bool) {c : Cursor} {fuel : Nat}
    (hst : st ≠ []) (hstep : Cursor.stepForward P b fuel ⟨st, true, false⟩ = .ok false c) :
    Cursor.advance P b fuel ⟨st, true, pc⟩ = .ok none c := by
  simp [Cursor.advance, estate_bind, hst, hstep]

theorem advance_stay {st : List SearchPath} (pc : Bool) {r : Option Data} (fuel : Nat)
    (hst : st ≠ []) (hcur : Cursor.current P b ⟨st, true, false⟩ = .ok r) :
    Cursor.advance P b fuel ⟨st, false, pc⟩ = .ok r ⟨st, true, false⟩ := by
  simp [Cursor.advance, estate_bind, hst, hcur]

theorem advance_first {nc : Bool} (pc : Bool) {c : Cursor} {r : Option Data} {fuel : Nat}
    (hdesc : Cursor.descendFirst P b fuel ⟨[⟨0, .page b.bucketMeta.rootPage⟩], nc, false⟩ =
      .ok () c)
    (hcur : Cursor.current P b { c with nextCalled := true } = .ok r) :
    Cursor.advance P b fuel ⟨[], nc, pc⟩ = .ok r { c with nextCalled := true } := by
  simp [Cursor.advance, Cursor.seekFirst, estate_bind, hdesc, hcur]

theorem collect_none {c c' : Cursor} {fuel : Nat} (n : Nat)
    (h : Cursor.advance P b fuel c = .ok none c') :
    Cursor.run (Cursor.collect P b fuel (n + 1)) c = .ok [] := by
  simp [Cursor.run, Cursor.collect, estate_bind, h]

theorem collect_some {c c' : Cursor} {fuel n : Nat} {d : Data} {ds : List Data}
    (h : Cursor.advance P b fuel c = .ok (some d) c')
    (hrest : Cursor.run (Cursor.collect P b fuel n) c' = .ok ds) :
    Cursor.run (Cursor.collect P b fuel (n + 1)) c = .ok (d :: ds) := by
  unfold Cursor.run at hrest ⊢
  rw [Cursor.collect, estate_bind, h]
  simp only [estate_bind]
  split at hrest
  · rename_i heq
    simp_all
  · simp at hrest

/-- Iterating from an element of a leaf yields what follows it, up to the first leaf found
empty. -/
theorem collect_from_leaf (hdel : b.deleted = false) {t : NodeTree} (ht : Readable P b t)
    {fuel : Nat} (hfuel : t.subs.length + 2 ≤ fuel) :
    ∀ (n : Nat) {C : TreeCtx} {i : Info} {d : List Leaf} {j : Nat} {id : PageNodeID}
      {st : List SearchPath} {pc : Bool},
      plug C (leaf i d) = t → Sees P b id (leaf i d) → AtPath P b st C (leaf i d) →
      j < d.length → (d.drop (j + 1) ++ scan (chunksAfter C)).length < n →
      Cursor.run (Cursor.collect P b fuel n) ⟨⟨j, id⟩ :: st, true, pc⟩ =
        .ok ((d.drop (j + 1) ++ scan (chunksAfter C)).map Data.ofLeaf) := by
  intro n
  induction n with
  | zero => intro C i d j id st pc _ _ _ _ hn; omega
  | succ n ih =>
    intro C i d j id st pc hplug hsees hpath hj hn
    by_cases hlast : j + 1 < d.length
    · -- the next element is in the same leaf
      have hstep : Cursor.stepForward P b fuel ⟨⟨j, id⟩ :: st, true, false⟩ =
          .ok true ⟨⟨j + 1, id⟩ :: st, true, false⟩ := by
        obtain ⟨fuel, rfl⟩ : ∃ m, fuel = m + 2 := ⟨fuel - 2, by omega⟩
        exact stepForward_on hdel hsees (by simpa [NodeData.len] using hlast) _
          (descendFirst_leaf hsees _)
      have hadv := advance_step pc (by simp) hstep (current_at_leaf _ _ _ _ hdel hsees)
      have hdrop : d.drop (j + 1) = d[j + 1] :: d.drop (j + 1 + 1) :=
        List.drop_eq_getElem_cons hlast
      rw [List.getElem?_eq_getElem hlast] at hadv
      rw [hdrop, List.cons_append] at hn ⊢
      exact collect_some hadv
        (ih hplug hsees hpath hlast (by rw [List.length_cons] at hn; omega))
    · -- the leaf is exhausted
      have hdrop : d.drop (j + 1) = [] := List.drop_eq_nil_of_le (by omega)
      have hlen : (nodeData (leaf i d)).len = d.length := rfl
      have hctx : (ctxInfos C).length + 2 ≤ fuel := by
        have hperm := (infos_plug C (leaf i d)).length_eq
        rw [hplug] at hperm
        simp only [infos, List.length_map, List.length_append] at hperm
        omega
      rw [hdrop, List.nil_append] at hn ⊢
      rcases stepForward_up (j := j) true false hdel (hplug ▸ ht) hsees hpath (by rw [hlen]; omega)
          (by rw [hlen]; omega) fuel hctx with
        ⟨hnil, top, -, hstep⟩ | ⟨C', i', d', st', id', hplug', hsees', hpath', hchunks, hstep⟩
      · rw [hnil]
        exact collect_none n (advance_end pc (by simp) hstep)
      · have hadv := advance_step pc (by simp) hstep (current_at_leaf _ _ _ _ hdel hsees')
        rw [← hchunks] at hn ⊢
        cases d' with
        | nil => exact collect_none n hadv
        | cons x d' =>
          simp only [scan, List.isEmpty_cons, Bool.false_eq_true, if_false, List.cons_append,
            List.map_cons, List.length_cons] at hn ⊢
          exact collect_some hadv
            (ih (j := 0) (hplug'.trans hplug) hsees' hpath' (by simp) (by simpa using hn))

/-- A fresh cursor yields the leaves up to the first empty one. -/
theorem collect_fresh (hdel : b.deleted = false) {t : NodeTree} (ht : Readable P b t)
    (hroot : b.bucketMeta.rootPage = t.info.page) {fuel n : Nat} (hfuel : t.subs.length + 2 ≤ fuel)
    (hn : (scan t.chunks).length < n) :
    Cursor.run (Cursor.collect P b fuel n) Cursor.new = .ok ((scan t.chunks).map Data.ofLeaf) := by
  obtain ⟨n, rfl⟩ : ∃ m, n = m + 1 := ⟨n - 1, by omega⟩
  obtain ⟨C, i, d, st, id, hplug, hsees, hpath, hchunks, hdesc⟩ :=
    descendFirst_to_leaf ht (D := []) false false ht.sees (show AtPath P b [] [] t from trivial)
      fuel (by omega)
  rw [← hroot] at hdesc
  have hadv := advance_first false hdesc (current_at_leaf _ _ _ _ hdel hsees)
  have hchunks : t.chunks = d :: chunksAfter C := by simpa [chunksAfter] using hchunks.symm
  rw [hchunks] at hn ⊢
  cases d with
  | nil => exact collect_none n hadv
  | cons x d =>
    simp only [scan, List.isEmpty_cons, Bool.false_eq_true, if_false, List.cons_append,
      List.map_cons, List.length_cons] at hn ⊢
    exact collect_some hadv
      (collect_from_leaf hdel ht hfuel n (j := 0) hplug hsees hpath (by simp) (by simpa using hn))

/-- Iterating from a place the cursor was moved to starts with the element there. -/
theorem collect_seeked (hdel : b.deleted = false) {t : NodeTree} (ht : Readable P b t)
    {C : TreeCtx} {i : Info} {d : List Leaf} {j : Nat} {id : PageNodeID} {st : List SearchPath}
    {pc : Bool} (hplug : plug C (leaf i d) = t) (hsees : Sees P b id (leaf i d))
    (hpath : AtPath P b st C (leaf i d)) (hj : j < d.length) {fuel n : Nat}
    (hfuel : t.subs.length + 2 ≤ fuel) (hn : (d.drop j ++ scan (chunksAfter C)).length < n) :
    Cursor.run (Cursor.collect P b fuel n) ⟨⟨j, id⟩ :: st, false, pc⟩ =
      .ok ((d.drop j ++ scan (chunksAfter C)).map Data.ofLeaf) := by
  obtain ⟨n, rfl⟩ : ∃ m, n = m + 1 := ⟨n - 1, by omega⟩
  have hadv := advance_stay pc fuel (List.cons_ne_nil _ _)
    (current_at_leaf j st true false hdel hsees)
  have hdrop : d.drop j = d[j] :: d.drop (j + 1) := List.drop_eq_getElem_cons hj
  rw [List.getElem?_eq_getElem hj] at hadv
  rw [hdrop, List.cons_append] at hn ⊢
  exact collect_some hadv (collect_from_leaf hdel ht hfuel n hplug hsees hpath hj
    (by rw [List.length_cons] at hn; omega))

/-! ## Walking backward -/

theorem descendLast_leaf {id : PageNodeID} {i : Info} {d : List Leaf} (st : List SearchPath)
    (nc pc : Bool) (h : Sees P b id (leaf i d)) (hd : d ≠ []) (fuel : Nat) :
    Cursor.descendLast P b (fuel + 1) id ⟨st, nc, pc⟩ =
      .ok true ⟨⟨d.length - 1, id⟩ :: st, nc, pc⟩ := by
  obtain ⟨pn, hpn, hdata⟩ := h
  simp [Cursor.descendLast, estate_bind, hpn, leaf_of_leaves hdata, len_of_leaves hdata, hd]

theorem descendLast_empty {id : PageNodeID} {i : Info} (st : List SearchPath) (nc pc : Bool)
    (h : Sees P b id (leaf i [])) (fuel : Nat) :
    Cursor.descendLast P b (fuel + 1) id ⟨st, nc, pc⟩ = .ok false ⟨st, nc, pc⟩ := by
  obtain ⟨pn, hpn, hdata⟩ := h
  simp [Cursor.descendLast, estate_bind, hpn, len_of_leaves hdata]

theorem descendLast_branch {id : PageNodeID} {i : Info} {pre : Kids} {e : Bytes × NodeTree}
    (st : List SearchPath) (nc pc : Bool) (h : Sees P b id (branch i (pre ++ [e]))) (fuel : Nat) :
    Cursor.descendLast P b (fuel + 1) id ⟨st, nc, pc⟩ =
      Cursor.descendLast P b fuel (.page e.2.info.page) ⟨⟨pre.length, id⟩ :: st, nc, pc⟩ := by
  obtain ⟨pn, hpn, hdata⟩ := h
  have hlen : pn.len = pre.length + 1 := by rw [len_of_branches hdata]; simp
  rw [Cursor.descendLast]
  simp [estate_bind, hpn, leaf_of_branches hdata, hlen, indexPage_of_branches hdata]

/-- The descent along last children reaches the last leaf, when it is not empty. -/
theorem descendLast_to_leaf {u : NodeTree} (hu : Readable P b u) :
    ∀ {D : TreeCtx} {st : List SearchPath} {id : PageNodeID} (nc pc : Bool),
      (∀ d ∈ u.chunks, d ≠ []) → Sees P b id u → AtPath P b st D u →
      ∀ fuel, u.subs.length ≤ fuel →
      ∃ C i d st' id', plug C (leaf i d) = plug D u ∧ Sees P b id' (leaf i d) ∧
        AtPath P b st' C (leaf i d) ∧ d ≠ [] ∧
        chunksBefore C ++ [d] = chunksBefore D ++ u.chunks ∧
        Cursor.descendLast P b fuel id ⟨st, nc, pc⟩ =
          .ok true ⟨⟨d.length - 1, id'⟩ :: st', nc, pc⟩ := by
  induction u using SearchTree.induct with
  | leaf i d =>
    intro D st id nc pc hne hsees hpath fuel hfuel
    obtain ⟨fuel, rfl⟩ : ∃ n, fuel = n + 1 := ⟨fuel - 1, by simp at hfuel; omega⟩
    have hd : d ≠ [] := hne d (by simp)
    exact ⟨D, i, d, st, id, rfl, hsees, hpath, hd, by simp, descendLast_leaf st nc pc hsees hd fuel⟩
  | branch i ks ih =>
    intro D st id nc pc hne hsees hpath fuel hfuel
    obtain ⟨fuel, rfl⟩ : ∃ n, fuel = n + 1 := ⟨fuel - 1, by simp at hfuel; omega⟩
    rcases List.eq_nil_or_concat' ks with rfl | ⟨pre, e, rfl⟩
    · exact absurd rfl (hu.bushy _ (self_mem_subs _) rfl)
    · have he : e ∈ pre ++ [e] := by simp
      have hkid := hu.sub (kid_mem_subs (t := branch i (pre ++ [e])) he)
      have hfuel' : e.2.subs.length ≤ fuel := by
        simp only [subs_branch, List.flatMap_append, List.flatMap_cons, List.flatMap_nil,
          List.append_nil, List.length_cons, List.length_append] at hfuel
        omega
      have hne' : ∀ d ∈ e.2.chunks, d ≠ [] := by
        intro d hd
        exact hne d (by simp [hd])
      have hpath' : AtPath P b (⟨pre.length, id⟩ :: st) (⟨i, pre, e.1, []⟩ :: D) e.2 :=
        ⟨rfl, hsees, hpath⟩
      obtain ⟨C, i', d, st', id', hplug, hsees', hat, hd, hchunks, hrun⟩ :=
        ih e he hkid nc pc hne' hkid.sees hpath' fuel hfuel'
      refine ⟨C, i', d, st', id', hplug, hsees', hat, hd, ?_, ?_⟩
      · rw [hchunks]; simp [chunksBefore]
      · exact (descendLast_branch st nc pc hsees fuel).trans hrun

/-- The descent along last children to an empty leaf leaves a branch on top of the stack. -/
theorem descendLast_stuck {u : NodeTree} (hu : Readable P b u) :
    ∀ (st : List SearchPath) {id : PageNodeID} (nc pc : Bool),
      u.chunks.getLast? = some [] → Sees P b id u → ∀ fuel, u.subs.length ≤ fuel →
      ∃ st', Cursor.descendLast P b fuel id ⟨st, nc, pc⟩ = .ok false ⟨st', nc, pc⟩ ∧
        (u.isLeaf = true → st' = st) ∧
        (u.isLeaf = false → ∃ e rest i ks, st' = e :: rest ∧ Sees P b e.id (branch i ks)) := by
  induction u using SearchTree.induct with
  | leaf i d =>
    intro st id nc pc hlast hsees fuel hfuel
    obtain ⟨fuel, rfl⟩ : ∃ n, fuel = n + 1 := ⟨fuel - 1, by simp at hfuel; omega⟩
    obtain rfl : d = [] := by simpa using hlast
    exact ⟨st, descendLast_empty st nc pc hsees fuel, fun _ => rfl, by simp⟩
  | branch i ks ih =>
    intro st id nc pc hlast hsees fuel hfuel
    obtain ⟨fuel, rfl⟩ : ∃ n, fuel = n + 1 := ⟨fuel - 1, by simp at hfuel; omega⟩
    rcases List.eq_nil_or_concat' ks with rfl | ⟨pre, e, rfl⟩
    · exact absurd rfl (hu.bushy _ (self_mem_subs _) rfl)
    · have he : e ∈ pre ++ [e] := by simp
      have hkid := hu.sub (kid_mem_subs (t := branch i (pre ++ [e])) he)
      have hfuel' : e.2.subs.length ≤ fuel := by
        simp only [subs_branch, List.flatMap_append, List.flatMap_cons, List.flatMap_nil,
          List.append_nil, List.length_cons, List.length_append] at hfuel
        omega
      have hlast' : e.2.chunks.getLast? = some [] := by
        have hne : e.2.chunks ≠ [] := chunks_ne_nil hkid.bushy
        simpa [List.getLast?_append, Option.or_of_isSome, hne] using hlast
      obtain ⟨st', hrun, hleaf, hbranch⟩ := ih e he hkid _ nc pc hlast' hkid.sees fuel hfuel'
      refine ⟨st', (descendLast_branch st nc pc hsees fuel).trans hrun, by simp, fun _ => ?_⟩
      cases hk : e.2.isLeaf with
      | true => exact ⟨⟨pre.length, id⟩, st, i, pre ++ [e], hleaf hk, hsees⟩
      | false => exact hbranch hk

theorem stepBack_pop {id : PageNodeID} (e : SearchPath) (st : List SearchPath) (nc pc : Bool)
    (fuel : Nat) :
    Cursor.stepBack P b (fuel + 1) ⟨⟨0, id⟩ :: e :: st, nc, pc⟩ =
      Cursor.stepBack P b fuel ⟨e :: st, nc, pc⟩ := by
  rw [Cursor.stepBack]
  simp [estate_bind]

theorem stepBack_end {id : PageNodeID} (nc pc : Bool) (fuel : Nat) :
    Cursor.stepBack P b (fuel + 1) ⟨[⟨0, id⟩], nc, pc⟩ = .ok false ⟨[], nc, pc⟩ := by
  rw [Cursor.stepBack]
  simp [estate_bind]

theorem stepBack_leaf {id : PageNodeID} {i : Info} {d : List Leaf} {j : Nat}
    (st : List SearchPath) (nc pc : Bool) (h : Sees P b id (leaf i d)) (fuel : Nat) :
    Cursor.stepBack P b (fuel + 1) ⟨⟨j + 1, id⟩ :: st, nc, pc⟩ =
      .ok true ⟨⟨j, id⟩ :: st, nc, pc⟩ := by
  obtain ⟨pn, hpn, hd⟩ := h
  rw [Cursor.stepBack]
  simp [estate_bind, hpn, leaf_of_leaves hd]

theorem stepBack_branch {id : PageNodeID} {i : Info} {pre post : Kids} {a : Bytes × NodeTree}
    (st : List SearchPath) (nc pc : Bool) (h : Sees P b id (branch i (pre ++ a :: post)))
    (fuel : Nat) :
    Cursor.stepBack P b (fuel + 1) ⟨⟨pre.length + 1, id⟩ :: st, nc, pc⟩ =
      Cursor.descendLast P b fuel (.page a.2.info.page) ⟨⟨pre.length, id⟩ :: st, nc, pc⟩ := by
  obtain ⟨pn, hpn, hd⟩ := h
  rw [Cursor.stepBack]
  simp [estate_bind, hpn, leaf_of_branches hd, indexPage_of_branches hd]

/-- From the first element of a node the backward step goes to the leaf before it, or ends. -/
theorem stepBack_up {C : TreeCtx} :
    ∀ {u : NodeTree} {st : List SearchPath} (id : PageNodeID) (nc pc : Bool),
      Readable P b (plug C u) → AtPath P b st C u → (∀ d ∈ chunksBefore C, d ≠ []) →
      ∀ fuel, (ctxInfos C).length + 2 ≤ fuel →
      (chunksBefore C = [] ∧
        Cursor.stepBack P b fuel ⟨⟨0, id⟩ :: st, nc, pc⟩ = .ok false ⟨[], nc, pc⟩) ∨
      ∃ C' i d st' id', plug C' (leaf i d) = plug C u ∧ Sees P b id' (leaf i d) ∧
        AtPath P b st' C' (leaf i d) ∧ d ≠ [] ∧ chunksBefore C' ++ [d] = chunksBefore C ∧
        Cursor.stepBack P b fuel ⟨⟨0, id⟩ :: st, nc, pc⟩ =
          .ok true ⟨⟨d.length - 1, id'⟩ :: st', nc, pc⟩ := by
  induction C with
  | nil =>
    intro u st id nc pc hread hpath hne fuel hfuel
    obtain ⟨fuel, rfl⟩ : ∃ n, fuel = n + 1 := ⟨fuel - 1, by omega⟩
    cases st with
    | nil => exact .inl ⟨rfl, stepBack_end nc pc fuel⟩
    | cons e st => exact absurd hpath (by simp [AtPath])
  | cons f C ih =>
    intro u st id nc pc hread hpath hne fuel hfuel
    cases st with
    | nil => exact absurd hpath (by simp [AtPath])
    | cons e st =>
      obtain ⟨heidx, hesees, hpath'⟩ := hpath
      obtain ⟨fuel, rfl⟩ : ∃ n, fuel = n + 1 := ⟨fuel - 1, by omega⟩
      rw [stepBack_pop e st nc pc fuel]
      obtain ⟨ej, eid⟩ := e
      obtain rfl : ej = f.pre.length := heidx
      have hneC : ∀ d ∈ chunksBefore C, d ≠ [] := fun d hd => hne d (by simp [chunksBefore, hd])
      have hfuelC : (ctxInfos C).length + 2 ≤ fuel := by
        rw [ctxInfos_cons] at hfuel
        simp only [List.length_append, List.length_cons] at hfuel
        omega
      rcases List.eq_nil_or_concat' f.pre with hpre | ⟨pre, a, hpre⟩
      · -- the branch above is at its first child as well
        have hstep := ih eid nc pc hread hpath' hneC fuel hfuelC
        have hbefore : chunksBefore (f :: C) = chunksBefore C := by simp [chunksBefore, hpre]
        rw [hbefore, hpre]
        exact hstep
      · -- the branch above has a child before: descend to its last leaf
        right
        have hbranch : f.fill u = branch f.info (pre ++ a :: (f.key, u) :: f.post) := by
          simp [Frame.fill, hpre]
        have ha : a.2 ∈ (plug C (f.fill u)).subs := by
          refine subs_trans ?_ (mem_subs_plug C (f.fill u))
          exact kid_mem_subs (e := a) (by simp [Frame.fill, hpre])
        have hkid := hread.sub ha
        obtain ⟨fuel, rfl⟩ : ∃ n, fuel = n + 1 := ⟨fuel - 1, by omega⟩
        have hfuel' : a.2.subs.length ≤ fuel := by
          have hmem : a ∈ f.sides := by simp [Frame.sides, hpre]
          have hle : a.2.infos.length ≤ (f.sides.flatMap fun e => e.2.infos).length :=
            length_infos_le hmem
          have hsubs : a.2.infos.length = a.2.subs.length := by simp [infos]
          rw [ctxInfos_cons] at hfuel
          simp only [List.length_append, List.length_cons] at hfuel
          omega
        have hnea : ∀ d ∈ a.2.chunks, d ≠ [] :=
          fun d hd => hne d (by simp [chunksBefore, hpre, hd])
        have hpath'' : AtPath P b (⟨pre.length, eid⟩ :: st)
            (⟨f.info, pre, a.1, (f.key, u) :: f.post⟩ :: C) a.2 := by
          refine ⟨rfl, ?_, ?_⟩
          · simpa [Frame.fill, hpre] using hesees
          · simpa [Frame.fill, hpre] using hpath'
        obtain ⟨C', i, d, st', id', hplug, hsees', hat, hd, hchunks, hrun⟩ :=
          descendLast_to_leaf hkid nc pc hnea hkid.sees hpath'' fuel hfuel'
        refine ⟨C', i, d, st', id', ?_, hsees', hat, hd, ?_, ?_⟩
        · rw [hplug]; simp [Frame.fill, hpre]
        · rw [hchunks]; simp [chunksBefore, hpre]
        · have hstep := stepBack_branch st nc pc (hbranch ▸ hesees) fuel
          rw [hpre, List.length_append, List.length_singleton]
          exact hstep.trans hrun

theorem previous_step {st : List SearchPath} (nc : Bool) {c : Cursor} {r : Option Data} {fuel : Nat}
    (hst : st ≠ []) (hstep : Cursor.stepBack P b fuel ⟨st, nc, true⟩ = .ok true c)
    (hcur : Cursor.current P b ⟨c.stack, false, true⟩ = .ok r) :
    Cursor.previous P b fuel ⟨st, nc, true⟩ = .ok r ⟨c.stack, false, true⟩ := by
  simp [Cursor.previous, estate_bind, hst, hstep, hcur]

theorem previous_end {st : List SearchPath} (nc : Bool) {c : Cursor} {fuel : Nat}
    (hst : st ≠ []) (hstep : Cursor.stepBack P b fuel ⟨st, nc, true⟩ = .ok false c) :
    Cursor.previous P b fuel ⟨st, nc, true⟩ = .ok none c := by
  simp [Cursor.previous, estate_bind, hst, hstep]

theorem previous_stay {st : List SearchPath} (nc : Bool) (fuel : Nat) (hst : st ≠ []) :
    Cursor.previous P b fuel ⟨st, nc, false⟩ =
      Model.ofExcept (Cursor.current P b ⟨st, false, true⟩) ⟨st, false, true⟩ := by
  simp [Cursor.previous, estate_bind, hst]

theorem collectBack_none {c c' : Cursor} {fuel : Nat} (n : Nat)
    (h : Cursor.previous P b fuel c = .ok none c') :
    Cursor.run (Cursor.collectBack P b fuel (n + 1)) c = .ok [] := by
  simp [Cursor.run, Cursor.collectBack, estate_bind, h]

theorem collectBack_some {c c' : Cursor} {fuel n : Nat} {d : Data} {ds : List Data}
    (h : Cursor.previous P b fuel c = .ok (some d) c')
    (hrest : Cursor.run (Cursor.collectBack P b fuel n) c' = .ok ds) :
    Cursor.run (Cursor.collectBack P b fuel (n + 1)) c = .ok (d :: ds) := by
  unfold Cursor.run at hrest ⊢
  rw [Cursor.collectBack, estate_bind, h]
  simp only [estate_bind]
  split at hrest
  · rename_i heq
    simp_all
  · simp at hrest

/-- Iterating backward from an element of a leaf yields what precedes it. -/
theorem collectBack_from_leaf (hdel : b.deleted = false) {t : NodeTree} (ht : Readable P b t)
    {fuel : Nat} (hfuel : t.subs.length + 2 ≤ fuel) :
    ∀ (n : Nat) {C : TreeCtx} {i : Info} {d : List Leaf} {j : Nat} {id : PageNodeID}
      {st : List SearchPath} {nc : Bool},
      plug C (leaf i d) = t → Sees P b id (leaf i d) → AtPath P b st C (leaf i d) →
      (∀ d ∈ chunksBefore C, d ≠ []) → j < d.length →
      ((chunksBefore C).flatten ++ d.take j).length < n →
      Cursor.run (Cursor.collectBack P b fuel n) ⟨⟨j, id⟩ :: st, nc, true⟩ =
        .ok (((chunksBefore C).flatten ++ d.take j).reverse.map Data.ofLeaf) := by
  intro n
  induction n with
  | zero => intro C i d j id st nc _ _ _ _ _ hn; omega
  | succ n ih =>
    intro C i d j id st nc hplug hsees hpath hne hj hn
    cases j with
    | succ j =>
      -- the element before is in the same leaf
      have hstep : Cursor.stepBack P b fuel ⟨⟨j + 1, id⟩ :: st, nc, true⟩ =
          .ok true ⟨⟨j, id⟩ :: st, nc, true⟩ := by
        obtain ⟨fuel, rfl⟩ : ∃ m, fuel = m + 1 := ⟨fuel - 1, by omega⟩
        exact stepBack_leaf st nc true hsees fuel
      have hj' : j < d.length := by omega
      have hprev := previous_step nc (by simp) hstep (current_at_leaf j st _ _ hdel hsees)
      rw [List.getElem?_eq_getElem hj'] at hprev
      have htake : d.take (j + 1) = d.take j ++ [d[j]] := (List.take_append_getElem hj').symm
      rw [htake, ← List.append_assoc, List.reverse_append]
      rw [htake, ← List.append_assoc, List.length_append, List.length_singleton] at hn
      exact collectBack_some hprev (ih hplug hsees hpath hne hj' (by omega))
    | zero =>
      -- the leaf is exhausted
      have hctx : (ctxInfos C).length + 2 ≤ fuel := by
        have hperm := (infos_plug C (leaf i d)).length_eq
        rw [hplug] at hperm
        simp only [infos, List.length_map, List.length_append] at hperm
        omega
      rw [List.take_zero, List.append_nil] at hn ⊢
      rcases stepBack_up id nc true (hplug ▸ ht) hpath hne fuel hctx with
        ⟨hnil, hstep⟩ | ⟨C', i', d', st', id', hplug', hsees', hpath', hd', hchunks, hstep⟩
      · rw [hnil]
        exact collectBack_none n (previous_end nc (by simp) hstep)
      · have hpos : 0 < d'.length := List.length_pos_iff.mpr hd'
        have hlast : d'.length - 1 < d'.length := by omega
        have hprev := previous_step nc (by simp) hstep (current_at_leaf _ _ _ _ hdel hsees')
        rw [List.getElem?_eq_getElem hlast] at hprev
        have htake : d' = d'.take (d'.length - 1) ++ [d'[d'.length - 1]] := by
          rw [List.take_append_getElem hlast, Nat.sub_add_cancel hpos, List.take_length]
        have hflat : (chunksBefore C).flatten =
            ((chunksBefore C').flatten ++ d'.take (d'.length - 1)) ++ [d'[d'.length - 1]] := by
          rw [← hchunks, List.flatten_append, List.append_assoc, ← htake]; simp
        have hne' : ∀ d ∈ chunksBefore C', d ≠ [] := fun d hd => hne d (by simp [← hchunks, hd])
        rw [hflat, List.reverse_append]
        rw [hflat, List.length_append] at hn
        exact collectBack_some hprev
          (ih (hplug'.trans hplug) hsees' hpath' hne' hlast (by simpa using hn))

/-- `seek_last` and `previous` yield the content backward when no leaf is empty. -/
theorem collectBack_seekLast (hdel : b.deleted = false) {t : NodeTree} (ht : Readable P b t)
    (hroot : b.bucketMeta.rootPage = t.info.page) (hne : ∀ d ∈ t.chunks, d ≠ []) (c : Cursor)
    {fuel n : Nat} (hfuel : t.subs.length + 2 ≤ fuel) (hn : t.content.length < n) :
    Cursor.run (do Cursor.seekLast P b fuel; Cursor.collectBack P b fuel n) c =
      .ok (t.content.reverse.map Data.ofLeaf) := by
  obtain ⟨n, rfl⟩ : ∃ m, n = m + 1 := ⟨n - 1, by omega⟩
  obtain ⟨C, i, d, st, id, hplug, hsees, hpath, hd, hchunks, hdesc⟩ :=
    descendLast_to_leaf ht (D := []) false false hne ht.sees
      (show AtPath P b [] [] t from trivial) fuel (by omega)
  rw [← hroot] at hdesc
  have hseek : Cursor.seekLast P b fuel c = .ok () ⟨⟨d.length - 1, id⟩ :: st, false, false⟩ := by
    simp [Cursor.seekLast, estate_bind, estate_map, hdesc]
  have hrun : Cursor.run (do Cursor.seekLast P b fuel; Cursor.collectBack P b fuel (n + 1)) c =
      Cursor.run (Cursor.collectBack P b fuel (n + 1))
        ⟨⟨d.length - 1, id⟩ :: st, false, false⟩ := by
    unfold Cursor.run
    rw [estate_bind_ok hseek]
  have hpos : 0 < d.length := List.length_pos_iff.mpr hd
  have hlast : d.length - 1 < d.length := by omega
  have hchunks : chunksBefore C ++ [d] = t.chunks := by simpa [chunksBefore] using hchunks
  have htake : d = d.take (d.length - 1) ++ [d[d.length - 1]] := by
    rw [List.take_append_getElem hlast, Nat.sub_add_cancel hpos, List.take_length]
  have hcontent : t.content =
      ((chunksBefore C).flatten ++ d.take (d.length - 1)) ++ [d[d.length - 1]] := by
    rw [← chunks_flatten, ← hchunks, List.flatten_append, List.append_assoc, ← htake]; simp
  have hprev : Cursor.previous P b fuel ⟨⟨d.length - 1, id⟩ :: st, false, false⟩ =
      .ok (some (Data.ofLeaf d[d.length - 1])) ⟨⟨d.length - 1, id⟩ :: st, false, true⟩ := by
    rw [previous_stay false fuel (by simp), current_at_leaf _ _ _ _ hdel hsees,
      List.getElem?_eq_getElem hlast]
    rfl
  have hne' : ∀ d ∈ chunksBefore C, d ≠ [] := fun d hd => hne d (by simp [← hchunks, hd])
  rw [hrun, hcontent, List.reverse_append]
  rw [hcontent, List.length_append] at hn
  exact collectBack_some hprev
    (collectBack_from_leaf hdel ht hfuel n hplug hsees hpath hne' hlast (by simpa using hn))

/-- `seek_last` and `previous` panic when the last leaf of several is empty. -/
theorem collectBack_panics (hdel : b.deleted = false) {t : NodeTree} (ht : Readable P b t)
    (hroot : b.bucketMeta.rootPage = t.info.page) (hbranch : t.isLeaf = false)
    (hlast : t.chunks.getLast? = some []) (c : Cursor) {fuel : Nat} (hfuel : t.subs.length ≤ fuel)
    (n : Nat) :
    ∃ pn : PageNode,
      Cursor.run (do Cursor.seekLast P b fuel; Cursor.collectBack P b fuel (n + 1)) c =
        .error (pn.invalidType "VAL") := by
  obtain ⟨st', hdesc, -, hb⟩ :=
    descendLast_stuck ht [] false false hlast ht.sees fuel hfuel
  obtain ⟨e, rest, i, ks, rfl, pn, hpn, hd⟩ := hb hbranch
  rw [← hroot] at hdesc
  have hseek : Cursor.seekLast P b fuel c = .ok () ⟨e :: rest, false, false⟩ := by
    simp [Cursor.seekLast, estate_bind, estate_map, hdesc]
  have hcur : Cursor.current P b ⟨e :: rest, false, true⟩ =
      .error (pn.invalidType "VAL") := by
    simp [Cursor.current, hdel, hpn, val_of_branches hd]
  have hprev : Cursor.previous P b fuel ⟨e :: rest, false, false⟩ =
      .error (pn.invalidType "VAL") ⟨e :: rest, false, true⟩ := by
    rw [previous_stay false fuel (by simp), hcur]
    rfl
  refine ⟨pn, ?_⟩
  unfold Cursor.run
  rw [estate_bind_ok hseek, Cursor.collectBack, estate_bind_error hprev]

end Walk

end Tagdata.Analysis
