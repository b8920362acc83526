import Tagdata.Library.Search
import Tagdata.Model.Freelist

/-!
# The freelist

The free pages are a set of numbers and `allocate` hands out the first run of consecutive
numbers in it.  A freelist that is written to its block and read back holds the same free pages
and, by transaction, the same pending pages in some other order; the order shows in no later
answer.
-/

set_option autoImplicit false

namespace Tagdata.Analysis

open Tagdata.Library Tagdata.Model

/-! ## Runs of consecutive numbers -/

section Scan

variable {S : Set Nat} {n : Nat}

/-- `n` consecutive numbers of a set, from `s` on. -/
def RunAt (S : Set Nat) (n s : Nat) : Prop := ∀ i, s ≤ i → i < s + n → i ∈ S

/-- What the scan of `allocate` knows: `rest` is what comes after `prev` in the set, the numbers
from `start` to `prev` are in it but are fewer than `n`, and no run of `n` begins before
`start`. -/
structure Scanning (S : Set Nat) (n start prev : Nat) (rest : List Nat) : Prop where
  sorted : rest.Pairwise (· < ·)
  rest : ∀ x, x ∈ rest ↔ x ∈ S ∧ prev < x
  block : prev ≠ 0 → start ≤ prev ∧ prev + 1 < start + n ∧ ∀ x, start ≤ x → x ≤ prev → x ∈ S
  least : ∀ s, RunAt S n s → start ≤ s

/-- A run of `n` that does not begin before `start` begins after `prev`. -/
theorem Scanning.after {start prev : Nat} {rest : List Nat} (h : Scanning S n start prev rest)
    (hpos : 0 ∉ S) (hn : 1 ≤ n) (hgap : prev + 1 ∉ S) {s : Nat} (hs : RunAt S n s) : prev < s := by
  by_contra hle
  have hstart := h.least s hs
  by_cases hprev : prev = 0
  · exact hpos (hs 0 (by omega) (by omega))
  · obtain ⟨-, hshort, -⟩ := h.block hprev
    exact hgap (hs (prev + 1) (by omega) (by omega))

/-- The scan answers with the first run, or there is none. -/
theorem scan_spec (hids : ∀ x ∈ S, 1 < x) (hn : 1 ≤ n) {rest : List Nat} :
    ∀ {start prev : Nat}, Scanning S n start prev rest →
      (∀ s, Freelist.scan n start prev rest = some s → IsLeast {s | RunAt S n s} s) ∧
      (Freelist.scan n start prev rest = none → ∀ s, ¬ RunAt S n s) := by
  have hpos : 0 ∉ S := fun h => absurd (hids 0 h) (by omega)
  induction rest with
  | nil =>
    intro start prev h
    refine ⟨fun s hs => (by cases hs), fun _ s hs => ?_⟩
    have hend : ∀ x, x ∈ S → x ≤ prev := by
      intro x hx
      by_contra hlt
      exact absurd ((h.rest x).mpr ⟨hx, by omega⟩) List.not_mem_nil
    have hgap : prev + 1 ∉ S := fun hmem => absurd (hend _ hmem) (by omega)
    have hafter := h.after hpos hn hgap hs
    exact absurd (hend s (hs s le_rfl (by omega))) (by omega)
  | cons id rest ih =>
    intro start prev h
    obtain ⟨hhead, hsorted⟩ := List.pairwise_cons.mp h.sorted
    obtain ⟨hid, hlt⟩ := (h.rest id).mp List.mem_cons_self
    have hids' := hids id hid
    have hnext : ∀ x ∈ S, prev < x → id ≤ x := by
      intro x hx hprev
      rcases List.mem_cons.mp ((h.rest x).mpr ⟨hx, hprev⟩) with rfl | hmem
      · exact le_rfl
      · exact (hhead x hmem).le
    have hrest : ∀ x, x ∈ rest ↔ x ∈ S ∧ id < x := by
      intro x
      constructor
      · intro hx
        exact ⟨((h.rest x).mp (List.mem_cons_of_mem _ hx)).1, hhead x hx⟩
      · rintro ⟨hx, hidx⟩
        have hmem := (h.rest x).mpr ⟨hx, by omega⟩
        exact (List.mem_cons.mp hmem).resolve_left (by omega)
    -- what the block is once `id` is part of it
    obtain ⟨start', hstart', hle, hblock, hleast⟩ : ∃ start',
        (if prev = 0 ∨ id - prev ≠ 1 then id else start) = start' ∧ start' ≤ id ∧
          (id < start' + n ∧ ∀ x, start' ≤ x → x ≤ id → x ∈ S) ∧
          ∀ s, RunAt S n s → start' ≤ s := by
      by_cases hnew : prev = 0 ∨ id - prev ≠ 1
      · refine ⟨id, if_pos hnew, le_rfl, ⟨by omega, fun x hx hx' => ?_⟩, fun s hs => ?_⟩
        · rwa [show x = id by omega]
        · refine hnext s (hs s le_rfl (by omega)) (h.after hpos hn (fun hmem => ?_) hs)
          have hge := hnext (prev + 1) hmem (by omega)
          have htwo := hids _ hmem
          omega
      · obtain ⟨hprev, hid1⟩ := not_or.mp hnew
        obtain ⟨hstart, hshort, hfull⟩ := h.block hprev
        refine ⟨start, if_neg hnew, by omega, ⟨by omega, fun x hx hx' => ?_⟩, h.least⟩
        by_cases hxid : x = id
        · rwa [hxid]
        · exact hfull x hx (by omega)
    rw [Freelist.scan, hstart']
    obtain ⟨hfits, hfull⟩ := hblock
    by_cases hfound : id - start' + 1 = n
    · rw [if_pos hfound]
      refine ⟨fun s hs => ?_, fun hnone => by cases hnone⟩
      obtain rfl := Option.some.inj hs
      exact ⟨fun i hi hi' => hfull i hi (by omega), fun s hs => hleast s hs⟩
    · rw [if_neg hfound]
      exact ih ⟨hsorted, hrest, fun _ => ⟨hle, by omega, hfull⟩, hleast⟩

end Scan

/-! ## First fit -/

/-- The free pages as a set. -/
def freeSet (f : Freelist) : Set Nat := {p | p ∈ f.freePages}

/-- The freelist after a call of `allocate`: it removes nothing unless it answers with a block. -/
def afterAllocate (f : Freelist) (n : Nat) : Freelist :=
  match f.allocate n with
  | some (_, f') => f'
  | none => f

/-- The free pages are kept in order and none is the page of a meta. -/
structure FreePages (f : Freelist) : Prop where
  sorted : f.freePages.Pairwise (· < ·)
  ids : ∀ p ∈ f.freePages, 1 < p

theorem FreePages.scanning {f : Freelist} (h : FreePages f) (n : Nat) :
    Scanning (freeSet f) n 0 0 f.freePages where
  sorted := h.sorted
  rest x := ⟨fun hx => ⟨hx, (h.ids x hx).le.trans' (by omega)⟩, fun hx => hx.1⟩
  block h0 := absurd rfl h0
  least s _ := Nat.zero_le s

/-- The two ways a call of `allocate` can end. -/
theorem FreePages.allocate_cases {f : Freelist} (h : FreePages f) {n : Nat} (hn : 1 ≤ n) :
    (f.allocate n = none ∧ ∀ s, ¬ RunAt (freeSet f) n s) ∨
    ∃ s, IsLeast {s | RunAt (freeSet f) n s} s ∧
      f.allocate n = some (s,
        { f with freePages := f.freePages.filter fun p => ¬(s ≤ p ∧ p < s + n) }) := by
  obtain ⟨hsome, hnone⟩ := scan_spec h.ids hn (h.scanning n)
  rw [Freelist.allocate]
  cases hscan : Freelist.scan n 0 0 f.freePages with
  | none => exact .inl ⟨rfl, hnone hscan⟩
  | some s =>
    have hleast := hsome s hscan
    have hs : 1 < s := h.ids s (hleast.1 s le_rfl (by omega))
    exact .inr ⟨s, hleast, by simp only [if_pos (show 0 < s by omega)]⟩

/-- **Allocation is exact first fit**: it succeeds if and only if there is a run of `n` free
pages, answers with the smallest start of one, and removes exactly its pages; otherwise the free
pages stay. -/
theorem allocate_first_fit {f : Freelist} (h : FreePages f) {n : Nat} (hn : 1 ≤ n) :
    (∀ s, (f.allocate n).map Prod.fst = some s ↔ IsLeast {s | RunAt (freeSet f) n s} s) ∧
    ((f.allocate n).isSome ↔ ∃ s, RunAt (freeSet f) n s) ∧
    (∀ s, (f.allocate n).map Prod.fst = some s →
      freeSet (afterAllocate f n) = freeSet f \ Set.Ico s (s + n)) ∧
    (f.allocate n = none → freeSet (afterAllocate f n) = freeSet f) := by
  rcases h.allocate_cases hn with ⟨hrun, hno⟩ | ⟨s, hleast, hrun⟩
  · rw [afterAllocate, hrun]
    refine ⟨fun s => iff_of_false (by simp) fun hs => hno s hs.1,
      iff_of_false (by simp) fun ⟨s, hs⟩ => hno s hs, fun s hs => ?_, fun _ => rfl⟩
    cases hs
  · rw [afterAllocate, hrun]
    refine ⟨fun s' => ⟨fun hs => ?_, fun hs => ?_⟩, ⟨fun _ => ⟨s, hleast.1⟩, fun _ => rfl⟩,
      fun s' hs => ?_, fun hs => (by cases hs)⟩
    · rwa [← Option.some.inj hs]
    · rw [hs.unique hleast]
      rfl
    · obtain rfl := Option.some.inj hs
      ext p
      simp only [freeSet, Set.mem_ofPred_eq, List.mem_filter, decide_eq_true_eq, Set.mem_sdiff,
        Set.mem_Ico]

/-- Two pages from a list with gaps. -/
theorem allocate_first_fit_gaps :
    (Freelist.allocate ⟨[2, 4, 7, 8, 9, 12], []⟩ 2).map Prod.fst = some 7 ∧
      freeSet (afterAllocate ⟨[2, 4, 7, 8, 9, 12], []⟩ 2) =
        freeSet ⟨[2, 4, 7, 8, 9, 12], []⟩ \ Set.Ico 7 9 := by
  have h : FreePages ⟨[2, 4, 7, 8, 9, 12], []⟩ := ⟨by decide, by decide⟩
  exact ⟨rfl, (allocate_first_fit h (by omega)).2.2.1 7 rfl⟩

/-! ## Pending pages -/

/-- The pages that a transaction has retired. -/
def pendingOf (f : Freelist) (tx : Nat) : List Nat := (f.pendingPages.lookup tx).getD []

/-- The free pages and the transactions with pending pages are kept in order. -/
structure Tidy (f : Freelist) : Prop where
  sorted : f.freePages.Pairwise (· < ·)
  ascending : OrdMap.Ascending f.pendingPages

theorem mem_insertFree {p x : Nat} {l : List Nat} :
    x ∈ Freelist.insertFree p l ↔ x = p ∨ x ∈ l := by
  induction l with
  | nil => simp [Freelist.insertFree]
  | cons q l ih =>
    rw [Freelist.insertFree]
    split_ifs with hlt heq
    · simp
    · simp [heq]
    · simp only [List.mem_cons, ih]
      tauto

theorem sorted_insertFree {p : Nat} {l : List Nat} (h : l.Pairwise (· < ·)) :
    (Freelist.insertFree p l).Pairwise (· < ·) := by
  induction l with
  | nil => exact List.pairwise_singleton _ _
  | cons q l ih =>
    obtain ⟨hhead, hrest⟩ := List.pairwise_cons.mp h
    rw [Freelist.insertFree]
    split_ifs with hlt heq
    · refine List.pairwise_cons.mpr ⟨fun x hx => ?_, h⟩
      rcases List.mem_cons.mp hx with rfl | hx
      · exact hlt
      · exact hlt.trans (hhead x hx)
    · exact h
    · refine List.pairwise_cons.mpr ⟨fun x hx => ?_, ih hrest⟩
      rcases mem_insertFree.mp hx with rfl | hx
      · omega
      · exact hhead x hx

/-- Several pages become free. -/
theorem mem_insertAll {pages : List Nat} {x : Nat} :
    ∀ {l : List Nat}, x ∈ pages.foldl (fun acc p => Freelist.insertFree p acc) l ↔
      x ∈ pages ∨ x ∈ l := by
  induction pages with
  | nil => simp
  | cons p pages ih =>
    intro l
    rw [List.foldl_cons, ih, mem_insertFree, List.mem_cons]
    tauto

theorem sorted_insertAll {pages : List Nat} :
    ∀ {l : List Nat}, l.Pairwise (· < ·) →
      (pages.foldl (fun acc p => Freelist.insertFree p acc) l).Pairwise (· < ·) := by
  induction pages with
  | nil => exact fun h => h
  | cons p pages ih => exact fun h => ih (sorted_insertFree h)

section Release

variable {tx : Nat} {pending : List (Nat × List Nat)}

/-- `release` leaves what was retired by the transaction or by later ones. -/
theorem releaseLoop_pending (h : OrdMap.Ascending pending) :
    ∀ {free : List Nat}, (Freelist.releaseLoop tx free pending).2 =
      pending.filter fun e => decide (tx ≤ e.1) := by
  induction pending with
  | nil => exact rfl
  | cons e pending ih =>
    intro free
    obtain ⟨other, pages⟩ := e
    obtain ⟨hhead, hrest⟩ := List.pairwise_cons.mp h
    rw [Freelist.releaseLoop, List.filter_cons]
    by_cases hlt : other < tx
    · rw [if_pos hlt, if_neg (by simpa using hlt)]
      exact ih hrest
    · rw [if_neg hlt, if_pos (by simpa using hlt), List.filter_eq_self.mpr]
      intro e he
      have hother := hhead e he
      simp only [decide_eq_true_eq]
      omega

/-- `release` frees what the earlier transactions have retired. -/
theorem mem_releaseLoop (h : OrdMap.Ascending pending) {x : Nat} :
    ∀ {free : List Nat}, x ∈ (Freelist.releaseLoop tx free pending).1 ↔
      x ∈ free ∨ ∃ e ∈ pending, e.1 < tx ∧ x ∈ e.2 := by
  induction pending with
  | nil => simp [Freelist.releaseLoop]
  | cons e pending ih =>
    intro free
    obtain ⟨other, pages⟩ := e
    obtain ⟨hhead, hrest⟩ := List.pairwise_cons.mp h
    rw [Freelist.releaseLoop]
    by_cases hlt : other < tx
    · rw [if_pos hlt, ih hrest, mem_insertAll, List.exists_mem_cons_iff]
      tauto
    · rw [if_neg hlt, iff_self_or]
      rintro ⟨e, he, hlate, -⟩
      rcases List.mem_cons.mp he with rfl | he
      · exact absurd hlate hlt
      · have hother := hhead e he
        omega

theorem sorted_releaseLoop :
    ∀ {free : List Nat}, free.Pairwise (· < ·) →
      (Freelist.releaseLoop tx free pending).1.Pairwise (· < ·) := by
  induction pending with
  | nil => exact fun h => h
  | cons e pending ih =>
    intro free h
    rw [Freelist.releaseLoop]
    split_ifs
    · exact ih (sorted_insertAll h)
    · exact h

end Release

/-! ## Runs of a freelist -/

/-- A call on a freelist. -/
inductive FreelistOp where
  | free (txId pageId : Nat)
  | release (txId : Nat)
  | allocate (numPages : Nat)

/-- One call: what it answers, and the freelist afterwards. -/
def FreelistOp.call (f : Freelist) : FreelistOp → Option Nat × Freelist
  | .free txId pageId => (none, f.free txId pageId)
  | .release txId => (none, f.release txId)
  | .allocate n => ((f.allocate n).map Prod.fst, afterAllocate f n)

/-- The answers to a sequence of calls, and the freelist after it. -/
def callAll (f : Freelist) : List FreelistOp → List (Option Nat) × Freelist
  | [] => ([], f)
  | op :: ops =>
      let r := op.call f
      let rest := callAll r.2 ops
      (r.1 :: rest.1, rest.2)

/-- The freelists that calls lead to, with transactions from 1 on. -/
inductive Reached : Freelist → Prop
  | new : Reached .new
  | free {f : Freelist} {txId : Nat} (h : Reached f) (htx : 1 ≤ txId) (pageId : Nat) :
      Reached (f.free txId pageId)
  | release {f : Freelist} (h : Reached f) (txId : Nat) : Reached (f.release txId)
  | allocate {f : Freelist} (h : Reached f) (n : Nat) : Reached (afterAllocate f n)

theorem afterAllocate_pending (f : Freelist) (n : Nat) :
    (afterAllocate f n).pendingPages = f.pendingPages := by
  unfold afterAllocate Freelist.allocate
  split <;> rename_i heq
  · split at heq
    · cases heq
    · split_ifs at heq
      rw [← (Prod.mk.inj (Option.some.inj heq)).2]
  · rfl

theorem afterAllocate_free (f : Freelist) (n : Nat) :
    (afterAllocate f n).freePages.Sublist f.freePages := by
  unfold afterAllocate Freelist.allocate
  split <;> rename_i heq
  · split at heq
    · cases heq
    · split_ifs at heq
      rw [← (Prod.mk.inj (Option.some.inj heq)).2]
      exact List.filter_sublist
  · exact List.Sublist.refl _

theorem release_pending {f : Freelist} (h : Tidy f) (txId : Nat) :
    (f.release txId).pendingPages = f.pendingPages.filter fun e => decide (txId ≤ e.1) :=
  releaseLoop_pending h.ascending

theorem Tidy.retire {f : Freelist} (h : Tidy f) (txId pageId : Nat) :
    Tidy (f.free txId pageId) :=
  ⟨h.sorted, h.ascending.adjust _ _ _⟩

theorem Tidy.insert {f : Freelist} (h : Tidy f) (p : Nat) :
    Tidy { f with freePages := Freelist.insertFree p f.freePages } :=
  ⟨sorted_insertFree h.sorted, h.ascending⟩

theorem Tidy.call {f : Freelist} (h : Tidy f) (op : FreelistOp) : Tidy (op.call f).2 := by
  cases op with
  | free txId pageId => exact h.retire txId pageId
  | release txId =>
    refine ⟨sorted_releaseLoop h.sorted, ?_⟩
    show OrdMap.Ascending (f.release txId).pendingPages
    rw [release_pending h]
    exact List.Pairwise.filter _ h.ascending
  | allocate n =>
    refine ⟨h.sorted.sublist (afterAllocate_free f n), ?_⟩
    show OrdMap.Ascending (afterAllocate f n).pendingPages
    rw [afterAllocate_pending]
    exact h.ascending

theorem Reached.tidy {f : Freelist} (h : Reached f) : Tidy f := by
  induction h with
  | new => exact ⟨List.Pairwise.nil, List.Pairwise.nil⟩
  | @free f txId _ htx pageId ih => exact ih.call (.free txId pageId)
  | release _ txId ih => exact ih.call (.release txId)
  | allocate _ n ih => exact ih.call (.allocate n)

/-- No page is pending under the id that stands for free pages. -/
theorem Reached.ids {f : Freelist} (h : Reached f) : ∀ e ∈ f.pendingPages, 1 ≤ e.1 := by
  induction h with
  | new => simp [Freelist.new]
  | free _ htx pageId ih =>
    intro e he
    rcases OrdMap.mem_adjust he with hk | he
    · rwa [hk]
    · exact ih e he
  | release hf txId ih =>
    intro e he
    rw [release_pending hf.tidy] at he
    exact ih e (List.mem_of_mem_filter he)
  | allocate _ n ih =>
    rw [afterAllocate_pending]
    exact ih

/-! ## Freelists that differ in the order of pending pages -/

/-- The same free pages and, by transaction, the same pending pages in some order. -/
structure Alike (f g : Freelist) : Prop where
  left : Tidy f
  right : Tidy g
  free : f.freePages = g.freePages
  pending : ∀ tx, (pendingOf f tx).Perm (pendingOf g tx)

theorem pendingOf_free {f : Freelist} (h : Tidy f) (txId pageId tx : Nat) :
    pendingOf (f.free txId pageId) tx =
      if tx = txId then pendingOf f tx ++ [pageId] else pendingOf f tx := by
  rw [pendingOf, Freelist.free, h.ascending.lookup_adjust]
  split_ifs with htx
  · rw [htx]
    rfl
  · rfl

theorem pendingOf_release {f : Freelist} (h : Tidy f) (txId tx : Nat) :
    pendingOf (f.release txId) tx = if txId ≤ tx then pendingOf f tx else [] := by
  rw [pendingOf, release_pending h, Assoc.lookup_filter fun k => decide (txId ≤ k)]
  by_cases htx : txId ≤ tx <;> simp [htx, pendingOf]

theorem Tidy.keys_nodup {f : Freelist} (h : Tidy f) : (Assoc.keys f.pendingPages).Nodup :=
  List.pairwise_map.mpr (h.ascending.imp fun hlt => hlt.ne)

theorem mem_pendingOf {f : Freelist} (h : Tidy f) {tx x : Nat} :
    x ∈ pendingOf f tx ↔ ∃ e ∈ f.pendingPages, e.1 = tx ∧ x ∈ e.2 := by
  constructor
  · intro hx
    cases hlookup : f.pendingPages.lookup tx with
    | none => rw [pendingOf, hlookup] at hx; cases hx
    | some pages =>
      rw [pendingOf, hlookup] at hx
      exact ⟨(tx, pages), Assoc.mem_of_lookup hlookup, rfl, hx⟩
  · rintro ⟨e, he, rfl, hx⟩
    have hlookup : f.pendingPages.lookup e.1 = some e.2 := Assoc.lookup_of_mem h.keys_nodup he
    rwa [pendingOf, hlookup]

theorem mem_release {f : Freelist} (h : Tidy f) {txId x : Nat} :
    x ∈ (f.release txId).freePages ↔ x ∈ f.freePages ∨ ∃ tx < txId, x ∈ pendingOf f tx := by
  refine (mem_releaseLoop h.ascending).trans (or_congr_right ?_)
  simp only [mem_pendingOf h]
  constructor
  · rintro ⟨e, he, hlt, hx⟩
    exact ⟨e.1, hlt, e, he, rfl, hx⟩
  · rintro ⟨tx, hlt, e, he, rfl, hx⟩
    exact ⟨e, he, hlt, hx⟩

/-- What `allocate` does is a matter of the free pages alone. -/
theorem allocate_congr {f g : Freelist} (h : f.freePages = g.freePages) (n : Nat) :
    (f.allocate n).map Prod.fst = (g.allocate n).map Prod.fst ∧
      (afterAllocate f n).freePages = (afterAllocate g n).freePages := by
  unfold afterAllocate Freelist.allocate
  rw [h]
  cases Freelist.scan n 0 0 g.freePages with
  | none => exact ⟨rfl, h⟩
  | some found =>
    by_cases hpos : 0 < found
    · simp [hpos]
    · simpa [hpos] using h

/-- One call on two freelists that are alike. -/
theorem Alike.call {f g : Freelist} (h : Alike f g) (op : FreelistOp) :
    (op.call f).1 = (op.call g).1 ∧ Alike (op.call f).2 (op.call g).2 := by
  have hf := h.left
  have hg := h.right
  cases op with
  | free txId pageId =>
    refine ⟨rfl, hf.call _, hg.call _, h.free, fun tx => ?_⟩
    show (pendingOf (f.free txId pageId) tx).Perm (pendingOf (g.free txId pageId) tx)
    rw [pendingOf_free hf, pendingOf_free hg]
    split_ifs
    · exact (h.pending tx).append_right _
    · exact h.pending tx
  | release txId =>
    refine ⟨rfl, hf.call _, hg.call _, ?_, fun tx => ?_⟩
    · refine SortedBy.ext (f := id) (hf.call (.release txId)).sorted
        (hg.call (.release txId)).sorted fun x => ?_
      show x ∈ (f.release txId).freePages ↔ x ∈ (g.release txId).freePages
      rw [mem_release hf, mem_release hg, h.free]
      exact or_congr_right (exists_congr fun tx => and_congr_right fun _ => (h.pending tx).mem_iff)
    · show (pendingOf (f.release txId) tx).Perm (pendingOf (g.release txId) tx)
      rw [pendingOf_release hf, pendingOf_release hg]
      split_ifs
      · exact h.pending tx
      · exact List.Perm.refl _
  | allocate n =>
    obtain ⟨hanswer, hfree⟩ := allocate_congr h.free n
    refine ⟨hanswer, hf.call _, hg.call _, hfree, fun tx => ?_⟩
    show (pendingOf (afterAllocate f n) tx).Perm (pendingOf (afterAllocate g n) tx)
    rw [pendingOf, pendingOf, afterAllocate_pending, afterAllocate_pending]
    exact h.pending tx

/-- A sequence of calls on two freelists that are alike. -/
theorem Alike.callAll {f g : Freelist} (h : Alike f g) (ops : List FreelistOp) :
    (callAll f ops).1 = (callAll g ops).1 ∧ Alike (callAll f ops).2 (callAll g ops).2 := by
  induction ops generalizing f g with
  | nil => exact ⟨rfl, h⟩
  | cons op ops ih =>
    obtain ⟨hanswer, hnext⟩ := h.call op
    obtain ⟨hanswers, hend⟩ := ih hnext
    refine ⟨?_, hend⟩
    show (op.call f).1 :: _ = (op.call g).1 :: _
    rw [hanswer, hanswers]

/-! ## Writing the freelist and reading it back -/

/-- The entries in the order of the tables. -/
def listed (f : Freelist) : List RetiredPage :=
  f.freePages.map (fun p => ⟨p, 0⟩) ++ f.pendingPages.flatMap fun e => e.2.map fun p => ⟨p, e.1⟩

theorem entries_perm (f : Freelist) : f.entries.Perm (listed f) := List.perm_insertionSort _ _

theorem length_entries (f : Freelist) : f.entries.length = f.pageCount := by
  rw [(entries_perm f).length_eq, listed, Freelist.pageCount]
  simp [List.length_flatMap]

/-- What `init` adds to the free pages. -/
theorem mem_init {es : List RetiredPage} {x : Nat} :
    ∀ {f : Freelist}, x ∈ (f.init es).freePages ↔ x ∈ f.freePages ∨ ⟨x, 0⟩ ∈ es := by
  induction es with
  | nil => simp [Freelist.init]
  | cons e es ih =>
    intro f
    obtain ⟨pageId, txId⟩ := e
    rw [Freelist.init]
    by_cases hfree : txId = 0
    · rw [if_pos hfree, ih, mem_insertFree, List.mem_cons, RetiredPage.mk.injEq, hfree]
      tauto
    · rw [if_neg hfree, ih, List.mem_cons, RetiredPage.mk.injEq]
      show x ∈ f.freePages ∨ _ ↔ _
      have hne : 0 ≠ txId := fun h => hfree h.symm
      tauto

theorem Tidy.init {es : List RetiredPage} : ∀ {f : Freelist}, Tidy f → Tidy (f.init es) := by
  induction es with
  | nil => exact fun h => h
  | cons e es ih =>
    intro f h
    rw [Freelist.init]
    split_ifs
    · exact ih (h.insert e.pageId)
    · exact ih (h.retire e.retiredTxId e.pageId)

theorem init_ids {es : List RetiredPage} : ∀ {f : Freelist}, (∀ e ∈ f.pendingPages, 1 ≤ e.1) →
    ∀ e ∈ (f.init es).pendingPages, 1 ≤ e.1 := by
  induction es with
  | nil => exact fun h => h
  | cons e es ih =>
    intro f h
    rw [Freelist.init]
    split_ifs with hfree
    · exact ih (f := { f with freePages := Freelist.insertFree e.pageId f.freePages }) h
    · refine ih fun e' he' => ?_
      rcases OrdMap.mem_adjust he' with hk | he'
      · omega
      · exact h e' he'

/-- What `init` adds to the pending pages. -/
theorem pendingOf_init {es : List RetiredPage} {tx : Nat} (htx : tx ≠ 0) :
    ∀ {f : Freelist}, Tidy f →
      pendingOf (f.init es) tx =
        pendingOf f tx ++ (es.filter fun e =>
          decide (e.retiredTxId = tx)).map RetiredPage.pageId := by
  induction es with
  | nil => simp [Freelist.init]
  | cons e es ih =>
    intro f h
    rw [Freelist.init, List.filter_cons]
    by_cases hfree : e.retiredTxId = 0
    · have hne : ¬ e.retiredTxId = tx := fun heq => htx (heq ▸ hfree)
      rw [if_pos hfree, ih (h.insert e.pageId), if_neg (by simpa using hne)]
      rfl
    · rw [if_neg hfree, ih (h.retire e.retiredTxId e.pageId), pendingOf_free h]
      by_cases heq : tx = e.retiredTxId
      · rw [if_pos heq, if_pos (by simpa using heq.symm), List.map_cons, List.append_assoc]
        rfl
      · rw [if_neg heq, if_neg (by simpa using Ne.symm heq)]

/-- The entries of one transaction. -/
theorem listed_pending {f : Freelist} (h : Tidy f) {tx : Nat} (htx : tx ≠ 0) :
    ((listed f).filter fun e => decide (e.retiredTxId = tx)).map RetiredPage.pageId =
      pendingOf f tx := by
  obtain ⟨free, pending⟩ := f
  have hfree : ((free.map fun p => RetiredPage.mk p 0).filter fun e =>
    decide (e.retiredTxId = tx)) =
      [] := by
    rw [List.filter_eq_nil_iff]
    intro e he
    obtain ⟨p, -, rfl⟩ := List.mem_map.mp he
    simpa using htx.symm
  have hascending : OrdMap.Ascending pending := h.ascending
  rw [listed, List.filter_append, hfree, List.nil_append, pendingOf]
  clear h hfree
  induction pending with
  | nil => rfl
  | cons e pending ih =>
    obtain ⟨k, pages⟩ := e
    obtain ⟨hhead, hrest⟩ := List.pairwise_cons.mp hascending
    rw [List.flatMap_cons, List.filter_append, List.map_append, ih hrest]
    by_cases hk : tx = k
    · subst hk
      have hnone : pending.lookup tx = none := OrdMap.Ascending.lookup_none hhead
      have hall : ((pages.map fun p => RetiredPage.mk p tx).filter fun e =>
          decide (e.retiredTxId = tx)) = pages.map fun p => RetiredPage.mk p tx :=
        List.filter_eq_self.mpr (by simp)
      rw [hnone, Assoc.lookup_cons_self, hall]
      simp [Function.comp_def]
    · rw [Assoc.lookup_cons_ne hk, List.filter_eq_nil_iff.mpr]
      · rfl
      · intro e he
        obtain ⟨p, -, rfl⟩ := List.mem_map.mp he
        simpa using Ne.symm hk

/-- **A freelist that is read back is like the one that was written**, in whatever order pages
with one number are stored. -/
theorem Reached.alike {f : Freelist} (h : Reached f) {es : List RetiredPage}
    (hes : es.Perm f.entries) : Alike (Freelist.new.init es) f := by
  have hperm : es.Perm (listed f) := hes.trans (entries_perm f)
  have hnew : Tidy Freelist.new := Reached.new.tidy
  refine ⟨hnew.init, h.tidy, ?_, fun tx => ?_⟩
  · refine SortedBy.ext (f := id) hnew.init.sorted h.tidy.sorted fun x => ?_
    rw [mem_init, hperm.mem_iff, listed, List.mem_append]
    constructor
    · rintro (hx | hx | hx)
      · cases hx
      · obtain ⟨p, hp, heq⟩ := List.mem_map.mp hx
        rwa [← (RetiredPage.mk.inj heq).1]
      · obtain ⟨e, he, hx⟩ := List.mem_flatMap.mp hx
        obtain ⟨p, -, heq⟩ := List.mem_map.mp hx
        have hid := h.ids e he
        rw [(RetiredPage.mk.inj heq).2] at hid
        omega
    · intro hx
      exact .inr (.inl (List.mem_map.mpr ⟨x, hx, rfl⟩))
  · by_cases htx : tx = 0
    · have hzero : ∀ {g : Freelist}, (∀ e ∈ g.pendingPages, 1 ≤ e.1) → pendingOf g tx = [] := by
        intro g hids
        rw [pendingOf, htx, OrdMap.Ascending.lookup_none hids]
        rfl
      rw [hzero h.ids, hzero (init_ids Reached.new.ids)]
    · rw [pendingOf_init htx hnew, ← listed_pending h.tidy htx]
      exact (hperm.filter _).map _

theorem pagesFor_spec {pagesize : Nat} (hsize : 0 < pagesize) (bytes : Nat) :
    bytes + checksumSize ≤ TxFreelist.pagesFor pagesize bytes * pagesize := by
  have hdiv := Nat.div_add_mod (bytes + checksumSize) pagesize
  have hmod := Nat.mod_lt (bytes + checksumSize) hsize
  rw [TxFreelist.pagesFor]
  split_ifs with hexact
  · rw [Nat.mul_comm]
    omega
  · rw [Nat.add_mul, Nat.mul_comm]
    omega

/-- The block that `TxFreelist::allocate` answers with, and the freelist it leaves. -/
theorem allocate_block (fl : TxFreelist) {bytes : Nat} (hbytes : headerSize ≤ bytes) :
    ∃ page fl', fl.allocate bytes = .ok (page, fl') ∧
      page.overflow = TxFreelist.pagesFor fl.txMeta.pagesize bytes - 1 ∧
      fl'.inner = afterAllocate fl.inner (TxFreelist.pagesFor fl.txMeta.pagesize bytes) := by
  rw [TxFreelist.allocate, if_neg (by omega)]
  refine ⟨_, _, rfl, rfl, ?_⟩
  unfold afterAllocate
  dsimp only
  cases fl.inner.allocate (TxFreelist.pagesFor fl.txMeta.pagesize bytes) with
  | none => rfl
  | some r => rfl

/-- Retiring a block is a sequence of calls. -/
theorem Reached.retire {fl : TxFreelist} (h : Reached fl.inner) (htx : 1 ≤ fl.txMeta.txId)
    (pageId numPages : Nat) : Reached (fl.free pageId numPages).inner := by
  show Reached ((List.range' pageId numPages).foldl (fun f id => f.free fl.txMeta.txId id) fl.inner)
  generalize fl.inner = f at h
  induction numPages generalizing f pageId with
  | zero => exact h
  | succ numPages ih =>
    rw [List.range'_succ, List.foldl_cons]
    exact ih (pageId + 1) (f.free fl.txMeta.txId pageId) (h.free htx pageId)

theorem pageCount_afterAllocate (f : Freelist) (n : Nat) :
    (afterAllocate f n).pageCount ≤ f.pageCount := by
  rw [Freelist.pageCount, Freelist.pageCount, afterAllocate_pending]
  have hlength := (afterAllocate_free f n).length_le
  omega

/-- The block is large enough for the entries that are written after it was allocated. -/
theorem writeFreelist_fits {fl : TxFreelist} (h : Reached fl.inner) (htx : 1 ≤ fl.txMeta.txId)
    (hsize : 0 < fl.txMeta.pagesize) (freelistPage numFreelistPages : Nat) :
    ∃ page fl', fl.writeFreelist freelistPage numFreelistPages = .ok (page, fl') ∧
      Reached fl'.inner ∧ page.body = .freelist fl'.inner.entries ∧
      headerSize + 16 * fl'.inner.entries.length + checksumSize ≤
        (page.overflow + 1) * fl.txMeta.pagesize := by
  have hretired := h.retire htx freelistPage numFreelistPages
  have hmeta : (fl.free freelistPage numFreelistPages).txMeta = fl.txMeta := rfl
  have hbytes : headerSize ≤ (fl.free freelistPage numFreelistPages).inner.size := by
    rw [Freelist.size]
    omega
  obtain ⟨page, fl', hrun, hoverflow, hinner⟩ := allocate_block _ hbytes
  rw [hmeta] at hoverflow hinner
  refine ⟨{ page with body := .freelist fl'.inner.entries },
    fl'.fill { page with body := .freelist fl'.inner.entries }, ?_, ?_, rfl, ?_⟩
  · rw [TxFreelist.writeFreelist]
    simp only [hrun]
    rfl
  · show Reached fl'.inner
    rw [hinner]
    exact hretired.allocate _
  · show headerSize + 16 * fl'.inner.entries.length + checksumSize ≤ _
    have hfits := pagesFor_spec hsize (fl.free freelistPage numFreelistPages).inner.size
    have hcount := pageCount_afterAllocate (fl.free freelistPage numFreelistPages).inner
      (TxFreelist.pagesFor fl.txMeta.pagesize (fl.free freelistPage numFreelistPages).inner.size)
    rw [← hinner] at hcount
    have hpos : 1 ≤ TxFreelist.pagesFor fl.txMeta.pagesize
        (fl.free freelistPage numFreelistPages).inner.size := by
      by_contra hzero
      rw [show TxFreelist.pagesFor fl.txMeta.pagesize
        (fl.free freelistPage numFreelistPages).inner.size = 0 by omega, Nat.zero_mul] at hfits
      rw [checksumSize] at hfits
      omega
    rw [hoverflow, Nat.sub_add_cancel hpos, length_entries]
    rw [Freelist.size] at hfits ⊢
    omega

/-- **Reloading the freelist is unobservable.**  The block that a commit allocates for the
freelist is large enough for the entries written to it.  The freelist that is read back has the
same free pages and, by transaction, the same pending pages, and both answer every sequence of
calls alike. -/
theorem freelist_reload {f : Freelist} (h : Reached f) :
    (∀ (fl : TxFreelist) (freelistPage numFreelistPages : Nat), fl.inner = f →
      1 ≤ fl.txMeta.txId → 0 < fl.txMeta.pagesize →
      ∃ page fl', fl.writeFreelist freelistPage numFreelistPages = .ok (page, fl') ∧
        Reached fl'.inner ∧ page.body = .freelist fl'.inner.entries ∧
        headerSize + 16 * fl'.inner.entries.length + checksumSize ≤
          (page.overflow + 1) * fl.txMeta.pagesize) ∧
    ∀ es : List RetiredPage, es.Perm f.entries →
      (∀ p, p ∈ (Freelist.new.init es).freePages ↔ p ∈ f.freePages) ∧
      (∀ tx, (pendingOf (Freelist.new.init es) tx).Perm (pendingOf f tx)) ∧
      ∀ ops, (callAll (Freelist.new.init es) ops).1 = (callAll f ops).1 := by
  refine ⟨fun fl freelistPage numFreelistPages hinner htx hsize => ?_, fun es hes => ?_⟩
  · exact writeFreelist_fits (hinner ▸ h) htx hsize freelistPage numFreelistPages
  · have halike := h.alike hes
    exact ⟨fun p => by rw [halike.free], halike.pending, fun ops => (halike.callAll ops).1⟩

/-- Two pages are released and one of them is taken again; of the three pending pages two have one
number. -/
def takenFreelist : Freelist :=
  afterAllocate ((((((Freelist.new.free 1 3).free 1 2).release 2).free 2 5).free 2 5).free 3 4) 1

/-- The freelist read back answers as that one does. -/
theorem freelist_reload_taken : Reached takenFreelist ∧ ∀ ops : List FreelistOp,
    (callAll (Freelist.new.init takenFreelist.entries) ops).1 = (callAll takenFreelist ops).1 := by
  have h : Reached takenFreelist :=
    .allocate (.free (.free (.free (.release (.free (.free .new (by omega) 3) (by omega) 2) 2)
      (by omega) 5) (by omega) 5) (by omega) 4) 1
  exact ⟨h, ((freelist_reload h).2 _ (List.Perm.refl _)).2.2⟩

end Tagdata.Analysis
