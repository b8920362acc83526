import Tagdata.Analysis.Freelists
import Tagdata.Analysis.Readers

/-!
# Pages that readers can still see

Readers register the transaction they read and leave; one writer at a time begins by releasing what
was retired before the oldest reader, retires and allocates pages, and commits.  No page of the
published snapshot or of the snapshot of a registered reader is ever handed out.
-/

set_option autoImplicit false

namespace Tagdata.Analysis

open Tagdata.Library Tagdata.Model Tagdata.Model.Coordination

/-- What the processes share: the published transaction, the pages of its snapshot and its freelist,
and the registered readers with the pages of the snapshots they have selected. -/
structure Shared where
  txId : Nat
  used : Set Nat
  freelist : Freelist
  readers : List (Reader × Set Nat)

/-- The freelist that a writer begins with. -/
def Shared.begins (s : Shared) : Freelist :=
  s.freelist.release (((s.readers.map fun r => r.1.txId).min?).getD (s.txId + 1))

/-- The calls of a writer on its freelist. -/
inductive WriterCall (txId : Nat) : FreelistOp → Prop
  | free {pageId : Nat} (h : 1 < pageId) : WriterCall txId (.free txId pageId)
  | allocate (n : Nat) : WriterCall txId (.allocate n)

/-- The page is free or retired. -/
def Listed (f : Freelist) (x : Nat) : Prop := x ∈ f.freePages ∨ ∃ tx, x ∈ pendingOf f tx

/-- One step of a process.  The lock of the writer keeps others out from the freelist it begins
with to its commit, so a commit is one step; its id is a `u64`, and its snapshot is apart from its
freelist.  A writer that aborts or crashes leaves everything as it is. -/
inductive Shared.Step : Shared → Shared → Prop
  | register {s : Shared} {counter : Nat} {r : Reader} (hid : s.txId < 2 ^ 64)
      (hr : register (s.readers.map Prod.fst) counter s.txId = .ok r) :
      Step s { s with readers := (r, s.used) :: s.readers }
  | leave {s : Shared} {rest : List (Reader × Set Nat)} (hrest : rest.Sublist s.readers) :
      Step s { s with readers := rest }
  | commit {s : Shared} {ops : List FreelistOp} {used : Set Nat} (hid : s.txId + 1 < 2 ^ 64)
      (hops : ∀ op ∈ ops, WriterCall (s.txId + 1) op)
      (hused : ∀ x ∈ used, ¬ Listed (callAll s.begins ops).2 x) :
      Step s ⟨s.txId + 1, used, (callAll s.begins ops).2, s.readers⟩

/-- What every step keeps: a page that a reader sees is not free, and was retired after the
transaction that the reader reads. -/
structure Spared (s : Shared) : Prop where
  tidy : Tidy s.freelist
  ids : ∀ x, Listed s.freelist x → 1 < x
  used : ∀ x ∈ s.used, ¬ Listed s.freelist x
  table : Registered (s.readers.map Prod.fst)
  seen : ∀ r ∈ s.readers, r.1.txId ≤ s.txId ∧ ∀ x ∈ r.2, x ∉ s.freelist.freePages ∧
    ∀ tx, x ∈ pendingOf s.freelist tx → r.1.txId < tx

/-- A writer takes pages off the free ones and retires pages under its own id. -/
theorem callAll_writes {txId : Nat} {ops : List FreelistOp}
    (hops : ∀ op ∈ ops, WriterCall txId op) :
    ∀ {f : Freelist}, Tidy f → Tidy (callAll f ops).2 ∧
      (∀ x ∈ (callAll f ops).2.freePages, x ∈ f.freePages) ∧
      ∀ tx x, x ∈ pendingOf (callAll f ops).2 tx → x ∈ pendingOf f tx ∨ tx = txId ∧ 1 < x := by
  induction ops with
  | nil => exact fun h => ⟨h, fun _ hx => hx, fun _ _ hx => .inl hx⟩
  | cons op ops ih =>
    intro f h
    obtain ⟨htidy, hfree, hpending⟩ :=
      ih (fun o ho => hops o (List.mem_cons_of_mem _ ho)) (h.call op)
    refine ⟨htidy, fun x hx => ?_, fun tx x hx => ?_⟩
    · cases hops op List.mem_cons_self with
      | free hid => exact hfree x hx
      | allocate n => exact (afterAllocate_free f n).subset (hfree x hx)
    · rcases hpending tx x hx with hx | hx
      · cases hops op List.mem_cons_self with
        | @free pageId hid =>
          rw [FreelistOp.call, pendingOf_free h] at hx
          split_ifs at hx with htx
          · rcases List.mem_append.mp hx with hx | hx
            · exact .inl hx
            · rw [List.mem_singleton.mp hx]
              exact .inr ⟨htx, hid⟩
          · exact .inl hx
        | allocate n =>
          rw [FreelistOp.call, pendingOf, afterAllocate_pending] at hx
          exact .inl hx
      · exact .inr hx

namespace Spared

variable {s s' : Shared}

theorem begins_tidy (h : Spared s) : Tidy s.begins := h.tidy.call (.release _)

theorem begins_pending (h : Spared s) {tx x : Nat} (hx : x ∈ pendingOf s.begins tx) :
    x ∈ pendingOf s.freelist tx := by
  rw [Shared.begins, pendingOf_release h.tidy] at hx
  split_ifs at hx
  · exact hx
  · cases hx

theorem begins_listed (h : Spared s) {x : Nat} (hx : x ∈ s.begins.freePages) :
    Listed s.freelist x := by
  rcases (mem_release h.tidy).mp hx with hx | ⟨tx, -, hx⟩
  · exact .inl hx
  · exact .inr ⟨tx, hx⟩

/-- What a reader sees was retired too late to be released. -/
theorem begins_unseen (h : Spared s) {r : Reader × Set Nat} (hr : r ∈ s.readers) {x : Nat}
    (hx : x ∈ r.2) : x ∉ s.begins.freePages := by
  intro hfree
  obtain ⟨-, hseen⟩ := h.seen r hr
  rcases (mem_release h.tidy).mp hfree with hfree | ⟨tx, hlt, hpending⟩
  · exact (hseen x hx).1 hfree
  · have holdest := List.min?_getD_le_of_mem (k := s.txId + 1)
      (List.mem_map_of_mem (f := fun r => r.1.txId) hr)
    have hlate := (hseen x hx).2 tx hpending
    omega

theorem step (h : Spared s) (hstep : s.Step s') : Spared s' := by
  cases hstep with
  | @register counter r hid hr =>
    have htx : r.txId = s.txId := by
      obtain ⟨T, hT⟩ := h.table.table
      rw [← hT] at hr
      rcases register_spec T counter s.txId with ⟨slot, hok, -⟩ | ⟨hfull, -⟩
      · rw [hok] at hr
        rw [← Except.ok.inj hr]
      · rw [hfull] at hr
        cases hr
    refine ⟨h.tidy, h.ids, h.used, .register h.table hid hr, List.forall_mem_cons.mpr
      ⟨⟨htx.le, fun x hx => ?_⟩, h.seen⟩⟩
    have hnot := h.used x hx
    exact ⟨fun hfree => hnot (.inl hfree), fun tx hp => absurd (.inr ⟨tx, hp⟩) hnot⟩
  | leave hrest =>
    exact ⟨h.tidy, h.ids, h.used, .leave h.table (hrest.map _),
      fun r hr => h.seen r (hrest.subset hr)⟩
  | commit _ hops hused =>
    obtain ⟨htidy, hfree, hpending⟩ := callAll_writes hops h.begins_tidy
    refine ⟨htidy, fun x hx => ?_, hused, h.table, fun r hr => ⟨?_, fun x hx => ⟨?_, ?_⟩⟩⟩
    · rcases hx with hx | ⟨tx, hx⟩
      · exact h.ids x (h.begins_listed (hfree x hx))
      · rcases hpending tx x hx with hx | hx
        · exact h.ids x (.inr ⟨tx, h.begins_pending hx⟩)
        · exact hx.2
    · exact (h.seen r hr).1.trans (Nat.le_succ _)
    · exact fun hx' => h.begins_unseen hr hx (hfree x hx')
    · intro tx hx'
      rcases hpending tx x hx' with hx' | ⟨rfl, -⟩
      · exact ((h.seen r hr).2 x hx).2 tx (h.begins_pending hx')
      · exact Nat.lt_succ_of_le (h.seen r hr).1

theorem run (h : Spared s) (hrun : Relation.ReflTransGen Shared.Step s s') : Spared s' := by
  induction hrun with
  | refl => exact h
  | tail _ hstep ih => exact ih.step hstep

end Spared

/-- **No page that a snapshot in use holds is handed out.**  From any state without readers whose
freelist is apart from its snapshot, after any steps of readers and writers and any calls of the
writer that is at work, `allocate` takes no page of the published snapshot and none of the snapshot
of a registered reader. -/
theorem allocate_spares_snapshots {start s : Shared} (htidy : Tidy start.freelist)
    (hids : ∀ x, Listed start.freelist x → 1 < x)
    (hused : ∀ x ∈ start.used, ¬ Listed start.freelist x) (hreaders : start.readers = [])
    (hrun : Relation.ReflTransGen Shared.Step start s) {ops : List FreelistOp}
    (hops : ∀ op ∈ ops, WriterCall (s.txId + 1) op) {n page : Nat} (hn : 1 ≤ n)
    (hpage : ((callAll s.begins ops).2.allocate n).map Prod.fst = some page) {x : Nat}
    (hlow : page ≤ x) (hhigh : x < page + n) : x ∉ s.used ∧ ∀ r ∈ s.readers, x ∉ r.2 := by
  have hstart : Spared start :=
    ⟨htidy, hids, hused, by rw [hreaders]; exact .none, by simp [hreaders]⟩
  have hspared := hstart.run hrun
  obtain ⟨htidy', hfree, -⟩ := callAll_writes hops hspared.begins_tidy
  have hpages : FreePages (callAll s.begins ops).2 :=
    ⟨htidy'.sorted, fun p hp => hspared.ids p (hspared.begins_listed (hfree p hp))⟩
  have hx : x ∈ s.begins.freePages := by
    rcases hpages.allocate_cases hn with ⟨hnone, -⟩ | ⟨first, hleast, hsome⟩
    · rw [hnone] at hpage
      cases hpage
    · rw [hsome] at hpage
      obtain rfl : first = page := Option.some.inj hpage
      exact hfree x (hleast.1 x hlow hhigh)
  exact ⟨fun hx' => hspared.used x hx' (hspared.begins_listed hx),
    fun r hr hx' => hspared.begins_unseen hr hx' hx⟩

/-- A database whose snapshot is page 4, with two free pages. -/
def idleShared : Shared := ⟨1, {4}, ⟨[3, 5], []⟩, []⟩

/-- The same with a reader. -/
def readShared : Shared := { idleShared with readers := [(⟨0, 1⟩, {4})] }

/-- After a commit that took page 3 and retired page 4. -/
def movedShared : Shared := ⟨2, {3}, ⟨[5], [(2, [4])]⟩, [(⟨0, 1⟩, {4})]⟩

/-- The next writer retires page 3 and gets page 5: page 4 is kept for the reader. -/
theorem allocate_spares_retired_page :
    ((callAll movedShared.begins [.free 3 3]).2.allocate 1).map Prod.fst = some 5 ∧
    5 ∉ movedShared.used ∧ ∀ r ∈ movedShared.readers, 5 ∉ r.2 := by
  have hread : idleShared.Step readShared :=
    @Shared.Step.register idleShared 0 ⟨0, 1⟩ (by decide) (by rfl)
  have hcommit : readShared.Step movedShared := by
    refine @Shared.Step.commit readShared [.allocate 1, .free 2 4] {3} (by decide) ?_ ?_
    · simp only [List.mem_cons, List.not_mem_nil, or_false, forall_eq_or_imp, forall_eq]
      exact ⟨.allocate 1, .free (by decide)⟩
    · rintro x rfl (hx | ⟨tx, hx⟩)
      · exact absurd hx (by decide)
      · replace hx : 3 ∈ (List.lookup tx [(2, [4])]).getD [] := hx
        rw [List.lookup] at hx
        split at hx <;> simp at hx
  have htidy : Tidy idleShared.freelist := ⟨by decide, List.Pairwise.nil⟩
  have hlisted : ∀ x, Listed idleShared.freelist x → x ∈ [3, 5] := by
    rintro x (hx | ⟨tx, hx⟩)
    · exact hx
    · cases hx
  have hops : ∀ op ∈ [FreelistOp.free 3 3], WriterCall (movedShared.txId + 1) op := by
    intro op hop
    rw [List.mem_singleton.mp hop]
    exact .free (by decide)
  have hpage : ((callAll movedShared.begins [.free 3 3]).2.allocate 1).map Prod.fst = some 5 := by
    rfl
  refine ⟨hpage, allocate_spares_snapshots htidy (fun x hx => ?_) (fun x hx hx' => ?_) rfl
    (.tail (.single hread) hcommit) hops le_rfl hpage le_rfl (by decide)⟩
  · have hmem : x = 3 ∨ x = 5 := by simpa using hlisted x hx
    omega
  · obtain rfl : x = 4 := hx
    exact absurd (hlisted 4 hx') (by decide)

end Tagdata.Analysis
