import Tagdata.Library.Results
import Tagdata.Model.Coordination

/-!
# Finding the readers

A writer finds every registered reader and the oldest transaction among them, whichever of the
locks in the way of a range it is told about.  The search keeps a list of ranges; the slots found
so far and the slots held in the ranges together are the slots of the readers.
-/

set_option autoImplicit false

namespace Tagdata.Analysis

open Tagdata.Library Tagdata.Model Tagdata.Model.Coordination

/-! ## The layout of the locks -/

theorem payloadBlock_eq (slot : Nat) :
    payloadBlock slot = 1152921504607895552 + 8589934592 * slot := rfl

theorem tokenOffset_eq (slot : Nat) : tokenOffset slot = 1152921504606846984 + slot := rfl

theorem encodeTxId_eq (slot txId : Nat) :
    encodeTxId slot txId = ⟨payloadBlock slot + txId % 2 ^ 32, txId / 2 ^ 32 + 1⟩ := by
  rw [encodeTxId, lowMask, Nat.and_two_pow_sub_one_eq_mod, Nat.shiftRight_eq_div_pow]

/-- The range of a transaction lies in the block of its slot. -/
theorem encodeTxId_block {slot txId : Nat} (h : txId < 2 ^ 64) :
    payloadBlock slot ≤ (encodeTxId slot txId).start ∧
      (encodeTxId slot txId).start < (encodeTxId slot txId).stop ∧
      (encodeTxId slot txId).stop < payloadBlock slot + payloadStride := by
  rw [encodeTxId_eq, LockRange.stop, show payloadStride = 8589934592 from rfl]
  dsimp only
  omega

/-- Every id of 64 bits is read back. -/
theorem decodeTxId_encodeTxId {slot txId : Nat} (h : txId < 2 ^ 64) :
    decodeTxId (payloadBlock slot) (encodeTxId slot txId) = .ok txId := by
  have hmask : lowMask = 4294967295 := rfl
  have hlow : txId % 2 ^ 32 < 2 ^ 32 := Nat.mod_lt _ (by norm_num)
  rw [encodeTxId_eq, decodeTxId]
  dsimp only
  rw [if_pos (by omega), if_pos (by omega), Nat.add_sub_cancel_left, Nat.add_sub_cancel,
    ← Nat.shiftLeft_add_eq_or_of_lt hlow, Nat.shiftLeft_eq, Nat.div_add_mod']

/-- Different slots have blocks apart from each other. -/
theorem blocks_apart {slot slot' : Nat} (h : slot < slot') :
    payloadBlock slot + payloadStride ≤ payloadBlock slot' := by
  rw [payloadBlock_eq, payloadBlock_eq, show payloadStride = 8589934592 from rfl]
  omega

theorem payloads_apart {slot slot' txId txId' : Nat} (hne : slot ≠ slot') (h : txId < 2 ^ 64)
    (h' : txId' < 2 ^ 64) : ¬ (encodeTxId slot txId).Overlaps (encodeTxId slot' txId') := by
  obtain ⟨hlo, -, hhi⟩ := @encodeTxId_block slot txId h
  obtain ⟨hlo', -, hhi'⟩ := @encodeTxId_block slot' txId' h'
  rintro ⟨hbelow, habove⟩
  rcases Nat.lt_or_gt_of_ne hne with hlt | hgt
  · have hapart := blocks_apart hlt
    omega
  · have hapart := blocks_apart hgt
    omega

/-- The blocks lie behind the tokens. -/
theorem block_behind (slot : Nat) : tokenBase + maxReaderSlots ≤ payloadBlock slot := by
  rw [payloadBlock_eq, show tokenBase = 1152921504606846984 from rfl,
    show maxReaderSlots = 65536 from rfl]
  omega

/-- The tokens lie behind the gate. -/
theorem gate_before : gateOffset + 1 ≤ tokenBase := by
  rw [show tokenBase = 1152921504606846984 from rfl,
    show gateOffset = 1152921504606846976 from rfl]
  omega

/-! ## The table of readers -/

/-- The registered readers: each has a slot of its own and an id of 64 bits. -/
structure ReaderTable where
  readers : List Reader
  slots : (readers.map Reader.slot).Nodup
  bound : ∀ r ∈ readers, r.slot < maxReaderSlots
  ids : ∀ r ∈ readers, r.txId < 2 ^ 64

/-- The locks on the file: those of the readers, and that on the gate when somebody is there. -/
def ReaderTable.locks (T : ReaderTable) (gated : Bool) : List LockRange :=
  (if gated then [⟨gateOffset, 1⟩] else []) ++ T.readers.flatMap fun r => [r.token, r.payload]

theorem ReaderTable.mem_locks {T : ReaderTable} {gated : Bool} {lock : LockRange}
    (h : lock ∈ T.locks gated) :
    lock = ⟨gateOffset, 1⟩ ∨ ∃ r ∈ T.readers, lock = r.token ∨ lock = r.payload := by
  rcases List.mem_append.mp h with hgate | hreader
  · split_ifs at hgate
    · exact .inl (List.mem_singleton.mp hgate)
    · cases hgate
  · obtain ⟨r, hr, hlock⟩ := List.mem_flatMap.mp hreader
    exact .inr ⟨r, hr, by simpa using hlock⟩

theorem ReaderTable.token_mem {T : ReaderTable} {r : Reader} (hr : r ∈ T.readers) (gated : Bool) :
    r.token ∈ T.locks gated :=
  List.mem_append_right _ (List.mem_flatMap.mpr ⟨r, hr, by simp⟩)

theorem ReaderTable.payload_mem {T : ReaderTable} {r : Reader} (hr : r ∈ T.readers)
    (gated : Bool) : r.payload ∈ T.locks gated :=
  List.mem_append_right _ (List.mem_flatMap.mpr ⟨r, hr, by simp⟩)

/-- The answers are locks in the way, and there is an answer whenever there is such a lock. -/
structure Tells (locks : List LockRange) (getLock : GetLock) : Prop where
  found : ∀ n start length lock, getLock n start length = some lock →
    lock ∈ locks ∧ lock.Overlaps ⟨start, length⟩
  missing : ∀ n start length, getLock n start length = none →
    ∀ lock ∈ locks, ¬ lock.Overlaps ⟨start, length⟩

section Search

variable {T : ReaderTable} {gated : Bool} {getLock : GetLock}

/-- A lock in the way of a range of tokens is a token. -/
theorem Tells.token (h : Tells (T.locks gated) getLock) {n start length : Nat} {lock : LockRange}
    (hlow : tokenBase ≤ start) (hhigh : start + length ≤ tokenBase + maxReaderSlots)
    (hlock : getLock n start length = some lock) :
    ∃ r ∈ T.readers, lock = r.token ∧ start ≤ tokenOffset r.slot ∧
      tokenOffset r.slot < start + length := by
  obtain ⟨hmem, hbelow, habove⟩ := h.found n start length lock hlock
  rcases T.mem_locks hmem with rfl | ⟨r, hr, rfl | rfl⟩
  · have hgate := gate_before
    have hstop : start < gateOffset + 1 := habove
    omega
  · have hstart : start < tokenOffset r.slot + 1 := habove
    have hstop : tokenOffset r.slot < start + length := hbelow
    exact ⟨r, hr, rfl, by omega, hstop⟩
  · have hbehind := block_behind r.slot
    have hblock := @encodeTxId_block r.slot r.txId (T.ids r hr)
    have hstop : (encodeTxId r.slot r.txId).start < start + length := hbelow
    omega

/-- The slots whose tokens are in a range. -/
def heldIn (T : ReaderTable) (range : Nat × Nat) : List Nat :=
  (T.readers.map Reader.slot).filter fun s =>
    decide (range.1 ≤ tokenOffset s ∧ tokenOffset s < range.2)

theorem mem_heldIn {range : Nat × Nat} {s : Nat} :
    s ∈ heldIn T range ↔
      s ∈ T.readers.map Reader.slot ∧ range.1 ≤ tokenOffset s ∧ tokenOffset s < range.2 := by
  rw [heldIn, List.mem_filter, decide_eq_true_eq]

theorem nodup_heldIn (T : ReaderTable) (range : Nat × Nat) : (heldIn T range).Nodup :=
  T.slots.filter _

/-- Around one of its slots a range falls into two. -/
theorem heldIn_perm {start stop s : Nat} (hs : s ∈ heldIn T (start, stop)) :
    (heldIn T (start, stop)).Perm
      (s :: (heldIn T (tokenOffset s + 1, stop) ++ heldIn T (start, tokenOffset s))) := by
  have htoken : ∀ x, tokenOffset x = tokenBase + x := fun _ => rfl
  refine (List.perm_ext_iff_of_nodup (nodup_heldIn T _) ?_).mpr fun x => ?_
  · refine List.nodup_cons.mpr ⟨fun hmem => ?_, List.nodup_append'.mpr
      ⟨nodup_heldIn T _, nodup_heldIn T _, fun x hx hx' => ?_⟩⟩
    · rcases List.mem_append.mp hmem with h | h
      · have hlow := (mem_heldIn.mp h).2.1
        omega
      · have hhigh := (mem_heldIn.mp h).2.2
        omega
    · have hlow := (mem_heldIn.mp hx).2.1
      have hhigh := (mem_heldIn.mp hx').2.2
      omega
  · have hself := mem_heldIn.mp hs
    simp only [List.mem_cons, List.mem_append, mem_heldIn]
    have hx := htoken x
    have hs := htoken s
    constructor
    · rintro ⟨hx, hlow, hhigh⟩
      rcases Nat.lt_trichotomy x s with hlt | heq | hgt
      · exact .inr (.inr ⟨hx, by omega, by omega⟩)
      · exact .inl heq
      · exact .inr (.inl ⟨hx, by omega, by omega⟩)
    · rintro (rfl | ⟨hx, hlow, hhigh⟩ | ⟨hx, hlow, hhigh⟩)
      · exact hself
      · exact ⟨hx, by omega, hhigh⟩
      · exact ⟨hx, hlow, by omega⟩

/-- The rounds that the search of some ranges takes at most. -/
def roundsFor (T : ReaderTable) (ranges : List (Nat × Nat)) : Nat :=
  (ranges.map fun range => 1 + 2 * (heldIn T range).length).sum

theorem roundsFor_cons (range : Nat × Nat) (ranges : List (Nat × Nat)) :
    roundsFor T (range :: ranges) = 1 + 2 * (heldIn T range).length + roundsFor T ranges := by
  simp [roundsFor]

/-- The search of a range without tokens finds nothing. -/
theorem Tells.none_held (h : Tells (T.locks gated) getLock) {n start stop : Nat}
    (hlock : getLock n start (stop - start) = none) (hlt : start < stop) :
    heldIn T (start, stop) = [] := by
  refine List.eq_nil_iff_forall_not_mem.mpr fun s hs => ?_
  obtain ⟨hmem, hlow, hhigh⟩ := mem_heldIn.mp hs
  obtain ⟨r, hr, rfl⟩ := List.mem_map.mp hmem
  refine h.missing n start (stop - start) hlock r.token (T.token_mem hr gated) ⟨?_, ?_⟩
  · show tokenOffset r.slot < start + (stop - start)
    omega
  · show start < tokenOffset r.slot + 1
    omega

/-- **The search ends with the slots found before and those held in its ranges.** -/
theorem lockedTokensLoop_spec (h : Tells (T.locks gated) getLock) (fuel : Nat) :
    ∀ {calls : Nat} {slots : List Nat} {ranges : List (Nat × Nat)},
      (∀ range ∈ ranges, tokenBase ≤ range.1 ∧ range.2 ≤ tokenBase + maxReaderSlots) →
      roundsFor T ranges ≤ fuel →
      ∃ slots' calls', lockedTokensLoop getLock fuel calls slots ranges = .ok (slots', calls') ∧
        slots'.Perm (slots ++ ranges.flatMap (heldIn T)) := by
  induction fuel with
  | zero =>
    intro calls slots ranges hranges hfuel
    cases ranges with
    | nil => exact ⟨slots, calls, rfl, by simp⟩
    | cons range ranges =>
      rw [roundsFor_cons] at hfuel
      omega
  | succ fuel ih =>
    intro calls slots ranges hranges hfuel
    cases ranges with
    | nil => exact ⟨slots, calls, rfl, by simp⟩
    | cons range ranges =>
      obtain ⟨start, stop⟩ := range
      obtain ⟨hlow, hhigh⟩ := hranges (start, stop) List.mem_cons_self
      have hrest : ∀ range ∈ ranges, tokenBase ≤ range.1 ∧ range.2 ≤ tokenBase + maxReaderSlots :=
        fun range hrange => hranges range (List.mem_cons_of_mem _ hrange)
      rw [roundsFor_cons] at hfuel
      rw [lockedTokensLoop, List.flatMap_cons]
      by_cases hempty : stop ≤ start
      · have hnone : heldIn T (start, stop) = [] := by
          refine List.eq_nil_iff_forall_not_mem.mpr fun s hs => ?_
          obtain ⟨-, hs', hs''⟩ := mem_heldIn.mp hs
          dsimp only at hs' hs''
          omega
        rw [if_pos hempty, hnone, List.nil_append]
        exact ih hrest (by omega)
      · rw [if_neg hempty]
        cases hlock : getLock calls start (stop - start) with
        | none =>
          rw [h.none_held hlock (by omega), List.nil_append]
          exact ih hrest (by omega)
        | some lock =>
          obtain ⟨r, hr, rfl, hstart, hstop⟩ := h.token hlow (by omega) hlock
          have htoken : tokenOffset r.slot = tokenBase + r.slot := rfl
          have hbase : tokenBase + maxReaderSlots = 1152921504606912520 := rfl
          have hself : r.slot ∈ heldIn T (start, stop) :=
            mem_heldIn.mpr ⟨List.mem_map_of_mem hr, hstart, by omega⟩
          have hperm := heldIn_perm hself
          have hlength := hperm.length_eq
          rw [List.length_cons, List.length_append] at hlength
          have hrangeEnd : r.token.stop = tokenOffset r.slot + 1 := rfl
          have hrangeStart : r.token.start = tokenOffset r.slot := rfl
          dsimp only
          rw [hrangeEnd, hrangeStart, if_neg (by omega), if_neg (by omega)]
          obtain ⟨slots', calls', hrun, hslots⟩ := @ih (calls + 1)
            (slots ++ [tokenOffset r.slot - tokenBase])
            ((tokenOffset r.slot + 1, stop) :: (start, tokenOffset r.slot) :: ranges)
            (by
              intro range hrange
              rcases List.mem_cons.mp hrange with rfl | hrange
              · exact ⟨by dsimp only; omega, hhigh⟩
              · rcases List.mem_cons.mp hrange with rfl | hrange
                · exact ⟨hlow, by dsimp only; omega⟩
                · exact hrest range hrange)
            (by
              rw [roundsFor_cons, roundsFor_cons]
              omega)
          refine ⟨slots', calls', hrun, hslots.trans ?_⟩
          rw [htoken, Nat.add_sub_cancel_left, ← htoken, List.append_assoc, List.flatMap_cons,
            List.flatMap_cons, ← List.append_assoc (heldIn T _)]
          refine List.Perm.append_left slots ?_
          exact (hperm.symm.append_right _)

theorem lockedTokens_spec (h : Tells (T.locks gated) getLock) {fuel : Nat}
    (hfuel : 1 + 2 * T.readers.length ≤ fuel) :
    ∃ slots calls, lockedTokens getLock fuel = .ok (slots, calls) ∧
      slots.Perm (T.readers.map Reader.slot) := by
  have hall : heldIn T (tokenBase, tokenBase + maxReaderSlots) = T.readers.map Reader.slot := by
    refine List.filter_eq_self.mpr fun s hs => ?_
    obtain ⟨r, hr, rfl⟩ := List.mem_map.mp hs
    have hbound := T.bound r hr
    have htoken : tokenOffset r.slot = tokenBase + r.slot := rfl
    rw [decide_eq_true_eq]
    omega
  obtain ⟨slots, calls, hrun, hperm⟩ := @lockedTokensLoop_spec T gated getLock h fuel 0 []
    [(tokenBase, tokenBase + maxReaderSlots)]
    (fun range hrange => by rw [List.mem_singleton.mp hrange]; exact ⟨le_rfl, le_rfl⟩)
    (by
      rw [roundsFor_cons, hall, List.length_map]
      exact hfuel)
  refine ⟨slots, calls, hrun, ?_⟩
  simpa [hall] using hperm

/-- The lock in the block of a slot is that of the reader who has it. -/
theorem Tells.payload (h : Tells (T.locks gated) getLock) {r : Reader} (hr : r ∈ T.readers)
    (n : Nat) : getLock n (payloadBlock r.slot) payloadStride = some r.payload := by
  have hblock := @encodeTxId_block r.slot r.txId (T.ids r hr)
  have hself : r.payload.Overlaps ⟨payloadBlock r.slot, payloadStride⟩ := by
    refine ⟨?_, ?_⟩
    · show (encodeTxId r.slot r.txId).start < payloadBlock r.slot + payloadStride
      omega
    · show payloadBlock r.slot < (encodeTxId r.slot r.txId).stop
      omega
  cases hlock : getLock n (payloadBlock r.slot) payloadStride with
  | none => exact absurd hself (h.missing _ _ _ hlock _ (T.payload_mem hr gated))
  | some lock =>
    obtain ⟨hmem, hbelow, habove⟩ := h.found _ _ _ _ hlock
    have hbehind := block_behind r.slot
    have hgate := gate_before
    rcases T.mem_locks hmem with rfl | ⟨r', hr', rfl | rfl⟩
    · have hstop : payloadBlock r.slot < gateOffset + 1 := habove
      omega
    · have hstop : payloadBlock r.slot < tokenOffset r'.slot + 1 := habove
      have htoken : tokenOffset r'.slot = tokenBase + r'.slot := rfl
      have hbound := T.bound r' hr'
      omega
    · have hblock' := @encodeTxId_block r'.slot r'.txId (T.ids r' hr')
      have hstart : (encodeTxId r'.slot r'.txId).start < payloadBlock r.slot + payloadStride :=
        hbelow
      have hstop : payloadBlock r.slot < (encodeTxId r'.slot r'.txId).stop := habove
      rcases Nat.lt_trichotomy r.slot r'.slot with hlt | heq | hgt
      · have hapart := blocks_apart hlt
        omega
      · rw [List.inj_on_of_nodup_map T.slots hr hr' heq]
      · have hapart := blocks_apart hgt
        omega

/-- What `readers` keeps as the oldest transaction. -/
def oldestOf (oldest : Option Nat) (ids : List Nat) : Option Nat :=
  ids.foldl (fun o id => some (o.elim id fun current => min current id)) oldest

theorem oldestOf_none (ids : List Nat) : oldestOf none ids = ids.min? := by
  have hsome : ∀ (ids : List Nat) (m : Nat), oldestOf (some m) ids = some (ids.foldl min m) := by
    intro ids
    induction ids with
    | nil => exact fun _ => rfl
    | cons id ids ih => exact fun m => ih (min m id)
  cases ids with
  | nil => rfl
  | cons id ids =>
    rw [List.min?_cons']
    exact hsome ids id

theorem readersStep_spec (h : Tells (T.locks gated) getLock) {r : Reader} (hr : r ∈ T.readers)
    (calls count : Nat) (oldest : Option Nat) :
    readersStep getLock (calls, count, oldest) r.slot =
      .ok (calls + 1, count + 1,
        some (oldest.elim r.txId fun current => min current r.txId)) := by
  have hdecode : decodeTxId (payloadBlock r.slot) (encodeTxId r.slot r.txId) = .ok r.txId :=
    decodeTxId_encodeTxId (T.ids r hr)
  rw [readersStep]
  simp only [h.payload hr, Reader.payload, hdecode]

theorem readersLoop_spec (h : Tells (T.locks gated) getLock) (rs : List Reader)
    (hrs : ∀ r ∈ rs, r ∈ T.readers) :
    ∀ (calls count : Nat) (oldest : Option Nat),
      (rs.map Reader.slot).foldlM (readersStep getLock) (calls, count, oldest) =
        .ok (calls + rs.length, count + rs.length, oldestOf oldest (rs.map Reader.txId)) := by
  induction rs with
  | nil => exact fun _ _ _ => rfl
  | cons r rs ih =>
    intro calls count oldest
    rw [List.map_cons, List.foldlM_cons, readersStep_spec h (hrs r List.mem_cons_self)]
    show (rs.map Reader.slot).foldlM (readersStep getLock) _ = _
    rw [ih fun r' hr' => hrs r' (List.mem_cons_of_mem _ hr'), List.length_cons, Nat.add_assoc,
      Nat.add_assoc, Nat.add_comm 1]
    rfl

/-- Slots in another order are those of the readers in another order. -/
theorem exists_readers {slots : List Nat} (h : slots.Perm (T.readers.map Reader.slot)) :
    ∃ rs : List Reader, rs.Perm T.readers ∧ rs.map Reader.slot = slots := by
  have hall : ∀ s ∈ slots, ∃ r ∈ T.readers, r.slot = s := fun s hs =>
    List.mem_map.mp (h.mem_iff.mp hs)
  obtain ⟨rs, hmap, hmem⟩ : ∃ rs : List Reader, rs.map Reader.slot = slots ∧
      ∀ r ∈ rs, r ∈ T.readers := by
    clear h
    induction slots with
    | nil => exact ⟨[], rfl, by simp⟩
    | cons s slots ih =>
      obtain ⟨r, hr, hslot⟩ := hall s List.mem_cons_self
      obtain ⟨rs, hmap, hmem⟩ := ih fun s' hs' => hall s' (List.mem_cons_of_mem _ hs')
      refine ⟨r :: rs, by rw [List.map_cons, hslot, hmap], fun r' hr' => ?_⟩
      rcases List.mem_cons.mp hr' with rfl | hr'
      · exact hr
      · exact hmem r' hr'
  have hnodup : rs.Nodup := by
    refine List.Nodup.of_map Reader.slot ?_
    rw [hmap]
    exact h.nodup_iff.mpr T.slots
  have hlength : rs.length = T.readers.length := by
    rw [← List.length_map (f := Reader.slot), hmap, h.length_eq, List.length_map]
  exact ⟨rs, (List.subperm_of_subset hnodup hmem).perm_of_length_le hlength.ge, hmap⟩

theorem readers_spec (h : Tells (T.locks gated) getLock) {fuel : Nat}
    (hfuel : 1 + 2 * T.readers.length ≤ fuel) :
    readers getLock fuel = .ok (T.readers.length, (T.readers.map Reader.txId).min?) := by
  obtain ⟨slots, calls, hrun, hperm⟩ := lockedTokens_spec h hfuel
  -- the readers in the order in which their slots were found
  obtain ⟨rs, hrs, rfl⟩ := exists_readers hperm
  have hloop := readersLoop_spec h rs (fun r hr => hrs.mem_iff.mp hr) calls 0 none
  have hmin : (rs.map Reader.txId).min? = (T.readers.map Reader.txId).min? := by
    refine Option.ext fun m => ?_
    rw [List.min?_eq_some_iff, List.min?_eq_some_iff]
    simp only [(hrs.map Reader.txId).mem_iff]
  rw [readers, hrun]
  show ((rs.map Reader.slot).foldlM (readersStep getLock) (calls, 0, none) >>= _) = _
  rw [hloop, oldestOf_none, hmin, Nat.zero_add, hrs.length_eq]
  rfl

end Search

/-! ## Registering -/

theorem tokens_overlap {slot slot' : Nat} :
    (⟨tokenOffset slot, 1⟩ : LockRange).Overlaps ⟨tokenOffset slot', 1⟩ ↔ slot = slot' := by
  have hslot := tokenOffset_eq slot
  have hslot' := tokenOffset_eq slot'
  constructor
  · rintro ⟨hbelow, habove⟩
    have hstop : tokenOffset slot < tokenOffset slot' + 1 := hbelow
    have hstop' : tokenOffset slot' < tokenOffset slot + 1 := habove
    omega
  · rintro rfl
    exact ⟨Nat.lt_succ_self _, Nat.lt_succ_self _⟩

/-- A token and the range of a transaction have nothing in common. -/
theorem token_payload_apart {slot : Nat} (hslot : slot < maxReaderSlots) (r : Reader) :
    ¬ (⟨tokenOffset slot, 1⟩ : LockRange).Overlaps r.payload := by
  rintro ⟨-, habove⟩
  have hstop : (encodeTxId r.slot r.txId).start < tokenOffset slot + 1 := habove
  rw [encodeTxId_eq] at hstop
  have hbehind := block_behind r.slot
  have htoken : tokenOffset slot = tokenBase + slot := rfl
  dsimp only at hstop
  omega

section Register

variable (T : ReaderTable)

theorem taken_iff {slot : Nat} (hslot : slot < maxReaderSlots) :
    (T.readers.any fun r => decide ((⟨tokenOffset slot, 1⟩ : LockRange).Overlaps r.token ∨
      (⟨tokenOffset slot, 1⟩ : LockRange).Overlaps r.payload)) = true ↔
    slot ∈ T.readers.map Reader.slot := by
  rw [List.any_eq_true, List.mem_map]
  refine exists_congr fun r => and_congr_right fun _ => ?_
  rw [decide_eq_true_eq, or_iff_left (token_payload_apart hslot r)]
  exact tokens_overlap.trans eq_comm

theorem registerLoop_spec {first txId : Nat} (left : Nat) :
    ∀ {attempt : Nat},
      (∃ slot, registerLoop T.readers first txId attempt left = .ok ⟨slot, txId⟩ ∧
        slot < maxReaderSlots ∧ slot ∉ T.readers.map Reader.slot) ∨
      (registerLoop T.readers first txId attempt left =
          .error (.sync "reader registration table is full") ∧
        ∀ i, attempt ≤ i → i < attempt + left →
          (first + i) % maxReaderSlots ∈ T.readers.map Reader.slot) := by
  induction left with
  | zero =>
    intro attempt
    exact .inr ⟨rfl, fun i hlow hhigh => absurd hhigh (by omega)⟩
  | succ left ih =>
    intro attempt
    have hslot : (first + attempt) % maxReaderSlots < maxReaderSlots :=
      Nat.mod_lt _ (by decide)
    rw [registerLoop]
    by_cases htaken : (first + attempt) % maxReaderSlots ∈ T.readers.map Reader.slot
    · rw [if_pos ((taken_iff T hslot).mpr htaken)]
      rcases @ih (attempt + 1) with hok | ⟨hfull, hall⟩
      · exact .inl hok
      · refine .inr ⟨hfull, fun i hlow hhigh => ?_⟩
        by_cases hi : i = attempt
        · rwa [hi]
        · exact hall i (by omega) (by omega)
    · have hfree : ¬ (T.readers.any fun r =>
          decide ((encodeTxId ((first + attempt) % maxReaderSlots) txId).Overlaps r.token)) =
          true := by
        rw [List.any_eq_true]
        rintro ⟨r, hr, hover⟩
        obtain ⟨hbelow, habove⟩ := of_decide_eq_true hover
        exact token_payload_apart (T.bound r hr) ⟨_, txId⟩ ⟨habove, hbelow⟩
      rw [if_neg (fun h => htaken ((taken_iff T hslot).mp h)), if_neg hfree]
      exact .inl ⟨_, rfl, hslot, htaken⟩

/-- A reader gets a slot that nobody has, unless all slots are taken. -/
theorem register_spec (counter txId : Nat) :
    (∃ slot, register T.readers counter txId = .ok ⟨slot, txId⟩ ∧ slot < maxReaderSlots ∧
      slot ∉ T.readers.map Reader.slot) ∨
    (register T.readers counter txId = .error (.sync "reader registration table is full") ∧
      ∀ slot < maxReaderSlots, slot ∈ T.readers.map Reader.slot) := by
  have hmax : 0 < maxReaderSlots := by decide
  have hfirst : counter % maxReaderSlots < maxReaderSlots := Nat.mod_lt _ hmax
  rcases registerLoop_spec T maxReaderSlots with hok | ⟨hfull, hall⟩
  · exact .inl hok
  · refine .inr ⟨hfull, fun slot hslot => ?_⟩
    have hwrap := hall (if counter % maxReaderSlots ≤ slot then slot - counter % maxReaderSlots
      else slot + maxReaderSlots - counter % maxReaderSlots) (Nat.zero_le _)
      (by split_ifs <;> omega)
    split_ifs at hwrap with hle
    · rwa [Nat.add_sub_cancel' hle, Nat.mod_eq_of_lt hslot] at hwrap
    · rwa [Nat.add_sub_cancel' (by omega), Nat.add_mod_right, Nat.mod_eq_of_lt hslot] at hwrap

end Register

/-- The readers after registrations, with ids of 64 bits, and after readers have left. -/
inductive Registered : List Reader → Prop
  | none : Registered []
  | register {held : List Reader} {counter txId : Nat} {r : Reader} (h : Registered held)
      (hid : txId < 2 ^ 64) (hr : register held counter txId = .ok r) : Registered (r :: held)
  | leave {held rest : List Reader} (h : Registered held) (hrest : rest.Sublist held) :
      Registered rest

/-- They make up a table. -/
theorem Registered.table {held : List Reader} (h : Registered held) :
    ∃ T : ReaderTable, T.readers = held := by
  induction h with
  | none => exact ⟨⟨[], List.nodup_nil, by simp, by simp⟩, rfl⟩
  | @register held counter txId r h hid hr ih =>
    obtain ⟨T, rfl⟩ := ih
    rcases register_spec T counter txId with ⟨slot, hok, hslot, hnew⟩ | ⟨hfull, -⟩
    · rw [hok] at hr
      obtain rfl := Except.ok.inj hr
      refine ⟨⟨⟨slot, txId⟩ :: T.readers, List.nodup_cons.mpr ⟨hnew, T.slots⟩,
        List.forall_mem_cons.mpr ⟨hslot, T.bound⟩, List.forall_mem_cons.mpr ⟨hid, T.ids⟩⟩, rfl⟩
    · rw [hfull] at hr
      cases hr
  | leave h hrest ih =>
    obtain ⟨T, rfl⟩ := ih
    exact ⟨⟨_, T.slots.sublist (hrest.map _), fun r hr => T.bound r (hrest.subset hr),
      fun r hr => T.ids r (hrest.subset hr)⟩, rfl⟩

/-! ## The search as a whole -/

/-- **Reader enumeration is exact.**  Whatever locks in the way are answered, the search ends with
each held slot once; the ranges of transactions are apart from each other, from the tokens and from
the gate; every id of 64 bits is read back; and the readers are counted, with the oldest
transaction among them. -/
theorem reader_enumeration_exact (T : ReaderTable) (gated : Bool) {getLock : GetLock}
    (h : Tells (T.locks gated) getLock) :
    (∃ N, ∀ fuel ≥ N, ∃ slots calls, lockedTokens getLock fuel = .ok (slots, calls) ∧
      slots.Nodup ∧ slots.Perm (T.readers.map Reader.slot)) ∧
    (∀ r ∈ T.readers, ∀ r' ∈ T.readers, r.slot ≠ r'.slot → ¬ r.payload.Overlaps r'.payload) ∧
    (∀ r ∈ T.readers, ¬ r.payload.Overlaps ⟨tokenBase, maxReaderSlots⟩ ∧
      ¬ r.payload.Overlaps ⟨gateOffset, 1⟩) ∧
    (∀ slot txId, txId < 2 ^ 64 →
      decodeTxId (payloadBlock slot) (encodeTxId slot txId) = .ok txId) ∧
    ∃ N, ∀ fuel ≥ N,
      readers getLock fuel = .ok (T.readers.length, (T.readers.map Reader.txId).min?) := by
  refine ⟨⟨1 + 2 * T.readers.length, fun fuel hfuel => ?_⟩, fun r hr r' hr' hne => ?_,
    fun r hr => ?_, fun slot txId hid => decodeTxId_encodeTxId hid,
    ⟨1 + 2 * T.readers.length, fun fuel hfuel => readers_spec h hfuel⟩⟩
  · obtain ⟨slots, calls, hrun, hperm⟩ := lockedTokens_spec h hfuel
    exact ⟨slots, calls, hrun, hperm.nodup_iff.mpr T.slots, hperm⟩
  · exact payloads_apart hne (T.ids r hr) (T.ids r' hr')
  · have hblock := @encodeTxId_block r.slot r.txId (T.ids r hr)
    have hbehind := block_behind r.slot
    have hgate := gate_before
    constructor
    · rintro ⟨hbelow, -⟩
      have hstop : (encodeTxId r.slot r.txId).start < tokenBase + maxReaderSlots := hbelow
      omega
    · rintro ⟨hbelow, -⟩
      have hstop : (encodeTxId r.slot r.txId).start < gateOffset + 1 := hbelow
      omega

/-- Three readers, one of them with the largest id. -/
def threeReaders : ReaderTable where
  readers := [⟨7, 5⟩, ⟨0, 2 ^ 64 - 1⟩, ⟨65535, 3⟩]
  slots := by decide
  bound := by decide
  ids := by decide

/-- The first lock of a list that is in the way. -/
def firstLock (locks : List LockRange) : GetLock := fun _ start length =>
  locks.find? fun lock => decide (lock.Overlaps ⟨start, length⟩)

theorem firstLock_tells (locks : List LockRange) : Tells locks (firstLock locks) where
  found n start length lock hlock := by
    have hover := List.find?_some hlock
    exact ⟨List.mem_of_find?_eq_some hlock, by simpa using hover⟩
  missing n start length hlock lock hmem := by
    have hnot := List.find?_eq_none.mp hlock lock hmem
    simpa using hnot

/-- They are counted, and 3 is the oldest transaction. -/
theorem reader_enumeration_three :
    ∃ N, ∀ fuel ≥ N, readers (firstLock (threeReaders.locks true)) fuel = .ok (3, some 3) := by
  exact (reader_enumeration_exact threeReaders true (firstLock_tells _)).2.2.2.2

/-- **Whatever readers have come and gone, a reader is registered exactly while a slot is free, in a
slot that nobody else has, and the writer counts the readers there are and finds the oldest.** -/
theorem registered_readers_counted {held : List Reader} (h : Registered held) :
    (∀ counter txId, held.length < maxReaderSlots ↔
      ∃ r, register held counter txId = .ok r ∧ r.txId = txId ∧ r.slot < maxReaderSlots ∧
        r.slot ∉ held.map Reader.slot) ∧
    ∃ T : ReaderTable, T.readers = held ∧ ∀ gated getLock, Tells (T.locks gated) getLock →
      ∃ N, ∀ fuel ≥ N, readers getLock fuel = .ok (held.length, (held.map Reader.txId).min?) := by
  obtain ⟨T, rfl⟩ := h.table
  refine ⟨fun counter txId => ⟨fun hroom => ?_, ?_⟩, T, rfl, fun gated getLock hlocks =>
    ⟨1 + 2 * T.readers.length, fun fuel hfuel => readers_spec hlocks hfuel⟩⟩
  · rcases register_spec T counter txId with ⟨slot, hok, hslot, hnew⟩ | ⟨-, hall⟩
    · exact ⟨_, hok, rfl, hslot, hnew⟩
    · -- all slots are taken by different readers
      have hslots := (List.subperm_of_subset List.nodup_range fun slot hslot =>
        hall slot (List.mem_range.mp hslot)).length_le
      rw [List.length_range, List.length_map] at hslots
      omega
  · rintro ⟨r, -, -, hslot, hnew⟩
    have hsub : r.slot :: T.readers.map Reader.slot ⊆ List.range maxReaderSlots := by
      refine List.cons_subset.mpr ⟨List.mem_range.mpr hslot, fun slot hmem => ?_⟩
      obtain ⟨r', hr', rfl⟩ := List.mem_map.mp hmem
      exact List.mem_range.mpr (T.bound r' hr')
    have hslots := (List.subperm_of_subset (List.nodup_cons.mpr ⟨hnew, T.slots⟩) hsub).length_le
    rw [List.length_range, List.length_cons, List.length_map] at hslots
    omega

/-- A reader of transaction 3 and then one of transaction 5. -/
theorem registered_readers_two :
    Registered [⟨1, 5⟩, ⟨0, 3⟩] ∧ ∃ T : ReaderTable, T.readers = [⟨1, 5⟩, ⟨0, 3⟩] ∧
      ∃ N, ∀ fuel ≥ N, readers (firstLock (T.locks true)) fuel = .ok (2, some 3) := by
  have hfirst : register [] 0 3 = .ok ⟨0, 3⟩ := by rfl
  have hsecond : register [⟨0, 3⟩] 1 5 = .ok ⟨1, 5⟩ := by rfl
  have h := (Registered.none.register (by decide) hfirst).register (by decide) hsecond
  obtain ⟨-, T, hT, hcount⟩ := registered_readers_counted h
  exact ⟨h, T, hT, hcount true _ (firstLock_tells _)⟩

end Tagdata.Analysis
