import Tagdata.Model.Data

/-!
# Reader coordination

`coordination/ofd.rs`: a reader holds two locks on ranges of offsets behind the end of the data
file, one byte that takes its slot and a range whose place and length spell the id of its
transaction.  Writers find the readers by asking for locks in the way of a range.

Locks of different registrations belong to different open files, so they never merge.  The answer
to a question is one of the locks in the way; which one is left open, and may differ from call to
call.
-/

set_option autoImplicit false

namespace Tagdata.Model

namespace Coordination

/-- `LOCK_BASE`. -/
def lockBase : Nat := 1 <<< 60

/-- `GATE_OFFSET`. -/
def gateOffset : Nat := lockBase

/-- `TOKEN_BASE`. -/
def tokenBase : Nat := lockBase + 8

/-- `MAX_READER_SLOTS`. -/
def maxReaderSlots : Nat := 65536

/-- `PAYLOAD_BASE`. -/
def payloadBase : Nat := lockBase + 1 <<< 20

/-- `PAYLOAD_STRIDE`. -/
def payloadStride : Nat := 1 <<< 33

/-- `LOW_MASK`. -/
def lowMask : Nat := 2 ^ 32 - 1

/-- `LockRange`. -/
structure LockRange where
  start : Nat
  length : Nat
deriving DecidableEq, Repr

/-- The first offset behind the range. -/
def LockRange.stop (r : LockRange) : Nat := r.start + r.length

/-- Two ranges have an offset in common. -/
def LockRange.Overlaps (r r' : LockRange) : Prop := r.start < r'.stop ∧ r'.start < r.stop

instance (r r' : LockRange) : Decidable (r.Overlaps r') := inferInstanceAs (Decidable (_ ∧ _))

/-- `token_offset`. -/
def tokenOffset (slot : Nat) : Nat := tokenBase + slot

/-- `payload_block`. -/
def payloadBlock (slot : Nat) : Nat := payloadBase + payloadStride * slot

/-- `encode_tx_id`. -/
def encodeTxId (slot txId : Nat) : LockRange :=
  let low := txId &&& lowMask
  let high := txId >>> 32 + 1
  ⟨payloadBlock slot + low, high⟩

/-- `decode_tx_id`. -/
def decodeTxId (block : Nat) (lock : LockRange) : Except Error Nat :=
  if block ≤ lock.start ∧ lock.start - block ≤ lowMask then
    let low := lock.start - block
    if 1 ≤ lock.length ∧ lock.length - 1 ≤ lowMask then
      let high := lock.length - 1
      .ok (high <<< 32 ||| low)
    else .error (.invalidDB "invalid reader transaction lock length")
  else .error (.invalidDB "invalid reader transaction lock offset")

/-- `get_lock`: what the `n`-th call answers for a start and a length. -/
abbrev GetLock := Nat → Nat → Nat → Option LockRange

/-- The loop of `locked_tokens`: the calls made, the slots found and the ranges to search, the
last one pushed first. -/
def lockedTokensLoop (getLock : GetLock) :
    Nat → Nat → List Nat → List (Nat × Nat) → Except Fault (List Nat × Nat)
  | _, calls, slots, [] => .ok (slots, calls)
  | 0, _, _, _ :: _ => .error .diverge
  | fuel + 1, calls, slots, (start, stop) :: ranges =>
      if stop ≤ start then lockedTokensLoop getLock fuel calls slots ranges
      else
        match getLock calls start (stop - start) with
        | none => lockedTokensLoop getLock fuel (calls + 1) slots ranges
        | some lock =>
            if 2 ^ 64 ≤ lock.stop then
              .error (.error (.invalidDB "reader coordination lock range overflowed"))
            else if lock.start < tokenBase ∨ tokenBase + maxReaderSlots < lock.stop then
              .error (.error (.invalidDB "reader coordination lock escaped the token region"))
            else
              lockedTokensLoop getLock fuel (calls + 1) (slots ++ [lock.start - tokenBase])
                ((lock.stop, stop) :: (start, lock.start) :: ranges)

/-- `locked_tokens`: the slots found, and the calls made. -/
def lockedTokens (getLock : GetLock) (fuel : Nat) : Except Fault (List Nat × Nat) :=
  lockedTokensLoop getLock fuel 0 [] [(tokenBase, tokenBase + maxReaderSlots)]

/-- The body of the loop of `readers`: the calls made, the readers counted and the oldest
transaction. -/
def readersStep (getLock : GetLock) (s : Nat × Nat × Option Nat) (slot : Nat) :
    Except Fault (Nat × Nat × Option Nat) :=
  let (calls, count, oldest) := s
  let block := payloadBlock slot
  match getLock calls block payloadStride with
  | none => .ok (calls + 1, count, oldest)
  | some lock =>
      match decodeTxId block lock with
      | .error e => .error (.error e)
      | .ok txId =>
          .ok (calls + 1, count + 1, some (oldest.elim txId fun current => min current txId))

/-- `readers`. -/
def readers (getLock : GetLock) (fuel : Nat) : Except Fault (Nat × Option Nat) := do
  let (slots, calls) ← lockedTokens getLock fuel
  let (_, count, oldest) ← slots.foldlM (readersStep getLock) (calls, 0, none)
  return (count, oldest)

/-! ## Registrations -/

/-- A registered reader. -/
structure Reader where
  slot : Nat
  txId : Nat
deriving DecidableEq, Repr

/-- The byte that takes the slot; the lock is exclusive. -/
def Reader.token (r : Reader) : LockRange := ⟨tokenOffset r.slot, 1⟩

/-- The range that spells the transaction; the lock is shared. -/
def Reader.payload (r : Reader) : LockRange := encodeTxId r.slot r.txId

/-- The loop of `register`: the slots from `first` on, for as many attempts as are left.  A token
can be taken when no lock is in its way.  The lock on the payload is shared, so that only an
exclusive one would be in its way, and those are on tokens and on the gate. -/
def registerLoop (held : List Reader) (first txId : Nat) : Nat → Nat → Except Error Reader
  | _, 0 => .error (.sync "reader registration table is full")
  | attempt, left + 1 =>
      let slot := (first + attempt) % maxReaderSlots
      let token : LockRange := ⟨tokenOffset slot, 1⟩
      if held.any fun r => token.Overlaps r.token ∨ token.Overlaps r.payload then
        registerLoop held first txId (attempt + 1) left
      else if held.any fun r => (encodeTxId slot txId).Overlaps r.token then .error .io
      else .ok ⟨slot, txId⟩

/-- `register`, with the counter that chooses the first slot. -/
def register (held : List Reader) (counter txId : Nat) : Except Error Reader :=
  registerLoop held (counter % maxReaderSlots) txId 0 maxReaderSlots

end Coordination

end Tagdata.Model
