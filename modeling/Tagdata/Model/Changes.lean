import Tagdata.Library.Runs
import Tagdata.Model.Data

/-!
# Change sets and the subscriptions that receive them

`changes.rs`: the changes a write transaction records, the filters of a subscription, and the
hub that hands every committed change set to the subscriptions.

A subscription is kept as one record for both of its halves: the sender in the list of the hub
and the receiver of the caller share a bounded channel and a cell with the terminal error.  The
standard channel is a FIFO queue; its `try_send` fails exactly when the queue is full or the
receiver was dropped, and `recv` fails when the queue is empty and the sender was dropped.
-/

set_option autoImplicit false

namespace Tagdata.Model

/-- The bytes of an ASCII literal. -/
def ascii (s : String) : Bytes := s.toList.map fun c => UInt8.ofNat c.toNat

/-- `TTL_BUCKET`. -/
def ttlBucket : Bytes := 0 :: ascii "tagdata.ttl.lookup"

/-- `TTL_DEADLINES_BUCKET`. -/
def ttlDeadlinesBucket : Bytes := 0 :: ascii "tagdata.ttl.deadlines"

/-- `JOURNAL_BUCKET`. -/
def journalBucket : Bytes := 0 :: ascii "tagdata.journal"

/-- `MAX_CHANGES`. -/
def maxChanges : Nat := 4096

/-- `MAX_CHANGE_BYTES`. -/
def maxChangeBytes : Nat := 4 * 1024 * 1024

/-- What was done to a key. -/
inductive ChangeOperation where
  | put
  | delete
  | bucketCreate
  | bucketDelete
  | expire
deriving DecidableEq, Repr

/-- A change, with the path of the bucket it was made in. -/
structure Change where
  bucketPath : List Bytes
  key : Bytes
  operation : ChangeOperation
deriving DecidableEq, Repr

/-- The changes of one transaction. -/
structure ChangeSet where
  transactionId : Nat
  changes : List Change
  truncated : Bool
deriving DecidableEq, Repr

/-- What a receiver gets instead of a set. -/
inductive WatchError where
  | empty
  | overflow
  | disconnected
deriving DecidableEq, Repr

/-- What a subscriber asks for; an empty list of operations asks for all. -/
structure WatchFilter where
  bucketPath : Option (List Bytes)
  keyPrefix : Option Bytes
  keyRange : Option (Bytes × Bytes)
  operations : List ChangeOperation
deriving DecidableEq, Repr

namespace WatchFilter

/-- `WatchFilter::default`, which selects everything. -/
def default : WatchFilter := ⟨none, none, none, []⟩

/-- `matches`. -/
def «matches» (f : WatchFilter) (change : Change) : Bool :=
  f.bucketPath.all (fun path => path = change.bucketPath) &&
  f.keyPrefix.all (fun start => start.isPrefixOf change.key) &&
  f.keyRange.all (fun range => range.1 ≤ change.key && change.key < range.2) &&
  (f.operations.isEmpty || f.operations.contains change.operation)

/-- What `publish` sends to a subscription: the selected changes, or nothing when none is
selected and the set is complete. -/
def select (f : WatchFilter) (changes : ChangeSet) : Option ChangeSet :=
  let selected := changes.changes.filter f.matches
  if selected.isEmpty && !changes.truncated then none
  else some ⟨changes.transactionId, selected, changes.truncated⟩

end WatchFilter

/-! ## Recording -/

/-- The changes of the transaction at work, and the bytes they take. -/
structure ChangeTracker where
  enabled : Bool
  bytes : Nat
  changes : List Change
  truncated : Bool
deriving DecidableEq, Repr

namespace ChangeTracker

/-- `SharedChangeTracker::new`. -/
def new (enabled : Bool) : ChangeTracker := ⟨enabled, 0, [], false⟩

/-- The names under which nothing is recorded. -/
def reserved (name : Bytes) : Bool :=
  name = ttlBucket || name = ttlDeadlinesBucket || name = journalBucket

/-- `record`. -/
def record (t : ChangeTracker) (path : List Bytes) (key : Bytes) (operation : ChangeOperation) :
    ChangeTracker :=
  if !t.enabled || reserved key || path.any reserved then t
  else
    let bytes := (path.map List.length).sum + key.length
    -- The sum saturates in the source; a saturated sum is above the limit as well.
    if t.changes.length = maxChanges ∨ t.bytes + bytes > maxChangeBytes then
      { t with truncated := true }
    else
      { t with bytes := t.bytes + bytes, changes := t.changes ++ [⟨path, key, operation⟩] }

/-- `finish`; the tracker it empties is not used again. -/
def finish (t : ChangeTracker) (transactionId : Nat) : ChangeSet :=
  ⟨transactionId, t.changes, t.truncated⟩

/-- `snapshot`. -/
def snapshot (t : ChangeTracker) (transactionId : Nat) : ChangeSet :=
  ⟨transactionId, t.changes, t.truncated⟩

end ChangeTracker

/-! ## Subscriptions -/

/-- A `WatchSender` and its `WatchSubscription`. -/
structure Watch where
  filter : WatchFilter
  capacity : Nat
  queue : List ChangeSet
  terminal : Option WatchError
  /-- The hub still holds the sender. -/
  sender : Bool
  /-- The caller still holds the receiver. -/
  receiver : Bool
deriving DecidableEq, Repr

/-- Why a channel does not take a set. -/
inductive TrySendError where
  | full
  | disconnected
deriving DecidableEq, Repr

/-- Why a channel has no set. -/
inductive TryRecvError where
  | empty
  | disconnected
deriving DecidableEq, Repr

namespace Watch

/-- `WatchHub::subscribe`. -/
def subscribe (capacity : Nat) (filter : WatchFilter) : Watch :=
  ⟨filter, max capacity 1, [], none, true, true⟩

/-- `SyncSender::try_send`. -/
def trySend (w : Watch) (set : ChangeSet) : Except TrySendError Watch :=
  if !w.receiver then .error .disconnected
  else if w.queue.length < w.capacity then .ok { w with queue := w.queue ++ [set] }
  else .error .full

/-- What one round of `publish` does to a subscription.  A sender that is not retained is
dropped. -/
def offer (changes : ChangeSet) (w : Watch) : Watch :=
  if !w.sender then w
  else
    match w.filter.select changes with
    | none => w
    | some set =>
        match w.trySend set with
        | .ok w => w
        | .error .full => { w with terminal := some .overflow, sender := false }
        | .error .disconnected => { w with terminal := some .disconnected, sender := false }

/-- `Receiver::try_recv`. -/
def tryRecv (w : Watch) : Except TryRecvError ChangeSet × Watch :=
  match w.queue with
  | set :: queue => (.ok set, { w with queue := queue })
  | [] => (.error (if w.sender then .empty else .disconnected), w)

/-- `Receiver::recv`; it blocks (`none`) while the queue is empty and the sender is there. -/
def recv (w : Watch) : Option (Except Unit ChangeSet × Watch) :=
  match w.queue with
  | set :: queue => some (.ok set, { w with queue := queue })
  | [] => if w.sender then none else some (.error (), w)

/-- `terminal_error`. -/
def terminalError (w : Watch) : WatchError := w.terminal.getD .disconnected

/-- `recv_event`. -/
def recvEvent (w : Watch) : Option (Except WatchError ChangeSet × Watch) :=
  w.recv.map fun r => (r.1.mapError fun _ => w.terminalError, r.2)

/-- `try_recv_event`. -/
def tryRecvEvent (w : Watch) : Except WatchError ChangeSet × Watch :=
  (w.tryRecv.1.mapError fun
    | .empty => .empty
    | .disconnected => w.terminalError, w.tryRecv.2)

end Watch

/-! ## The hub among writers and subscribers -/

/-- A database handle as its subscribers see it.  While `publish` walks over the senders it
holds their lock: `publishing` is the set it hands out and the position it has reached. -/
structure WatchHub where
  txId : Nat
  writer : Option ChangeTracker
  publishing : Option (ChangeSet × Nat)
  watches : List Watch
deriving DecidableEq, Repr

/-- The steps of the threads. -/
inductive WatchAction where
  | begin
  | record (path : List Bytes) (key : Bytes) (operation : ChangeOperation)
  | commit
  | rollback
  | publishNext
  | subscribe (capacity : Nat) (filter : WatchFilter)
  | recvEvent (subscriber : Nat)
  | tryRecvEvent (subscriber : Nat)
  | unsubscribe (subscriber : Nat)
deriving DecidableEq, Repr

/-- What a step made happen. -/
inductive WatchEvent where
  | begun
  | recorded (path : List Bytes) (key : Bytes) (operation : ChangeOperation)
  | committed (set : ChangeSet)
  | rolledBack
  | offered
  | subscribed
  | answered (subscriber : Nat) (answer : Except WatchError ChangeSet)
  | unsubscribed (subscriber : Nat)
deriving DecidableEq

namespace WatchHub

/-- A handle that was just opened. -/
def new (txId : Nat) : WatchHub := ⟨txId, none, none, []⟩

/-- One step; `none` when its thread has to wait. -/
def step (h : WatchHub) : WatchAction → Option (WatchHub × WatchEvent)
  | .begin =>
      match h.writer, h.publishing with
      | none, none => some ({ h with writer := some (.new true) }, .begun)
      | _, _ => none
  | .record path key operation =>
      match h.writer with
      | some t =>
          some ({ h with writer := some (t.record path key operation) },
            .recorded path key operation)
      | none => none
  -- The end of `write_data`: the metadata is on disk and `publish` takes the senders' lock.
  | .commit =>
      match h.writer with
      | some t =>
          let set := t.finish (h.txId + 1)
          some ({ h with txId := h.txId + 1, writer := none, publishing := some (set, 0) },
            .committed set)
      | none => none
  -- A dropped transaction, or one whose `commit` failed before its metadata was written.
  | .rollback =>
      match h.writer with
      | some _ => some ({ h with writer := none }, .rolledBack)
      | none => none
  | .publishNext =>
      match h.publishing with
      | none => none
      | some (set, i) =>
          if i < h.watches.length then
            some ({ h with
              publishing := some (set, i + 1)
              watches := h.watches.modify i (Watch.offer set) }, .offered)
          else some ({ h with publishing := none }, .offered)
  | .subscribe capacity filter =>
      match h.publishing with
      | none => some ({ h with watches := h.watches ++ [.subscribe capacity filter] }, .subscribed)
      | some _ => none
  | .recvEvent i =>
      match h.watches[i]? with
      | none => none
      | some w =>
          if !w.receiver then none
          else
            match w.recvEvent with
            | none => none
            | some (answer, w) => some ({ h with watches := h.watches.set i w }, .answered i answer)
  | .tryRecvEvent i =>
      match h.watches[i]? with
      | none => none
      | some w =>
          if !w.receiver then none
          else
            some ({ h with watches := h.watches.set i w.tryRecvEvent.2 },
              .answered i w.tryRecvEvent.1)
  | .unsubscribe i =>
      match h.watches[i]? with
      | none => none
      | some w =>
          if !w.receiver then none
          else some ({ h with watches := h.watches.set i { w with receiver := false } },
            .unsubscribed i)

/-- Steps one after another, with what they made happen. -/
def run : WatchHub → List WatchAction → Option (WatchHub × List WatchEvent) :=
  Library.runs step

end WatchHub

end Tagdata.Model
