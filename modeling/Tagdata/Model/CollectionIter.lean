import Tagdata.Model.Collections

/-!
# Iterators of a collection

`iter.rs` and the scans of `collection.rs`, on the cursor of the bucket.  The iterators are
written with every step of the cursor they make, since a cursor that is called again after it
reported the end need not report the end again.  The clock stands still during a scan.
-/

set_option autoImplicit false

namespace Tagdata.Model

open Tagdata.Library

/-- `iter.rs: CollectionIter`.  The lookup bucket is a handle that the iterator only reads. -/
structure CollectionIter where
  cursor : Cursor
  expirations : Except Error (Option InnerBucket)
  remaining : Option Nat
  keyPrefix : Option Bytes
  lowerBound : Option (Bytes × Bool)
  upperBound : Option (Bytes × Bool)
  reverse : Bool

/-- `iter.rs: ScanPage`, with the bytes of its `PageToken`. -/
structure ScanPage (K V : Type) where
  items : List (K × V)
  next : Option Bytes
deriving DecidableEq, Repr

/-- An item of an iterator. -/
abbrev Item (K V : Type) := Except CodecError (K × V)

/-- `key_is_live` on the lookup bucket. -/
def InnerBucket.keyIsLive (P : Pages) (fuel : Nat) (expirations : InnerBucket) (key : Bytes)
    (now : SystemTime) : Except Fault Bool :=
  if expirations.deleted then .error (.panic "Cannot get data from a deleted bucket.")
  else do
    match (← expirations.get P fuel key).bind Leaf.kvPair with
    | some (_, bytes) => do
        let deadline ← (decodeExpiration bytes).mapError .error
        let now ← (epochMillis now).mapError .error
        return now < deadline
    | none => return true

/-- The item of a record. -/
def Codec.decode {K V : Type} (codec : Codec K V) (key value : Bytes) : Item K V :=
  match codec.decodeKey key with
  | .error e => .error e
  | .ok key =>
      match codec.decodeValue value with
      | .error e => .error e
      | .ok value => .ok (key, value)

namespace CollectionIter

variable {K V : Type} (P : Pages) (fuel : Nat) (b : InnerBucket) (codec : Codec K V)
  (now : SystemTime)

/-- One step of the cursor in the direction of the iterator. -/
def step : EStateM Fault CollectionIter (Option Data) := fun it =>
  match (if it.reverse then Cursor.previous P b fuel else Cursor.advance P b fuel) it.cursor with
  | .ok r c => .ok r { it with cursor := c }
  | .error e c => .error e { it with cursor := c }

/-- Whether a record ends the iteration: it lacks the prefix or is beyond the bound. -/
def stops (it : CollectionIter) (key : Bytes) : Bool :=
  (it.keyPrefix.any fun p => !p.isPrefixOf key) ||
    if it.reverse then
      it.lowerBound.any fun bound => key < bound.1 || (!bound.2 && key == bound.1)
    else
      it.upperBound.any fun bound => bound.1 < key || (!bound.2 && key == bound.1)

/-- Whether a record has not expired; an error of `expiration_bucket` is reported once and
ends the iteration. -/
def live (key : Bytes) : EStateM Fault CollectionIter (Except Error Bool) := do
  let it ← get
  match it.expirations with
  | .ok (some expirations) => caught (ofExcept (expirations.keyIsLive P fuel key now))
  | .ok none => return .ok true
  | .error e => do
      set { it with expirations := .ok none, remaining := some 0 }
      return .error e

/-- A record is counted and decoded. -/
def produce (key value : Bytes) : EStateM Fault CollectionIter (Item K V) := do
  let it ← get
  set { it with remaining := it.remaining.map (· - 1) }
  return codec.decode key value

/-- The loop of `next`. -/
def loop : Nat → EStateM Fault CollectionIter (Option (Item K V))
  | 0 => throw .diverge
  | n + 1 => do
      match ← caught (step P fuel b) with
      | .error e => do
          let it ← get
          set { it with remaining := some 0 }
          return some (.error (.storage e))
      | .ok none => return none
      | .ok (some (.bucket _)) => loop n
      | .ok (some (.keyValue key value)) => do
          let it ← get
          if it.stops key then return none
          else
            match ← live P fuel now key with
            | .error e => return some (.error (.storage e))
            | .ok false => loop n
            | .ok true => return some (← produce codec key value)

/-- `next`. -/
def next : EStateM Fault CollectionIter (Option (Item K V)) := do
  let it ← get
  if it.remaining = some 0 then return none
  else loop P fuel b codec now fuel

/-- `next` until its first `None`. -/
def collect (it : CollectionIter) : Except Fault (List (Item K V)) :=
  match drain (next P fuel b codec now) .diverge fuel it with
  | .ok items _ => .ok items
  | .error e _ => .error e

end CollectionIter

namespace Collection

variable {K V : Type} (P : Pages) (fuel : Nat) (codec : Codec K V) (now : SystemTime)

/-- A cursor of the bucket that is moved by `seek`. -/
def seekCursor (key : Bytes) : EStateM Fault BucketTx (Bool × Cursor) := do
  let (b, fl) ← MonadState.get
  match Cursor.seek P fuel key (Cursor.new, b) with
  | .ok found (c, b) => do
      set (b, fl)
      return (found, c)
  | .error e (_, b) => do
      set (b, fl)
      throw e

/-- `expiration_bucket`, kept as a result by the iterators. -/
def expirationBucket : EStateM Fault BucketTx (Except Error (Option InnerBucket)) := do
  match ← caught (Bucket.getBucket P fuel ttlBucket) with
  | .ok _ => do
      let (b, _) ← MonadState.get
      match b.buckets.lookup ttlBucket with
      | some expirations => return .ok (some expirations)
      | none => throw (.panic "called Option::unwrap() on a None value")
  | .error .bucketMissing => return .ok none
  | .error e => return .error e

/-- A forward iterator with a cursor. -/
def iterWith (cursor : Cursor) : EStateM Fault BucketTx CollectionIter := do
  return ⟨cursor, ← expirationBucket P fuel, none, none, none, none, false⟩

/-- `iter`. -/
def iter : EStateM Fault BucketTx CollectionIter := iterWith P fuel Cursor.new

/-- The cursor of `iter_rev`; an error of `seek_last` leaves it where it was. -/
def lastCursor : EStateM Fault BucketTx Cursor := do
  let (b, _) ← MonadState.get
  match Cursor.seekLast P b fuel Cursor.new with
  | .ok _ cursor => return cursor
  | .error (.error _) cursor => return cursor
  | .error fault _ => throw fault

/-- `iter_rev`. -/
def iterRev : EStateM Fault BucketTx CollectionIter := do
  return { ← iterWith P fuel (← lastCursor P fuel) with reverse := true }

/-- `prefix`; an error of `seek` leaves the cursor where it was. -/
def prefixIter (pre : Bytes) : EStateM Fault BucketTx CollectionIter := do
  match ← caught (seekCursor P fuel pre) with
  | .ok (_, cursor) => return { ← iterWith P fuel cursor with keyPrefix := some pre }
  | .error _ => return { ← iterWith P fuel Cursor.new with keyPrefix := some pre }

/-- `skip_current`: the key itself when the start is exclusive, or an element before it. -/
def skipCurrent (b : InnerBucket) (cursor : Cursor) (key : Bytes) (exclusive found : Bool) :
    Except Fault Bool :=
  if found then .ok exclusive
  else do
    let current ← Cursor.current P b cursor
    return current.any fun x => x.key < key

/-- The positioning in `iter_from_encoded`; an error of the skipping step is dropped. -/
def cursorFrom (key : Bytes) (exclusive : Bool) : EStateM Fault BucketTx Cursor := do
  let (found, cursor) ← seekCursor P fuel key
  let (b, _) ← MonadState.get
  if ← ofExcept (skipCurrent P b cursor key exclusive found) then
    match Cursor.advance P b fuel cursor with
    | .ok _ cursor => return cursor
    | .error (.error _) cursor => return cursor
    | .error fault _ => throw fault
  else return cursor

/-- `iter_from_encoded`. -/
def iterFromEncoded (key : Bytes) (exclusive : Bool) : EStateM Fault BucketTx CollectionIter := do
  iterWith P fuel (← cursorFrom P fuel key exclusive)

/-- The storage errors of a scan as its caller sees them. -/
def storing {α : Type} (m : EStateM Fault BucketTx α) :
    EStateM Fault BucketTx (Except CodecError α) := do
  match ← caught m with
  | .ok a => return .ok a
  | .error e => return .error (.storage e)

/-- `seek`. -/
def seekIter (key : K) : EStateM Fault BucketTx (Except CodecError CollectionIter) :=
  if codec.orderPreserving then
    match codec.encodeKey key with
    | .error e => return .error e
    | .ok key => storing (iterFromEncoded P fuel key false)
  else return .error .orderingRequired

/-- A bound with its key encoded. -/
def encodeBound : Bound K → Except CodecError (Bound Bytes)
  | .included key => (codec.encodeKey key).map .included
  | .excluded key => (codec.encodeKey key).map .excluded
  | .unbounded => .ok .unbounded

/-- The iterator at the start of a range. -/
def startIter : Bound Bytes → EStateM Fault BucketTx CollectionIter
  | .included key => iterFromEncoded P fuel key false
  | .excluded key => iterFromEncoded P fuel key true
  | .unbounded => iter P fuel

/-- The upper bound of an iterator: whether the key itself belongs to the range. -/
def upperOf : Bound Bytes → Option (Bytes × Bool)
  | .included key => some (key, true)
  | .excluded key => some (key, false)
  | .unbounded => none

/-- `range_bounds`. -/
def rangeBounds (startBound endBound : Bound K) :
    EStateM Fault BucketTx (Except CodecError CollectionIter) :=
  if codec.orderPreserving then
    match encodeBound codec startBound with
    | .error e => return .error e
    | .ok start =>
        match encodeBound codec endBound with
        | .error e => return .error e
        | .ok finish => storing do
            return { ← startIter P fuel start with upperBound := upperOf finish }
  else return .error .orderingRequired

/-- `range`; `range_bounds` looks at the codec once more. -/
def rangeIter (start endExclusive : K) :
    EStateM Fault BucketTx (Except CodecError CollectionIter) :=
  if codec.orderPreserving then
    rangeBounds P fuel codec (.included start) (.excluded endExclusive)
  else return .error .orderingRequired

/-- The positioning in `range_rev`. -/
def cursorBefore (key : Bytes) : EStateM Fault BucketTx Cursor := do
  let (found, cursor) ← seekCursor P fuel key
  if found then
    let (b, _) ← MonadState.get
    match Cursor.previous P b fuel cursor with
    | .ok _ cursor => return cursor
    | .error e _ => throw e
  else return cursor

/-- `range_rev`. -/
def rangeRev (start endExclusive : K) :
    EStateM Fault BucketTx (Except CodecError CollectionIter) :=
  if codec.orderPreserving then
    match codec.encodeKey start with
    | .error e => return .error e
    | .ok start =>
        match codec.encodeKey endExclusive with
        | .error e => return .error e
        | .ok finish => storing do
            return { ← iterWith P fuel (← cursorBefore P fuel finish) with
              lowerBound := some (start, true), reverse := true }
  else return .error .orderingRequired

/-- An iterator run until its first `None`. -/
def scanned (make : EStateM Fault BucketTx CollectionIter) :
    EStateM Fault BucketTx (List (Item K V)) := do
  let it ← make
  let (b, _) ← MonadState.get
  ofExcept (it.collect P fuel b codec now)

/-- The same for a scan that may refuse. -/
def scannedOk (make : EStateM Fault BucketTx (Except CodecError CollectionIter)) :
    EStateM Fault BucketTx (Except CodecError (List (Item K V))) := do
  match ← make with
  | .error e => return .error e
  | .ok it =>
      let (b, _) ← MonadState.get
      let items ← ofExcept (it.collect P fuel b codec now)
      return .ok items

/-- The first call of an iterator. -/
def firstOf (make : EStateM Fault BucketTx CollectionIter) :
    EStateM Fault BucketTx (Except CodecError (Option (K × V))) := do
  let it ← make
  let (b, _) ← MonadState.get
  match it.next P fuel b codec now with
  | .ok none _ => return .ok none
  | .ok (some (.ok item)) _ => return .ok (some item)
  | .ok (some (.error e)) _ => return .error e
  | .error fault _ => throw fault

/-- `first`. -/
def firstItem : EStateM Fault BucketTx (Except CodecError (Option (K × V))) :=
  firstOf P fuel codec now (iter P fuel)

/-- `last`. -/
def lastItem : EStateM Fault BucketTx (Except CodecError (Option (K × V))) :=
  firstOf P fuel codec now (iterRev P fuel)

/-- `len`, which counts every record. -/
def len : EStateM Fault BucketTx (Except CodecError Nat) := storing do
  let (b, _) ← MonadState.get
  ofExcept (Bucket.len P fuel b)

/-- `is_empty`, which looks for any record. -/
def isEmpty : EStateM Fault BucketTx (Except CodecError Bool) := storing do
  let (b, _) ← MonadState.get
  ofExcept (Bucket.isEmpty P fuel b)

/-! ## Pages -/

/-- The loop of `page_after`: at most `limit` items; an error ends it. -/
def takeItems (b : InnerBucket) :
    Nat → EStateM Fault CollectionIter (Except CodecError (List (K × V)))
  | 0 => return .ok []
  | limit + 1 => do
      match ← CollectionIter.next P fuel b codec now with
      | none => return .ok []
      | some (.error e) => return .error e
      | some (.ok item) =>
          match ← takeItems b limit with
          | .error e => return .error e
          | .ok items => return .ok (item :: items)

/-- What `page_after` does with its iterator: the items, one more call, and the token. -/
def pageOf (b : InnerBucket) (limit : Nat) :
    EStateM Fault CollectionIter (Except CodecError (ScanPage K V)) := do
  match ← takeItems P fuel codec now b limit with
  | .error e => return .error e
  | .ok items =>
      match ← CollectionIter.next P fuel b codec now with
      | none => return .ok ⟨items, none⟩
      | some (.error e) => return .error e
      | some (.ok _) =>
          match items.getLast? with
          | none => return .ok ⟨items, none⟩
          | some (key, _) =>
              match codec.encodeKey key with
              | .error e => return .error e
              | .ok token => return .ok ⟨items, some token⟩

/-- The iterator of a page. -/
def pageIter : Option Bytes → EStateM Fault BucketTx CollectionIter
  | some token => iterFromEncoded P fuel token true
  | none => iter P fuel

/-- `page_after`.  `maxCapacity` is the largest capacity that `Vec::with_capacity` can give:
`isize::MAX` divided by the size of an item, or what the memory allows. -/
def pageAfter (maxCapacity : Nat) (after : Option Bytes) (limit : Nat) :
    EStateM Fault BucketTx (Except CodecError (ScanPage K V)) :=
  if codec.orderPreserving then
    if limit = 0 then return .ok ⟨[], none⟩
    else do
      match ← storing (pageIter P fuel after) with
      | .error e => return .error e
      | .ok it =>
          if maxCapacity < limit then throw (.panic "capacity overflow")
          else
            let (b, _) ← MonadState.get
            match pageOf P fuel codec now b limit it with
            | .ok page _ => return page
            | .error e _ => throw e
  else return .error .orderingRequired

/-- A reader that asks for one page after another, until there is no token. -/
def allPages (maxCapacity limit : Nat) :
    Nat → Option Bytes → EStateM Fault BucketTx (Except CodecError (List (ScanPage K V)))
  | 0, _ => throw .diverge
  | n + 1, after => do
      match ← pageAfter P fuel codec now maxCapacity after limit with
      | .error e => return .error e
      | .ok page =>
          match page.next with
          | none => return .ok [page]
          | some token =>
              match ← allPages maxCapacity limit n (some token) with
              | .error e => return .error e
              | .ok pages => return .ok (page :: pages)

/-! ## Deleting -/

/-- The keys that an iterator yields; the first error ends the scan. -/
def collectKeys (b : InnerBucket) : Nat → EStateM Fault CollectionIter (Except CodecError (List K))
  | 0 => throw .diverge
  | n + 1 => do
      match ← CollectionIter.next P fuel b codec now with
      | none => return .ok []
      | some (.error e) => return .error e
      | some (.ok (key, _)) =>
          match ← collectKeys b n with
          | .error e => return .error e
          | .ok keys => return .ok (key :: keys)

/-- The keys with a prefix. -/
def prefixedKeys (pre : Bytes) : EStateM Fault BucketTx (Except CodecError (List K)) := do
  let it ← prefixIter P fuel pre
  let (b, _) ← MonadState.get
  match collectKeys P fuel codec now b fuel it with
  | .ok keys _ => return keys
  | .error e _ => throw e

/-- Runs a program on the bucket of the collection. -/
def running {α : Type} (p : CollectionProgram α) :
    EStateM Fault BucketTx (Except CodecError α) := fun s =>
  match Prog.exec (Bucket.serve P fuel) p s with
  | .ok (r, s) => .ok r s
  | .error fault => .error fault s

/-- `pop_first` and `pop_last`, given how the record is looked for. -/
def popItem (find : EStateM Fault BucketTx (Except CodecError (Option (K × V)))) :
    EStateM Fault BucketTx (Except CodecError (Option (K × V))) := do
  match ← find with
  | .error e => return .error e
  | .ok found => running P fuel (popFound codec found)

/-- `pop_first`. -/
def popFirstItem : EStateM Fault BucketTx (Except CodecError (Option (K × V))) :=
  popItem P fuel codec (firstItem P fuel codec now)

/-- `pop_last`. -/
def popLastItem : EStateM Fault BucketTx (Except CodecError (Option (K × V))) :=
  popItem P fuel codec (lastItem P fuel codec now)

/-- `delete_prefix`. -/
def deletePrefixed (pre : Bytes) : EStateM Fault BucketTx (Except CodecError Nat) := do
  match ← prefixedKeys P fuel codec now pre with
  | .error e => return .error e
  | .ok keys =>
      match ← running P fuel (removeAll codec keys) with
      | .error e => return .error e
      | .ok _ => return .ok keys.length

end Collection

end Tagdata.Model
