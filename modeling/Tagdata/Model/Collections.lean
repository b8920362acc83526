import Tagdata.Model.Ttl

/-!
# Typed collections

`collection.rs`, `entry.rs`, `iter.rs` and `batch.rs`: records are encoded and decoded by a codec,
and every mutator pairs its change of a record with a change of its expiration, or does not.  A
program speaks about the bucket of the collection; a batch is given by its operations on that
bucket.  A scan is run to its end before its elements are looked at.
-/

set_option autoImplicit false

namespace Tagdata.Model

open Tagdata.Library

/-- `CodecError`, as far as an open collection returns it. -/
inductive CodecError where
  | storage (e : Error)
  | encode (text : String)
  | decode (text : String)
  | orderingRequired
deriving DecidableEq, Repr

/-- `KeyCodec` and `ValueCodec`. -/
structure Codec (K V : Type) where
  orderPreserving : Bool
  encodeKey : K → Except CodecError Bytes
  decodeKey : Bytes → Except CodecError K
  encodeValue : V → Except CodecError Bytes
  decodeValue : Bytes → Except CodecError V

/-- `TypedCodec<BytesCodec, BytesCodec>`. -/
def bytesCodec : Codec Bytes Bytes := ⟨true, .ok, .ok, .ok, .ok⟩

/-- Programs on the bucket of a collection. -/
abbrev CollectionProgram := Prog Request (Except Error Answer) CodecError

/-- `?` on a result of the storage layer. -/
def Program.storage {α : Type} (p : Program α) : CollectionProgram α :=
  p.mapError .storage

/-- `key_is_live`, on the lookup bucket. -/
def Program.keyIsLive (key : Bytes) (now : SystemTime) : Program Bool := do
  match ← getKv key with
  | some bytes => do
      let deadline ← .ofExcept (decodeExpiration bytes)
      return (← .ofExcept (epochMillis now)) < deadline
  | none => return true

structure CompareOutcome (V : Type) where
  applied : Bool
  observed : Option V
  current : Option V
deriving DecidableEq, Repr

structure BulkLoadResult where
  inserted : Nat
  ordered : Bool
deriving DecidableEq, Repr

namespace Collection

variable {K V : Type} (codec : Codec K V)

/-- A value that may be missing. -/
def decodeOption : Option Bytes → CollectionProgram (Option V)
  | none => return none
  | some bytes => return some (← .ofExcept (codec.decodeValue bytes))

/-! ## Reading -/

/-- `get`. -/
def get (key : K) (now : SystemTime) : CollectionProgram (Option V) := do
  let key ← .ofExcept (codec.encodeKey key)
  decodeOption codec (← (Program.getLiveAt key now).storage)

/-- `contains_key`. -/
def containsKey (key : K) (now : SystemTime) : CollectionProgram Bool := do
  return (← get codec key now).isSome

/-- What `CollectionIter::next` makes of one element. -/
inductive Examined (K V : Type) where
  | skip
  | stop
  | item (key : K) (value : V)

/-- Whether a record has not expired, by the lookup bucket the iterator has got. -/
def isLive (expirations : Except Error Bool) (key : Bytes) (now : SystemTime) :
    CollectionProgram Bool :=
  match expirations with
  | .ok true => ((Program.keyIsLive key now).inside ttlBucket).storage
  | .ok false => return true
  | .error e => .fail (.storage e)

/-- One round of `CollectionIter::next`; `stop` is the prefix or the bound of the iterator. -/
def examine (expirations : Except Error Bool) (stop : Bytes → Bool) (now : SystemTime) :
    Data → CollectionProgram (Examined K V)
  | .bucket _ => return .skip
  | .keyValue key value =>
      if stop key then return .stop
      else do
        if ← isLive expirations key now then do
          let key ← .ofExcept (codec.decodeKey key)
          let value ← .ofExcept (codec.decodeValue value)
          return .item key value
        else return .skip

/-- `next` on the elements that are left; `clock` is the time at each round. -/
def next (expirations : Except Error Bool) (stop : Bytes → Bool) (clock : Nat → SystemTime) :
    List Data → CollectionProgram (Option (K × V))
  | [] => return none
  | x :: items => do
      match ← examine codec expirations stop (clock items.length) x with
      | .skip => next expirations stop clock items
      | .stop => return none
      | .item key value => return some (key, value)

/-- `next` until its first `None`; the first error ends it. -/
def collect (expirations : Except Error Bool) (stop : Bytes → Bool) (clock : Nat → SystemTime) :
    List Data → CollectionProgram (List (K × V))
  | [] => return []
  | x :: items => do
      match ← examine codec expirations stop (clock items.length) x with
      | .skip => collect expirations stop clock items
      | .stop => return []
      | .item key value => return (key, value) :: (← collect expirations stop clock items)

/-- `expiration_bucket`, kept as a result by the iterators. -/
def expirations : CollectionProgram (Except Error Bool) :=
  (do
    match ← Program.attempt (.getBucket ttlBucket) with
    | .ok _ => return .ok true
    | .error .bucketMissing => return .ok false
    | .error e => return .error e : Program (Except Error Bool)).storage

/-- `first`. -/
def first (clock : Nat → SystemTime) : CollectionProgram (Option (K × V)) := do
  let items ← Program.items.storage
  next codec (← expirations) (fun _ => false) clock items

/-- `last`. -/
def last (clock : Nat → SystemTime) : CollectionProgram (Option (K × V)) := do
  let items ← Program.itemsBack.storage
  next codec (← expirations) (fun _ => false) clock items

/-- `prefix` run to its end. -/
def withPrefix (pre : Bytes) (clock : Nat → SystemTime) : CollectionProgram (List (K × V)) := do
  let (_, _, items) ← (Program.seek pre).storage
  collect codec (← expirations) (fun key => !(pre.isPrefixOf key)) clock items

/-- `iter_from_encoded` with an inclusive start: an element before the start is skipped. -/
def itemsFrom (key : Bytes) : CollectionProgram (List Data) := do
  let (found, current, items) ← (Program.seek key).storage
  let skipCurrent := !found && (current.any fun x => x.key < key)
  return if skipCurrent then items.tail else items

/-- `range` run to its end. -/
def range (start endExclusive : K) (clock : Nat → SystemTime) :
    CollectionProgram (List (K × V)) := do
  if codec.orderPreserving then do
    let start ← .ofExcept (codec.encodeKey start)
    let finish ← .ofExcept (codec.encodeKey endExclusive)
    let items ← itemsFrom start
    collect codec (← expirations) (fun key => decide (finish ≤ key)) clock items
  else .fail .orderingRequired

/-! ## Writing -/

/-- `insert_with_options`. -/
def insertWithOptions (key : K) (value : V) (expiresAt : Option SystemTime) :
    CollectionProgram (Option V) := do
  let key ← .ofExcept (codec.encodeKey key)
  let value ← .ofExcept (codec.encodeValue value)
  match expiresAt with
  | some expiresAt => do
      let result ← (Program.putWithTtl key value expiresAt).storage
      decodeOption codec result.previous
  | none => do
      let previous ← (Program.put key value).storage
      let _ ← (Program.clearTtl key).storage
      decodeOption codec previous

/-- `insert`. -/
def insert (key : K) (value : V) : CollectionProgram (Option V) :=
  insertWithOptions codec key value none

/-- `remove`. -/
def remove (key : K) : CollectionProgram (Option V) := do
  let key ← .ofExcept (codec.encodeKey key)
  match ← (Program.getKv key).storage with
  | none => return none
  | some previous => do
      let value ← .ofExcept (codec.decodeValue previous)
      let _ ← (Program.perform (.delete key)).storage
      let _ ← (Program.clearTtl key).storage
      return some value

/-- `insert_many`. -/
def insertMany (entries : List (K × V)) : CollectionProgram Unit :=
  .forEach (fun entry => do let _ ← insert codec entry.1 entry.2) entries

/-- `remove` for several keys, the results dropped. -/
def removeAll (keys : List K) : CollectionProgram Unit :=
  .forEach (fun key => do let _ ← remove codec key) keys

/-- `remove_many`. -/
def removeMany : List K → CollectionProgram (List (Option V))
  | [] => return []
  | key :: keys => return (← remove codec key) :: (← removeMany keys)

/-- The first loop of `insert_ordered`. -/
def encodeAll : List (K × V) → Except CodecError (List (Bytes × Bytes))
  | [] => .ok []
  | (key, value) :: entries => do
      let key ← codec.encodeKey key
      let value ← codec.encodeValue value
      return (key, value) :: (← encodeAll entries)

/-- What `insert_ordered` and a batch do with one record without an expiration. -/
def putClear (record : Bytes × Bytes) : Program Unit := do
  let _ ← Program.put record.1 record.2
  let _ ← Program.clearTtl record.1

/-- `insert_ordered`. -/
def insertOrdered (entries : List (K × V)) : CollectionProgram BulkLoadResult := do
  if codec.orderPreserving then do
    let encoded ← .ofExcept (encodeAll codec entries)
    let ordered := decide ((encoded.map Prod.fst).IsChain (· < ·))
    Program.storage (.forEach putClear encoded)
    return ⟨encoded.length, ordered⟩
  else .fail .orderingRequired

/-- `clear`: the records go, their expirations stay. -/
def clear : Program Nat := do
  let keys := (← Program.kvPairs).map Prod.fst
  .forEach (fun key => do let _ ← Program.perform (.delete key)) keys
  return keys.length

/-- `compare_exchange`. -/
def compareExchange (key : K) (expected : Option V) (value : V) :
    CollectionProgram (CompareOutcome V) := do
  let key ← .ofExcept (codec.encodeKey key)
  let expected ← .ofExcept (expected.mapM codec.encodeValue)
  let value ← .ofExcept (codec.encodeValue value)
  match ← (Program.perform (.compareExchange key expected value)).storage with
  | .atomic result => do
      let observed ← decodeOption codec result.observed
      let current ← decodeOption codec result.current
      return ⟨result.applied, observed, current⟩
  | _ => return ⟨false, none, none⟩

/-- `pop_first` and `pop_last`, once the record is found. -/
def popFound (found : Option (K × V)) : CollectionProgram (Option (K × V)) :=
  match found with
  | none => return none
  | some (key, value) => do
      let _ ← remove codec key
      return some (key, value)

/-- `pop_first`. -/
def popFirst (clock : Nat → SystemTime) : CollectionProgram (Option (K × V)) := do
  popFound codec (← first codec clock)

/-- `pop_last`. -/
def popLast (clock : Nat → SystemTime) : CollectionProgram (Option (K × V)) := do
  popFound codec (← last codec clock)

/-- `delete_range`. -/
def deleteRange (start endExclusive : K) (clock : Nat → SystemTime) : CollectionProgram Nat := do
  let keys := (← range codec start endExclusive clock).map Prod.fst
  removeAll codec keys
  return keys.length

/-- `delete_prefix`. -/
def deletePrefix (pre : Bytes) (clock : Nat → SystemTime) : CollectionProgram Nat := do
  let keys := (← withPrefix codec pre clock).map Prod.fst
  removeAll codec keys
  return keys.length

/-- `fetch_add`. -/
def fetchAdd (default : V) (add : V → V → V) (key : K) (amount : V) (now : SystemTime) :
    CollectionProgram V := do
  let previous := (← get codec key now).getD default
  let _ ← insert codec key (add previous amount)
  return previous

/-! ## Entries -/

/-- `Entry`: the key and the value it had when the entry was taken. -/
structure Entry (K V : Type) where
  key : K
  current : Option V

/-- `entry`. -/
def entry (key : K) (now : SystemTime) : CollectionProgram (Entry K V) := do
  return ⟨key, ← get codec key now⟩

/-- `Entry::and_modify`. -/
def Entry.andModify (e : Entry K V) (update : V → V) : CollectionProgram (Entry K V) :=
  match e.current with
  | some value => do
      let _ ← insert codec e.key (update value)
      return ⟨e.key, some (update value)⟩
  | none => return e

/-- `Entry::or_insert` and `Entry::or_insert_with`. -/
def Entry.orInsertWith (e : Entry K V) (default : V) : CollectionProgram V :=
  match e.current with
  | some value => return value
  | none => do
      let _ ← insert codec e.key default
      return default

/-- `Entry::replace`. -/
def Entry.replace (e : Entry K V) (value : V) : CollectionProgram (Option V) :=
  insert codec e.key value

/-- `Entry::remove`. -/
def Entry.remove (e : Entry K V) : CollectionProgram (Option V) :=
  Collection.remove codec e.key

/-! ## Batches -/

/-- `BatchOperation`: keys and values are encoded when the operation is added. -/
inductive BatchOperation where
  | insert (key value : Bytes) (expiresAt : Option SystemTime)
  | remove (key : Bytes)

/-- One round of `Batch::apply`. -/
def BatchOperation.apply : BatchOperation → Program Unit
  | .insert key value (some expiresAt) => do
      let _ ← Program.putWithTtl key value expiresAt
  | .insert key value none => putClear (key, value)
  | .remove key => do
      if (← Program.getKv key).isSome then
        let _ ← Program.perform (.delete key)
        let _ ← Program.clearTtl key
      else
        let _ ← Program.clearTtl key

/-- `Batch::apply`. -/
def applyBatch (operations : List BatchOperation) : Program Nat := do
  .forEach BatchOperation.apply operations
  return operations.length

end Collection

end Tagdata.Model
