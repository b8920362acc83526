import Tagdata.Library.Programs
import Tagdata.Model.Cursor

/-!
# Programs on the buckets of a transaction

The code above the buckets (expirations, merges, the journal, collections) only calls methods of
`Bucket`.  It is written here as programs over those methods.  A program speaks about one bucket;
`inside name` makes it speak about a nested one, as a method does that holds a handle to it.
-/

set_option autoImplicit false

namespace Tagdata.Model

open Tagdata.Library

/-- A call of a method on the bucket at a path. -/
inductive Request where
  | call (path : List Bytes) (op : Op)
  | scan (path : List Bytes)
  | scanBack (path : List Bytes)
  | seek (path : List Bytes) (key : Bytes)
  | mergeNextInt (path : List Bytes) (nextInt : Nat)
  | setNextInt (path : List Bytes) (nextInt : Nat)
deriving DecidableEq, Repr

/-- The same call on a bucket below. -/
def Request.inside (name : Bytes) : Request → Request
  | .call path op => .call (name :: path) op
  | .scan path => .scan (name :: path)
  | .scanBack path => .scanBack (name :: path)
  | .seek path key => .seek (name :: path) key
  | .mergeNextInt path nextInt => .mergeNextInt (name :: path) nextInt
  | .setNextInt path nextInt => .setNextInt (name :: path) nextInt

/-- What a call returns as `Ok`. -/
inductive Answer where
  | output (o : Output)
  | items (l : List Data)
  | position (found : Bool) (current : Option Data) (l : List Data)
deriving DecidableEq, Repr

/-- Programs whose calls are requests. -/
abbrev Program := Prog Request (Except Error Answer) Error

namespace Program

variable {α : Type}

/-- The program on a nested bucket. -/
def inside (name : Bytes) (p : Program α) : Program α := p.mapCalls (Request.inside name)

/-- A method whose error is looked at. -/
def attempt (op : Op) : Program (Except Error Output) :=
  .call (.call [] op) fun
    | .ok (.output o) => .done (.ok o)
    | .ok _ => .done (.ok .unit)
    | .error e => .done (.error e)

/-- A method whose error is passed on with `?`. -/
def perform (op : Op) : Program Output :=
  .call (.call [] op) fun
    | .ok (.output o) => .done o
    | .ok _ => .done .unit
    | .error e => .fail e

/-- The elements a fresh cursor yields. -/
def items : Program (List Data) :=
  .call (.scan []) fun
    | .ok (.items l) => .done l
    | .ok _ => .done []
    | .error e => .fail e

/-- The elements a cursor yields from the last one backwards. -/
def itemsBack : Program (List Data) :=
  .call (.scanBack []) fun
    | .ok (.items l) => .done l
    | .ok _ => .done []
    | .error e => .fail e

/-- What a cursor is at after a `seek`, and the elements it yields from there. -/
def seek (key : Bytes) : Program (Bool × Option Data × List Data) :=
  .call (.seek [] key) fun
    | .ok (.position found current l) => .done (found, current, l)
    | .ok _ => .done (false, none, [])
    | .error e => .fail e

/-- `merge_next_int`. -/
def mergeNextInt (nextInt : Nat) : Program Unit :=
  .call (.mergeNextInt [] nextInt) fun
    | .ok _ => .done ()
    | .error e => .fail e

/-- An assignment to `meta.next_int`. -/
def setNextInt (nextInt : Nat) : Program Unit :=
  .call (.setNextInt [] nextInt) fun
    | .ok _ => .done ()
    | .error e => .fail e

/-- The value in what `put`, `get_kv` and `delete` return. -/
def valueOf : Output → Option Bytes
  | .pair (some (_, v)) => some v
  | _ => none

/-- The element in what `get` returns. -/
def dataOf : Output → Option Data
  | .data d => d
  | _ => none

/-- `put`: the value the key had before. -/
def put (key value : Bytes) : Program (Option Bytes) := do
  return valueOf (← perform (.put key value))

/-- `get_kv`. -/
def getKv (key : Bytes) : Program (Option Bytes) := do
  return valueOf (← perform (.getKv key))

/-- `get`. -/
def get (key : Bytes) : Program (Option Data) := do
  return dataOf (← perform (.get key))

/-- `kv_pairs` run to its end. -/
def kvPairs : Program (List (Bytes × Bytes)) := do
  return (← items).filterMap Data.kvPair

end Program

/-! ## Serving requests -/

/-- `InnerBucket::merge_next_int`. -/
def InnerBucket.mergeNextInt (nextInt : Nat) (b : InnerBucket) : InnerBucket :=
  if b.bucketMeta.nextInt < nextInt then
    { b with bucketMeta := { b.bucketMeta with nextInt := nextInt }, dirty := true }
  else b

namespace Bucket

variable (P : Pages) (fuel : Nat)

/-- `seek` on a fresh cursor, `current`, and `next` until its first `None`. -/
def seekScan (key : Bytes) : EStateM Fault BucketTx Answer := do
  let (b, fl) ← get
  match Cursor.seek P fuel key (Cursor.new, b) with
  | .ok found (c, b) => do
      set (b, fl)
      let current ← ofExcept (Cursor.current P b c)
      let l ← ofExcept (Cursor.run (Cursor.collect P b fuel fuel) c)
      return .position found current l
  | .error e (_, b) => do
      set (b, fl)
      throw e

/-- What a method does to the bucket of a handle. -/
def method : Request → EStateM Fault BucketTx Answer
  | .call path op => atPath P fuel (do return .output (← run P fuel op)) path
  | .scan path =>
      atPath P fuel (do
        let (b, _) ← get
        return .items (← ofExcept (Cursor.run (Cursor.collect P b fuel fuel) Cursor.new))) path
  | .scanBack path =>
      atPath P fuel (do
        let (b, _) ← get
        return .items (← ofExcept (Cursor.run
          (do Cursor.seekLast P b fuel; Cursor.collectBack P b fuel fuel) Cursor.new))) path
  | .seek path key => atPath P fuel (seekScan P fuel key) path
  | .mergeNextInt path nextInt =>
      atPath P fuel (do
        let (b, fl) ← get
        set (b.mergeNextInt nextInt, fl)
        return .output .unit) path
  | .setNextInt path nextInt =>
      atPath P fuel (do
        let (b, fl) ← get
        set ({ b with bucketMeta := { b.bucketMeta with nextInt := nextInt } }, fl)
        return .output .unit) path

/-- Serves a request.  An error is an answer; a panic ends the transaction. -/
def serve (request : Request) (s : BucketTx) :
    Except Fault (Except Error Answer × BucketTx) :=
  match method P fuel request s with
  | .ok a s => .ok (.ok a, s)
  | .error (.error e) s => .ok (.error e, s)
  | .error fault _ => .error fault

end Bucket

/-- Runs a program in a write transaction. -/
def Program.exec {α : Type} (P : Pages) (fuel : Nat) (p : Program α) (s : BucketTx) :
    Except Fault (Except Error α × BucketTx) :=
  Prog.exec (Bucket.serve P fuel) p s

end Tagdata.Model
