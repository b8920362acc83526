import Tagdata.Model.InnerBucket

/-!
# The operations of a bucket

The methods of `Bucket` and of `Tx` in a write transaction.  A bucket is addressed by its
path from the root bucket: every component is resolved with `get_bucket`, as a caller does
that asks for a fresh handle before each operation.
-/

set_option autoImplicit false

namespace Tagdata.Model

/-- `data.rs`: an element as the caller sees it. -/
inductive Data where
  | bucket (name : Bytes)
  | keyValue (key value : Bytes)
deriving DecidableEq, Repr

/-- `From<Leaf> for Data`. -/
def Data.ofLeaf : Leaf → Data
  | .bucket name _ => .bucket name
  | .kv key value => .keyValue key value

/-- `From<Leaf> for Option<KVPair>`. -/
def Leaf.kvPair : Leaf → Option (Bytes × Bytes)
  | .bucket _ _ => none
  | .kv key value => some (key, value)

/-- `atomic.rs`. -/
structure AtomicResult where
  applied : Bool
  observed : Option Bytes
  current : Option Bytes
deriving DecidableEq, Repr

/-- The operations of a bucket. -/
inductive Op where
  | put (key value : Bytes)
  | get (key : Bytes)
  | getKv (key : Bytes)
  | delete (key : Bytes)
  | createBucket (name : Bytes)
  | getOrCreateBucket (name : Bytes)
  | getBucket (name : Bytes)
  | deleteBucket (name : Bytes)
  | putIfAbsent (key value : Bytes)
  | compareExchange (key : Bytes) (expected : Option Bytes) (value : Bytes)
  | deleteIfValue (key expected : Bytes)
  | nextInt
deriving DecidableEq, Repr

/-- What an operation returns as `Ok`. -/
inductive Output where
  | unit
  | pair (kv : Option (Bytes × Bytes))
  | data (d : Option Data)
  | atomic (r : AtomicResult)
  | int (n : Nat)
deriving DecidableEq, Repr

namespace Bucket

/-- Every method panics on a deleted bucket. -/
def alive (text : String) : EStateM Fault BucketTx Unit := do
  let (b, _) ← get
  if b.deleted then throw (.panic text) else pure ()

/-- `InnerBucket::get` inside a method of `Bucket`. -/
def lookup (P : Pages) (fuel : Nat) (key : Bytes) : EStateM Fault BucketTx (Option Leaf) := do
  let (b, _) ← get
  ofExcept (b.get P fuel key)

/-- `put`. -/
def put (P : Pages) (fuel : Nat) (key value : Bytes) : EStateM Fault BucketTx Output := do
  alive "Cannot put data into a deleted bucket."
  let previous ← onBucket (InnerBucket.put P fuel key value)
  return .pair previous

/-- `get`. -/
def getData (P : Pages) (fuel : Nat) (key : Bytes) : EStateM Fault BucketTx Output := do
  alive "Cannot get data from a deleted bucket."
  let leaf ← lookup P fuel key
  return .data (leaf.map Data.ofLeaf)

/-- `get_kv`. -/
def getKv (P : Pages) (fuel : Nat) (key : Bytes) : EStateM Fault BucketTx Output := do
  alive "Cannot get data from a deleted bucket."
  let leaf ← lookup P fuel key
  return .pair (leaf.bind Leaf.kvPair)

/-- `delete`. -/
def delete (P : Pages) (fuel : Nat) (key : Bytes) : EStateM Fault BucketTx Output := do
  alive "Cannot delete data from a deleted bucket."
  let previous ← onBucket (InnerBucket.delete P fuel key)
  return .pair (some previous)

/-- `create_bucket`. -/
def createBucket (P : Pages) (fuel : Nat) (name : Bytes) : EStateM Fault BucketTx Output := do
  alive "Cannot create bucket in a deleted bucket."
  onBucket (InnerBucket.createBucket P fuel name)
  return .unit

/-- `get_or_create_bucket`. -/
def getOrCreateBucket (P : Pages) (fuel : Nat) (name : Bytes) :
    EStateM Fault BucketTx Output := do
  alive "Cannot get or create bucket from a deleted bucket."
  onBucket (InnerBucket.getOrCreateBucket P fuel name)
  return .unit

/-- `get_bucket`. -/
def getBucket (P : Pages) (fuel : Nat) (name : Bytes) : EStateM Fault BucketTx Output := do
  alive "Cannot get bucket from a deleted bucket."
  onBucket (InnerBucket.getBucket P fuel name)
  return .unit

/-- `delete_bucket`. -/
def deleteBucket (P : Pages) (fuel : Nat) (name : Bytes) : EStateM Fault BucketTx Output := do
  alive "Cannot delete bucket from a deleted bucket."
  InnerBucket.deleteBucket P fuel name
  return .unit

/-- `put_if_absent`. -/
def putIfAbsent (P : Pages) (fuel : Nat) (key value : Bytes) :
    EStateM Fault BucketTx Output := do
  alive "Cannot mutate data in a deleted bucket."
  match ← lookup P fuel key with
  | some (.bucket _ _) => throw (.error .incompatibleValue)
  | some (.kv _ current) => return .atomic ⟨false, some current, some current⟩
  | none =>
      let _ ← onBucket (InnerBucket.put P fuel key value)
      return .atomic ⟨true, none, some value⟩

/-- The value that `compare_exchange` and `delete_if_value` compare with. -/
def observe (P : Pages) (fuel : Nat) (key : Bytes) :
    EStateM Fault BucketTx (Option Bytes) := do
  alive "Cannot mutate data in a deleted bucket."
  match ← lookup P fuel key with
  | some (.bucket _ _) => throw (.error .incompatibleValue)
  | some (.kv _ current) => return some current
  | none => return none

/-- `compare_exchange`. -/
def compareExchange (P : Pages) (fuel : Nat) (key : Bytes) (expected : Option Bytes)
    (value : Bytes) : EStateM Fault BucketTx Output := do
  let observed ← observe P fuel key
  if observed ≠ expected then
    return .atomic ⟨false, observed, observed⟩
  else
    let _ ← onBucket (InnerBucket.put P fuel key value)
    return .atomic ⟨true, observed, some value⟩

/-- `delete_if_value`. -/
def deleteIfValue (P : Pages) (fuel : Nat) (key expected : Bytes) :
    EStateM Fault BucketTx Output := do
  let observed ← observe P fuel key
  if observed ≠ some expected then
    return .atomic ⟨false, observed, observed⟩
  else
    let _ ← onBucket (InnerBucket.delete P fuel key)
    return .atomic ⟨true, observed, none⟩

/-- `next_int`. -/
def nextInt : EStateM Fault BucketTx Output := do
  alive "Cannot get next int from a deleted bucket."
  let (b, _) ← get
  return .int b.bucketMeta.nextInt

/-- One operation of a bucket. -/
def run (P : Pages) (fuel : Nat) : Op → EStateM Fault BucketTx Output
  | .put key value => put P fuel key value
  | .get key => getData P fuel key
  | .getKv key => getKv P fuel key
  | .delete key => delete P fuel key
  | .createBucket name => createBucket P fuel name
  | .getOrCreateBucket name => getOrCreateBucket P fuel name
  | .getBucket name => getBucket P fuel name
  | .deleteBucket name => deleteBucket P fuel name
  | .putIfAbsent key value => putIfAbsent P fuel key value
  | .compareExchange key expected value => compareExchange P fuel key expected value
  | .deleteIfValue key expected => deleteIfValue P fuel key expected
  | .nextInt => nextInt

/-- Runs an operation on the bucket at a path, opening every bucket on the way. -/
def atPath {α : Type} (P : Pages) (fuel : Nat) (m : EStateM Fault BucketTx α) :
    List Bytes → EStateM Fault BucketTx α
  | [] => m
  | name :: path => fun s =>
      match onBucket (InnerBucket.getBucket P fuel name) s with
      | .error e s => .error e s
      | .ok _ (b, fl) =>
          match b.buckets.lookup name with
          | none => .error (.panic "called Option::unwrap() on a None value") (b, fl)
          | some child =>
              match atPath P fuel m path (child, fl) with
              | .ok a (child, fl) => .ok a (b.setBucket name child, fl)
              | .error e (child, fl) => .error e (b.setBucket name child, fl)

/-- The bucket a path leads to. -/
def bucketAt (P : Pages) (fuel : Nat) (path : List Bytes) (s : BucketTx) :
    Except Fault InnerBucket :=
  match atPath P fuel get path s with
  | .ok (b, _) _ => .ok b
  | .error e _ => .error e

/-- One operation of a write transaction: a path and what is done to the bucket there. -/
abbrev PathOp := List Bytes × Op

/-- Runs operations one after another, collecting what each returned.  An operation that
returns an error does not end the transaction; a panic does. -/
def runAll (P : Pages) (fuel : Nat) :
    List PathOp → BucketTx → Except Fault (List (Except Error Output) × BucketTx)
  | [], s => pure ([], s)
  | (path, op) :: ops, s =>
      match atPath P fuel (run P fuel op) path s with
      | .ok a s => do
          let (rest, s) ← runAll P fuel ops s
          pure (.ok a :: rest, s)
      | .error (.error e) s => do
          let (rest, s) ← runAll P fuel ops s
          pure (.error e :: rest, s)
      | .error fault _ => throw fault

end Bucket

end Tagdata.Model
