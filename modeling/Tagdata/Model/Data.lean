import Tagdata.Library.Search
import Tagdata.Library.Maps

/-!
# Bytes, errors and the elements of a page

The values the tree stores: byte strings in lexicographic order, the branch and leaf
elements of a node, and the errors and panics an operation can end in.

A `Result` of the source is `Except Fault`: `Fault.error` carries the error value,
`Fault.panic` an unwinding panic, and `Fault.diverge` marks a loop that did not finish
within the rounds it was given.  State is threaded by `EStateM`, so that an operation that
returns an error still hands back the state it had reached.

The source is modelled as it behaves in one build: with overflow checks, so that arithmetic
beyond a machine word panics, and without debug assertions, so that a `debug_assert!` does nothing.
-/

set_option autoImplicit false

namespace Tagdata.Model

/-- Bytes are ordered as the numbers they denote. -/
instance byteOrder : LinearOrder UInt8 where
  le_refl := UInt8.le_refl
  le_trans := fun _ _ _ => UInt8.le_trans
  le_antisymm := fun _ _ => UInt8.le_antisymm
  le_total := UInt8.le_total
  lt_iff_le_not_ge := fun a b => by
    simp only [UInt8.le_iff_toNat_le, UInt8.lt_iff_toNat_lt]
    omega
  toDecidableLE := inferInstance
  toDecidableLT := inferInstance

/-- Keys and values.  Page and node ids (`PageID`, `NodeID`) are plain numbers. -/
abbrev Bytes := List UInt8

instance bytesLawful : LawfulBEq Bytes := inferInstance

/-- `errors.rs`: what an operation returns as `Err`. -/
inductive Error where
  | bucketExists
  | bucketMissing
  | keyValueMissing
  | incompatibleValue
  | readOnlyTx
  | readOnlyDB
  | writerTimeout
  | capacityExceeded (required maximum : Nat)
  | mergeConflict (path : List Bytes)
  | io
  | sync (text : String)
  | invalidDB (text : String)
  | alloc
deriving DecidableEq, Repr

/-- The ways a call does not return `Ok`. -/
inductive Fault where
  | error (e : Error)
  | panic (text : String)
  | diverge
deriving DecidableEq, Repr

/-- Reads a `Result` inside a stateful operation, leaving the state alone. -/
def ofExcept {σ α : Type} : Except Fault α → EStateM Fault σ α
  | .ok a => pure a
  | .error e => throw e

@[simp] theorem ofExcept_ok {σ α : Type} (a : α) (s : σ) :
    ofExcept (.ok a) s = .ok a s := rfl

@[simp] theorem ofExcept_error {σ α : Type} (e : Fault) (s : σ) :
    (ofExcept (.error e) : EStateM Fault σ α) s = .error e s := rfl

/-- A plain `+` on words: the arithmetic is that of a build with overflow checks. -/
def addU64 (a b : Nat) : Except Fault Nat :=
  if a + b < 2 ^ 64 then .ok (a + b) else .error (.panic "attempt to add with overflow")

/-- `bucket/inner.rs`: the root page of a bucket and its insertion counter, both words. -/
structure BucketMeta where
  rootPage : Nat
  nextInt : Nat
deriving DecidableEq, Repr

/-- `next_int += 1`. -/
def BucketMeta.countKey (m : BucketMeta) : Except Fault BucketMeta :=
  (addU64 m.nextInt 1).map fun nextInt => { m with nextInt := nextInt }

/-- `BucketMeta::default`, the meta of a bucket that was never committed. -/
def BucketMeta.default : BucketMeta := ⟨0, 0⟩

/-- `size_of::<BucketMeta>()`. -/
def metaSize : Nat := 16

/-- `node.rs`: an element of a leaf. -/
inductive Leaf where
  | bucket (name : Bytes) (bucketMeta : BucketMeta)
  | kv (key value : Bytes)
deriving DecidableEq, Repr

namespace Leaf

def key : Leaf → Bytes
  | .bucket name _ => name
  | .kv key _ => key

def isKv : Leaf → Bool
  | .bucket _ _ => false
  | .kv _ _ => true

def size : Leaf → Nat
  | .bucket name _ => name.length + metaSize
  | .kv key value => key.length + value.length

/-- The root page of a nested bucket. -/
def subRoot : Leaf → Option Nat
  | .bucket _ m => some m.rootPage
  | .kv _ _ => none

end Leaf

/-- `node.rs`: an element of a branch. -/
structure Branch where
  key : Bytes
  page : Nat
deriving DecidableEq, Repr

def Branch.keySize (b : Branch) : Nat := b.key.length

/-- `size_of::<Page>()`. -/
def headerSize : Nat := 40

/-- `size_of::<LeafElement>()`. -/
def leafSize : Nat := 32

/-- `size_of::<BranchElement>()`. -/
def branchSize : Nat := 24

/-- `MIN_KEYS_PER_NODE`. -/
def minKeysPerNode : Nat := 2

/-- `node.rs`: the elements of a node. -/
inductive NodeData where
  | branches (b : List Branch)
  | leaves (l : List Leaf)
deriving DecidableEq, Repr

namespace NodeData

def len : NodeData → Nat
  | .branches b => b.length
  | .leaves l => l.length

def isLeaves : NodeData → Bool
  | .branches _ => false
  | .leaves _ => true

def size : NodeData → Nat
  | .branches b => b.foldl (fun acc e => acc + e.keySize) (branchSize * b.length)
  | .leaves l => l.foldl (fun acc e => acc + e.size) (leafSize * l.length)

/-- The keys of the elements, in order. -/
def keys : NodeData → List Bytes
  | .branches b => b.map Branch.key
  | .leaves l => l.map Leaf.key

/-- `first_key` indexes element 0 and panics on empty data. -/
def firstKey (d : NodeData) : Except Fault Bytes :=
  match d.keys with
  | [] => throw (.panic "index out of bounds")
  | k :: _ => pure k

/-- `merge`: both lists are appended and sorted by key. -/
def merge : NodeData → NodeData → Except Fault NodeData
  | .branches b1, .branches b2 =>
      pure (.branches ((b1 ++ b2).insertionSort fun x y => x.key ≤ y.key))
  | .leaves l1, .leaves l2 =>
      pure (.leaves ((l1 ++ l2).insertionSort fun x y => x.key ≤ y.key))
  | _, _ => throw (.panic "incompatible data types")

/-- `split_at` keeps the first `index` elements and returns the others. -/
def splitAt (d : NodeData) (index : Nat) : NodeData × NodeData :=
  match d with
  | .branches b => (.branches (b.take index), .branches (b.drop index))
  | .leaves l => (.leaves (l.take index), .leaves (l.drop index))

end NodeData

end Tagdata.Model
