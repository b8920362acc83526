import Tagdata.Library.Iterators
import Tagdata.Model.Bucket

/-!
# Cursors

A cursor is a path into the tree of a bucket.  It reads the pages and nodes of the bucket
as they are when it moves, so inside a write transaction it walks over uncommitted nodes.
The stack is kept innermost step first.
-/

set_option autoImplicit false

namespace Tagdata.Model

open Tagdata.Library

/-- `cursor.rs`. -/
structure Cursor where
  stack : List SearchPath
  nextCalled : Bool
  previousCalled : Bool
deriving DecidableEq, Repr

namespace Cursor

/-- `Cursor::new`. -/
def new : Cursor := ⟨[], false, false⟩

/-- `seek`. -/
def seek (P : Pages) (fuel : Nat) (key : Bytes) :
    EStateM Fault (Cursor × InnerBucket) Bool := do
  let (c, b) ← get
  let c := { c with nextCalled := false, previousCalled := false }
  set (c, b)
  if b.deleted then throw (.panic "Cannot seek cursor on a deleted bucket.")
  else
    match search P key fuel b.bucketMeta.rootPage [] b with
    | .ok (found, stack) b =>
        set ({ c with stack := stack }, b)
        return found
    | .error e b => do
        set (c, b)
        throw e

section Walk

variable (P : Pages) (b : InnerBucket)

/-- `current`. -/
def current (c : Cursor) : Except Fault (Option Data) :=
  if b.deleted then throw (.panic "Cannot get data from a deleted bucket.")
  else
    match c.stack with
    | [] => pure none
    | e :: _ => do
        let n ← b.pageNode P e.id
        let leaf ← n.val e.index
        pure (leaf.map Data.ofLeaf)

/-- The loop of `seek_first`: follows the taken element down to a leaf. -/
def descendFirst : Nat → EStateM Fault Cursor Unit
  | 0 => throw .diverge
  | fuel + 1 => do
      let c ← get
      match c.stack with
      | [] => throw (.panic "called Option::unwrap() on a None value")
      | elem :: _ =>
          let pageNode ← ofExcept (b.pageNode P elem.id)
          if pageNode.leaf then pure ()
          else if pageNode.len = 0 then pure ()
          else
            let pageId ← ofExcept (pageNode.indexPage elem.index)
            set { c with stack := ⟨0, .page pageId⟩ :: c.stack }
            descendFirst fuel

/-- `seek_first`. -/
def seekFirst (fuel : Nat) : EStateM Fault Cursor Unit := do
  let c ← get
  if c.stack.isEmpty then
    set { c with stack := [⟨0, .page b.bucketMeta.rootPage⟩] }
  descendFirst P b fuel

/-- The descent along last elements in `seek_last` and `previous`; it answers whether a
leaf was reached, and stops short of an empty page or node. -/
def descendLast : Nat → PageNodeID → EStateM Fault Cursor Bool
  | 0, _ => throw .diverge
  | fuel + 1, id => do
      let c ← get
      let pageNode ← ofExcept (b.pageNode P id)
      if pageNode.len = 0 then return false
      else
        let index := pageNode.len - 1
        set { c with stack := ⟨index, id⟩ :: c.stack }
        if pageNode.leaf then return true
        else
          let pageId ← ofExcept (pageNode.indexPage index)
          descendLast fuel (.page pageId)

/-- `seek_last`. -/
def seekLast (fuel : Nat) : EStateM Fault Cursor Unit := do
  set (⟨[], false, false⟩ : Cursor)
  let _ ← descendLast P b fuel (.page b.bucketMeta.rootPage)

/-- The loop of `previous`: one element back, leaving exhausted steps; `false` when the
call returns `None` at once. -/
def stepBack : Nat → EStateM Fault Cursor Bool
  | 0 => throw .diverge
  | fuel + 1 => do
      let c ← get
      match c.stack with
      | [] => return false
      | element :: rest =>
          if element.index = 0 then
            set { c with stack := rest }
            if rest.isEmpty then return false else stepBack fuel
          else
            let index := element.index - 1
            set { c with stack := ⟨index, element.id⟩ :: rest }
            let node ← ofExcept (b.pageNode P element.id)
            if node.leaf then return true
            else
              let pageId ← ofExcept (node.indexPage index)
              descendLast P b fuel (.page pageId)

/-- `previous`. -/
def previous (fuel : Nat) : EStateM Fault Cursor (Option Data) := do
  let c ← get
  let go ←
    if c.stack.isEmpty then do
      seekLast P b fuel
      pure true
    else if c.previousCalled then stepBack P b fuel
    else pure true
  if go then
    let c ← get
    let c := { c with previousCalled := true, nextCalled := false }
    set c
    ofExcept (current P b c)
  else return none

/-- The loop of `advance`: one element on, leaving exhausted steps; `false` when the call
returns `None` at once. -/
def stepForward : Nat → EStateM Fault Cursor Bool
  | 0 => throw .diverge
  | fuel + 1 => do
      if b.deleted then throw (.panic "Cannot get data from a deleted bucket.")
      else
        let c ← get
        match c.stack with
        | [] => throw (.panic "called Option::unwrap() on a None value")
        | elem :: rest =>
            let pageNode ← ofExcept (b.pageNode P elem.id)
            if pageNode.len = 0 then throw (.panic "attempt to subtract with overflow")
            else if pageNode.len - 1 ≤ elem.index then
              if rest.isEmpty then return false
              else
                set { c with stack := rest }
                stepForward fuel
            else
              set { c with stack := ⟨elem.index + 1, elem.id⟩ :: rest }
              seekFirst P b fuel
              return true

/-- `advance`, the body of `next`. -/
def advance (fuel : Nat) : EStateM Fault Cursor (Option Data) := do
  let c ← get
  set { c with previousCalled := false }
  let go ←
    if c.stack.isEmpty then do
      seekFirst P b fuel
      pure true
    else if c.nextCalled then stepForward P b fuel
    else pure true
  if go then
    let c ← get
    let c := { c with nextCalled := true }
    set c
    ofExcept (current P b c)
  else return none

/-- Calls `next` until its first `None`, at most `n` times. -/
def collect (fuel : Nat) : Nat → EStateM Fault Cursor (List Data)
  | 0 => throw .diverge
  | n + 1 => do
      match ← advance P b fuel with
      | none => return []
      | some d =>
          let rest ← collect fuel n
          return d :: rest

/-- Calls `previous` until its first `None`, at most `n` times. -/
def collectBack (fuel : Nat) : Nat → EStateM Fault Cursor (List Data)
  | 0 => throw .diverge
  | n + 1 => do
      match ← previous P b fuel with
      | none => return []
      | some d =>
          let rest ← collectBack fuel n
          return d :: rest

/-- The first key/value pair that `next` yields. -/
def nextKv (fuel : Nat) : Nat → EStateM Fault Cursor (Option (Bytes × Bytes))
  | 0 => throw .diverge
  | n + 1 => do
      match ← advance P b fuel with
      | none => return none
      | some (.keyValue k v) => return some (k, v)
      | some (.bucket _) => nextKv fuel n

/-- The first key/value pair that `previous` yields. -/
def previousKv (fuel : Nat) : Nat → EStateM Fault Cursor (Option (Bytes × Bytes))
  | 0 => throw .diverge
  | n + 1 => do
      match ← previous P b fuel with
      | none => return none
      | some (.keyValue k v) => return some (k, v)
      | some (.bucket _) => previousKv fuel n

end Walk

end Cursor

/-- `Data::key`. -/
def Data.key : Data → Bytes
  | .bucket name => name
  | .keyValue k _ => k

/-- The pair of a key/value element. -/
def Data.kvPair : Data → Option (Bytes × Bytes)
  | .bucket _ => none
  | .keyValue k v => some (k, v)

/-- The answer of a cursor operation, without the cursor. -/
def Cursor.run {α : Type} (m : EStateM Fault Cursor α) (c : Cursor) : Except Fault α :=
  match m c with
  | .ok a _ => .ok a
  | .error e _ => .error e

/-! ## Ranges -/

/-- `std::ops::Bound`. -/
inductive Bound (α : Type) where
  | included (a : α)
  | excluded (a : α)
  | unbounded
deriving DecidableEq, Repr

/-- A call whose error the caller looks at. -/
def caught {σ α : Type} (m : EStateM Fault σ α) : EStateM Fault σ (Except Error α) := fun s =>
  match m s with
  | .ok a s => .ok (.ok a) s
  | .error (.error e) s => .ok (.error e) s
  | .error fault s => .error fault s

namespace Range

variable (P : Pages) (fuel : Nat)

/-- A step of the cursor over the bucket as it is. -/
def onCursor {α : Type} (m : InnerBucket → EStateM Fault Cursor α) :
    EStateM Fault (Cursor × InnerBucket) α := fun s =>
  match m s.2 s.1 with
  | .ok a c => .ok a (c, s.2)
  | .error e c => .error e (c, s.2)

/-- Whether a key is before the end of a range. -/
def withinEnd : Bound Bytes → Bytes → Bool
  | .excluded e, key => key < e
  | .included e, key => key ≤ e
  | .unbounded, _ => true

/-- What the first `next` does with an included start: an element before it is skipped, and
an error of that step is dropped. -/
def seekStart (s : Bytes) : EStateM Fault (Cursor × InnerBucket) Unit := do
  let found ← Cursor.seek P fuel s
  if found then pure ()
  else
    let (c, b) ← get
    match ← ofExcept (Cursor.current P b c) with
    | some data =>
        if data.key < s then
          let _ ← caught (onCursor fun b => Cursor.advance P b fuel)
        else pure ()
    | none => pure ()

/-- The start of a range, before `next` was called. -/
def start (startBound : Bound Bytes) : EStateM Fault (Cursor × InnerBucket) Unit := do
  let (c, _) ← get
  if c.nextCalled then pure ()
  else
    match startBound with
    | .included s => seekStart P fuel s
    | _ => pure ()

/-- The rest of `Range::next`. -/
def step (endBound : Bound Bytes) :
    EStateM Fault (Cursor × InnerBucket) (Option (Except Error Data)) := do
  match ← caught (onCursor fun b => Cursor.advance P b fuel) with
  | .error e => return some (.error e)
  | .ok none => return none
  | .ok (some data) => return if withinEnd endBound data.key then some (.ok data) else none

/-- `Range::next`. -/
def next (startBound endBound : Bound Bytes) :
    EStateM Fault (Cursor × InnerBucket) (Option (Except Error Data)) := do
  match ← caught (start P fuel startBound) with
  | .error e => return some (.error e)
  | .ok _ => step P fuel endBound

end Range

namespace Bucket

variable (P : Pages) (fuel : Nat)

/-- `range` run until its first `None`. -/
def range (startBound endBound : Bound Bytes) (b : InnerBucket) :
    Except Fault (List (Except Error Data)) :=
  match drain (Range.next P fuel startBound endBound) .diverge fuel (Cursor.new, b) with
  | .ok l _ => .ok l
  | .error e _ => .error e

/-- `kv_pairs` run to its end. -/
def kvPairs (b : InnerBucket) : Except Fault (List (Bytes × Bytes)) := do
  let items ← Cursor.run (Cursor.collect P b fuel fuel) Cursor.new
  pure (items.filterMap Data.kvPair)

/-- `map.rs: first`. -/
def first (b : InnerBucket) : Except Fault (Option (Bytes × Bytes)) :=
  Cursor.run (Cursor.nextKv P b fuel fuel) Cursor.new

/-- `map.rs: last`. -/
def last (b : InnerBucket) : Except Fault (Option (Bytes × Bytes)) :=
  Cursor.run (do Cursor.seekLast P b fuel; Cursor.previousKv P b fuel fuel) Cursor.new

/-- `map.rs: len`. -/
def len (b : InnerBucket) : Except Fault Nat := do
  let pairs ← kvPairs P fuel b
  pure pairs.length

/-- `map.rs: is_empty`. -/
def isEmpty (b : InnerBucket) : Except Fault Bool := do
  let pair ← first P fuel b
  pure pair.isNone

/-- Deletes the keys one after another and counts them. -/
def deleteKeys : List Bytes → EStateM Fault BucketTx Unit
  | [] => pure ()
  | key :: keys => do
      let _ ← delete P fuel key
      deleteKeys keys

/-- `clear`, `delete_range` and `delete_prefix`: the keys that pass the test are collected
with a scan and then deleted. -/
def deleteWhere (test : Bytes → Bool) : EStateM Fault BucketTx Nat := do
  let (b, _) ← get
  let pairs ← ofExcept (kvPairs P fuel b)
  let keys := (pairs.map Prod.fst).filter test
  deleteKeys P fuel keys
  return keys.length

/-- `map.rs: clear`. -/
def clear : EStateM Fault BucketTx Nat := deleteWhere P fuel fun _ => true

/-- `map.rs: delete_range`. -/
def deleteRange (start endExclusive : Bytes) : EStateM Fault BucketTx Nat :=
  deleteWhere P fuel fun k => start ≤ k ∧ k < endExclusive

/-- `map.rs: delete_prefix`. -/
def deletePrefix (pre : Bytes) : EStateM Fault BucketTx Nat :=
  deleteWhere P fuel fun k => pre.isPrefixOf k

end Bucket

end Tagdata.Model
