import Tagdata.Interface.Machine
import Tagdata.Model.Definitions

/-!
# Typed collections side by side

Two collections share the bucket of the schema records and perhaps some parents.  What the calls on
one of them answer depends on its own bucket and on its own schema record, and the calls on the
other change neither, unless a path leads through the place of a schema record.
-/

set_option autoImplicit false

namespace Tagdata.Analysis

open Tagdata.Library Tagdata.Model Tagdata.Interface

variable {scans : Scans}

/-! ## Opening buckets -/

/-- What `open_write` answers and leaves, by what is at the path. -/
def written (createOnly : Bool) (path : List Bytes) (d : Dir) : Except Error Unit × Dir :=
  match d.reach path with
  | .ok _ => (if createOnly then .error .bucketExists else .ok (), d)
  | .error .bucketMissing => (.ok (), d.fill path)
  | .error e => (.error e, d)

/-- The place of a record in the reserved bucket: nothing, a record, or a bucket in its place. -/
def placeOf (key : Bytes) (c : Dir) : Option (Option Bytes) :=
  (c.entries key).map fun
    | .value v => some v
    | .bucket _ => none

/-- The place of a schema record as the code sees it; a missing reserved bucket is created before
it is looked into. -/
def recordView (key : Bytes) (d : Dir) : Except Error (Option (Option Bytes)) :=
  match d.entries schemaBucket with
  | none => .ok none
  | some (.value _) => .error .incompatibleValue
  | some (.bucket c) => .ok (placeOf key c)

section views

variable {d c : Dir} {key name : Bytes} {path : List Bytes}

/-- A path that leads to a bucket other than the reserved one and not through the place of the
record. -/
structure Avoids (path : List Bytes) (key : Bytes) : Prop where
  nonempty : path ≠ []
  other : path ≠ [schemaBucket]
  beside : ¬ [schemaBucket, key] <+: path

end views

/-! ## Opening a collection -/

/-- What a collection sees of a database: its bucket and the place of its schema record. -/
structure Sight where
  bucket : Except Error Dir
  record : Except Error (Option (Option Bytes))

def sight (D : CollectionDef) (d : Dir) : Sight := ⟨d.reach D.path, recordView D.schemaKey d⟩

/-- What a call on a collection leaves of everything else. -/
structure Leaves (path : List Bytes) (key : Bytes) (d d' : Dir) : Prop where
  buckets : ∀ q, ¬ path <+: q → ¬ q <+: path → Avoids q key → d'.reach q = d.reach q
  records : ∀ other, other ≠ key → Avoids path other → recordView other d' = recordView other d
  reserved : d.entries schemaBucket ≠ none → d'.entries schemaBucket ≠ none

section leaves

variable {path : List Bytes} {key : Bytes} {d d' d'' : Dir}

theorem Leaves.refl (path : List Bytes) (key : Bytes) (d : Dir) : Leaves path key d d :=
  ⟨fun _ _ _ _ => rfl, fun _ _ _ => rfl, fun h => h⟩

theorem Leaves.trans (h : Leaves path key d d') (h' : Leaves path key d' d'') :
    Leaves path key d d'' where
  buckets q hbelow habove havoids :=
    (h'.buckets q hbelow habove havoids).trans (h.buckets q hbelow habove havoids)
  records other hne havoids :=
    (h'.records other hne havoids).trans (h.records other hne havoids)
  reserved hsome := h'.reserved (h.reserved hsome)

end leaves

section opening

variable {D : CollectionDef} {d c : Dir}

/-- The bucket that `collection_mut` goes on with, by the policy and what is at the path. -/
def opened : OpenPolicy → Except Error Dir → Except Error Dir
  | .existing, reached => reached
  | .create, .ok _ => .error .bucketExists
  | .createOrOpen, .ok c => .ok c
  | .create, .error .bucketMissing => .ok Dir.empty
  | .createOrOpen, .error .bucketMissing => .ok Dir.empty
  | .create, .error e => .error e
  | .createOrOpen, .error e => .error e

/-- The answer to writing the record of a collection that was just created. -/
def recorded : Option (Option Bytes) → Except OpenError Unit
  | some none => .error (.storage .incompatibleValue)
  | _ => .ok ()

/-- The place of the record afterwards. -/
def newRecord (D : CollectionDef) : Option (Option Bytes) → Option (Option Bytes)
  | some none => some none
  | _ => some (some D.schemaBytes)

end opening

/-! ## The calls on a collection -/

/-- The answer to `collection`, from what the collection sees. -/
def readOutcome (D : CollectionDef) (s : Sight) : Except OpenError Unit :=
  match s.bucket, s.record with
  | .error e, _ => .error (.storage e)
  | .ok _, .error e => .error (.storage e)
  | .ok _, .ok r => D.compareSchema r.join

/-- The answer to `collection_mut` and what the collection sees afterwards, from what it sees
before. -/
def writeOutcome (D : CollectionDef) (s : Sight) : Except OpenError Unit × Sight :=
  match opened D.policy s.bucket, s.record with
  | .error e, _ => (.error (.storage e), s)
  | .ok c, .error e => (.error (.storage e), ⟨.ok c, .error e⟩)
  | .ok c, .ok r =>
      if s.bucket.isOk then (D.compareSchema r.join, ⟨.ok c, .ok r⟩)
      else (recorded r, ⟨.ok c, .ok (newRecord D r)⟩)

/-- The reserved bucket is there if the bucket of the collection is. -/
def Settled (D : CollectionDef) (d : Dir) : Prop :=
  ∀ c, d.reach D.path = .ok c → d.entries schemaBucket ≠ none

section calls

variable {D : CollectionDef} {d : Dir}

end calls

end Tagdata.Analysis
