import Tagdata.Library.Evaluation
import Tagdata.Model.Collections

/-!
# Opening typed collections

`application/mod.rs` and `definition.rs`: a definition names a bucket and a schema, and opening a
collection compares the schema with the record that a reserved bucket holds under the path of the
collection.  Programs speak about the root bucket of a transaction.
-/

set_option autoImplicit false

namespace Tagdata.Model

open Tagdata.Library

/-- `SCHEMA_BUCKET`. -/
def schemaBucket : Bytes := 0 :: ascii "tagdata.schema"

/-- `OpenPolicy`. -/
inductive OpenPolicy where
  | existing
  | create
  | createOrOpen
deriving DecidableEq, Repr

/-- `CollectionDef`, without its codec.  Names are the bytes of strings. -/
structure CollectionDef where
  name : Bytes
  parents : List Bytes
  schemaId : Bytes
  schemaVersion : Nat
  policy : OpenPolicy
deriving DecidableEq, Repr

/-- `CodecError`, as far as opening a collection returns it. -/
inductive OpenError where
  | storage (e : Error)
  | invalidDefinition
  | schemaMissing (collection : Bytes)
  | schemaMismatch (collection expectedId : Bytes) (expectedVersion : Nat)
deriving DecidableEq, Repr

namespace CollectionDef

variable (definition : CollectionDef)

/-- The names from the root bucket to the bucket of the collection. -/
def path : List Bytes := definition.parents ++ [definition.name]

/-- `validate_definition`. -/
def validate : Except OpenError Unit :=
  if definition.name = [] ∨ definition.name = schemaBucket ∨ [] ∈ definition.parents ∨
      definition.schemaId = [] ∨ definition.schemaVersion = 0 then
    .error .invalidDefinition
  else .ok ()

/-- `schema_bytes`. -/
def schemaBytes : Bytes := beBytes 4 definition.schemaVersion ++ definition.schemaId

/-- A part of a path behind its length, `as u32`. -/
def keyPart (part : Bytes) : Bytes := beBytes 4 part.length ++ part

/-- `schema_key`. -/
def schemaKey : Bytes := definition.path.flatMap keyPart

end CollectionDef

/-- Programs that open a collection. -/
abbrev OpenProgram := Prog Request (Except Error Answer) OpenError

/-- `open_read`. -/
def openRead : List Bytes → Program Unit
  | [] => return ()
  | name :: path => do
      let _ ← Program.perform (.getBucket name)
      (openRead path).inside name

/-- `open_write`; the path is not empty. -/
def openWrite (createOnly : Bool) : List Bytes → Program Unit
  | [] => return ()
  | [name] => do
      let _ ← Program.perform (if createOnly then .createBucket name else .getOrCreateBucket name)
  | name :: next :: path => do
      let _ ← Program.perform (.getOrCreateBucket name)
      (openWrite createOnly (next :: path)).inside name

namespace CollectionDef

variable (definition : CollectionDef)

/-- What `check_schema` makes of the record it finds. -/
def compareSchema : Option Bytes → Except OpenError Unit
  | none => .error (.schemaMissing definition.name)
  | some actual =>
      if actual ≠ definition.schemaBytes then
        .error (.schemaMismatch definition.name definition.schemaId definition.schemaVersion)
      else .ok ()

/-- `check_schema`. -/
def checkSchema : OpenProgram Unit := do
  let actual ← ((Program.getKv definition.schemaKey).inside schemaBucket).mapError .storage
  .ofExcept (definition.compareSchema actual)

/-- `Tx::collection`. -/
def collection : OpenProgram Unit := do
  .ofExcept definition.validate
  (openRead definition.path).mapError .storage
  let _ ← (Program.perform (.getBucket schemaBucket)).mapError .storage
  definition.checkSchema

/-- The bucket of a collection, by the policy. -/
def openBucket (existing : Except Error Unit) : OpenProgram Unit :=
  match definition.policy with
  | .existing => .ofExcept (existing.mapError .storage)
  | .create => (openWrite true definition.path).mapError .storage
  | .createOrOpen => (openWrite false definition.path).mapError .storage

/-- The schema of a collection that was there, or that was just created. -/
def settleSchema (existed : Bool) : OpenProgram Unit :=
  if existed then definition.checkSchema
  else do
    let _ ← ((Program.put definition.schemaKey definition.schemaBytes).inside
      schemaBucket).mapError .storage

/-- `Tx::collection_mut`. -/
def collectionMut : OpenProgram Unit := do
  .ofExcept definition.validate
  let existing ← (openRead definition.path).captured
  definition.openBucket existing
  let _ ← (Program.perform (.getOrCreateBucket schemaBucket)).mapError .storage
  definition.settleSchema existing.isOk

end CollectionDef

end Tagdata.Model
