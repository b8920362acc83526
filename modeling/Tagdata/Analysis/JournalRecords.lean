import Tagdata.Analysis.Scans
import Tagdata.Model.Journal

/-!
# Keys and records of the journal

A record decodes to the change set it was made from, and the keys of records are ordered as the
transaction ids.
-/

set_option autoImplicit false

namespace Tagdata.Analysis

open Tagdata.Library Tagdata.Model Tagdata.Interface Journal

/-! ## Keys -/

/-- The key of a transaction gives its id back. -/
theorem decodeTxKey_txKey {id : Nat} (h : id < 2 ^ 64) : decodeTxKey (txKey id) = some id := by
  have hid : id < 256 ^ 8 := by simpa using h
  simp [decodeTxKey, txKey, ofBeBytes_beBytes hid]

/-- The key of the configuration is not that of a transaction. -/
theorem decodeTxKey_configKey : decodeTxKey configKey = none := by decide

/-- The configuration comes before every transaction. -/
theorem configKey_lt_txKey (id : Nat) : configKey < txKey id :=
  List.cons_lt_cons_iff.mpr (.inl (by decide))

/-- The keys of transactions are in the order of their ids. -/
theorem txKey_lt {m n : Nat} (hmn : m < n) (hn : n < 2 ^ 64) : txKey m < txKey n := by
  have hn : n < 256 ^ 8 := by simpa using hn
  exact List.cons_lt_cons_iff.mpr (.inr ⟨rfl, beBytes_lt hmn hn⟩)

/-- Two transactions have different keys. -/
theorem txKey_inj {m n : Nat} (hm : m < 2 ^ 64) (hn : n < 2 ^ 64) (h : txKey m = txKey n) :
    m = n := by
  have hdecode := decodeTxKey_txKey hm
  rw [h, decodeTxKey_txKey hn] at hdecode
  exact (Option.some.inj hdecode).symm

/-- A stored number is read back. -/
theorem decodeU64_beBytes {n : Nat} (h : n < 2 ^ 64) : decodeU64 (beBytes 8 n) = .ok n := by
  have hn : n < 256 ^ 8 := by simpa using h
  simp [decodeU64, ofBeBytes_beBytes hn]

/-! ## Records -/

/-- Bytes are taken off the front. -/
theorem reads_take (bytes : Bytes) : Reads (Input.take bytes.length) bytes bytes := by
  intro rest
  simp [Input.take, StateT.run]

/-- A byte is read back. -/
theorem reads_byte (b : UInt8) : Reads Input.byte [b] b := (reads_take [b]).map

/-- A number of a given width is read back. -/
theorem reads_number {w n : Nat} (h : n < 256 ^ w) :
    Reads (do let taken ← Input.take w; return ofBeBytes taken) (beBytes w n) n := by
  have htake := reads_take (beBytes w n)
  rw [length_beBytes] at htake
  have hread := Reads.map (f := ofBeBytes) htake
  rwa [ofBeBytes_beBytes h] at hread

/-- What `push_u16` wrote is read back. -/
theorem reads_u16 {n : Nat} {bytes : Bytes} (h : pushU16 n = .ok bytes) :
    Reads Input.u16 bytes n := by
  unfold pushU16 at h
  split at h
  · obtain rfl := Except.ok.inj h
    exact reads_number (by omega)
  · cases h

/-- What `push_u32` wrote is read back. -/
theorem reads_u32 {n : Nat} {bytes : Bytes} (h : pushU32 n = .ok bytes) :
    Reads Input.u32 bytes n := by
  unfold pushU32 at h
  split at h
  · obtain rfl := Except.ok.inj h
    exact reads_number (by omega)
  · cases h

/-- What `push_bytes` wrote is read back. -/
theorem reads_bytes {value bytes : Bytes} (h : pushBytes value = .ok bytes) :
    Reads Input.bytes bytes value := by
  unfold pushBytes at h
  cases hlength : pushU32 value.length with
  | error e => simp [hlength, bind, Except.bind] at h
  | ok length =>
    obtain rfl : length ++ value = bytes := by
      simpa [hlength, bind, Except.bind, pure, Except.pure] using h
    exact (reads_u32 hlength).bind (reads_take value)

/-- The byte of an operation gives the operation back. -/
theorem decodeOperation_encodeOperation (operation : ChangeOperation) :
    decodeOperation (encodeOperation operation) = .ok operation := by
  cases operation <;> decide

/-- An encoded change is read back. -/
theorem reads_change {change : Model.Change} {bytes : Bytes} (h : encodeChange change = .ok bytes) :
    Reads decodeChange bytes change := by
  unfold encodeChange at h
  cases hdepth : pushU16 change.bucketPath.length with
  | error e => simp [hdepth, bind, Except.bind] at h
  | ok depth =>
  cases hpath : encodeAll pushBytes change.bucketPath with
  | error e => simp [hdepth, hpath, bind, Except.bind] at h
  | ok path =>
  cases hkey : pushBytes change.key with
  | error e => simp [hdepth, hpath, hkey, bind, Except.bind] at h
  | ok key =>
    obtain rfl : encodeOperation change.operation :: (depth ++ (path ++ key)) = bytes := by
      simpa [hdepth, hpath, hkey, bind, Except.bind, pure, Except.pure] using h
    have hoperation : Reads (decodeOperation (encodeOperation change.operation) : Input _) []
        change.operation := by
      rw [decodeOperation_encodeOperation]
      exact reads_pure change.operation
    unfold decodeChange
    refine (reads_byte (encodeOperation change.operation)).bind ?_
    refine hoperation.bind ?_
    refine (reads_u16 hdepth).bind ?_
    refine (reads_times (fun part _ b hb => reads_bytes hb) hpath).bind ?_
    exact (reads_bytes hkey).map

/-- The magic is accepted. -/
theorem reads_magic : Reads decodeMagic magic () := by
  have htake : Reads (Input.take 4) magic magic := reads_take magic
  have hdone : Reads (if magic ≠ magic then throw (.invalidDB "journal record magic is invalid")
      else pure () : Input Unit) [] () := by
    rw [if_neg (by simp)]
    exact reads_pure ()
  exact htake.bind hdone

/-- The fields of a record are read from its encoding. -/
theorem reads_record {set : ChangeSet} {bytes : Bytes} (h : encodeChangeSet set = .ok bytes) :
    Reads decodeRecord bytes (set.truncated, set.changes) := by
  unfold encodeChangeSet at h
  cases hcount : pushU32 set.changes.length with
  | error e => simp [hcount, bind, Except.bind] at h
  | ok count =>
  cases hchanges : encodeAll encodeChange set.changes with
  | error e => simp [hcount, hchanges, bind, Except.bind] at h
  | ok changes =>
    have hbytes : bytes = magic ++ ([if set.truncated then 1 else 0] ++ (count ++ changes)) := by
      simpa [hcount, hchanges, bind, Except.bind, pure, Except.pure] using h.symm
    have hflag : decide ((if set.truncated then (1 : UInt8) else 0) ≠ 0) = set.truncated := by
      cases set.truncated <;> decide
    have hrecord : Reads decodeRecord bytes
        (decide ((if set.truncated then (1 : UInt8) else 0) ≠ 0), set.changes) := by
      rw [hbytes]
      unfold decodeRecord
      refine reads_magic.bind ?_
      refine (reads_byte (if set.truncated then 1 else 0)).bind ?_
      refine (reads_u32 hcount).bind ?_
      exact (reads_times (fun change _ b hb => reads_change hb) hchanges).map
    rwa [hflag] at hrecord

/-- A record decodes to the set it was made from. -/
theorem decodeChangeSet_encodeChangeSet {set : ChangeSet} {bytes : Bytes}
    (h : encodeChangeSet set = .ok bytes) :
    decodeChangeSet set.transactionId bytes = .ok set := by
  rw [decodeChangeSet, (reads_record h).run]
  rfl

end Tagdata.Analysis
