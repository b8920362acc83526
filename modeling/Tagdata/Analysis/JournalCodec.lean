import Tagdata.Analysis.JournalRecords
import Tagdata.Model.JournalMachine

/-!
# What the decoder of records accepts

A record decodes to the set it was made from; cut short or with bytes after it, it is refused.
On a machine the decoder never reads outside its input.  It asks for the memory of all changes at
once, before it has seen one: a record whose count is more than can be given ends the call
without a result.
-/

set_option autoImplicit false

namespace Tagdata.Analysis

open Tagdata.Library Tagdata.Model Journal

/-! ## Sets that can be encoded -/

/-- The counts and lengths of a set fit the fields of a record. -/
structure Encodable (set : ChangeSet) : Prop where
  count : set.changes.length < 2 ^ 32
  depth : ∀ change ∈ set.changes, change.bucketPath.length < 2 ^ 16
  parts : ∀ change ∈ set.changes, ∀ part ∈ change.bucketPath, part.length < 2 ^ 32
  keys : ∀ change ∈ set.changes, change.key.length < 2 ^ 32

theorem pushBytes_ok {bytes : Bytes} (h : bytes.length < 2 ^ 32) :
    pushBytes bytes = .ok (beBytes 4 bytes.length ++ bytes) := by
  rw [pushBytes, pushU32, if_pos h]
  rfl

theorem encodeAll_ok {α : Type} {encode : α → Except Error (List UInt8)} {as : List α}
    (h : ∀ a ∈ as, ∃ bytes, encode a = .ok bytes) : ∃ bytes, encodeAll encode as = .ok bytes := by
  induction as with
  | nil => exact ⟨[], rfl⟩
  | cons a as ih =>
    obtain ⟨first, hfirst⟩ := h a (by simp)
    obtain ⟨more, hmore⟩ := ih fun x hx => h x (List.mem_cons_of_mem _ hx)
    exact ⟨first ++ more, by rw [encodeAll, hfirst, hmore]; rfl⟩

theorem encodeChange_ok {change : Model.Change} (hdepth : change.bucketPath.length < 2 ^ 16)
    (hparts : ∀ part ∈ change.bucketPath, part.length < 2 ^ 32)
    (hkey : change.key.length < 2 ^ 32) : ∃ bytes, encodeChange change = .ok bytes := by
  obtain ⟨path, hpath⟩ := encodeAll_ok fun part hpart => ⟨_, pushBytes_ok (hparts part hpart)⟩
  exact ⟨_, by rw [encodeChange, pushU16, if_pos hdepth, hpath, pushBytes_ok hkey]; rfl⟩

/-- The encoding of a set starts with a header that holds the number of its changes. -/
theorem Encodable.encode {set : ChangeSet} (h : Encodable set) :
    ∃ changes, encodeChangeSet set =
      .ok (magic ++ (if set.truncated then 1 else 0) ::
        (beBytes 4 set.changes.length ++ changes)) := by
  obtain ⟨changes, hchanges⟩ := encodeAll_ok fun change hchange =>
    encodeChange_ok (h.depth change hchange) (h.parts change hchange) (h.keys change hchange)
  exact ⟨changes, by rw [encodeChangeSet, pushU32, if_pos h.count, hchanges]; rfl⟩

/-! ## Input that was cut or continued -/

theorem extends_take (count : Nat) : Extends (Input.take count) := by
  intro bytes taken rest h more
  have hrun : Input.take count bytes = .ok (taken, rest) := h
  show Input.take count (bytes ++ more) = .ok (taken, rest ++ more)
  rw [Input.take] at hrun ⊢
  split at hrun
  · cases hrun
  · rename_i hlen
    obtain ⟨rfl, rfl⟩ := Prod.mk.inj (Except.ok.inj hrun)
    rw [if_neg (by rw [List.length_append]; omega), List.take_append_of_le_length (by omega),
      List.drop_append_of_le_length (by omega)]

theorem extends_byte : Extends Input.byte := (extends_take 1).bind fun _ => extends_pure _

theorem extends_u16 : Extends Input.u16 := (extends_take 2).bind fun _ => extends_pure _

theorem extends_u32 : Extends Input.u32 := (extends_take 4).bind fun _ => extends_pure _

theorem extends_bytes : Extends Input.bytes := extends_u32.bind fun length => extends_take length

theorem extends_operation (value : UInt8) : Extends (decodeOperation value : Input _) := by
  cases decodeOperation value with
  | ok operation => exact extends_pure operation
  | error e => exact extends_throw e

theorem extends_change : Extends decodeChange :=
  extends_byte.bind fun value => (extends_operation value).bind fun _ =>
    extends_u16.bind fun pathCount => (extends_times extends_bytes pathCount).bind fun _ =>
      extends_bytes.bind fun _ => extends_pure _

theorem extends_magic : Extends decodeMagic := by
  refine (extends_take 4).bind fun taken => ?_
  split
  · exact extends_throw _
  · exact extends_pure ()

theorem extends_record : Extends decodeRecord :=
  extends_magic.bind fun _ => extends_byte.bind fun _ => extends_u32.bind fun count =>
    (extends_times extends_change count).bind fun _ => extends_pure _

/-- A record that was cut short. -/
theorem decodeChangeSet_truncated {set : ChangeSet} {bytes more : Bytes} (id : Nat)
    (h : encodeChangeSet set = .ok (bytes ++ more)) (hmore : more ≠ []) :
    ∃ e, decodeChangeSet id bytes = .error e := by
  obtain ⟨e, he⟩ := (reads_record h).truncated extends_record hmore
  exact ⟨e, by rw [decodeChangeSet, he]; rfl⟩

/-- A record with bytes after it. -/
theorem decodeChangeSet_trailing {set : ChangeSet} {bytes more : Bytes} (id : Nat)
    (h : encodeChangeSet set = .ok bytes) (hmore : more ≠ []) :
    decodeChangeSet id (bytes ++ more) =
      .error (.invalidDB "journal record has trailing bytes") := by
  rw [decodeChangeSet, reads_record h more]
  cases more with
  | nil => exact absurd rfl hmore
  | cons b more => rfl

/-! ## The decoder on a machine -/

/-- The count in the header of a record, where there is one. -/
def CountFits (maxCapacity : Nat) (bytes : Bytes) : Prop :=
  ∀ flag count rest, count < 2 ^ 32 → bytes = magic ++ flag :: (beBytes 4 count ++ rest) →
    count ≤ maxCapacity

/-- A call ended with a result. -/
def Returned {α : Type} (r : Except Fault α) : Prop :=
  ∃ result : Except Error α, r = result.mapError .error

section Machine

theorem machine_take (count : Nat) : Machine.take count = mapErrors .error (Input.take count) := by
  funext remaining
  show Machine.take count remaining = (Input.take count remaining).mapError .error
  unfold Machine.take Input.take Machine.splitAt
  by_cases h : remaining.length < count
  · rw [if_pos h, if_pos h]
    rfl
  · rw [if_neg h, if_neg h, if_pos (by omega)]
    rfl

/-- The bytes that `take` answers are as many as were asked for. -/
theorem take_length {count : Nat} {bytes taken rest : Bytes}
    (h : Input.take count bytes = .ok (taken, rest)) :
    taken.length = count ∧ bytes = taken ++ rest := by
  rw [Input.take] at h
  split at h
  · cases h
  · obtain ⟨rfl, rfl⟩ := Prod.mk.inj (Except.ok.inj h)
    exact ⟨by rw [List.length_take]; omega, (List.take_append_drop count bytes).symm⟩

/-- The numbers that are read. -/
theorem number_run {w n : Nat} {bytes rest : Bytes}
    (h : (do let taken ← Input.take w; return ofBeBytes taken : Input Nat).run bytes =
      .ok (n, rest)) : n < 256 ^ w ∧ bytes = beBytes w n ++ rest := by
  obtain ⟨taken, more, htake, hread⟩ := run_bind_ok h
  obtain ⟨rfl, rfl⟩ := Prod.mk.inj (Except.ok.inj hread)
  obtain ⟨rfl, hbytes⟩ := take_length htake
  exact ⟨ofBeBytes_lt taken, by rw [beBytes_ofBeBytes]; exact hbytes⟩

theorem u16_run {n : Nat} {bytes rest : Bytes} (h : Input.u16.run bytes = .ok (n, rest)) :
    n < 2 ^ 16 ∧ bytes = beBytes 2 n ++ rest := number_run h

theorem u32_run {n : Nat} {bytes rest : Bytes} (h : Input.u32.run bytes = .ok (n, rest)) :
    n < 2 ^ 32 ∧ bytes = beBytes 4 n ++ rest := number_run h

/-- After `take` a step may be replaced by one that does the same with as many bytes. -/
theorem machine_after_take {α : Type} {count : Nat} {f : Bytes → Machine.Input α}
    {g : Bytes → Input α} (h : ∀ taken, taken.length = count →
      f taken = mapErrors .error (g taken)) :
    (Machine.take count >>= f) = mapErrors .error (Input.take count >>= g) := by
  rw [mapErrors_bind, machine_take]
  funext bytes
  show ((Input.take count bytes).mapError Fault.error >>= fun r => f r.1 r.2) =
    (Input.take count bytes).mapError Fault.error >>= fun r => mapErrors .error (g r.1) r.2
  cases hrun : Input.take count bytes with
  | error e => rfl
  | ok r => exact congrFun (h r.1 (take_length hrun).1) r.2

theorem machine_byte : Machine.byte = mapErrors .error Input.byte := by
  refine machine_after_take fun taken hlength => ?_
  cases taken with
  | nil => cases hlength
  | cons b rest => rfl

theorem machine_u16 : Machine.u16 = mapErrors .error Input.u16 := by
  refine machine_after_take fun taken hlength => ?_
  rw [Machine.array, if_pos hlength]
  rfl

theorem machine_u32 : Machine.u32 = mapErrors .error Input.u32 := by
  refine machine_after_take fun taken hlength => ?_
  rw [Machine.array, if_pos hlength]
  rfl

theorem machine_bytes : Machine.bytes = mapErrors .error Input.bytes := by
  unfold Machine.bytes Input.bytes
  simp only [mapErrors_bind, machine_u32, machine_take]

theorem machine_magic : Machine.decodeMagic = mapErrors .error decodeMagic := by
  refine machine_after_take fun taken hlength => ?_
  split <;> rfl

/-- The memory for the parts of a path is there. -/
theorem machine_change {maxCapacity : Nat} (hcapacity : 2 ^ 16 ≤ maxCapacity + 1) :
    Machine.decodeChange maxCapacity = mapErrors .error decodeChange := by
  have hparts : ∀ f : Nat → Machine.Input Model.Change,
      (Machine.u16 >>= fun count => do
        Machine.withCapacity maxCapacity count
        f count) = Machine.u16 >>= f := by
    intro f
    rw [machine_u16]
    funext bytes
    show ((Input.u16.run bytes).mapError Fault.error >>= fun r =>
        (do Machine.withCapacity maxCapacity r.1; f r.1 : Machine.Input Model.Change) r.2) =
      (Input.u16.run bytes).mapError Fault.error >>= fun r => f r.1 r.2
    cases hrun : Input.u16.run bytes with
    | error e => rfl
    | ok r =>
      have hcount := (u16_run hrun).1
      show (do Machine.withCapacity maxCapacity r.1; f r.1 : Machine.Input Model.Change) r.2 =
        f r.1 r.2
      rw [Machine.withCapacity, if_neg (by omega)]
      rfl
  unfold Machine.decodeChange
  simp only [hparts]
  unfold decodeChange
  simp only [mapErrors_bind, mapErrors_times, mapErrors_pure, ← machine_byte, ← machine_u16,
    ← machine_bytes, mapErrors_lift]

/-! ## The header -/

/-- The fields of a record before its changes. -/
def header : Input (UInt8 × Nat) := do
  decodeMagic
  let truncated ← Input.byte
  let count ← Input.u32
  return (truncated, count)

/-- The rest of a record. -/
def body (h : UInt8 × Nat) : Input (Bool × List Model.Change) := do
  let changes ← times decodeChange h.2
  return (h.1 ≠ 0, changes)

/-- The rest of a record on a machine. -/
def checkedBody (maxCapacity : Nat) (h : UInt8 × Nat) :
    Machine.Input (Bool × List Model.Change) := do
  Machine.withCapacity maxCapacity h.2
  mapErrors Fault.error (body h)

theorem checkedBody_run (maxCapacity : Nat) (h : UInt8 × Nat) (rest : Bytes) :
    (checkedBody maxCapacity h).run rest =
      if maxCapacity < h.2 then .error (.panic "memory allocation failed")
      else ((body h).run rest).mapError .error := by
  unfold checkedBody Machine.withCapacity
  split <;> rfl

theorem decodeRecord_eq : decodeRecord = header >>= body := by
  unfold decodeRecord header body
  simp only [bind_assoc, pure_bind]

theorem machine_record {maxCapacity : Nat} (hcapacity : 2 ^ 16 ≤ maxCapacity + 1) :
    Machine.decodeRecord maxCapacity =
      mapErrors Fault.error header >>= checkedBody maxCapacity := by
  unfold Machine.decodeRecord header checkedBody body
  simp only [mapErrors_bind, mapErrors_times, mapErrors_pure, machine_magic, machine_byte,
    machine_u32, machine_change hcapacity, bind_assoc, pure_bind]

theorem magic_run {u : Unit} {bytes rest : Bytes} (h : decodeMagic.run bytes = .ok (u, rest)) :
    bytes = magic ++ rest := by
  obtain ⟨taken, more, htake, hcheck⟩ := run_bind_ok h
  obtain ⟨-, hbytes⟩ := take_length htake
  by_cases htaken : taken = magic
  · rw [if_neg (not_not.mpr htaken)] at hcheck
    obtain ⟨-, rfl⟩ := Prod.mk.inj (Except.ok.inj hcheck)
    rw [hbytes, htaken]
  · rw [if_pos htaken] at hcheck
    cases hcheck

theorem byte_run {b : UInt8} {bytes rest : Bytes} (h : Input.byte.run bytes = .ok (b, rest)) :
    bytes = b :: rest := by
  obtain ⟨taken, more, htake, hread⟩ := run_bind_ok h
  obtain ⟨rfl, rfl⟩ := Prod.mk.inj (Except.ok.inj hread)
  obtain ⟨hlength, hbytes⟩ := take_length htake
  obtain ⟨b, rfl⟩ := List.length_eq_one_iff.mp hlength
  exact hbytes

theorem header_run {bytes rest : Bytes} {flag : UInt8} {count : Nat} :
    header.run bytes = .ok ((flag, count), rest) ↔
      count < 2 ^ 32 ∧ bytes = magic ++ flag :: (beBytes 4 count ++ rest) := by
  constructor
  · intro h
    obtain ⟨u, afterMagic, hmagic, h⟩ := run_bind_ok h
    obtain ⟨flag', afterFlag, hflag, h⟩ := run_bind_ok h
    obtain ⟨count', more, hcount, h⟩ := run_bind_ok h
    obtain ⟨hfields, rfl⟩ := Prod.mk.inj (Except.ok.inj h)
    obtain ⟨rfl, rfl⟩ := Prod.mk.inj hfields
    obtain ⟨hlt, rfl⟩ := u32_run hcount
    rw [byte_run hflag] at hmagic
    exact ⟨hlt, magic_run hmagic⟩
  · rintro ⟨hlt, rfl⟩
    have hcount : Reads Input.u32 (beBytes 4 count) count := reads_u32 (if_pos hlt)
    have hheader : Reads header (magic ++ ([flag] ++ beBytes 4 count)) (flag, count) :=
      reads_magic.bind ((reads_byte flag).bind hcount.map)
    have hrun := hheader rest
    simpa using hrun

/-- The machine decodes as described, unless it cannot give the memory for the changes. -/
theorem machine_decodeChangeSet {maxCapacity : Nat} (hcapacity : 2 ^ 16 ≤ maxCapacity + 1)
    (id : Nat) (bytes : Bytes) :
    (CountFits maxCapacity bytes → Machine.decodeChangeSet maxCapacity id bytes =
      (decodeChangeSet id bytes).mapError .error) ∧
    (¬ CountFits maxCapacity bytes → Machine.decodeChangeSet maxCapacity id bytes =
      .error (.panic "memory allocation failed")) := by
  unfold Machine.decodeChangeSet decodeChangeSet
  rw [machine_record hcapacity, decodeRecord_eq, StateT.run_bind, StateT.run_bind]
  cases hheader : header.run bytes with
  | error e =>
    have hfail : (mapErrors Fault.error header).run bytes = .error (.error e) := by
      show (header.run bytes).mapError Fault.error = _
      rw [hheader]
      rfl
    rw [hfail]
    refine ⟨fun _ => rfl, fun hcount => absurd ?_ hcount⟩
    intro flag count rest hlt hbytes
    rw [header_run.mpr ⟨hlt, hbytes⟩] at hheader
    cases hheader
  | ok r =>
    obtain ⟨⟨flag, count⟩, rest⟩ := r
    have hread : (mapErrors Fault.error header).run bytes = .ok ((flag, count), rest) := by
      show (header.run bytes).mapError Fault.error = _
      rw [hheader]
      rfl
    rw [hread]
    obtain ⟨hlt, hbytes⟩ := header_run.mp hheader
    by_cases hfits : count ≤ maxCapacity
    · have hcount : CountFits maxCapacity bytes := by
        intro flag' count' rest' hlt' hbytes'
        have hsame := (header_run.mpr ⟨hlt', hbytes'⟩).symm.trans hheader
        rwa [(Prod.mk.inj (Prod.mk.inj (Except.ok.inj hsame)).1).2]
      refine ⟨fun _ => ?_, fun h => absurd hcount h⟩
      show ((checkedBody maxCapacity (flag, count)).run rest >>= _) =
        ((body (flag, count)).run rest >>= _).mapError Fault.error
      rw [checkedBody_run, if_neg (by simpa using hfits)]
      cases hbody : (body (flag, count)).run rest with
      | error e => rfl
      | ok r =>
        show (if r.2.isEmpty then _ else _) = (if r.2.isEmpty then _ else _ : Except _ _).mapError _
        split <;> rfl
    · refine ⟨fun h => absurd (h flag count rest hlt hbytes) hfits, fun _ => ?_⟩
      show ((checkedBody maxCapacity (flag, count)).run rest >>= _) = _
      rw [checkedBody_run, if_pos (by simpa using hfits)]
      rfl

theorem machine_of_error {maxCapacity id : Nat} {bytes : Bytes} {e : Error}
    (hcapacity : 2 ^ 16 ≤ maxCapacity + 1) (hfits : CountFits maxCapacity bytes)
    (h : decodeChangeSet id bytes = .error e) :
    Machine.decodeChangeSet maxCapacity id bytes = .error (.error e) := by
  rw [(machine_decodeChangeSet hcapacity id bytes).1 hfits, h]
  rfl

end Machine

/-- What the decoder does with a record and what is made of it. -/
structure Decodes (maxCapacity : Nat) (set : ChangeSet) (bytes : Bytes) : Prop where
  roundTrip : Machine.decodeChangeSet maxCapacity set.transactionId bytes = .ok set
  truncated : ∀ id cut more, bytes = cut ++ more → more ≠ [] →
    ∃ e, Machine.decodeChangeSet maxCapacity id cut = .error (.error e)
  trailing : ∀ id more, more ≠ [] →
    ∃ e, Machine.decodeChangeSet maxCapacity id (bytes ++ more) = .error (.error e)

/-- The record of a set with a count that the machine can hold. -/
theorem Encodable.decodes {maxCapacity : Nat} {set : ChangeSet} {changes : Bytes}
    (hcapacity : 2 ^ 16 ≤ maxCapacity + 1) (h : Encodable set)
    (hencode : encodeChangeSet set = .ok (magic ++ (if set.truncated then 1 else 0) ::
      (beBytes 4 set.changes.length ++ changes)))
    (hcount : set.changes.length ≤ maxCapacity) :
    Decodes maxCapacity set (magic ++ (if set.truncated then 1 else 0) ::
      (beBytes 4 set.changes.length ++ changes)) := by
  -- every input that shares the header has the same count
  have hfits : ∀ input left right, input ++ left = magic ++ (if set.truncated then 1 else 0) ::
      (beBytes 4 set.changes.length ++ right) → CountFits maxCapacity input := by
    intro input left right hshared flag count rest hlt hinput
    have hthis : header.run (input ++ left) = .ok ((flag, count), rest ++ left) :=
      header_run.mpr ⟨hlt, by rw [hinput]; simp⟩
    rw [hshared, header_run.mpr ⟨h.count, rfl⟩] at hthis
    rwa [← (Prod.mk.inj (Prod.mk.inj (Except.ok.inj hthis)).1).2]
  refine ⟨?_, fun id cut more hcut hmore => ?_, fun id more hmore => ?_⟩
  · rw [(machine_decodeChangeSet hcapacity _ _).1 (hfits _ [] changes (by simp)),
      decodeChangeSet_encodeChangeSet hencode]
    rfl
  · obtain ⟨e, he⟩ := decodeChangeSet_truncated id (hcut ▸ hencode) hmore
    exact ⟨e, machine_of_error hcapacity (hfits cut more changes hcut.symm) he⟩
  · have htrailing := decodeChangeSet_trailing id hencode hmore
    exact ⟨_, machine_of_error hcapacity (hfits _ [] (changes ++ more) (by simp)) htrailing⟩

/-- **The codec of records.**  A set whose sizes fit the fields is encoded.  The decoder returns
it, and refuses every part and every continuation of the record, if and only if the machine can
give the memory for the changes; and it returns on any bytes if and only if the machine can give
what their header asks for. -/
theorem journal_codec_iff {maxCapacity : Nat} (hcapacity : 2 ^ 16 ≤ maxCapacity + 1) :
    (∀ set, Encodable set → ∃ bytes, encodeChangeSet set = .ok bytes ∧
      (Decodes maxCapacity set bytes ↔ set.changes.length ≤ maxCapacity)) ∧
    ∀ id bytes,
      Returned (Machine.decodeChangeSet maxCapacity id bytes) ↔ CountFits maxCapacity bytes := by
  have hreturned : ∀ id bytes,
      Returned (Machine.decodeChangeSet maxCapacity id bytes) ↔ CountFits maxCapacity bytes := by
    intro id bytes
    obtain ⟨hfits, hexceeds⟩ := machine_decodeChangeSet hcapacity id bytes
    refine ⟨fun hreturned => ?_, fun h => ⟨_, hfits h⟩⟩
    by_contra h
    obtain ⟨result, hresult⟩ := hreturned
    rw [hexceeds h] at hresult
    cases result <;> cases hresult
  refine ⟨fun set hset => ?_, hreturned⟩
  obtain ⟨changes, hencode⟩ := hset.encode
  refine ⟨_, hencode, fun hdecodes => ?_, hset.decodes hcapacity hencode⟩
  exact (hreturned set.transactionId _).mp ⟨.ok set, hdecodes.roundTrip⟩ _ _ changes hset.count rfl

/-- One change of a nested bucket. -/
theorem journal_codec_nested :
    ∃ bytes, encodeChangeSet ⟨7, [⟨[[98], [99]], [107], .put⟩], false⟩ = .ok bytes ∧
      Decodes (2 ^ 16) ⟨7, [⟨[[98], [99]], [107], .put⟩], false⟩ bytes := by
  obtain ⟨hset, -⟩ := journal_codec_iff (show 2 ^ 16 ≤ 2 ^ 16 + 1 by decide)
  obtain ⟨bytes, hencode, hdecodes⟩ := hset ⟨7, [⟨[[98], [99]], [107], .put⟩], false⟩
    ⟨by decide, by decide, by decide, by decide⟩
  exact ⟨bytes, hencode, hdecodes.mpr (by decide)⟩

/-- Nine bytes that announce 2 ^ 32 - 1 changes. -/
theorem decode_exhausts_memory :
    ¬ Returned (Machine.decodeChangeSet (2 ^ 30) 1 [73, 83, 74, 82, 0, 255, 255, 255, 255]) := by
  have hpanic : Machine.decodeChangeSet (2 ^ 30) 1 [73, 83, 74, 82, 0, 255, 255, 255, 255] =
      .error (.panic "memory allocation failed") := by
    decide
  rintro ⟨result, hresult⟩
  rw [hpanic] at hresult
  cases result <;> cases hresult

end Tagdata.Analysis
