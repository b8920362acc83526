import Tagdata.Analysis.Collections
import Tagdata.Analysis.LiveSets

/-!
# Compare and exchange against reads

`compare_exchange` compares with the stored value and writes the record alone; `get` goes by
the expirations as well.  The two agree on a record that has not expired, and on a missing
one whose expiration is not left over from an earlier record.
-/

set_option autoImplicit false

namespace Tagdata.Analysis

open Tagdata.Library Tagdata.Model Tagdata.Interface

/-- Encoding and decoding of values are inverse to each other. -/
structure InverseValues {K V : Type} (codec : Codec K V) : Prop where
  total : ∀ v, ∃ bytes, codec.encodeValue v = .ok bytes
  inverse : ∀ v bytes, codec.encodeValue v = .ok bytes ↔ codec.decodeValue bytes = .ok v

section Exchange

variable {K V : Type} {codec : Codec K V}

/-- The value to compare with can be encoded, and so compared with what is stored. -/
theorem InverseValues.exists_encoded (h : InverseValues codec) (expected : Option V) :
    ∃ encoded, expected.mapM codec.encodeValue = .ok encoded := by
  cases expected with
  | none => exact ⟨none, rfl⟩
  | some v =>
    obtain ⟨bytes, hv⟩ := h.total v
    exact ⟨some bytes, by simp [hv]⟩

theorem InverseValues.encoded_eq_some (h : InverseValues codec) {expected : Option V}
    {encoded : Option Bytes} (hexpected : expected.mapM codec.encodeValue = .ok encoded)
    {stored : Bytes} {v : V} (hstored : codec.decodeValue stored = .ok v) :
    encoded = some stored ↔ some v = expected := by
  cases expected with
  | none =>
    obtain rfl := Except.ok.inj hexpected
    simp
  | some w =>
    obtain ⟨bytes, hw⟩ := h.total w
    obtain rfl : some bytes = encoded := by simpa [hw] using hexpected
    rw [Option.some.injEq, Option.some.injEq]
    have hdecode := (h.inverse w bytes).mp hw
    constructor
    · rintro rfl
      rw [hstored] at hdecode
      exact Except.ok.inj hdecode
    · rintro rfl
      rw [← h.inverse, hw] at hstored
      exact Except.ok.inj hstored

theorem InverseValues.encoded_eq_none (h : InverseValues codec) {expected : Option V}
    {encoded : Option Bytes} (hexpected : expected.mapM codec.encodeValue = .ok encoded) :
    encoded = none ↔ none = expected := by
  cases expected with
  | none =>
    obtain rfl := Except.ok.inj hexpected
    simp
  | some w =>
    obtain ⟨bytes, hw⟩ := h.total w
    obtain rfl : some bytes = encoded := by simpa [hw] using hexpected
    simp

/-- A `get`, a `compare_exchange` and a `get`, one after another. -/
def getExchangeGet (codec : Codec K V) (key : K) (expected : Option V) (value : V)
    (now : SystemTime) : CollectionProgram (Option V × CompareOutcome V × Option V) := do
  let held ← Collection.get codec key now
  let outcome ← Collection.compareExchange codec key expected value
  let after ← Collection.get codec key now
  return (held, outcome, after)

/-- The outcome is about the value that was read before, and the value that was read after it
is the new one if it was applied. -/
structure Consistent (expected : Option V) (value : V) (held : Option V)
    (outcome : CompareOutcome V) (after : Option V) : Prop where
  applied : outcome.applied = true ↔ held = expected
  observed : outcome.observed = held
  stored : outcome.applied = true → after = some value

/-- `compare_exchange` agrees with the reads around it. -/
def AgreesWithGet (codec : Codec K V) (d : Dir) (now : SystemTime) (key : K)
    (expected : Option V) (value : V) : Prop :=
  Prog.wp (Dir.serve Shows) (getExchangeGet codec key expected value now) d fun r _ =>
    ∃ held outcome after, r = .ok (held, outcome, after) ∧
      Consistent expected value held outcome after

/-- What the state of a key must be for that: a stored record is live and decodes, and where
there is none the key has no expiration that would hide a new record. -/
def Exchangeable (codec : Codec K V) (d : Dir) (now : SystemTime) (key : K)
    (expected : Option V) : Prop :=
  ∃ k, codec.encodeKey key = .ok k ∧
    match d.entries k with
    | some (.bucket _) => False
    | some (.value bytes) => liveness d now k = .ok true ∧ ∃ v, codec.decodeValue bytes = .ok v
    | none => Legible d now k ∧
        (expected = none → liveness d now k = .ok true ∧ k ≠ ttlBucket)

variable {seen : Dir → List Data → Prop} {key : K} {k : Bytes} {d : Dir} {now : SystemTime}

/-- What `compare_exchange` does with the stored value. -/
def exchanged (codec : Codec K V) (d : Dir) (k : Bytes) (expected : Option Bytes) (bytes : Bytes)
    (value : V) : Option Bytes → Except CodecError (CompareOutcome V) × Dir
  | none =>
      if expected = none then (.ok ⟨true, none, some value⟩, d.insert k (.value bytes))
      else (.ok ⟨false, none, none⟩, d)
  | some stored =>
      match codec.decodeValue stored with
      | .error e =>
          (.error e, if expected = some stored then d.insert k (.value bytes) else d)
      | .ok v =>
          if expected = some stored then (.ok ⟨true, some v, some value⟩, d.insert k (.value bytes))
          else (.ok ⟨false, some v, some v⟩, d)

theorem wp_compareExchange (hcodec : InverseValues codec) (hk : codec.encodeKey key = .ok k)
    {expected : Option V} {encoded : Option Bytes}
    (hexpected : expected.mapM codec.encodeValue = .ok encoded) {value : V} {bytes : Bytes}
    (hvalue : codec.encodeValue value = .ok bytes) {stored : Option Bytes}
    (hstored : d.observe k = .ok stored)
    (post : Except CodecError (CompareOutcome V) → Dir → Prop) :
    Prog.wp (Dir.serve seen) (Collection.compareExchange codec key expected value) d post ↔
      post (exchanged codec d k encoded bytes value stored).1
        (exchanged codec d k encoded bytes value stored).2 := by
  have hcurrent := (hcodec.inverse value bytes).mp hvalue
  unfold Collection.compareExchange Program.storage
  rw [hk, hexpected, hvalue]
  simp only [Prog.wp_bind, Prog.wp_ofExcept, Prog.andThen_ok, Prog.wp_mapError, wp_perform]
  cases stored with
  | none =>
    by_cases hsame : encoded = none
    · simp [Dir.run, hstored, hsame, exchanged, Collection.decodeOption, hcurrent, Except.mapError]
    · have hne : ¬ none = encoded := fun h => hsame h.symm
      simp [Dir.run, hstored, hsame, hne, exchanged, Collection.decodeOption, Except.mapError]
  | some stored =>
    by_cases hsame : encoded = some stored
    · cases hdecode : codec.decodeValue stored <;>
        simp [Dir.run, hstored, hsame, exchanged, Collection.decodeOption, hcurrent, hdecode,
          Except.mapError]
    · have hne : ¬ some stored = encoded := fun h => hsame h.symm
      cases hdecode : codec.decodeValue stored <;>
        simp [Dir.run, hstored, hsame, hne, exchanged, Collection.decodeOption, hdecode,
          Except.mapError]

/-- A nested bucket under the key is an error. -/
theorem wp_compareExchange_bucket (hcodec : InverseValues codec)
    (hk : codec.encodeKey key = .ok k) {e : Error} (hstored : d.observe k = .error e)
    (expected : Option V) (value : V) (post : Except CodecError (CompareOutcome V) → Dir → Prop) :
    Prog.wp (Dir.serve seen) (Collection.compareExchange codec key expected value) d post ↔
      post (.error (.storage e)) d := by
  obtain ⟨encoded, hexpected⟩ := hcodec.exists_encoded expected
  obtain ⟨bytes, hvalue⟩ := hcodec.total value
  unfold Collection.compareExchange Program.storage
  rw [hk, hexpected, hvalue]
  simp [Dir.run, hstored, Except.mapError]

/-- Another record does not change what the lookup bucket says. -/
theorem liveness_insert (hk : k ≠ ttlBucket) (e : Entry) (j : Bytes) :
    liveness (d.insert k e) now j = liveness d now j := by
  rw [liveness, liveness, Dir.insert_entries_ne d hk.symm]

/-- A stored record whose expiration can be read is not under the name of the lookup bucket. -/
theorem ne_ttlBucket_of_legible {bytes : Bytes} (hentry : d.entries k = some (.value bytes))
    (hlegible : Legible d now k) : k ≠ ttlBucket := by
  rintro rfl
  obtain ⟨a, ha⟩ := hlegible
  rw [liveness, hentry] at ha
  cases ha

/-- What is read after a record was written. -/
theorem readOf_insert (hcodec : InverseValues codec) {value : V} {bytes : Bytes}
    (hvalue : codec.encodeValue value = .ok bytes) (hlive : liveness d now k = .ok true)
    (hk : k ≠ ttlBucket) :
    readOf codec (d.insert k (.value bytes)) now k = .ok (some value) := by
  rw [readOf, liveness_insert hk, hlive]
  simp [rawValue, (hcodec.inverse value bytes).mp hvalue, Except.map]

/-- The program around `compare_exchange`, once the first read is known. -/
theorem agreesWithGet_iff (hk : codec.encodeKey key = .ok k) {held : Option V}
    (hheld : readOf codec d now k = .ok held) (expected : Option V) (value : V) :
    AgreesWithGet codec d now key expected value ↔
      Prog.wp (Dir.serve Shows) (Collection.compareExchange codec key expected value) d
        fun r d' => ∃ outcome after, r = .ok outcome ∧ readOf codec d' now k = .ok after ∧
          Consistent expected value held outcome after := by
  have hstep : ∀ (r : Except CodecError (CompareOutcome V)) d', Prog.andThen (Dir.serve Shows)
      (fun outcome => do
        let after ← Collection.get codec key now
        pure (held, outcome, after))
      (fun r _ => ∃ held outcome after, r = .ok (held, outcome, after) ∧
        Consistent expected value held outcome after) r d' ↔
      ∃ outcome after, r = .ok outcome ∧ readOf codec d' now k = .ok after ∧
          Consistent expected value held outcome after := by
    intro r d'
    cases r with
    | error e => simp
    | ok outcome =>
      simp only [Prog.andThen_ok, Prog.wp_bind, wp_get hk]
      cases readOf codec d' now k with
      | error e => simp
      | ok after => simp [Except.ok.injEq]
  unfold AgreesWithGet getExchangeGet
  rw [Prog.wp_bind, wp_get hk, hheld, Prog.andThen_ok, Prog.wp_bind]
  constructor
  · exact fun h => Prog.wp_mono h fun r d' => (hstep r d').mp
  · exact fun h => Prog.wp_mono h fun r d' => (hstep r d').mpr

/-- A read that fails. -/
theorem not_agreesWithGet (hk : codec.encodeKey key = .ok k) {e : CodecError}
    (hread : readOf codec d now k = .error e) (expected : Option V) (value : V) :
    ¬ AgreesWithGet codec d now key expected value := by
  unfold AgreesWithGet getExchangeGet
  rw [Prog.wp_bind, wp_get hk, hread]
  simp

/-- A stored record. -/
theorem agrees_stored_iff (hcodec : InverseValues codec) (hk : codec.encodeKey key = .ok k)
    {stored : Bytes} (hentry : d.entries k = some (.value stored)) (expected : Option V)
    (value : V) :
    AgreesWithGet codec d now key expected value ↔
      liveness d now k = .ok true ∧ ∃ v, codec.decodeValue stored = .ok v := by
  obtain ⟨encoded, hexpected⟩ := hcodec.exists_encoded expected
  obtain ⟨bytes, hvalue⟩ := hcodec.total value
  have hobserve : d.observe k = .ok (some stored) := by simp [Dir.observe, hentry]
  have hraw : rawValue d k = some stored := by simp [rawValue, hentry]
  cases hlive : liveness d now k with
  | error e =>
    have hread : readOf codec d now k = .error (.storage e) := by simp [readOf, hlive]
    simpa using not_agreesWithGet hk hread expected value
  | ok live =>
    cases hdecode : codec.decodeValue stored with
    | error e =>
      cases live with
      | true =>
        have hread : readOf codec d now k = .error e := by
          simp [readOf, hlive, hraw, hdecode, Except.map]
        simpa using not_agreesWithGet hk hread expected value
      | false =>
        have hread : readOf codec d now k = .ok none := by simp [readOf, hlive]
        rw [agreesWithGet_iff hk hread, wp_compareExchange hcodec hk hexpected hvalue hobserve]
        simp [exchanged, hdecode]
    | ok v =>
      have hsome := hcodec.encoded_eq_some hexpected hdecode
      cases live with
      | false =>
        -- the read hides what the exchange observes
        have hread : readOf codec d now k = .ok none := by simp [readOf, hlive]
        rw [agreesWithGet_iff hk hread, wp_compareExchange hcodec hk hexpected hvalue hobserve]
        refine iff_of_false ?_ (by simp)
        rintro ⟨outcome, after, houtcome, -, hconsistent⟩
        have hobserved := hconsistent.observed
        simp only [exchanged, hdecode] at houtcome
        split at houtcome
        · obtain rfl := Except.ok.inj houtcome
          cases hobserved
        · obtain rfl := Except.ok.inj houtcome
          cases hobserved
      | true =>
        have hread : readOf codec d now k = .ok (some v) := by
          simp [readOf, hlive, hraw, hdecode, Except.map]
        have hne := ne_ttlBucket_of_legible hentry ⟨true, hlive⟩
        rw [agreesWithGet_iff hk hread, wp_compareExchange hcodec hk hexpected hvalue hobserve]
        refine iff_of_true ?_ ⟨rfl, v, rfl⟩
        simp only [exchanged, hdecode]
        by_cases hsame : encoded = some stored
        · rw [if_pos hsame]
          exact ⟨_, _, rfl, readOf_insert hcodec hvalue hlive hne,
            ⟨by simp [hsome.mp hsame], rfl, fun _ => rfl⟩⟩
        · rw [if_neg hsame]
          exact ⟨_, _, rfl, hread, ⟨by simpa using fun h => hsame (hsome.mpr h), rfl, by simp⟩⟩

/-- A missing record. -/
theorem agrees_missing_iff (hcodec : InverseValues codec) (hk : codec.encodeKey key = .ok k)
    (hentry : d.entries k = none) (expected : Option V) (value : V) :
    AgreesWithGet codec d now key expected value ↔
      Legible d now k ∧ (expected = none → liveness d now k = .ok true ∧ k ≠ ttlBucket) := by
  obtain ⟨encoded, hexpected⟩ := hcodec.exists_encoded expected
  obtain ⟨bytes, hvalue⟩ := hcodec.total value
  have hobserve : d.observe k = .ok none := by simp [Dir.observe, hentry]
  have hraw : rawValue d k = none := by simp [rawValue, hentry]
  cases hlive : liveness d now k with
  | error e =>
    have hread : readOf codec d now k = .error (.storage e) := by simp [readOf, hlive]
    refine iff_of_false (not_agreesWithGet hk hread expected value) ?_
    rintro ⟨⟨a, ha⟩, -⟩
    rw [hlive] at ha
    cases ha
  | ok live =>
    have hread : readOf codec d now k = .ok none := by cases live <;> simp [readOf, hlive, hraw]
    have hnone := hcodec.encoded_eq_none hexpected
    rw [agreesWithGet_iff hk hread, wp_compareExchange hcodec hk hexpected hvalue hobserve]
    simp only [exchanged]
    by_cases hsame : encoded = none
    · rw [if_pos hsame]
      obtain rfl := hnone.mp hsame
      constructor
      · rintro ⟨outcome, after, houtcome, hafter, hconsistent⟩
        obtain rfl := Except.ok.inj houtcome
        obtain rfl := hconsistent.stored rfl
        refine ⟨⟨live, hlive⟩, fun _ => ?_⟩
        have hne : k ≠ ttlBucket := by
          rintro rfl
          simp [readOf, liveness] at hafter
        refine ⟨?_, hne⟩
        cases live with
        | true => rfl
        | false => simp [readOf, liveness_insert hne, hlive] at hafter
      · rintro ⟨-, hfree⟩
        obtain ⟨htrue, hne⟩ := hfree rfl
        obtain rfl := Except.ok.inj htrue
        exact ⟨_, _, rfl, readOf_insert hcodec hvalue hlive hne, ⟨by simp, rfl, fun _ => rfl⟩⟩
    · rw [if_neg hsame]
      have hne : ¬ none = expected := fun h => hsame (hnone.mpr h)
      refine iff_of_true ?_ ⟨⟨live, hlive⟩, fun h => absurd h.symm hne⟩
      exact ⟨_, _, rfl, hread, ⟨by simpa using hne, rfl, by simp⟩⟩

end Exchange

/-- `compare_exchange` agrees with `get` exactly when the record of the key is stored, live and
readable, or when there is none and, if one is to be inserted, no expiration hides it. -/
theorem compare_exchange_agrees_iff {K V : Type} {codec : Codec K V}
    (hcodec : InverseValues codec) (d : Dir) (now : SystemTime) (key : K) (expected : Option V)
    (value : V) :
    AgreesWithGet codec d now key expected value ↔ Exchangeable codec d now key expected := by
  cases hk : codec.encodeKey key with
  | error e =>
    refine iff_of_false ?_ ?_
    · unfold AgreesWithGet getExchangeGet Collection.get
      rw [hk]
      simp
    · rintro ⟨k, hk', -⟩
      rw [hk] at hk'
      cases hk'
  | ok k =>
    have hexchangeable : Exchangeable codec d now key expected ↔
        match d.entries k with
        | some (.bucket _) => False
        | some (.value bytes) =>
            liveness d now k = .ok true ∧ ∃ v, codec.decodeValue bytes = .ok v
        | none => Legible d now k ∧
            (expected = none → liveness d now k = .ok true ∧ k ≠ ttlBucket) := by
      unfold Exchangeable
      rw [hk]
      simp
    rw [hexchangeable]
    rcases hentry : d.entries k with - | stored | c
    · exact agrees_missing_iff hcodec hk hentry expected value
    · exact agrees_stored_iff hcodec hk hentry expected value
    · refine iff_of_false ?_ id
      have hobserve : d.observe k = .error .incompatibleValue := by simp [Dir.observe, hentry]
      have hraw : rawValue d k = none := by simp [rawValue, hentry]
      cases hlive : liveness d now k with
      | error e =>
        have hread : readOf codec d now k = .error (.storage e) := by simp [readOf, hlive]
        exact not_agreesWithGet hk hread expected value
      | ok live =>
        have hread : readOf codec d now k = .ok none := by
          cases live <;> simp [readOf, hlive, hraw]
        rw [agreesWithGet_iff hk hread, wp_compareExchange_bucket hcodec hk hobserve]
        simp

theorem bytesCodec_inverse : InverseValues bytesCodec where
  total v := ⟨v, rfl⟩
  inverse v bytes := by
    show Except.ok v = Except.ok bytes ↔ Except.ok bytes = Except.ok v
    exact eq_comm

theorem Expires.lookedUp {m : Expirations} {d : Dir} (h : Expires m d) : LookedUp m d := by
  obtain ⟨rfl, hnone, -⟩ | ⟨L, D, hL, -, hindexes⟩ := h
  · exact .inl ⟨hnone, fun _ => rfl⟩
  · exact .inr ⟨L, hL, hindexes.bounded, hindexes.lookup⟩

/-- A record without an expiration is exchanged. -/
theorem compare_exchange_agrees_persistent :
    AgreesWithGet bytesCodec (Dir.empty.insert [107] (.value [118])) 9 [107] (some [118])
      [119] := by
  refine (compare_exchange_agrees_iff bytesCodec_inverse _ _ _ _ _).mpr ⟨[107], rfl, ?_⟩
  exact ⟨rfl, [118], rfl⟩

/-- A record was inserted with an expiration at 5.  At time 9 `get` does not show it, and no
`compare_exchange` at that time agrees with `get`. -/
theorem compare_exchange_sees_expired :
    ∃ d : Dir,
      Prog.Ends (Dir.serve Shows)
        (CollectionOp.program bytesCodec (.insertWithOptions [107] [118] (some 5))) Dir.empty
        (.ok ()) d ∧
      ∀ expected value, ¬ AgreesWithGet bytesCodec d 9 [107] expected value := by
  obtain ⟨d, hends, hexpires, hsame⟩ := exists_expiring_insert
  have hkey : ¬ Reserved [107] := by
    rintro (h | h) <;> revert h <;> decide
  have hentry : d.entries [107] = some (.value [118]) := by
    rw [hsame.entries _ hkey, Dir.insert_entries_self]
  have hexpired : liveness d 9 [107] = .ok false := by
    rw [hexpires.lookedUp.liveness (rfl : epochMillis 9 = .ok 9)]
    simp [liveAt]
  refine ⟨d, hends, fun expected value => ?_⟩
  rw [agrees_stored_iff bytesCodec_inverse rfl hentry, hexpired]
  simp

end Tagdata.Analysis
