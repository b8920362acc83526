import Tagdata.Analysis.MergeSteps
import Tagdata.Library.Transactions

/-!
# Expirations in every run

The operations on a bucket with expirations, in transactions that commit or roll back: the two
indexes hold the same pairs in every state, and reads go by them.
-/

set_option autoImplicit false

namespace Tagdata.Analysis

open Tagdata.Library Tagdata.Model Tagdata.Interface

/-- The operations on a bucket with expirations. -/
inductive TtlOp where
  | put (key value : Bytes)
  | putWithTtl (key value : Bytes) (expiresAt : SystemTime)
  | delete (key : Bytes)
  | clearTtl (key : Bytes)
  | updateValue (key : Bytes) (update : Option Bytes → Option Bytes)
  | purgeExpired (now : SystemTime) (limit : Nat)
  | mergeFrom (policy : MergeConflictPolicy) (source : Contents)

namespace TtlOp

/-- What an operation calls; its result is dropped. -/
def program : TtlOp → Program Unit
  | .put key value => do let _ ← Program.put key value
  | .putWithTtl key value expiresAt => do let _ ← Program.putWithTtl key value expiresAt
  | .delete key => do let _ ← Program.perform (.delete key)
  | .clearTtl key => do let _ ← Program.clearTtl key
  | .updateValue key update => do let _ ← Program.updateValue key update
  | .purgeExpired now limit => do let _ ← Program.purgeExpired now limit
  | .mergeFrom policy source => do let _ ← Program.mergeBucket policy [] source .default

/-- No key is one of the reserved names. -/
def Allowed : TtlOp → Prop
  | .put key _ | .putWithTtl key _ _ | .delete key | .clearTtl key | .updateValue key _ =>
      ¬ Reserved key
  | .purgeExpired _ _ => True
  | .mergeFrom _ source => ∀ k ∈ valueKeys source, ¬ Reserved k

end TtlOp

/-- One operation; when it fails, what it did so far stays in the transaction. -/
def TtlStep (d d' : Dir) : Prop :=
  ∃ (op : TtlOp) (r : Except Error Unit),
    op.Allowed ∧ Prog.Ends (Dir.serve Shows) op.program d r d'

/-- Every operation keeps the two indexes. -/
theorem TtlStep.expires {d d' : Dir} (hstep : TtlStep d d') (h : ∃ m, Expires m d) :
    ∃ m, Expires m d' := by
  obtain ⟨op, r, hallowed, hends⟩ := hstep
  obtain ⟨m, h⟩ := h
  have hdrop : ∀ {α : Type} {p : Program α} {Q : Dir → Prop},
      Prog.wp (Dir.serve Shows) p d (fun _ d' => Q d') →
      Prog.wp (Dir.serve Shows) (do let _ ← p) d fun _ d' => Q d' := by
    intro α p Q hp
    exact Prog.wp_seq hp (fun _ _ hq => hq) fun _ _ hq => hq
  have hwp : Prog.wp (Dir.serve Shows) op.program d fun _ d' => ∃ m, Expires m d' := by
    cases op with
    | put key value =>
      apply hdrop
      exact Prog.wp_mono (h.put hallowed value) fun _ _ hexpires => ⟨m, hexpires⟩
    | putWithTtl key value expiresAt => exact hdrop (h.putWithTtl hallowed value expiresAt)
    | delete key =>
      apply hdrop
      exact Prog.wp_mono (h.delete hallowed) fun _ _ hexpires => ⟨m, hexpires⟩
    | clearTtl key =>
      apply hdrop
      exact Prog.wp_mono (h.clearTtl key) fun _ _ hexpires => ⟨_, hexpires.2.1⟩
    | updateValue key update => exact hdrop (h.updateValue hallowed update)
    | purgeExpired now limit =>
      apply hdrop
      exact Prog.wp_mono (h.purgeExpired (fun _ _ hl => hl) now limit) fun _ _ hpurge => hpurge.1
    | mergeFrom policy source => exact hdrop (h.keepsMerge policy [] hallowed .default)
  exact Prog.wp_iff_ends.mp hwp r d' hends

/-! ## What the indexes are for -/

/-- What a key shows at a time: its value when it has no deadline or the deadline is still
ahead. -/
def liveValue (d : Dir) (k : Bytes) (time : SystemTime) : Except Error (Option Bytes) :=
  match lookupOf d k with
  | none => .ok (rawValue d k)
  | some deadline =>
      match epochMillis time with
      | .error e => .error e
      | .ok now => .ok (if now < ofBeBytes deadline then rawValue d k else none)

/-- The two indexes hold the same pairs and reads go by them. -/
structure TtlConsistent (d : Dir) : Prop where
  /-- Lookup entries are values of eight bytes. -/
  eight : ∀ (L : Dir) (k : Bytes) (e : Entry), d.entries ttlBucket = some (.bucket L) →
    L.entries k = some e → ∃ v, e = .value v ∧ v.length = 8
  /-- The deadline bucket holds a key for every lookup entry, and no other. -/
  deadlines : ∀ D : Dir, d.entries ttlDeadlinesBucket = some (.bucket D) →
    ∀ x, D.entries x ≠ none ↔ ∃ k v, lookupOf d k = some v ∧ x = deadlineKey (ofBeBytes v) k
  /-- A read changes nothing and shows the live value. -/
  live : ∀ (k : Bytes) (time : SystemTime),
    (∃ r d', Prog.Ends (Dir.serve Shows) (Program.getLiveAt k time) d r d') ∧
    ∀ r d', Prog.Ends (Dir.serve Shows) (Program.getLiveAt k time) d r d' →
      r = liveValue d k time ∧ d' = d

theorem Expires.consistent {m : Expirations} {d : Dir} (h : Expires m d) : TtlConsistent d := by
  refine ⟨?_, ?_, ?_⟩
  · intro L k e hL he
    obtain ⟨-, hnone, -⟩ | ⟨L', D, hL', -, hindexes⟩ := h
    · rw [hnone] at hL
      cases hL
    · obtain rfl : L' = L := by simpa [hL'] using hL
      rw [hindexes.lookup] at he
      obtain ⟨t, -, rfl⟩ := Option.map_eq_some_iff.mp he
      exact ⟨_, rfl, length_beBytes 8 t⟩
  · intro D hD x
    simp only [h.lookupOf, Option.map_eq_some_iff]
    obtain ⟨-, -, hnone⟩ | ⟨L, D', -, hD', hindexes⟩ := h
    · rw [hnone] at hD
      cases hD
    · obtain rfl : D' = D := by simpa [hD'] using hD
      rw [hindexes.deadlines]
      constructor
      · intro hx
        have hpair : 8 ≤ x.length ∧ m (x.drop 8) = some (ofBeBytes (x.take 8)) := by
          by_contra hne
          exact hx (if_neg hne)
        have ht := hindexes.bounded _ _ hpair.2
        refine ⟨x.drop 8, _, ⟨_, hpair.2, rfl⟩, ?_⟩
        rw [ofBeBytes_eight ht]
        exact (eq_deadlineKey ht).mpr ⟨hpair.1, rfl, rfl⟩
      · rintro ⟨k, v, ⟨t, hk, rfl⟩, rfl⟩
        have ht := hindexes.bounded k t hk
        simp [deadlineEntries, ofBeBytes_eight ht, drop_deadlineKey, take_deadlineKey,
          length_deadlineKey, hk]
  · intro k time
    refine ⟨Prog.exists_ends serve_total _ d, ?_⟩
    have hwp : Prog.wp (Dir.serve Shows) (Program.getLiveAt k time) d fun r d' =>
        r = liveValue d k time ∧ d' = d := by
      unfold Program.getLiveAt liveValue
      rw [Prog.wp_bind, h.lookupOf]
      apply Prog.wp_mono (h.expiration k)
      rintro r d' ⟨rfl, rfl⟩
      cases hk : m k with
      | none => simp
      | some t =>
        simp only [Option.map_some, Prog.andThen_ok, Prog.wp_bind, Prog.wp_ofExcept,
          ofBeBytes_eight (h.bounded k t hk)]
        cases epochMillis time with
        | error e => simp
        | ok now =>
          by_cases hle : t ≤ now
          · simp [hle]
          · simp [hle, Nat.lt_of_not_le hle]
    exact fun r d' hends => Prog.wp_iff_ends.mp hwp r d' hends

/-- From a bucket without expirations, every state of every run, committed or not, has two
indexes of the same pairs, and reads go by them. -/
theorem ttl_runs_consistent {d₀ : Dir} (hlookup : d₀.entries ttlBucket = none)
    (hdeadlines : d₀.entries ttlDeadlinesBucket = none) {s : Store Dir}
    (hs : Store.Reachable TtlStep d₀ s) (d : Dir) (hd : s.Holds d) : TtlConsistent d := by
  have hstart : ∃ m, Expires m d₀ := ⟨_, .inl ⟨rfl, hlookup, hdeadlines⟩⟩
  have hstep : ∀ w w' : Dir, (∃ m, Expires m w) → TtlStep w w' → ∃ m, Expires m w' :=
    fun _ _ h hstep => hstep.expires h
  obtain ⟨m, h⟩ := hs.invariant hstep hstart d hd
  exact h.consistent

/-- A key is put with a deadline and committed, then purged in a second transaction. -/
theorem ttl_runs_consistent_purge :
    ∃ s : Store Dir, Store.Reachable TtlStep Dir.empty s ∧ s.working.isSome ∧
      (∃ D : Dir, s.committed.entries ttlDeadlinesBucket = some (.bucket D)) ∧
      ∀ d, s.Holds d → TtlConsistent d := by
  have hkey : ¬ Reserved [] := by
    rintro (h | h) <;> revert h <;> decide
  obtain ⟨r₁, d₁, hends₁⟩ := Prog.exists_ends serve_total
    (TtlOp.program (.putWithTtl [] [1] 5)) Dir.empty
  obtain ⟨r₂, d₂, hends₂⟩ := Prog.exists_ends serve_total
    (TtlOp.program (.purgeExpired 9 1)) d₁
  have hreachable : Store.Reachable TtlStep Dir.empty ⟨d₁, some d₂⟩ := by
    have hput : Store.Step TtlStep ⟨Dir.empty, some Dir.empty⟩ ⟨Dir.empty, some d₁⟩ :=
      .operate _ ⟨.putWithTtl [] [1] 5, r₁, hkey, hends₁⟩
    have hpurge : Store.Step TtlStep ⟨d₁, some d₁⟩ ⟨d₁, some d₂⟩ :=
      .operate _ ⟨.purgeExpired 9 1, r₂, trivial, hends₂⟩
    exact ((((Relation.ReflTransGen.single (.start _)).tail hput).tail (.commit _ _)).tail
      (.start _)).tail hpurge
  have hbound : Prog.wp (Dir.serve Shows) (TtlOp.program (.putWithTtl [] [1] 5)) Dir.empty
      fun _ d' => ∃ D : Dir, d'.entries ttlDeadlinesBucket = some (.bucket D) := by
    have hput : Prog.wp (Dir.serve Shows) (Program.putWithTtl [] [1] 5) Dir.empty fun r d' =>
        r = .ok ⟨none, 5⟩ ∧ Expires (Function.update (fun _ => none) [] (some 5)) d' ∧
          SameRecords (Dir.empty.insert [] (.value [1])) d' :=
      expires_empty.putWithTtl_value hkey (fun c hc => by cases hc) [1] rfl
    apply Prog.wp_seq hput
    · rintro _ d' ⟨-, hexpires, -⟩
      obtain ⟨hnone, -⟩ | ⟨L, D, -, hD, -⟩ := hexpires
      · have := congrFun hnone []
        simp at this
      · exact ⟨D, hD⟩
    · rintro e d' ⟨hfailed, -⟩
      cases hfailed
  refine ⟨_, hreachable, rfl, Prog.wp_iff_ends.mp hbound r₁ d₁ hends₁, ?_⟩
  exact ttl_runs_consistent rfl rfl hreachable

end Tagdata.Analysis
