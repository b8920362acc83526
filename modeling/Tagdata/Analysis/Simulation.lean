import Tagdata.Analysis.Refinement
import Tagdata.Interface.Requests

/-!
# Programs run on the buckets

The results about programs are about what the nested map answers.  The buckets of a transaction
answer every method call that binds no new key as the nested map does, so a program of such calls
runs on them and ends as it may end on the map.
-/

set_option autoImplicit false

namespace Tagdata.Analysis

open Tagdata.Library Tagdata.Model Tagdata.Interface

/-- A method call that binds no new key, so that no counter can overflow. -/
def Calls : Request → Prop
  | .call _ op => Dir.binds op = false
  | _ => False

theorem calls_inside (name : Bytes) (request : Request) (h : Calls request) :
    Calls (request.inside name) := by
  cases request with
  | call path op => exact h
  | scan path | scanBack path | seek path key | mergeNextInt path nextInt
  | setNextInt path nextInt => exact h.elim

theorem calls_perform {op : Op} (h : Dir.binds op = false) : (Program.perform op).Only Calls := by
  refine ⟨h, fun a => ?_⟩
  rcases a with e | o | l | ⟨f, c, l⟩ <;> trivial

theorem calls_attempt {op : Op} (h : Dir.binds op = false) : (Program.attempt op).Only Calls := by
  refine ⟨h, fun a => ?_⟩
  rcases a with e | o | l | ⟨f, c, l⟩ <;> trivial

section Programs

variable {P : Pages} {origin : Option Nest} {b : InnerBucket} {T : Nest} {N fuel : Nat}
  {seen : Dir → List Data → Prop}

/-- A result with its value mapped. -/
def mapResult {σ α β : Type} (f : α → β) : EStateM.Result Fault σ α → EStateM.Result Fault σ β
  | .ok a s => .ok (f a) s
  | .error e s => .error e s

theorem atPath_map {α β : Type} (f : α → β) (m : EStateM Fault BucketTx α) (path : List Bytes)
    (s : BucketTx) : Bucket.atPath P fuel (do return f (← m)) path s =
      mapResult f (Bucket.atPath P fuel m path s) := by
  induction path generalizing s with
  | nil =>
    show (f <$> m) s = mapResult f (m s)
    rw [estate_map]
    cases m s <;> rfl
  | cons name path ih =>
    simp only [Bucket.atPath]
    cases onBucket (InnerBucket.getBucket P fuel name) s with
    | error e s => rfl
    | ok _ s =>
      obtain ⟨b, fl⟩ := s
      dsimp only
      cases b.buckets.lookup name with
      | none => rfl
      | some child =>
        dsimp only
        rw [ih]
        cases Bucket.atPath P fuel m path (child, fl) <;> rfl

theorem settle_mapResult {α β : Type} (f : α → β) (r : EStateM.Result Fault BucketTx α)
    {a : Except Error α} {s : BucketTx} (h : settle r = .ok (a, s)) :
    settle (mapResult f r) = .ok (a.map f, s) := by
  cases r with
  | ok a' s' =>
    obtain ⟨rfl, rfl⟩ := Prod.mk.inj (Except.ok.inj h)
    rfl
  | error e s' =>
    cases e with
    | error e =>
      obtain ⟨rfl, rfl⟩ := Prod.mk.inj (Except.ok.inj h)
      rfl
    | _ => cases h

theorem serve_eq_settle (request : Request) (s : BucketTx) :
    Bucket.serve P fuel request s = settle (Bucket.method P fuel request s) := by
  rw [Bucket.serve]
  cases Bucket.method P fuel request s with
  | ok a s => rfl
  | error e s => cases e <;> rfl

/-- The buckets serve a call as the map does. -/
theorem Overlay.serve_call (seen : Dir → List Data → Prop) (h : Overlay P origin b T)
    (hN : Within N origin) (hfuel : N ≤ fuel) (fl : TxFreelist) (request : Request)
    (hcall : Calls request) :
    ∃ a b' fl' T', Bucket.serve P fuel request (b, fl) = .ok (a, (b', fl')) ∧
      Dir.serve seen T.dir request a T'.dir ∧ Overlay P origin b' T' := by
  cases request with
  | scan path | scanBack path | seek path key | mergeNextInt path nextInt
  | setNextInt path nextInt => exact hcall.elim
  | call path op =>
    obtain ⟨⟨b', fl'⟩, hsettle, T', ps, -, hover, hdir, -⟩ := h.runAt fl hN hfuel op path
      (Dir.not_overflowsAt hcall path T.dir)
    refine ⟨_, b', fl', T', ?_, ⟨rfl, hdir⟩, hover⟩
    rw [serve_eq_settle, Bucket.method, atPath_map]
    exact settle_mapResult Answer.output _ hsettle

/-- A program of calls runs on the buckets to an end that its postcondition allows. -/
theorem Overlay.exec_calls (h : Overlay P origin b T) (hN : Within N origin) (hfuel : N ≤ fuel)
    (fl : TxFreelist) {ε α : Type} {p : Prog Request (Except Error Answer) ε α}
    (hp : p.Only Calls) {post : Except ε α → Dir → Prop}
    (hwp : Prog.wp (Dir.serve seen) p T.dir post) :
    ∃ r b' fl' T', p.exec (Bucket.serve P fuel) (b, fl) = .ok (r, (b', fl')) ∧ post r T'.dir ∧
      Overlay P origin b' T' := by
  have hserve : ∀ (s : BucketTx) (d : Dir) (request : Request), Calls request →
      (∃ T, Overlay P origin s.1 T ∧ T.dir = d) →
      ∃ a s' d', Bucket.serve P fuel request s = .ok (a, s') ∧ Dir.serve seen d request a d' ∧
        ∃ T, Overlay P origin s'.1 T ∧ T.dir = d' := by
    rintro ⟨b, fl⟩ d request hcall ⟨T, hover, rfl⟩
    obtain ⟨a, b', fl', T', hserve, hmap, hover'⟩ := hover.serve_call seen hN hfuel fl request hcall
    exact ⟨a, (b', fl'), T'.dir, hserve, hmap, T', hover', rfl⟩
  obtain ⟨r, ⟨b', fl'⟩, -, hrun, hpost, T', hover, rfl⟩ :=
    hp.exec_wp hserve (t := (b, fl)) ⟨T, h, rfl⟩ hwp
  exact ⟨r, b', fl', T', hrun, hpost, hover⟩

end Programs

end Tagdata.Analysis
