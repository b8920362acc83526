import Tagdata.Interface.NestedMap
import Tagdata.Model.Requests

/-!
# Requests to a nested map

What a request means for the nested map, and the rules for programs that make requests.  A scan
shows elements of the map in the order of their keys.  How many of them it shows is a parameter:
every element, or some of them.  What a cursor yields after a seek is left open.
-/

set_option autoImplicit false

namespace Tagdata.Interface

open Tagdata.Library Tagdata.Model

/-- Elements of the map, in the order of their keys. -/
structure Shows (d : Dir) (l : List Data) : Prop where
  sorted : (l.map Data.key).Pairwise (· < ·)
  mem : ∀ x ∈ l, ∃ k e, d.entries k = some e ∧ x = Dir.dataOf k e

namespace Dir

/-- The bucket at a path, or the error of the handle that is missing. -/
def reach : List Bytes → Dir → Except Error Dir
  | [], d => .ok d
  | name :: path, d =>
      match d.entries name with
      | none => .error .bucketMissing
      | some (.value _) => .error .incompatibleValue
      | some (.bucket c) => reach path c

/-- `merge_next_int`. -/
def raise (nextInt : Nat) (d : Dir) : Dir := ⟨max d.counter nextInt, d.entries⟩

section Serve

variable (seen : Dir → List Data → Prop)

/-- What a scan of the bucket at a path may answer. -/
def Scanned (path : List Bytes) (d : Dir) (order : List Data → List Data) :
    Except Error Answer → Prop :=
  fun a =>
    match d.reach path with
    | .error e => a = .error e
    | .ok c => ∃ l, seen c l ∧ a = .ok (.items (order l))

/-- What a seek in the bucket at a path may answer. -/
def Seeked (path : List Bytes) (d : Dir) (a : Except Error Answer) : Prop :=
  match d.reach path with
  | .error e => a = .error e
  | .ok _ => ∃ found current l, a = .ok (.position found current l)

/-- The answers to a request. -/
def serve : Prog.Iface Dir Request (Except Error Answer)
  | d, .call path op, a, d' =>
      a = (atPath (run op) path d).1.map .output ∧ d' = (atPath (run op) path d).2
  | d, .scan path, a, d' => Scanned seen path d id a ∧ d' = d
  | d, .scanBack path, a, d' => Scanned seen path d List.reverse a ∧ d' = d
  | d, .seek path _, a, d' => Seeked path d a ∧ d' = d
  | d, .mergeNextInt path nextInt, a, d' =>
      a = (atPath (fun c => (.ok .unit, c.raise nextInt)) path d).1.map .output ∧
      d' = (atPath (fun c => (.ok .unit, c.raise nextInt)) path d).2
  | d, .setNextInt path nextInt, a, d' =>
      a = (atPath (fun c => (.ok .unit, ⟨nextInt, c.entries⟩)) path d).1.map .output ∧
      d' = (atPath (fun c => (.ok .unit, ⟨nextInt, c.entries⟩)) path d).2

end Serve

end Dir

/-- A scan shows elements of any bucket, perhaps none. -/
theorem serve_total (d : Dir) (request : Request) : ∃ a d', Dir.serve Shows d request a d' := by
  have hshows : ∀ c : Dir, Shows c [] := fun c => ⟨.nil, by simp⟩
  cases request with
  | call path op => exact ⟨_, _, rfl, rfl⟩
  | mergeNextInt path nextInt | setNextInt path nextInt => exact ⟨_, _, rfl, rfl⟩
  | scan path | scanBack path =>
    cases hreach : d.reach path with
    | error e => exact ⟨.error e, d, by simp [Dir.Scanned, hreach], rfl⟩
    | ok c =>
      refine ⟨.ok (.items []), d, ?_, rfl⟩
      simp only [Dir.Scanned, hreach]
      exact ⟨[], hshows c, rfl⟩
  | seek path key =>
    cases hreach : d.reach path with
    | error e => exact ⟨.error e, d, by simp [Dir.Seeked, hreach], rfl⟩
    | ok c => exact ⟨.ok (.position false none []), d, by simp [Dir.Seeked, hreach], rfl⟩

/-! ## Rules for programs -/

section Rules

variable {seen : Dir → List Data → Prop} {α : Type}

@[simp] theorem wp_attempt (op : Op) (d : Dir)
    (post : Except Error (Except Error Output) → Dir → Prop) :
    Prog.wp (Dir.serve seen) (Program.attempt op) d post ↔
      post (.ok (Dir.run op d).1) (Dir.run op d).2 := by
  cases hr : (Dir.run op d).1 <;>
    simp [Program.attempt, Prog.wp, Dir.serve, Dir.atPath, hr, Except.map]

@[simp] theorem wp_perform (op : Op) (d : Dir) (post : Except Error Output → Dir → Prop) :
    Prog.wp (Dir.serve seen) (Program.perform op) d post ↔
      post (Dir.run op d).1 (Dir.run op d).2 := by
  cases hr : (Dir.run op d).1 <;>
    simp [Program.perform, Prog.wp, Dir.serve, Dir.atPath, hr, Except.map]

@[simp] theorem wp_items (d : Dir) (post : Except Error (List Data) → Dir → Prop) :
    Prog.wp (Dir.serve seen) Program.items d post ↔ ∀ l, seen d l → post (.ok l) d := by
  constructor
  · intro h l hl
    exact h (.ok (.items l)) d ⟨⟨l, hl, rfl⟩, rfl⟩
  · rintro h a d' ⟨⟨l, hl, rfl⟩, rfl⟩
    exact h l hl

@[simp] theorem wp_mergeNextInt (nextInt : Nat) (d : Dir) (post : Except Error Unit → Dir → Prop) :
    Prog.wp (Dir.serve seen) (Program.mergeNextInt nextInt) d post ↔
      post (.ok ()) (d.raise nextInt) := by
  simp [Program.mergeNextInt, Prog.wp, Dir.serve, Dir.atPath, Except.map]

@[simp] theorem wp_setNextInt (nextInt : Nat) (d : Dir) (post : Except Error Unit → Dir → Prop) :
    Prog.wp (Dir.serve seen) (Program.setNextInt nextInt) d post ↔
      post (.ok ()) ⟨nextInt, d.entries⟩ := by
  simp [Program.setNextInt, Prog.wp, Dir.serve, Dir.atPath, Except.map]

/-- Something done to a nested bucket that was put into place. -/
theorem atPath_set (f : Dir → Except Error Output × Dir) (name : Bytes) (path : List Bytes)
    (d c : Dir) :
    Dir.atPath f (name :: path) (d.set name (some (.bucket c))) =
      ((Dir.atPath f path c).1, d.set name (some (.bucket (Dir.atPath f path c).2))) := by
  simp [Dir.atPath, Dir.set]

theorem reach_set (name : Bytes) (path : List Bytes) (d c : Dir) :
    Dir.reach (name :: path) (d.set name (some (.bucket c))) = Dir.reach path c := by
  simp [Dir.reach, Dir.set]

variable (seen) in
/-- A request to a nested bucket changes that bucket only. -/
theorem serve_inside (name : Bytes) (d c : Dir) (request : Request) (a : Except Error Answer)
    (d' : Dir) :
    Dir.serve seen (d.set name (some (.bucket c))) (request.inside name) a d' ↔
      ∃ c', Dir.serve seen c request a c' ∧ d' = d.set name (some (.bucket c')) := by
  cases request with
  | call path op =>
    simp only [Request.inside, Dir.serve, atPath_set]
    constructor
    · rintro ⟨rfl, rfl⟩
      exact ⟨_, ⟨rfl, rfl⟩, rfl⟩
    · rintro ⟨c', ⟨rfl, rfl⟩, rfl⟩
      exact ⟨rfl, rfl⟩
  | mergeNextInt path nextInt | setNextInt path nextInt =>
    simp only [Request.inside, Dir.serve, atPath_set]
    constructor
    · rintro ⟨rfl, rfl⟩
      exact ⟨_, ⟨rfl, rfl⟩, rfl⟩
    · rintro ⟨c', ⟨rfl, rfl⟩, rfl⟩
      exact ⟨rfl, rfl⟩
  | seek path key =>
    simp only [Request.inside, Dir.serve, Dir.Seeked, reach_set]
    constructor
    · rintro ⟨hseek, rfl⟩
      exact ⟨c, ⟨hseek, rfl⟩, rfl⟩
    · rintro ⟨c', ⟨hseek, rfl⟩, rfl⟩
      exact ⟨hseek, rfl⟩
  | scan path | scanBack path =>
    simp only [Request.inside, Dir.serve, Dir.Scanned, reach_set]
    constructor
    · rintro ⟨hscan, rfl⟩
      exact ⟨c, ⟨hscan, rfl⟩, rfl⟩
    · rintro ⟨c', ⟨hscan, rfl⟩, rfl⟩
      exact ⟨hscan, rfl⟩

/-- The rule of the handle: a program on a nested bucket. -/
theorem wp_inside {name : Bytes} {d c : Dir} (h : d.entries name = some (.bucket c))
    (p : Program α) (post : Except Error α → Dir → Prop) :
    Prog.wp (Dir.serve seen) (p.inside name) d post ↔
      Prog.wp (Dir.serve seen) p c fun r c' => post r (d.set name (some (.bucket c'))) := by
  have hput : d.set name (some (.bucket c)) = d := Dir.set_self h
  have hlens := Prog.wp_mapCalls (serve_inside seen name d) p c post
  rw [hput] at hlens
  exact hlens

/-- An ending in a nested bucket. -/
theorem ends_inside {name : Bytes} {d c c' : Dir} (h : d.entries name = some (.bucket c))
    {p : Program α} {r : Except Error α} (hends : Prog.Ends (Dir.serve seen) p c r c') :
    Prog.Ends (Dir.serve seen) (p.inside name) d r (d.set name (some (.bucket c'))) := by
  rw [Prog.ends_iff_wp, wp_inside h]
  intro hwp
  exact Prog.wp_iff_ends.mp hwp r c' hends ⟨rfl, rfl⟩

theorem ends_inside_iff {name : Bytes} {d c d' : Dir} (h : d.entries name = some (.bucket c))
    {p : Program α} {r : Except Error α} :
    Prog.Ends (Dir.serve seen) (p.inside name) d r d' ↔
      ∃ c', Prog.Ends (Dir.serve seen) p c r c' ∧ d' = d.set name (some (.bucket c')) := by
  constructor
  · intro hends
    have hwp : Prog.wp (Dir.serve seen) (p.inside name) d fun r d' =>
        ∃ c', Prog.Ends (Dir.serve seen) p c r c' ∧ d' = d.set name (some (.bucket c')) :=
      (wp_inside h p _).mpr (Prog.wp_iff_ends.mpr fun r c' hc => ⟨c', hc, rfl⟩)
    exact Prog.wp_iff_ends.mp hwp r d' hends
  · rintro ⟨c', hends, rfl⟩
    exact ends_inside h hends

/-- The records with the given keys are deleted one after another. -/
theorem deleteEach_spec {d : Dir} {keys : List Bytes} (hnodup : keys.Nodup)
    (hkeys : ∀ k ∈ keys, ∃ v, d.entries k = some (.value v)) :
    Prog.wp (Dir.serve seen)
      (Prog.forEach (fun key => do let _ ← Program.perform (.delete key)) keys) d fun r d' =>
        r = .ok () ∧ d'.entries = fun k => if k ∈ keys then none else d.entries k := by
  induction keys generalizing d with
  | nil => exact ⟨rfl, by simp⟩
  | cons key keys ih =>
    obtain ⟨hnot, hnodup⟩ := List.nodup_cons.mp hnodup
    obtain ⟨v, hv⟩ := hkeys key (by simp)
    rw [Prog.forEach, Prog.wp_bind', Prog.wp_bind, wp_perform]
    simp only [Dir.run, hv, Prog.andThen_ok, Prog.wp_pure]
    apply Prog.wp_mono (ih hnodup fun k hk => ?_)
    · rintro r d' ⟨hr, hd'⟩
      refine ⟨hr, ?_⟩
      rw [hd']
      funext k
      by_cases hk : k = key
      · simp [hk]
      · simp [hk, Dir.set_entries_ne d hk]
    · obtain ⟨w, hw⟩ := hkeys k (List.mem_cons_of_mem _ hk)
      have hne : k ≠ key := by
        rintro rfl
        exact hnot hk
      exact ⟨w, by rw [Dir.set_entries_ne d hne, hw]⟩

/-- The deletions come to an end. -/
theorem exists_deleteEach {d : Dir} {keys : List Bytes} (hnodup : keys.Nodup)
    (hkeys : ∀ k ∈ keys, ∃ v, d.entries k = some (.value v)) :
    ∃ d', Prog.Ends (Dir.serve seen)
      (Prog.forEach (fun key => do let _ ← Program.perform (.delete key)) keys : Program Unit) d
      (.ok ()) d' := by
  have hperform : ∀ op, Prog.Only (fun request : Request => ∃ path op, request = .call path op)
      (Program.perform op) := by
    refine fun op => ⟨⟨[], op, rfl⟩, fun a => ?_⟩
    rcases a with e | o | l | ⟨found, current, l⟩ <;> trivial
  have honly : Prog.Only (fun request : Request => ∃ path op, request = .call path op)
      (Prog.forEach (fun key => do let _ ← Program.perform (.delete key)) keys :
        Program Unit) :=
    Prog.only_forEach (fun key => (hperform (.delete key)).bind fun _ => Prog.only_pure ()) keys
  have hanswer : ∀ (s : Dir) (request : Request), (∃ path op, request = .call path op) →
      ∃ a s', Dir.serve seen s request a s' := by
    rintro s _ ⟨path, op, rfl⟩
    exact ⟨_, _, rfl, rfl⟩
  obtain ⟨r, d', hends⟩ := honly.exists_ends hanswer d
  obtain ⟨rfl, -⟩ := Prog.wp_iff_ends.mp (deleteEach_spec hnodup hkeys) r d' hends
  exact ⟨d', hends⟩

end Rules

end Tagdata.Interface
