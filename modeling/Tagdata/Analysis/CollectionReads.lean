import Tagdata.Interface.Requests
import Tagdata.Model.Collections

/-!
# Reads of a collection

The programs that read a collection make no request that changes it.
-/

set_option autoImplicit false

namespace Tagdata.Analysis

open Tagdata.Library Tagdata.Model Tagdata.Interface

/-- The requests that change nothing. -/
def Reads : Request → Prop
  | .call _ (.get _) | .call _ (.getKv _) | .call _ (.getBucket _) | .call _ .nextInt => True
  | .call _ _ => False
  | .scan _ | .scanBack _ | .seek _ _ => True
  | .mergeNextInt _ _ | .setNextInt _ _ => False

/-- A read inside a nested bucket is a read. -/
theorem reads_inside (name : Bytes) (request : Request) (h : Reads request) :
    Reads (request.inside name) := by
  cases request with
  | call path op => cases op <;> exact h
  | scan path | scanBack path | seek path key => trivial
  | mergeNextInt path nextInt | setNextInt path nextInt => cases h

/-- Where a method changes nothing, so does a handle. -/
theorem atPath_self {f : Dir → Except Error Output × Dir} (hf : ∀ c, (f c).2 = c)
    (path : List Bytes) (d : Dir) : (Dir.atPath f path d).2 = d := by
  induction path generalizing d with
  | nil => exact hf d
  | cons name path ih =>
    rw [Dir.atPath]
    rcases hentry : d.entries name with - | v | c
    · rfl
    · rfl
    · simp only [ih c]
      exact Dir.set_self hentry

variable {seen : Dir → List Data → Prop}

/-- A read leaves the map as it is. -/
theorem serve_reads {d d' : Dir} {request : Request} {a : Except Error Answer}
    (hreads : Reads request) (h : Dir.serve seen d request a d') : d' = d := by
  cases request with
  | call path op =>
    obtain ⟨-, rfl⟩ := h
    apply atPath_self
    intro c
    cases op with
    | get k | getKv k | nextInt => rfl
    | getBucket k =>
      simp only [Dir.run]
      rcases c.entries k with - | v | e <;> rfl
    | put _ _ | delete _ | createBucket _ | getOrCreateBucket _ | deleteBucket _ | putIfAbsent _ _
    | compareExchange _ _ _ | deleteIfValue _ _ => cases hreads
  | scan path | scanBack path | seek path key => exact h.2
  | mergeNextInt path nextInt | setNextInt path nextInt => cases hreads

/-- A program of reads keeps every property of the map. -/
theorem keeps_of_reads {ε α : Type} {p : Prog Request (Except Error Answer) ε α}
    (h : p.Only Reads) (Q : Dir → Prop) : Prog.Keeps (Dir.serve seen) Q p := by
  refine h.keeps fun s o a s' ho hrel hq => ?_
  rw [serve_reads ho hrel]
  exact hq

/-! ## The programs -/

/-- A single call that reads. -/
theorem reads_perform (op : Op) (h : Reads (.call [] op)) : (Program.perform op).Only Reads := by
  refine ⟨h, fun a => ?_⟩
  rcases a with e | o | l | ⟨f, c, l⟩ <;> trivial

/-- The same where the error is looked at. -/
theorem reads_attempt (op : Op) (h : Reads (.call [] op)) : (Program.attempt op).Only Reads := by
  refine ⟨h, fun a => ?_⟩
  rcases a with e | o | l | ⟨f, c, l⟩ <;> trivial

/-- `get_kv` reads. -/
theorem reads_getKv (k : Bytes) : (Program.getKv k).Only Reads :=
  (reads_perform (.getKv k) trivial).bind fun _ => Prog.only_pure _

/-- `expiration_bucket` reads. -/
theorem reads_expirationBucket : Program.expirationBucket.Only Reads := by
  refine (reads_attempt (.getBucket ttlBucket) trivial).bind fun r => ?_
  rcases r with e | o
  · cases e <;> trivial
  · trivial

/-- A program of reads still is one inside a nested bucket. -/
theorem Program.Only.inside {α : Type} {p : Program α} (h : p.Only Reads) (name : Bytes) :
    (p.inside name).Only Reads :=
  h.mapCalls (reads_inside name)

/-- `get_live_at` reads. -/
theorem reads_getLiveAt (k : Bytes) (time : SystemTime) :
    (Program.getLiveAt k time).Only Reads := by
  refine Prog.Only.bind (reads_expirationBucket.bind fun present => ?_) fun expiration => ?_
  · cases present with
    | false => trivial
    | true =>
      refine (Program.Only.inside (reads_getKv k) ttlBucket).bind fun bytes => ?_
      cases bytes with
      | none => trivial
      | some bytes => exact (Prog.only_ofExcept _).bind fun _ => Prog.only_pure _
  · cases expiration with
    | none => exact reads_getKv k
    | some t =>
      refine (Prog.only_ofExcept _).bind fun now => ?_
      split
      · trivial
      · exact reads_getKv k

section Reading

variable {K V : Type} (codec : Codec K V)

/-- Decoding calls nothing. -/
theorem reads_decodeOption (b : Option Bytes) : (Collection.decodeOption codec b).Only Reads := by
  cases b with
  | none => trivial
  | some b => exact (Prog.only_ofExcept _).bind fun _ => Prog.only_pure _

/-- The typed `get` reads. -/
theorem reads_get (key : K) (now : SystemTime) : (Collection.get codec key now).Only Reads :=
  (Prog.only_ofExcept _).bind fun k =>
    (Prog.Only.mapError (reads_getLiveAt k now)).bind fun b => reads_decodeOption codec b

/-- Whether a record is live is looked up. -/
theorem reads_isLive (expirations : Except Error Bool) (key : Bytes) (now : SystemTime) :
    (Collection.isLive expirations key now).Only Reads := by
  rcases expirations with e | present
  · trivial
  · cases present with
    | false => trivial
    | true =>
      refine Prog.Only.mapError (Program.Only.inside ?_ ttlBucket)
      refine (reads_getKv key).bind fun bytes => ?_
      cases bytes with
      | none => trivial
      | some bytes =>
        exact (Prog.only_ofExcept _).bind fun _ => (Prog.only_ofExcept _).bind fun _ =>
          Prog.only_pure _

/-- One record of a scan is examined by reads. -/
theorem reads_examine (expirations : Except Error Bool) (stop : Bytes → Bool) (now : SystemTime)
    (x : Data) : (Collection.examine codec expirations stop now x).Only Reads := by
  cases x with
  | bucket name => trivial
  | keyValue key value =>
    by_cases hstop : stop key = true
    · simp only [Collection.examine, hstop, if_true]
      trivial
    · simp only [Collection.examine, hstop]
      refine (reads_isLive expirations key now).bind fun live => ?_
      split
      · exact (Prog.only_ofExcept _).bind fun _ => (Prog.only_ofExcept _).bind fun _ =>
          Prog.only_pure _
      · trivial

/-- A call of `next` reads. -/
theorem reads_next (expirations : Except Error Bool) (stop : Bytes → Bool)
    (clock : Nat → SystemTime) (items : List Data) :
    (Collection.next codec expirations stop clock items).Only Reads := by
  induction items with
  | nil => trivial
  | cons x items ih =>
    refine (reads_examine codec expirations stop _ x).bind fun y => ?_
    cases y with
    | skip => exact ih
    | stop => trivial
    | item key value => trivial

/-- So does a scan to its end. -/
theorem reads_collect (expirations : Except Error Bool) (stop : Bytes → Bool)
    (clock : Nat → SystemTime) (items : List Data) :
    (Collection.collect codec expirations stop clock items).Only Reads := by
  induction items with
  | nil => trivial
  | cons x items ih =>
    refine (reads_examine codec expirations stop _ x).bind fun y => ?_
    cases y with
    | skip => exact ih
    | stop => trivial
    | item key value => exact ih.bind fun _ => Prog.only_pure _

/-- Whether there are expirations is looked up. -/
theorem reads_expirations : Collection.expirations.Only Reads := by
  refine Prog.Only.mapError ((reads_attempt (.getBucket ttlBucket) trivial).bind fun r => ?_)
  rcases r with e | o
  · cases e <;> trivial
  · trivial

/-- A scan is a read. -/
theorem reads_items : Program.items.Only Reads := by
  refine ⟨trivial, fun a => ?_⟩
  rcases a with e | o | l | ⟨f, c, l⟩ <;> trivial

/-- A scan from the end is a read. -/
theorem reads_itemsBack : Program.itemsBack.Only Reads := by
  refine ⟨trivial, fun a => ?_⟩
  rcases a with e | o | l | ⟨f, c, l⟩ <;> trivial

/-- A seek is a read. -/
theorem reads_seek (key : Bytes) : (Program.seek key).Only Reads := by
  refine ⟨trivial, fun a => ?_⟩
  rcases a with e | o | l | ⟨f, c, l⟩ <;> trivial

/-- `first` reads. -/
theorem reads_first (clock : Nat → SystemTime) : (Collection.first codec clock).Only Reads :=
  (Prog.Only.mapError reads_items).bind fun items =>
    reads_expirations.bind fun e => reads_next codec e _ clock items

/-- `last` reads. -/
theorem reads_last (clock : Nat → SystemTime) : (Collection.last codec clock).Only Reads :=
  (Prog.Only.mapError reads_itemsBack).bind fun items =>
    reads_expirations.bind fun e => reads_next codec e _ clock items

/-- `prefix` reads. -/
theorem reads_withPrefix (pre : Bytes) (clock : Nat → SystemTime) :
    (Collection.withPrefix codec pre clock).Only Reads :=
  (Prog.Only.mapError (reads_seek pre)).bind fun x =>
    reads_expirations.bind fun e => reads_collect codec e _ clock x.2.2

/-- `range` reads. -/
theorem reads_range (start finish : K) (clock : Nat → SystemTime) :
    (Collection.range codec start finish clock).Only Reads := by
  unfold Collection.range
  split
  · refine (Prog.only_ofExcept _).bind fun s => (Prog.only_ofExcept _).bind fun f =>
      Prog.Only.bind ?_ fun items => reads_expirations.bind fun e =>
        reads_collect codec e _ clock items
    exact (Prog.Only.mapError (reads_seek s)).bind fun _ => Prog.only_pure _
  · trivial

end Reading

end Tagdata.Analysis
