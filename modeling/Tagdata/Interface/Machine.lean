import Tagdata.Interface.Requests
import Tagdata.Library.Evaluation

/-!
# The nested map as a machine

What a scan or a seek shows is some function of the bucket it is made on; given such functions,
every request to the nested map has one answer.  A program on the bucket at a path changes that
bucket and no other.
-/

set_option autoImplicit false

namespace Tagdata.Interface

open Tagdata.Library Tagdata.Model

/-- What cursors show of a bucket. -/
structure Scans where
  forward : Dir → List Data
  backward : Dir → List Data
  seek : Dir → Bytes → Bool × Option Data × List Data
deriving Inhabited

/-- A request to the bucket at the end of a path. -/
def under (path : List Bytes) (request : Request) : Request := path.foldr Request.inside request

namespace Dir

/-- The answer to a request, and the map afterwards. -/
def answer (scans : Scans) : Request → Dir → Except Error Answer × Dir
  | .call path op, d =>
      ((atPath (run op) path d).1.map .output, (atPath (run op) path d).2)
  | .scan path, d => ((d.reach path).map fun c => .items (scans.forward c), d)
  | .scanBack path, d => ((d.reach path).map fun c => .items (scans.backward c), d)
  | .seek path key, d =>
      ((d.reach path).map fun c =>
        .position (scans.seek c key).1 (scans.seek c key).2.1 (scans.seek c key).2.2, d)
  | .mergeNextInt path nextInt, d =>
      ((atPath (fun c => (.ok .unit, c.raise nextInt)) path d).1.map .output,
        (atPath (fun c => (.ok .unit, c.raise nextInt)) path d).2)
  | .setNextInt path nextInt, d =>
      ((atPath (fun c => (.ok .unit, ⟨nextInt, c.entries⟩)) path d).1.map .output,
        (atPath (fun c => (.ok .unit, ⟨nextInt, c.entries⟩)) path d).2)

/-- The buckets of a path, created where they are missing. -/
def fill : List Bytes → Dir → Dir
  | [], d => d
  | name :: path, d =>
      match d.entries name with
      | some (.bucket c) => d.set name (some (.bucket (fill path c)))
      | some (.value _) => d
      | none => d.insert name (.bucket (fill path empty))

end Dir

variable {scans : Scans}

/-- The machine answers as the interface allows when its scans do. -/
theorem serve_answer {seen : Dir → List Data → Prop} (hforward : ∀ d, seen d (scans.forward d))
    (hbackward : ∀ d, seen d (scans.backward d).reverse) (d : Dir) (request : Request) :
    Dir.serve seen d request (Dir.answer scans request d).1 (Dir.answer scans request d).2 := by
  cases request with
  | call path op => exact ⟨rfl, rfl⟩
  | mergeNextInt path nextInt | setNextInt path nextInt => exact ⟨rfl, rfl⟩
  | scan path =>
    refine ⟨?_, rfl⟩
    cases hreach : d.reach path with
    | error e => simp [Dir.Scanned, Dir.answer, hreach, Except.map]
    | ok c => simpa [Dir.Scanned, Dir.answer, hreach, Except.map] using hforward c
  | scanBack path =>
    refine ⟨?_, rfl⟩
    cases hreach : d.reach path with
    | error e => simp [Dir.Scanned, Dir.answer, hreach, Except.map]
    | ok c =>
      simp only [Dir.Scanned, Dir.answer, hreach, Except.map]
      exact ⟨_, hbackward c, by rw [List.reverse_reverse]⟩
  | seek path key =>
    refine ⟨?_, rfl⟩
    cases hreach : d.reach path with
    | error e => simp [Dir.Seeked, Dir.answer, hreach, Except.map]
    | ok c => simp [Dir.Seeked, Dir.answer, hreach, Except.map]

/-! ## Requests to a nested bucket -/

section paths

variable {d c c' : Dir} {path q : List Bytes} {e : Error}

variable {ε α : Type}

end paths

end Tagdata.Interface
