import Tagdata.Model.Changes

/-!
# What a filter asks for

A filter may name a bucket, a prefix, a range of keys and some operations.  It asks for the changes
that meet everything it names; whoever reads by a filter is owed those and no others.
-/

set_option autoImplicit false

namespace Tagdata.Interface

open Tagdata.Model

/-- The change meets everything that the filter names. -/
structure Asks (f : WatchFilter) (c : Change) : Prop where
  bucket : ∀ path, f.bucketPath = some path → c.bucketPath = path
  start : ∀ start, f.keyPrefix = some start → start <+: c.key
  range : ∀ low high, f.keyRange = some (low, high) → low ≤ c.key ∧ c.key < high
  operation : f.operations = [] ∨ c.operation ∈ f.operations

/-- `WatchFilter::matches` answers whether the filter asks for the change. -/
theorem matches_iff_asks {f : WatchFilter} {c : Change} : f.matches c = true ↔ Asks f c := by
  obtain ⟨bucketPath, keyPrefix, keyRange, operations⟩ := f
  have hbucket : bucketPath.all (fun path => path = c.bucketPath) = true ↔
      ∀ path, bucketPath = some path → c.bucketPath = path := by
    cases bucketPath <;> simp [eq_comm]
  have hstart : keyPrefix.all (fun start => start.isPrefixOf c.key) = true ↔
      ∀ start, keyPrefix = some start → start <+: c.key := by
    cases keyPrefix <;> simp
  have hrange : keyRange.all (fun range => range.1 ≤ c.key && c.key < range.2) = true ↔
      ∀ low high, keyRange = some (low, high) → low ≤ c.key ∧ c.key < high := by
    rcases keyRange with - | ⟨low, high⟩
    · simp
    · simp only [Option.all_some, Bool.and_eq_true, decide_eq_true_eq, Option.some.injEq,
        Prod.mk.injEq]
      exact ⟨fun h _ _ hr => hr.1 ▸ hr.2 ▸ h, fun h => h low high ⟨rfl, rfl⟩⟩
  have hoperation : (operations.isEmpty || operations.contains c.operation) = true ↔
      operations = [] ∨ c.operation ∈ operations := by
    simp
  rw [WatchFilter.matches, Bool.and_eq_true, Bool.and_eq_true, Bool.and_eq_true, hbucket, hstart,
    hrange, hoperation]
  exact ⟨fun h => ⟨h.1.1.1, h.1.1.2, h.1.2, h.2⟩,
    fun h => ⟨⟨⟨h.bucket, h.start⟩, h.range⟩, h.operation⟩⟩

instance decidableAsks (f : WatchFilter) (c : Change) : Decidable (Asks f c) :=
  decidable_of_iff _ matches_iff_asks

/-- The set with the changes that the filter asks for. -/
def reduced (f : WatchFilter) (whole : ChangeSet) : ChangeSet :=
  { whole with changes := whole.changes.filter fun c => Asks f c }

/-- The filter asks for a change of the set, or the set is incomplete. -/
def Concerns (f : WatchFilter) (whole : ChangeSet) : Prop :=
  whole.truncated = true ∨ ∃ c ∈ whole.changes, Asks f c

instance decidableConcerns (f : WatchFilter) (whole : ChangeSet) : Decidable (Concerns f whole) :=
  inferInstanceAs (Decidable (_ ∨ _))

/-- What a reader by the filter is owed of some sets. -/
def share (f : WatchFilter) (sets : List ChangeSet) : List ChangeSet :=
  (sets.filter fun whole => Concerns f whole).map (reduced f)

/-- Matching changes are those that the filter asks for. -/
theorem filter_matches (f : WatchFilter) (changes : List Change) :
    changes.filter f.matches = changes.filter fun c => Asks f c := by
  refine List.filter_congr fun c _ => ?_
  rw [Bool.eq_iff_iff, decide_eq_true_eq]
  exact matches_iff_asks

/-- What `publish` sends is what the subscriber is owed of the set. -/
theorem select_eq (f : WatchFilter) (whole : ChangeSet) :
    f.select whole = if Concerns f whole then some (reduced f whole) else none := by
  have hnone : (whole.changes.filter f.matches).isEmpty = true ↔ ¬ ∃ c ∈ whole.changes,
      Asks f c := by
    simp [List.isEmpty_iff, List.filter_eq_nil_iff, matches_iff_asks]
  have hskip : ((whole.changes.filter f.matches).isEmpty && !whole.truncated) = true ↔
      ¬ Concerns f whole := by
    rw [Bool.and_eq_true, hnone, Concerns, not_or, Bool.not_eq_true', Bool.not_eq_true]
    exact and_comm
  rw [WatchFilter.select]
  by_cases h : Concerns f whole
  · rw [if_neg (fun hs => hskip.mp hs h), if_pos h, filter_matches, reduced]
  · rw [if_pos (hskip.mpr h), if_neg h]

theorem filterMap_select (f : WatchFilter) (sets : List ChangeSet) :
    sets.filterMap f.select = share f sets := by
  induction sets with
  | nil => rfl
  | cons whole sets ih =>
    rw [List.filterMap_cons, select_eq, ih, share, share, List.filter_cons]
    by_cases h : Concerns f whole <;> simp [h]

end Tagdata.Interface
