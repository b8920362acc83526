import Tagdata.Analysis.CommitVerdicts

/-!
# Interference of typed collections

Two collections whose paths are apart share a database, its transactions and its journal.  Neither
notices the calls on the other when no path leads through the place of the other's schema record or
into the journal, the two records have different keys, and what is recorded can be encoded.
-/

set_option autoImplicit false

namespace Tagdata.Analysis

open Tagdata.Library Tagdata.Model Tagdata.Interface Journal

/-! ## Calls -/

/-- A typed call: opening a collection under a policy, or an operation on the open collection. -/
inductive TypedCall (ρ : Type) where
  | collection
  | collectionMut (policy : OpenPolicy)
  | operate (program : CollectionProgram ρ)

abbrev TypedResult (ρ : Type) := Except OpenError Unit ⊕ Except CodecError ρ

section calls

variable {ρ : Type} (scans : Scans) (D : CollectionDef)

/-- Its answer and what the collection sees afterwards, from what it sees before. -/
def outcome : TypedCall ρ → Sight → TypedResult ρ × Sight
  | .collection, s => (.inl (readOutcome D s), s)
  | .collectionMut policy, s =>
      (.inl (writeOutcome { D with policy := policy } s).1,
        (writeOutcome { D with policy := policy } s).2)
  | .operate program, s =>
      match s.bucket with
      | .ok c =>
          (.inr (program.eval (Dir.answer scans) c).1,
            ⟨.ok (program.eval (Dir.answer scans) c).2, s.record⟩)
      | .error e => (.inr (program.eval (fun _ u => (.error e, u)) ()).1, s)

end calls

/-! ## Definitions that were accepted -/

section accepted

variable {D : CollectionDef}

variable {scans : Scans} {ρ : Type}

end accepted

/-! ## Two collections -/

section two

variable {ρ : Type}

end two

/-- A database with typed collections: its last transaction, its content, and the content and the
tracker of the running transaction. -/
structure TypedDb where
  txId : Nat
  committed : Dir
  working : Dir
  tracker : ChangeTracker

/-- A transaction begins. -/
def TypedDb.start (txId : Nat) (d : Dir) : TypedDb := ⟨txId, d, d, .new true⟩

/-- `commit`: the changes are stored in the journal, or nothing of the transaction is kept. -/
def TypedDb.commit (scans : Scans) (db : TypedDb) : Except Error Unit × TypedDb :=
  match (Journal.persist (db.tracker.snapshot (db.txId + 1))).eval (Dir.answer scans)
    db.working with
  | (.ok _, d) => (.ok (), .start (db.txId + 1) d)
  | (.error e, _) => (.error e, .start db.txId db.committed)

section events

variable {ρ : Type} (scans : Scans) (A B : CollectionDef)

end events

/-- Cursors that show entries of the bucket, each once and in order. -/
structure Honest (scans : Scans) : Prop where
  forward : ∀ d, Shows d (scans.forward d)
  backward : ∀ d, Shows d (scans.backward d).reverse

/-- Neither path leads through the place of the other's schema record, and the records are at
different places. -/
structure Beside (A B : CollectionDef) : Prop where
  left : ¬ [schemaBucket, B.schemaKey] <+: A.path
  right : ¬ [schemaBucket, A.schemaKey] <+: B.path
  keys : A.schemaKey ≠ B.schemaKey

theorem Beside.symm {A B : CollectionDef} (h : Beside A B) : Beside B A :=
  ⟨h.right, h.left, h.keys.symm⟩

/-- The path of a collection begins with the journal bucket. -/
def InJournal (D : CollectionDef) : Prop := [journalBucket] <+: D.path

/-- The path leads outside the journal, and what is recorded on it can be encoded. -/
structure Recordable (D : CollectionDef) : Prop where
  outside : ¬ InJournal D
  journalable : ∀ path, path <+: D.path → Journalable path

/-- The records are beside each other, and the journal can follow both collections. -/
structure Apart (A B : CollectionDef) : Prop where
  beside : Beside A B
  left : Recordable A
  right : Recordable B

theorem Apart.symm {A B : CollectionDef} (h : Apart A B) : Apart B A :=
  ⟨h.beside.symm, h.right, h.left⟩

section sufficient

variable {A B : CollectionDef} {scans : Scans} {ρ : Type} {d : Dir}

theorem settled_of_sight {d' : Dir} (hsight : sight B d' = sight B d)
    (hreserved : d.entries schemaBucket ≠ none → d'.entries schemaBucket ≠ none)
    (h : Settled B d) : Settled B d' := by
  intro c hreach
  have hbucket : d'.reach B.path = d.reach B.path := congrArg Sight.bucket hsight
  exact hreserved (h c (hbucket.symm.trans hreach))

/-- What a collection outside the journal sees depends on what is outside the journal. -/
theorem sight_congr {d' : Dir} (hout : ¬ InJournal B)
    (h : ∀ k, k ≠ journalBucket → d'.entries k = d.entries k) : sight B d' = sight B d := by
  have hschema : d'.entries schemaBucket = d.entries schemaBucket := h _ (by decide)
  have hreach : d'.reach B.path = d.reach B.path := by
    cases hpath : B.path with
    | nil => simp [CollectionDef.path] at hpath
    | cons name path =>
      have hne : name ≠ journalBucket := by
        rintro rfl
        exact hout (by rw [InJournal, hpath]; simp)
      rw [Dir.reach, Dir.reach, h name hne]
  rw [sight, sight, hreach, recordView, recordView, hschema]

/-- The states of a database in which the calls on a collection are determined by what it sees. -/
structure TypedInv (B : CollectionDef) (db : TypedDb) : Prop where
  committed : Settled B db.committed
  working : Settled B db.working
  tracker : Shallow db.tracker

/-- A collection and the commits see the same in two states. -/
structure TypedView (B : CollectionDef) (db db' : TypedDb) : Prop where
  txId : db.txId = db'.txId
  committed : sight B db.committed = sight B db'.committed
  working : sight B db.working = sight B db'.working
  journal : journalSight db.committed = journalSight db'.committed
  writing : journalSight db.working = journalSight db'.working

theorem typedInv_start {txId : Nat} (h : Settled B d) : TypedInv B (.start txId d) :=
  ⟨h, h, shallow_new _⟩

theorem typedView_start {txId : Nat} {d' : Dir} (hsight : sight B d = sight B d')
    (hjournal : journalSight d = journalSight d') :
    TypedView B (.start txId d) (.start txId d') :=
  ⟨rfl, hsight, hsight, hjournal, hjournal⟩

/-- A commit answers by what it sees of the journal. -/
theorem commit_answer (hscans : Honest scans) (db : TypedDb) :
    (db.commit scans).1 =
      verdict (db.tracker.snapshot (db.txId + 1)) (journalSight db.working) := by
  obtain ⟨hanswer, -⟩ := Prog.wp_iff_ends.mp
    (persist_verdict (db.tracker.snapshot (db.txId + 1)) db.working) _ _
    (Prog.ends_eval (serve_answer hscans.forward hscans.backward) _ _)
  rw [TypedDb.commit, ← hanswer]
  rcases (Journal.persist (db.tracker.snapshot (db.txId + 1))).eval (Dir.answer scans) db.working
    with ⟨e | u, d⟩ <;> rfl

/-- It begins the next transaction on what the collection saw before: in the running transaction,
or without it. -/
theorem commit_cases (hscans : Honest scans) (hout : ¬ InJournal B) (db : TypedDb)
    (hsettled : Settled B db.working) :
    (∃ d, db.commit scans = (.ok (), .start (db.txId + 1) d) ∧ sight B d = sight B db.working ∧
      journalSight d = journalSight db.working ∧ Settled B d) ∨
    ∃ e, db.commit scans = (.error e, .start db.txId db.committed) := by
  obtain ⟨-, hreturned⟩ := Prog.wp_iff_ends.mp
    (persist_verdict (db.tracker.snapshot (db.txId + 1)) db.working) _ _
    (Prog.ends_eval (serve_answer hscans.forward hscans.backward) _ _)
  rw [TypedDb.commit]
  rcases heval : (Journal.persist (db.tracker.snapshot (db.txId + 1))).eval (Dir.answer scans)
    db.working with ⟨e | u, d⟩
  · exact .inr ⟨e, rfl⟩
  · rw [heval] at hreturned
    obtain ⟨hjournal, hframe⟩ := hreturned rfl
    have hsight : sight B d = sight B db.working := sight_congr hout hframe
    refine .inl ⟨d, rfl, hsight, hjournal, settled_of_sight hsight ?_ hsettled⟩
    rw [hframe schemaBucket (by decide)]
    exact fun h => h

theorem TypedView.commit (hscans : Honest scans) (hout : ¬ InJournal B) {db db' : TypedDb}
    (hdb : TypedInv B db) (hdb' : TypedInv B db') (hview : TypedView B db db') :
    (db.commit scans).1 = (db'.commit scans).1 ∧
      TypedView B (db.commit scans).2 (db'.commit scans).2 := by
  have hanswer : (db.commit scans).1 = (db'.commit scans).1 := by
    rw [commit_answer hscans, commit_answer hscans, hview.writing]
    exact verdict_encodable (hdb.tracker.encodable _) (hdb'.tracker.encodable _)
      (congrArg (· + 1) hview.txId) _
  refine ⟨hanswer, ?_⟩
  rcases commit_cases hscans hout db hdb.working with ⟨d, hok, hsight, hjournal, -⟩ |
    ⟨e, herror⟩ <;>
  rcases commit_cases hscans hout db' hdb'.working with
    ⟨d', hok', hsight', hjournal', -⟩ | ⟨e', herror'⟩
  · rw [hok, hok', hview.txId]
    exact typedView_start (hsight.trans (hview.working.trans hsight'.symm))
      (hjournal.trans (hview.writing.trans hjournal'.symm))
  · rw [hok, herror'] at hanswer
    cases hanswer
  · rw [herror, hok'] at hanswer
    cases hanswer
  · rw [herror, herror', hview.txId]
    exact typedView_start hview.committed hview.journal

theorem TypedInv.commit (hscans : Honest scans) (hout : ¬ InJournal B) {db : TypedDb}
    (h : TypedInv B db) : TypedInv B (db.commit scans).2 := by
  rcases commit_cases hscans hout db h.working with ⟨d, hcommit, -, -, hsettled⟩ | ⟨e, hcommit⟩
  · rw [hcommit]
    exact typedInv_start hsettled
  · rw [hcommit]
    exact typedInv_start h.committed

end sufficient

section necessary

variable {A B D : CollectionDef} {scans : Scans} {ρ : Type}

end necessary

end Tagdata.Analysis
