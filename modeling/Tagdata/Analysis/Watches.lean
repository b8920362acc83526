import Tagdata.Interface.Selections

/-!
# What subscribers receive

Along any schedule of writers, subscribers and the walk of `publish`, a subscriber receives a
prefix of the commits made after it subscribed, each reduced by its filter.  It misses a commit
only when its queue was full; then it drains the queue and sees the overflow.
-/

set_option autoImplicit false

namespace Tagdata.Analysis

open Tagdata.Library Tagdata.Model Tagdata.Interface

/-! ## Histories -/

/-- The set an event commits. -/
def committedBy : WatchEvent → Option ChangeSet
  | .committed set => some set
  | _ => none

/-- What an event answers to a subscriber. -/
def answerTo (i : Nat) : WatchEvent → Option (Except WatchError ChangeSet)
  | .answered j answer => if j = i then some answer else none
  | _ => none

/-- The committed sets, in order. -/
def committedSets (es : List WatchEvent) : List ChangeSet := es.filterMap committedBy

/-- The answers a subscriber was given, in order. -/
def answersTo (i : Nat) (es : List WatchEvent) : List (Except WatchError ChangeSet) :=
  es.filterMap (answerTo i)

/-- The sets a subscriber received, in order. -/
def receivedBy (i : Nat) (es : List WatchEvent) : List ChangeSet :=
  (answersTo i es).filterMap Except.toOption

/-- The sets committed after the subscription with a given number. -/
def committedSince : Nat → List WatchEvent → List ChangeSet
  | _, [] => []
  | 0, .subscribed :: es => committedSets es
  | i + 1, .subscribed :: es => committedSince i es
  | i, _ :: es => committedSince i es

/-- The number of subscriptions. -/
def subscriptions (es : List WatchEvent) : Nat := es.countP (· = .subscribed)

/-- The events between which a transaction runs. -/
def boundary : WatchEvent → Bool
  | .begun | .committed _ | .rolledBack => true
  | _ => false

/-- The tracker after the changes recorded in a stretch of history. -/
def trackerOf (es : List WatchEvent) : ChangeTracker :=
  es.foldl (fun t e =>
    match e with
    | .recorded path key operation => t.record path key operation
    | _ => t) (.new true)

/-- The set `publish` has still to offer to a subscription. -/
def pendingFor (h : WatchHub) (i : Nat) : List ChangeSet :=
  match h.publishing with
  | some (set, k) => if k ≤ i then [set] else []
  | none => []

theorem committedSince_skip {e : WatchEvent} (he : e ≠ .subscribed) (i : Nat)
    (es : List WatchEvent) : committedSince i (e :: es) = committedSince i es := by
  cases e <;> cases i <;> first | rfl | exact absurd rfl he

theorem subscriptions_skip {e : WatchEvent} (he : e ≠ .subscribed) (es : List WatchEvent) :
    subscriptions (e :: es) = subscriptions es := by
  simp [subscriptions, he]

theorem subscriptions_subscribed (es : List WatchEvent) :
    subscriptions (.subscribed :: es) = subscriptions es + 1 := by
  simp [subscriptions]

theorem committedSince_append {i : Nat} {es : List WatchEvent} (h : i < subscriptions es)
    (more : List WatchEvent) :
    committedSince i (es ++ more) = committedSince i es ++ committedSets more := by
  induction es generalizing i with
  | nil => simp [subscriptions] at h
  | cons e es ih =>
    by_cases he : e = .subscribed
    · subst he
      rw [subscriptions_subscribed] at h
      cases i with
      | zero => simp [committedSince, committedSets]
      | succ i => exact ih (Nat.lt_of_succ_lt_succ h)
    · rw [subscriptions_skip he] at h
      rw [List.cons_append, committedSince_skip he, committedSince_skip he]
      exact ih h

/-- The history after one more event. -/
theorem committedSince_snoc {i : Nat} {es : List WatchEvent} (h : i < subscriptions es)
    (e : WatchEvent) :
    committedSince i (es ++ [e]) = committedSince i es ++ (committedBy e).toList := by
  rw [committedSince_append h]
  cases hset : committedBy e <;> simp [committedSets, hset]

theorem committedSince_sublist (i : Nat) (es : List WatchEvent) :
    (committedSince i es).Sublist (committedSets es) := by
  induction es generalizing i with
  | nil => simp [committedSince]
  | cons e es ih =>
    have hrest : (committedSets es).Sublist (committedSets (e :: es)) :=
      (List.sublist_cons_self e es).filterMap _
    by_cases he : e = .subscribed
    · subst he
      cases i with
      | zero => exact List.Sublist.refl _
      | succ i => exact ih i
    · rw [committedSince_skip he]
      exact (ih i).trans hrest

/-! ## What a step does to one subscription -/

/-- The effect of a step on the subscription with number `i`. -/
inductive WatchStep (h h' : WatchHub) (i : Nat) (w : Watch) (e : WatchEvent) : Watch → Prop
  | quiet (hanswer : answerTo i e = none)
      (hpending : pendingFor h' i = pendingFor h i ++ (committedBy e).toList) :
      WatchStep h h' i w e w
  | offered (set : ChangeSet) (hevent : e = .offered) (hbefore : pendingFor h i = [set])
      (hafter : pendingFor h' i = []) : WatchStep h h' i w e (w.offer set)
  | received (set : ChangeSet) (queue : List ChangeSet) (hreceiver : w.receiver = true)
      (hqueue : w.queue = set :: queue) (hevent : e = .answered i (.ok set))
      (hpending : pendingFor h' i = pendingFor h i) :
      WatchStep h h' i w e { w with queue := queue }
  | failed (error : WatchError) (hreceiver : w.receiver = true) (hqueue : w.queue = [])
      (herror : error = if w.sender then .empty else w.terminalError)
      (hevent : e = .answered i (.error error)) (hpending : pendingFor h' i = pendingFor h i) :
      WatchStep h h' i w e w
  | closed (hevent : e = .unsubscribed i) (hpending : pendingFor h' i = pendingFor h i) :
      WatchStep h h' i w e { w with receiver := false }

/-- A writer is only active while nothing is being published. -/
def WriterFirst (h : WatchHub) : Prop := h.writer.isSome = true → h.publishing = none

theorem answer_cases {h h' : WatchHub} {i : Nat} {w w' : Watch} {e : WatchEvent}
    {answer : Except WatchError ChangeSet} (hreceiver : w.receiver = true)
    (hpending : pendingFor h' i = pendingFor h i) (hevent : e = .answered i answer)
    (hanswer : (∃ set queue, w.queue = set :: queue ∧ answer = .ok set ∧
        w' = { w with queue := queue }) ∨
      w.queue = [] ∧ w' = w ∧ answer = .error (if w.sender then .empty else w.terminalError)) :
    WatchStep h h' i w e w' := by
  obtain ⟨set, queue, hqueue, rfl, rfl⟩ | ⟨hqueue, rfl, rfl⟩ := hanswer
  · exact .received set queue hreceiver hqueue hevent hpending
  · exact .failed _ hreceiver hqueue rfl hevent hpending

theorem tryRecvEvent_cases (w : Watch) :
    (∃ set queue, w.queue = set :: queue ∧ w.tryRecvEvent.1 = .ok set ∧
        w.tryRecvEvent.2 = { w with queue := queue }) ∨
      w.queue = [] ∧ w.tryRecvEvent.2 = w ∧
        w.tryRecvEvent.1 = .error (if w.sender then .empty else w.terminalError) := by
  cases hqueue : w.queue with
  | nil =>
    refine .inr ⟨rfl, ?_⟩
    cases hsender : w.sender <;>
      simp [Watch.tryRecvEvent, Watch.tryRecv, hqueue, hsender, Except.mapError]
  | cons set queue =>
    refine .inl ⟨set, queue, rfl, ?_⟩
    simp [Watch.tryRecvEvent, Watch.tryRecv, hqueue, Except.mapError]

theorem recvEvent_cases {w w' : Watch} {answer : Except WatchError ChangeSet}
    (h : w.recvEvent = some (answer, w')) :
    (∃ set queue, w.queue = set :: queue ∧ answer = .ok set ∧ w' = { w with queue := queue }) ∨
      w.queue = [] ∧ w' = w ∧
        answer = .error (if w.sender then .empty else w.terminalError) := by
  cases hqueue : w.queue with
  | nil =>
    refine .inr ⟨rfl, ?_⟩
    cases hsender : w.sender <;> simp [Watch.recvEvent, Watch.recv, hqueue, hsender] at h
    exact ⟨h.2.symm, h.1.symm⟩
  | cons set queue =>
    refine .inl ⟨set, queue, rfl, ?_⟩
    simp [Watch.recvEvent, Watch.recv, hqueue] at h
    exact ⟨h.1.symm, h.2.symm⟩

/-- Replacing another subscription leaves this one alone. -/
theorem set_other {h h' : WatchHub} {i j : Nat} {w w' : Watch} {e : WatchEvent}
    (hw : h.watches[i]? = some w)
    (hstate : h' = { h with watches := h.watches.set j w' })
    (hother : j ≠ i → answerTo i e = none ∧ committedBy e = none)
    (hsame : j = i → WatchStep h h' i w e w') :
    ∃ w'', h'.watches[i]? = some w'' ∧ WatchStep h h' i w e w'' := by
  have hpending : pendingFor h' i = pendingFor h i := by
    subst hstate
    rfl
  by_cases hj : j = i
  · refine ⟨w', ?_, hsame hj⟩
    have hlt : i < h.watches.length := (List.getElem?_eq_some_iff.mp hw).1
    subst hstate
    subst hj
    simp [hlt]
  · obtain ⟨hanswer, hset⟩ := hother hj
    refine ⟨w, ?_, .quiet hanswer ?_⟩
    · subst hstate
      simpa [List.getElem?_set_ne hj] using hw
    · simp [hpending, hset]

/-- Every step has one of these effects on every subscription there is. -/
theorem step_watch {h h' : WatchHub} {a : WatchAction} {e : WatchEvent} (hfirst : WriterFirst h)
    (hstep : h.step a = some (h', e)) {i : Nat} {w : Watch} (hw : h.watches[i]? = some w) :
    ∃ w', h'.watches[i]? = some w' ∧ WatchStep h h' i w e w' := by
  have hlt : i < h.watches.length := (List.getElem?_eq_some_iff.mp hw).1
  cases a with
  | begin =>
    simp only [WatchHub.step] at hstep
    split at hstep <;> simp only [Option.some.injEq, Prod.mk.injEq, reduceCtorEq] at hstep
    obtain ⟨rfl, rfl⟩ := hstep
    exact ⟨w, hw, .quiet rfl (by simp [pendingFor, committedBy])⟩
  | record path key operation =>
    simp only [WatchHub.step] at hstep
    split at hstep <;> simp only [Option.some.injEq, Prod.mk.injEq, reduceCtorEq] at hstep
    obtain ⟨rfl, rfl⟩ := hstep
    exact ⟨w, hw, .quiet rfl (by simp [pendingFor, committedBy])⟩
  | commit =>
    simp only [WatchHub.step] at hstep
    split at hstep <;> simp only [Option.some.injEq, Prod.mk.injEq, reduceCtorEq] at hstep
    rename_i t hwriter
    obtain ⟨rfl, rfl⟩ := hstep
    have hnone : h.publishing = none := hfirst (by simp [hwriter])
    exact ⟨w, hw, .quiet rfl (by simp [pendingFor, committedBy, hnone])⟩
  | rollback =>
    simp only [WatchHub.step] at hstep
    split at hstep <;> simp only [Option.some.injEq, Prod.mk.injEq, reduceCtorEq] at hstep
    obtain ⟨rfl, rfl⟩ := hstep
    exact ⟨w, hw, .quiet rfl (by simp [pendingFor, committedBy])⟩
  | publishNext =>
    simp only [WatchHub.step] at hstep
    split at hstep <;> try simp only [reduceCtorEq] at hstep
    rename_i set k hpublishing
    by_cases hk : k < h.watches.length
    · simp only [hk, if_true, Option.some.injEq, Prod.mk.injEq] at hstep
      obtain ⟨rfl, rfl⟩ := hstep
      by_cases hki : k = i
      · subst hki
        refine ⟨w.offer set, ?_, .offered set rfl ?_ ?_⟩
        · simp [hw]
        · simp [pendingFor, hpublishing]
        · simp [pendingFor]
      · refine ⟨w, ?_, .quiet rfl ?_⟩
        · simpa [List.getElem?_modify, hki] using hw
        · have hiff : k + 1 ≤ i ↔ k ≤ i := by omega
          simp [pendingFor, hpublishing, hiff, committedBy]
    · simp only [hk, if_false, Option.some.injEq, Prod.mk.injEq] at hstep
      obtain ⟨rfl, rfl⟩ := hstep
      refine ⟨w, hw, .quiet rfl ?_⟩
      have hki : ¬ k ≤ i := by omega
      simp [pendingFor, hpublishing, hki, committedBy]
  | subscribe capacity filter =>
    simp only [WatchHub.step] at hstep
    split at hstep <;> simp only [Option.some.injEq, Prod.mk.injEq, reduceCtorEq] at hstep
    obtain ⟨rfl, rfl⟩ := hstep
    refine ⟨w, ?_, .quiet rfl (by simp [pendingFor, committedBy])⟩
    simpa [List.getElem?_append_left hlt] using hw
  | recvEvent j =>
    simp only [WatchHub.step] at hstep
    cases hv : h.watches[j]? with
    | none => simp [hv] at hstep
    | some v =>
      by_cases hreceiver : v.receiver = true
      swap
      · simp [hv, hreceiver] at hstep
      cases hrecv : v.recvEvent with
      | none => simp [hv, hreceiver, hrecv] at hstep
      | some r =>
        obtain ⟨answer, v'⟩ := r
        simp only [hv, hreceiver, hrecv, Bool.not_true, Bool.false_eq_true, if_false,
          Option.some.injEq, Prod.mk.injEq] at hstep
        obtain ⟨rfl, rfl⟩ := hstep
        apply set_other hw rfl
        · exact fun hj => by simp [answerTo, committedBy, hj]
        · rintro rfl
          obtain rfl := Option.some.inj (hv.symm.trans hw)
          exact answer_cases hreceiver rfl rfl (recvEvent_cases hrecv)
  | tryRecvEvent j =>
    simp only [WatchHub.step] at hstep
    cases hv : h.watches[j]? with
    | none => simp [hv] at hstep
    | some v =>
      by_cases hreceiver : v.receiver = true
      swap
      · simp [hv, hreceiver] at hstep
      simp only [hv, hreceiver, Bool.not_true, Bool.false_eq_true, if_false,
        Option.some.injEq, Prod.mk.injEq] at hstep
      obtain ⟨rfl, rfl⟩ := hstep
      apply set_other hw rfl
      · exact fun hj => by simp [answerTo, committedBy, hj]
      · rintro rfl
        obtain rfl := Option.some.inj (hv.symm.trans hw)
        exact answer_cases hreceiver rfl rfl (tryRecvEvent_cases v)
  | unsubscribe j =>
    simp only [WatchHub.step] at hstep
    cases hv : h.watches[j]? with
    | none => simp [hv] at hstep
    | some v =>
      by_cases hreceiver : v.receiver = true
      swap
      · simp [hv, hreceiver] at hstep
      simp only [hv, hreceiver, Bool.not_true, Bool.false_eq_true, if_false,
        Option.some.injEq, Prod.mk.injEq] at hstep
      obtain ⟨rfl, rfl⟩ := hstep
      apply set_other hw rfl
      · exact fun hj => by simp [answerTo, committedBy]
      · rintro rfl
        obtain rfl := Option.some.inj (hv.symm.trans hw)
        exact .closed rfl rfl

/-! ## What holds of a subscription along a run -/

/-- Why a subscription is no longer served: its queue was full when `set` was offered, or it was
dropped. -/
def Unserved (es : List WatchEvent) (i : Nat) (w : Watch) (before : List ChangeSet) : Prop :=
  (w.terminal = some .overflow ∧ ∃ early, early <+: es ∧
    (before.filterMap w.filter.select).length = (receivedBy i early).length + w.capacity) ∨
  (w.terminal = some .disconnected ∧ w.receiver = false)

/-- Either everything offered so far was received or is queued, or the same is true of what came
before the set that could not be sent. -/
def Served (es : List WatchEvent) (i : Nat) (w : Watch) (offered : List ChangeSet) : Prop :=
  (w.sender = true ∧ w.terminal = none ∧
    receivedBy i es ++ w.queue = offered.filterMap w.filter.select) ∨
  (w.sender = false ∧ ∃ before set after, offered = before ++ set :: after ∧
    (w.filter.select set).isSome = true ∧
    receivedBy i es ++ w.queue = before.filterMap w.filter.select ∧ Unserved es i w before)

structure Standing (es : List WatchEvent) (h : WatchHub) (i : Nat) (w : Watch) : Prop where
  served : ∃ offered, committedSince i es = offered ++ pendingFor h i ∧ Served es i w offered
  bounded : w.queue.length ≤ w.capacity
  errors : ∀ error, .error error ∈ answersTo i es →
    error = .empty ∨ error = .overflow ∧ w.sender = false

theorem Unserved.snoc {es : List WatchEvent} {i : Nat} {w w' : Watch} {before : List ChangeSet}
    (hw : Unserved es i w before) (hfilter : w'.filter = w.filter)
    (hcapacity : w'.capacity = w.capacity) (hterminal : w'.terminal = w.terminal)
    (hreceiver : w.receiver = false → w'.receiver = false) (e : WatchEvent) :
    Unserved (es ++ [e]) i w' before := by
  unfold Unserved at hw ⊢
  rw [hfilter, hcapacity, hterminal]
  obtain ⟨hterm, early, hearly, hlen⟩ | ⟨hterm, hgone⟩ := hw
  · exact .inl ⟨hterm, early, hearly.trans (List.prefix_append _ _), hlen⟩
  · exact .inr ⟨hterm, hreceiver hgone⟩

/-- A step that hands nothing to the subscriber. -/
theorem Served.snoc {es : List WatchEvent} {i : Nat} {w w' : Watch} {offered : List ChangeSet}
    (hw : Served es i w offered) (hfilter : w'.filter = w.filter)
    (hcapacity : w'.capacity = w.capacity) (hterminal : w'.terminal = w.terminal)
    (hsender : w'.sender = w.sender) (hreceiver : w.receiver = false → w'.receiver = false)
    {e : WatchEvent} (hqueue : receivedBy i (es ++ [e]) ++ w'.queue = receivedBy i es ++ w.queue) :
    Served (es ++ [e]) i w' offered := by
  unfold Served at hw ⊢
  rw [hfilter, hterminal, hsender, hqueue]
  obtain hpresent | ⟨hgone, before, set, after, hsplit, hset, hgot, hwhy⟩ := hw
  · exact .inl hpresent
  · exact .inr ⟨hgone, before, set, after, hsplit, hset, hgot,
      hwhy.snoc hfilter hcapacity hterminal hreceiver e⟩

theorem receivedBy_quiet {es : List WatchEvent} {i : Nat} {e : WatchEvent}
    (h : answerTo i e = none) : receivedBy i (es ++ [e]) = receivedBy i es := by
  simp [receivedBy, answersTo, h]

theorem answersTo_quiet {es : List WatchEvent} {i : Nat} {e : WatchEvent}
    (h : answerTo i e = none) : answersTo i (es ++ [e]) = answersTo i es := by
  simp [answersTo, h]

/-- The round of `publish` that visits a subscription. -/
theorem Served.offer {es : List WatchEvent} {i : Nat} {w : Watch} {offered : List ChangeSet}
    (hw : Served es i w offered) (hbounded : w.queue.length ≤ w.capacity) (set : ChangeSet) :
    Served es i (w.offer set) (offered ++ [set]) ∧
      (w.offer set).queue.length ≤ (w.offer set).capacity ∧
      (w.sender = false → (w.offer set).sender = false) := by
  obtain ⟨hsender, hterminal, hgot⟩ | ⟨hsender, before, lost, after, rfl, hlost, hgot, hwhy⟩ := hw
  · cases hselect : w.filter.select set with
    | none =>
      have hoffer : w.offer set = w := by simp [Watch.offer, hsender, hselect]
      rw [hoffer]
      refine ⟨.inl ⟨hsender, hterminal, ?_⟩, hbounded, id⟩
      simp [hgot, hselect]
    | some sent =>
      by_cases hreceiver : w.receiver = true
      · by_cases hfull : w.queue.length < w.capacity
        · have hoffer : w.offer set = { w with queue := w.queue ++ [sent] } := by
            simp [Watch.offer, Watch.trySend, hsender, hselect, hreceiver, hfull]
          rw [hoffer]
          refine ⟨.inl ⟨hsender, hterminal, ?_⟩, ?_, id⟩
          · simp [← hgot, hselect]
          · simpa using hfull
        · have hoffer : w.offer set = { w with terminal := some .overflow, sender := false } := by
            simp [Watch.offer, Watch.trySend, hsender, hselect, hreceiver, hfull]
          rw [hoffer]
          refine ⟨.inr ⟨rfl, offered, set, [], rfl, by simp [hselect], hgot,
            .inl ⟨rfl, es, List.prefix_refl _, ?_⟩⟩, hbounded, fun _ => rfl⟩
          -- The queue is as long as it may be, so what is missing from the received sets is it.
          have hlen := congrArg List.length hgot
          rw [List.length_append] at hlen
          have hcap : w.queue.length = w.capacity := by omega
          rw [hcap] at hlen
          exact hlen.symm
      · have hoffer : w.offer set = { w with terminal := some .disconnected, sender := false } := by
          simp [Watch.offer, Watch.trySend, hsender, hselect, hreceiver]
        rw [hoffer]
        exact ⟨.inr ⟨rfl, offered, set, [], rfl, by simp [hselect], hgot,
          .inr ⟨rfl, by simpa using hreceiver⟩⟩, hbounded, fun _ => rfl⟩
  · have hoffer : w.offer set = w := by simp [Watch.offer, hsender]
    rw [hoffer]
    exact ⟨.inr ⟨hsender, before, lost, after ++ [set], by simp, hlost, hgot, hwhy⟩, hbounded, id⟩

/-- One step keeps the standing of a subscription. -/
theorem Standing.step {es : List WatchEvent} {h h' : WatchHub} {i : Nat} {w w' : Watch}
    {e : WatchEvent} (hw : Standing es h i w) (hi : i < subscriptions es)
    (hstep : WatchStep h h' i w e w') : Standing (es ++ [e]) h' i w' := by
  obtain ⟨⟨offered, hsince, hserved⟩, hbounded, herrors⟩ := hw
  cases hstep with
  | quiet hanswer hpending =>
    refine ⟨⟨offered, ?_, hserved.snoc rfl rfl rfl rfl id (by rw [receivedBy_quiet hanswer])⟩,
      hbounded, ?_⟩
    · rw [committedSince_snoc hi, hsince, hpending, List.append_assoc]
    · rwa [answersTo_quiet hanswer]
  | offered set hevent hbefore hafter =>
    subst hevent
    obtain ⟨hnext, hlen, hsender⟩ := hserved.offer hbounded set
    refine ⟨⟨offered ++ [set], ?_, hnext.snoc rfl rfl rfl rfl id (by rw [receivedBy_quiet rfl])⟩,
      hlen, ?_⟩
    · rw [committedSince_snoc hi, hsince, hbefore, hafter]
      simp [committedBy]
    · rw [answersTo_quiet rfl]
      intro error hmem
      obtain hempty | ⟨hover, hgone⟩ := herrors error hmem
      · exact .inl hempty
      · exact .inr ⟨hover, hsender hgone⟩
  | received set queue hreceiver hqueue hevent hpending =>
    subst hevent
    refine ⟨⟨offered, ?_, ?_⟩, ?_, ?_⟩
    · rw [committedSince_snoc hi, hsince, hpending]
      simp [committedBy]
    · apply hserved.snoc <;> try exact rfl
      · exact id
      simp [receivedBy, answersTo, answerTo, Except.toOption, hqueue]
    · rw [hqueue, List.length_cons] at hbounded
      exact Nat.le_of_succ_le hbounded
    · intro error hmem
      apply herrors
      simpa [answersTo, answerTo] using hmem
  | failed error hreceiver hqueue herror hevent hpending =>
    subst hevent
    refine ⟨⟨offered, ?_, hserved.snoc rfl rfl rfl rfl id ?_⟩, hbounded, ?_⟩
    · rw [committedSince_snoc hi, hsince, hpending]
      simp [committedBy]
    · simp [receivedBy, answersTo, answerTo, Except.toOption]
    · intro other hmem
      obtain hold | rfl : .error other ∈ answersTo i es ∨ other = error := by
        simpa [answersTo, answerTo] using hmem
      · exact herrors other hold
      · -- A subscriber that is still there loses its sender only to an overflow.
        obtain ⟨hsender, -⟩ | ⟨hsender, before, lost, after, -, -, -, hwhy⟩ := hserved
        · simp [herror, hsender]
        · obtain ⟨hterminal, -⟩ | ⟨-, hdropped⟩ := hwhy
          · simp [herror, hsender, Watch.terminalError, hterminal]
          · rw [hreceiver] at hdropped
            cases hdropped
  | closed hevent hpending =>
    subst hevent
    refine ⟨⟨offered, ?_, ?_⟩, hbounded, ?_⟩
    · rw [committedSince_snoc hi, hsince, hpending]
      simp [committedBy]
    · apply hserved.snoc <;> try exact rfl
      · exact fun _ => rfl
      rw [receivedBy_quiet rfl]
    · rwa [answersTo_quiet rfl]

/-! ## What a step does to the writer and to the list of subscriptions -/

/-- The effect of a step on the writer. -/
inductive WriterStep (h h' : WatchHub) : WatchEvent → Prop
  | begun (hwriter : h'.writer = some (.new true)) (hid : h'.txId = h.txId) :
      WriterStep h h' .begun
  | recorded (t : ChangeTracker) (path : List Bytes) (key : Bytes) (operation : ChangeOperation)
      (hbefore : h.writer = some t) (hwriter : h'.writer = some (t.record path key operation))
      (hid : h'.txId = h.txId) : WriterStep h h' (.recorded path key operation)
  | committed (t : ChangeTracker) (hbefore : h.writer = some t) (hwriter : h'.writer = none)
      (hid : h'.txId = h.txId + 1) : WriterStep h h' (.committed (t.finish (h.txId + 1)))
  | rolledBack (hwriter : h'.writer = none) (hid : h'.txId = h.txId) :
      WriterStep h h' .rolledBack
  | other {e : WatchEvent} (hquiet : boundary e = false)
      (hsame : ∀ es, trackerOf (es ++ [e]) = trackerOf es) (hcommit : committedBy e = none)
      (hwriter : h'.writer = h.writer) (hid : h'.txId = h.txId) : WriterStep h h' e

theorem trackerOf_snoc (es : List WatchEvent) (e : WatchEvent) :
    trackerOf (es ++ [e]) =
      match e with
      | .recorded path key operation => (trackerOf es).record path key operation
      | _ => trackerOf es := by
  cases e <;> simp [trackerOf]

/-- Every step has one of these effects; the writer goes before the publication, the list grows
exactly when someone subscribes, and nobody is answered who has not subscribed. -/
theorem step_writer {h h' : WatchHub} {a : WatchAction} {e : WatchEvent} (hfirst : WriterFirst h)
    (hstep : h.step a = some (h', e)) :
    WriterStep h h' e ∧ WriterFirst h' ∧ (∀ i, h.watches.length ≤ i → answerTo i e = none) ∧
      (e ≠ .subscribed ∧ h'.watches.length = h.watches.length ∨
        e = .subscribed ∧ h.publishing = none ∧ h'.publishing = none ∧
          ∃ capacity filter, h'.watches = h.watches ++ [.subscribe capacity filter]) := by
  cases a with
  | begin =>
    simp only [WatchHub.step] at hstep
    split at hstep <;> simp only [Option.some.injEq, Prod.mk.injEq, reduceCtorEq] at hstep
    rename_i hwriter hpublishing
    obtain ⟨rfl, rfl⟩ := hstep
    exact ⟨.begun rfl rfl, fun _ => hpublishing, fun _ _ => rfl, .inl ⟨by simp, rfl⟩⟩
  | record path key operation =>
    simp only [WatchHub.step] at hstep
    split at hstep <;> simp only [Option.some.injEq, Prod.mk.injEq, reduceCtorEq] at hstep
    rename_i t hwriter
    obtain ⟨rfl, rfl⟩ := hstep
    exact ⟨.recorded t path key operation hwriter rfl rfl, fun _ => hfirst (by simp [hwriter]),
      fun _ _ => rfl, .inl ⟨by simp, rfl⟩⟩
  | commit =>
    simp only [WatchHub.step] at hstep
    split at hstep <;> simp only [Option.some.injEq, Prod.mk.injEq, reduceCtorEq] at hstep
    rename_i t hwriter
    obtain ⟨rfl, rfl⟩ := hstep
    exact ⟨.committed t hwriter rfl rfl, by simp [WriterFirst], fun _ _ => rfl, .inl ⟨by simp, rfl⟩⟩
  | rollback =>
    simp only [WatchHub.step] at hstep
    split at hstep <;> simp only [Option.some.injEq, Prod.mk.injEq, reduceCtorEq] at hstep
    obtain ⟨rfl, rfl⟩ := hstep
    exact ⟨.rolledBack rfl rfl, by simp [WriterFirst], fun _ _ => rfl, .inl ⟨by simp, rfl⟩⟩
  | publishNext =>
    have hother : ∀ {k : WatchHub}, k.writer = h.writer → k.txId = h.txId →
        WriterStep h k .offered :=
      fun hwriter hid => .other rfl (fun es => trackerOf_snoc es _) rfl hwriter hid
    simp only [WatchHub.step] at hstep
    split at hstep <;> try simp only [reduceCtorEq] at hstep
    rename_i set k hpublishing
    have hnone : h.writer = none := by
      cases hwriter : h.writer with
      | none => rfl
      | some t =>
        rw [hfirst (by simp [hwriter])] at hpublishing
        cases hpublishing
    split at hstep <;> simp only [Option.some.injEq, Prod.mk.injEq] at hstep <;>
      obtain ⟨rfl, rfl⟩ := hstep
    · exact ⟨hother rfl rfl, by simp [WriterFirst, hnone], fun _ _ => rfl, .inl ⟨by simp, by simp⟩⟩
    · exact ⟨hother rfl rfl, fun _ => rfl, fun _ _ => rfl, .inl ⟨by simp, rfl⟩⟩
  | subscribe capacity filter =>
    simp only [WatchHub.step] at hstep
    split at hstep <;> simp only [Option.some.injEq, Prod.mk.injEq, reduceCtorEq] at hstep
    rename_i hpublishing
    obtain ⟨rfl, rfl⟩ := hstep
    exact ⟨.other rfl (fun es => trackerOf_snoc es _) rfl rfl rfl, fun _ => hpublishing,
      fun _ _ => rfl, .inr ⟨rfl, hpublishing, hpublishing, capacity, filter, rfl⟩⟩
  | recvEvent j | tryRecvEvent j | unsubscribe j =>
    have hother : ∀ i, h.watches.length ≤ i → (h.watches[j]?).isSome = true → j ≠ i := by
      intro i hi hsome
      have hlt : j < h.watches.length := by simpa using hsome
      omega
    simp only [WatchHub.step] at hstep
    split at hstep <;> try simp only [reduceCtorEq] at hstep
    rename_i w hw
    repeat' split at hstep
    all_goals simp only [Option.some.injEq, Prod.mk.injEq, reduceCtorEq] at hstep
    all_goals
      obtain ⟨rfl, rfl⟩ := hstep
      refine ⟨.other rfl (fun es => trackerOf_snoc es _) rfl rfl rfl, hfirst, fun i hi => ?_,
        .inl ⟨by simp, by simp⟩⟩
      simp [answerTo, hother i hi (by simp [hw])]

/-! ## Whole runs -/

/-- A set holds what one transaction recorded between its begin and its commit. -/
def CommittedWhole (es : List WatchEvent) (set : ChangeSet) : Prop :=
  ∃ before body after, es = before ++ .begun :: body ++ .committed set :: after ∧
    (∀ e ∈ body, boundary e = false) ∧ set = (trackerOf body).finish set.transactionId

/-- What holds in every state of a handle opened at transaction `start`. -/
structure WatchInv (start : Nat) (es : List WatchEvent) (h : WatchHub) : Prop where
  first : WriterFirst h
  count : subscriptions es = h.watches.length
  txId : h.txId = start + (committedSets es).length
  ids : (committedSets es).map ChangeSet.transactionId =
    List.range' (start + 1) (committedSets es).length
  writer : ∀ t, h.writer = some t → ∃ before body, es = before ++ .begun :: body ∧
    (∀ e ∈ body, boundary e = false) ∧ t = trackerOf body
  whole : ∀ set ∈ committedSets es, CommittedWhole es set
  standing : ∀ i w, h.watches[i]? = some w → Standing es h i w
  unanswered : ∀ i, h.watches.length ≤ i → answersTo i es = []

theorem CommittedWhole.snoc {es : List WatchEvent} {set : ChangeSet} (h : CommittedWhole es set)
    (e : WatchEvent) : CommittedWhole (es ++ [e]) set := by
  obtain ⟨before, body, after, rfl, hbody, hset⟩ := h
  exact ⟨before, body, after ++ [e], by simp, hbody, hset⟩

/-- The part of the invariant that is about the committed sets. -/
theorem WatchInv.writer_step {start : Nat} {es : List WatchEvent} {h h' : WatchHub}
    {e : WatchEvent} (hinv : WatchInv start es h) (hstep : WriterStep h h' e) :
    h'.txId = start + (committedSets (es ++ [e])).length ∧
    (committedSets (es ++ [e])).map ChangeSet.transactionId =
      List.range' (start + 1) (committedSets (es ++ [e])).length ∧
    (∀ t, h'.writer = some t → ∃ before body, es ++ [e] = before ++ .begun :: body ∧
      (∀ x ∈ body, boundary x = false) ∧ t = trackerOf body) ∧
    ∀ set ∈ committedSets (es ++ [e]), CommittedWhole (es ++ [e]) set := by
  have hquiet : committedBy e = none → committedSets (es ++ [e]) = committedSets es := by
    intro hnone
    simp [committedSets, hnone]
  have hold : ∀ set ∈ committedSets es, CommittedWhole (es ++ [e]) set :=
    fun set hset => (hinv.whole set hset).snoc e
  cases hstep with
  | begun hwriter hid =>
    rw [hquiet rfl, hid, hwriter]
    refine ⟨hinv.txId, hinv.ids, fun t ht => ⟨es, [], rfl, by simp, ?_⟩, hold⟩
    exact (Option.some.inj ht).symm
  | recorded t path key operation hbefore hwriter hid =>
    rw [hquiet rfl, hid, hwriter]
    refine ⟨hinv.txId, hinv.ids, fun t' ht => ?_, hold⟩
    obtain ⟨before, body, rfl, hbody, rfl⟩ := hinv.writer t hbefore
    refine ⟨before, body ++ [.recorded path key operation], by simp, ?_, ?_⟩
    · intro x hx
      obtain hx | rfl : x ∈ body ∨ x = .recorded path key operation := by simpa using hx
      · exact hbody x hx
      · rfl
    · rw [trackerOf_snoc]
      exact (Option.some.inj ht).symm
  | committed t hbefore hwriter hid =>
    have hsets : committedSets (es ++ [.committed (t.finish (h.txId + 1))]) =
        committedSets es ++ [t.finish (h.txId + 1)] := by
      simp [committedSets, committedBy]
    rw [hsets, hid, hwriter]
    refine ⟨?_, ?_, by simp, ?_⟩
    · simp [hinv.txId, Nat.add_assoc]
    · rw [List.map_append, hinv.ids, List.length_append, List.length_singleton, List.range'_concat]
      simp [ChangeTracker.finish, hinv.txId]
      omega
    · intro set hset
      obtain hset | rfl : set ∈ committedSets es ∨ set = t.finish (h.txId + 1) := by
        simpa using hset
      · exact hold set hset
      · obtain ⟨before, body, rfl, hbody, rfl⟩ := hinv.writer t hbefore
        exact ⟨before, body, [], by simp, hbody, rfl⟩
  | rolledBack hwriter hid =>
    rw [hquiet rfl, hid, hwriter]
    exact ⟨hinv.txId, hinv.ids, by simp, hold⟩
  | other hboundary hsame hcommit hwriter hid =>
    rw [hquiet hcommit, hid, hwriter]
    refine ⟨hinv.txId, hinv.ids, fun t ht => ?_, hold⟩
    obtain ⟨before, body, rfl, hbody, rfl⟩ := hinv.writer t ht
    refine ⟨before, body ++ [e], by simp, ?_, (hsame body).symm⟩
    intro x hx
    obtain hx | rfl : x ∈ body ∨ x = e := by simpa using hx
    · exact hbody x hx
    · exact hboundary

/-- The standing of someone who just subscribed. -/
theorem Standing.new {es : List WatchEvent} {h : WatchHub} {i : Nat}
    (hcount : subscriptions es = i) (hpublishing : h.publishing = none)
    (hanswers : answersTo i es = []) (capacity : Nat) (filter : WatchFilter) :
    Standing (es ++ [.subscribed]) h i (.subscribe capacity filter) := by
  have hsince : committedSince i (es ++ [.subscribed]) = [] := by
    subst hcount
    clear hanswers
    induction es with
    | nil => rfl
    | cons e es ih =>
      by_cases he : e = .subscribed
      · subst he
        rw [subscriptions_subscribed]
        exact ih
      · rw [subscriptions_skip he, List.cons_append, committedSince_skip he]
        exact ih
  have hgot : answersTo i (es ++ [.subscribed]) = [] := by
    rw [answersTo_quiet rfl, hanswers]
  refine ⟨⟨[], ?_, .inl ⟨rfl, rfl, ?_⟩⟩, Nat.zero_le _, ?_⟩
  · simp [hsince, pendingFor, hpublishing]
  · simp [receivedBy, hgot, Watch.subscribe]
  · simp [hgot]

/-- Every step keeps the invariant. -/
theorem WatchInv.step {start : Nat} {es : List WatchEvent} {h h' : WatchHub} {a : WatchAction}
    {e : WatchEvent} (hinv : WatchInv start es h) (hstep : h.step a = some (h', e)) :
    WatchInv start (es ++ [e]) h' := by
  obtain ⟨hwriter, hfirst, hnobody, hlist⟩ := step_writer hinv.first hstep
  obtain ⟨htx, hids, htracker, hwhole⟩ := hinv.writer_step hwriter
  have hold : ∀ i w', h'.watches[i]? = some w' → i < h.watches.length →
      Standing (es ++ [e]) h' i w' := by
    intro i w' hw' hlt
    obtain ⟨w'', hw'', heffect⟩ := step_watch hinv.first hstep (List.getElem?_eq_getElem hlt)
    obtain rfl := Option.some.inj (hw''.symm.trans hw')
    exact (hinv.standing i _ (List.getElem?_eq_getElem hlt)).step (hinv.count ▸ hlt) heffect
  have hquiet : ∀ i, h.watches.length ≤ i → answersTo i (es ++ [e]) = [] := by
    intro i hi
    rw [answersTo_quiet (hnobody i hi)]
    exact hinv.unanswered i hi
  obtain ⟨hother, hlength⟩ | ⟨rfl, hbefore, hafter, capacity, filter, hwatches⟩ := hlist
  · refine ⟨hfirst, ?_, htx, hids, htracker, hwhole, ?_, ?_⟩
    · rw [hlength, ← hinv.count]
      simp [subscriptions, hother]
    · intro i w' hw'
      exact hold i w' hw' (hlength ▸ (List.getElem?_eq_some_iff.mp hw').1)
    · rwa [hlength]
  · refine ⟨hfirst, ?_, htx, hids, htracker, hwhole, ?_, ?_⟩
    · rw [hwatches, List.length_append, ← hinv.count]
      simp [subscriptions]
    · intro i w' hw'
      by_cases hlt : i < h.watches.length
      · exact hold i w' hw' hlt
      · rw [hwatches, List.getElem?_append_right (Nat.le_of_not_lt hlt)] at hw'
        obtain ⟨hi, rfl⟩ : i - h.watches.length = 0 ∧ w' = .subscribe capacity filter := by
          have hi := (List.getElem?_eq_some_iff.mp hw').1
          simp only [List.length_singleton, Nat.lt_one_iff] at hi
          rw [hi] at hw'
          exact ⟨hi, (Option.some.inj hw').symm⟩
        have hlast : i = h.watches.length := by omega
        exact .new (hinv.count.trans hlast.symm) hafter (hinv.unanswered i (by omega)) _ _
    · intro i hi
      rw [hwatches, List.length_append] at hi
      exact hquiet i (by omega)

theorem WatchInv.new (start : Nat) : WatchInv start [] (.new start) where
  first := by simp [WriterFirst, WatchHub.new]
  count := rfl
  txId := rfl
  ids := rfl
  writer := by simp [WatchHub.new]
  whole := by simp [committedSets]
  standing := by simp [WatchHub.new]
  unanswered := fun _ _ => rfl

/-- A subscription that overflowed answers with what is queued and then with the overflow. -/
theorem drains {h h' : WatchHub} {actions : List WatchAction} {es : List WatchEvent} {i : Nat}
    {w : Watch} (hfirst : WriterFirst h) (hw : h.watches[i]? = some w)
    (hsender : w.sender = false) (hterminal : w.terminal = some .overflow)
    (hrun : h.run actions = some (h', es)) :
    ∃ n, answersTo i es <+: w.queue.map .ok ++ List.replicate n (.error .overflow) := by
  induction actions generalizing h w es with
  | nil =>
    obtain ⟨rfl, rfl⟩ : h = h' ∧ [] = es := by simpa [WatchHub.run, runs] using hrun
    exact ⟨0, by simp [answersTo]⟩
  | cons a actions ih =>
    obtain ⟨t, e, rest, hstep, hrest, rfl⟩ := runs_cons _ hrun
    obtain ⟨w', hw', heffect⟩ := step_watch hfirst hstep hw
    obtain ⟨-, hfirst', -⟩ := step_writer hfirst hstep
    have hsame : w' = w → answerTo i e = none →
        ∃ n, answersTo i (e :: rest) <+: w.queue.map .ok ++
          List.replicate n (.error .overflow) := by
      rintro rfl hanswer
      obtain ⟨n, hn⟩ := ih hfirst' hw' hsender hterminal hrest
      exact ⟨n, by simpa [answersTo, hanswer] using hn⟩
    cases heffect with
    | quiet hanswer hpending => exact hsame rfl hanswer
    | offered set hevent hbefore hafter =>
      have hoffer : w.offer set = w := by simp [Watch.offer, hsender]
      subst hevent
      exact hsame hoffer rfl
    | received set queue hreceiver hqueue hevent hpending =>
      subst hevent
      obtain ⟨n, hn⟩ := ih hfirst' hw' hsender hterminal hrest
      refine ⟨n, ?_⟩
      rw [hqueue]
      simpa [answersTo, answerTo] using hn
    | failed error hreceiver hqueue herror hevent hpending =>
      subst hevent
      obtain ⟨n, hn⟩ := ih hfirst' hw' hsender hterminal hrest
      refine ⟨n + 1, ?_⟩
      have herror : error = .overflow := by
        simpa [hsender, Watch.terminalError, hterminal] using herror
      simpa [answersTo, answerTo, hqueue, List.replicate_succ, herror] using hn
    | closed hevent hpending =>
      subst hevent
      obtain ⟨n, hn⟩ := ih hfirst' hw' hsender hterminal hrest
      refine ⟨n, ?_⟩
      rw [answersTo, List.filterMap_cons_none rfl]
      exact hn

/-- What a subscriber asked for: its capacity and its filter. -/
def asked (w : Watch) : Nat × WatchFilter := (w.capacity, w.filter)

/-- What a step asks for on behalf of a new subscriber; a queue has room for one set at least. -/
def subscribedAs : WatchAction → Option (Nat × WatchFilter)
  | .subscribe capacity filter => some (max capacity 1, filter)
  | _ => none

/-- No subscription changes what it was asked for. -/
theorem WatchStep.asked_eq {h h' : WatchHub} {i : Nat} {w w' : Watch} {e : WatchEvent}
    (hstep : WatchStep h h' i w e w') : asked w' = asked w := by
  cases hstep with
  | quiet | received | failed | closed => rfl
  | offered set =>
    rw [Watch.offer]
    split
    · rfl
    · cases w.filter.select set with
      | none => rfl
      | some set =>
        simp only [Watch.trySend]
        split_ifs <;> rfl

/-- A step adds at most one subscription. -/
theorem step_adds {h h' : WatchHub} {a : WatchAction} {e : WatchEvent}
    (hstep : h.step a = some (h', e)) :
    h'.watches.map asked = h.watches.map asked ++ (subscribedAs a).toList ∨
      subscribedAs a = none ∧ h'.watches.length = h.watches.length := by
  cases a with
  | subscribe capacity filter =>
    left
    simp only [WatchHub.step] at hstep
    split at hstep <;> simp only [Option.some.injEq, Prod.mk.injEq, reduceCtorEq] at hstep
    rw [← hstep.1, List.map_append]
    rfl
  | begin | record | commit | rollback =>
    right
    simp only [WatchHub.step] at hstep
    split at hstep <;> simp only [Option.some.injEq, Prod.mk.injEq, reduceCtorEq] at hstep
    exact ⟨rfl, by rw [← hstep.1]⟩
  | publishNext =>
    right
    simp only [WatchHub.step] at hstep
    split at hstep <;> try simp only [reduceCtorEq] at hstep
    split_ifs at hstep <;> simp only [Option.some.injEq, Prod.mk.injEq] at hstep <;>
      exact ⟨rfl, by simp [← hstep.1]⟩
  | recvEvent j | tryRecvEvent j | unsubscribe j =>
    right
    simp only [WatchHub.step] at hstep
    split at hstep <;> try simp only [reduceCtorEq] at hstep
    split_ifs at hstep
    try split at hstep
    all_goals
      simp only [Option.some.injEq, Prod.mk.injEq, reduceCtorEq] at hstep
      try exact ⟨rfl, by simp [← hstep.1]⟩

/-- Subscriptions stand in the order in which they were made, each as it was asked for. -/
theorem run_asked {h h' : WatchHub} {actions : List WatchAction} {es : List WatchEvent}
    (hfirst : WriterFirst h) (hrun : h.run actions = some (h', es)) :
    h'.watches.map asked = h.watches.map asked ++ actions.filterMap subscribedAs := by
  induction actions generalizing h es with
  | nil =>
    obtain ⟨rfl, rfl⟩ : h = h' ∧ [] = es := by simpa [WatchHub.run, runs] using hrun
    simp
  | cons a actions ih =>
    obtain ⟨t, e, rest, hstep, hrest, rfl⟩ := runs_cons _ hrun
    obtain ⟨-, hfirst', -⟩ := step_writer hfirst hstep
    have hone : t.watches.map asked = h.watches.map asked ++ (subscribedAs a).toList := by
      obtain hadded | ⟨hnone, hlength⟩ := step_adds hstep
      · exact hadded
      · rw [hnone, Option.toList_none, List.append_nil]
        refine List.ext_getElem? fun i => ?_
        rw [List.getElem?_map, List.getElem?_map]
        cases hw : h.watches[i]? with
        | none =>
          have hbeyond : t.watches[i]? = none := by
            rw [List.getElem?_eq_none_iff] at hw ⊢
            omega
          rw [hbeyond]
        | some w =>
          obtain ⟨w', hw', heffect⟩ := step_watch hfirst hstep hw
          rw [hw', Option.map_some, Option.map_some, heffect.asked_eq]
    rw [ih hfirst' hrest, hone, List.append_assoc]
    cases hsub : subscribedAs a <;> simp [hsub]

/-- What a subscriber is owed: the commits since it subscribed, each reduced to the changes that its
filter asks for, and left out when the set is complete and the filter asks for none of it. -/
def owed (es : List WatchEvent) (i : Nat) (w : Watch) : List ChangeSet :=
  share w.filter (committedSince i es)

/-- What the subscription with number `i` has delivered. -/
structure Delivered (es : List WatchEvent) (h : WatchHub) (i : Nat) (w : Watch) : Prop where
  /-- Received sets are a prefix of what is owed. -/
  in_order : receivedBy i es <+: owed es i w
  /-- They come in transaction order, none twice. -/
  increasing : (receivedBy i es).Pairwise fun a b => a.transactionId < b.transactionId
  /-- Each of them is what the filter asks for of one committed transaction. -/
  from_commit : ∀ set ∈ receivedBy i es, ∃ whole ∈ committedSince i es,
    Concerns w.filter whole ∧ set = reduced w.filter whole ∧ CommittedWhole es whole
  /-- While the hub serves the subscription, the rest is queued or about to be offered. -/
  complete : w.sender = true →
    receivedBy i es ++ w.queue ++ share w.filter (pendingFor h i) = owed es i w
  /-- A subscriber who is no longer served missed a set because its queue was full; it drains the
  queue and then sees the overflow. -/
  overflow : w.sender = false → w.receiver = true →
    (∃ lost, lost ≠ [] ∧ receivedBy i es ++ w.queue ++ lost = owed es i w) ∧
    (∃ early, early <+: es ∧
      (receivedBy i es ++ w.queue).length = (receivedBy i early).length + w.capacity) ∧
    ∀ actions h' more, h.run actions = some (h', more) →
      ∃ n, answersTo i more <+: w.queue.map .ok ++ List.replicate n (.error .overflow)
  /-- No other failure is ever seen. -/
  errors : ∀ error, .error error ∈ answersTo i es →
    error = .empty ∨ error = .overflow ∧ w.sender = false

theorem Standing.received_queue {es : List WatchEvent} {h : WatchHub} {i : Nat} {w : Watch}
    (hw : Standing es h i w) : receivedBy i es ++ w.queue <+: owed es i w := by
  obtain ⟨offered, hsince, hserved⟩ := hw.served
  rw [owed, ← filterMap_select, hsince, List.filterMap_append]
  obtain ⟨-, -, hgot⟩ | ⟨-, before, set, after, rfl, -, hgot, -⟩ := hserved
  · rw [hgot]
    exact List.prefix_append _ _
  · rw [hgot, List.filterMap_append, List.append_assoc]
    exact List.prefix_append _ _

/-- In every schedule of transactions, subscriptions and receives, what a subscriber receives is
a prefix of the commits since it subscribed, in transaction order and without duplicates, each
reduced by the filter it subscribed with and left out when nothing of a complete set is selected.
Nothing of a rolled back transaction is received, and who missed a set drains its queue and sees
the overflow. -/
theorem watch_delivery (start : Nat) (actions : List WatchAction) (h : WatchHub)
    (es : List WatchEvent) (hrun : (WatchHub.new start).run actions = some (h, es)) (i : Nat)
    (w : Watch) (hw : h.watches[i]? = some w) :
    (actions.filterMap subscribedAs)[i]? = some (w.capacity, w.filter) ∧ Delivered es h i w := by
  have hinv : WatchInv start es h :=
    runs_invariant WatchHub.step (WatchInv start) (fun _ _ _ _ _ hold hstep => hold.step hstep)
      (.new start) hrun
  have hstanding := hinv.standing i w hw
  have hpre : receivedBy i es <+: owed es i w :=
    (List.prefix_append _ _).trans hstanding.received_queue
  have hsorted : (committedSets es).Pairwise fun a b => a.transactionId < b.transactionId := by
    have hrange := @List.pairwise_lt_range' (start + 1) (committedSets es).length 1
    rw [← hinv.ids, List.pairwise_map] at hrange
    exact hrange
  have howed : (owed es i w).Pairwise fun a b => a.transactionId < b.transactionId := by
    rw [owed, share, List.pairwise_map]
    exact (hsorted.sublist (committedSince_sublist i es)).filter _
  have hasked : (actions.filterMap subscribedAs)[i]? = some (asked w) := by
    have hall := run_asked (WatchInv.new start).first hrun
    rw [WatchHub.new, List.map_nil, List.nil_append] at hall
    rw [← hall, List.getElem?_map, hw, Option.map_some]
  refine ⟨hasked, hpre, howed.sublist hpre.sublist, ?_, ?_, ?_, hstanding.errors⟩
  · intro set hset
    obtain ⟨whole, hwhole, rfl⟩ := List.mem_map.mp (hpre.subset hset)
    obtain ⟨hmem, hconcerns⟩ := List.mem_filter.mp hwhole
    exact ⟨whole, hmem, of_decide_eq_true hconcerns, rfl,
      hinv.whole whole ((committedSince_sublist i es).subset hmem)⟩
  · intro hsender
    obtain ⟨offered, hsince, hserved⟩ := hstanding.served
    obtain ⟨-, -, hgot⟩ | ⟨hgone, -⟩ := hserved
    · rw [owed, ← filterMap_select, ← filterMap_select, hsince, List.filterMap_append, hgot]
    · rw [hsender] at hgone
      cases hgone
  · intro hsender hreceiver
    obtain ⟨offered, hsince, hserved⟩ := hstanding.served
    obtain ⟨hpresent, -⟩ | ⟨-, before, set, after, rfl, hset, hgot, hwhy⟩ := hserved
    · rw [hsender] at hpresent
      cases hpresent
    obtain ⟨hterminal, early, hearly, hlen⟩ | ⟨-, hdropped⟩ := hwhy
    swap
    · rw [hreceiver] at hdropped
      cases hdropped
    refine ⟨⟨(set :: after ++ pendingFor h i).filterMap w.filter.select, ?_, ?_⟩,
      ⟨early, hearly, by rw [hgot, hlen]⟩, fun actions h' more hmore =>
        drains hinv.first hw hsender hterminal hmore⟩
    · obtain ⟨sent, hsent⟩ := Option.isSome_iff_exists.mp hset
      simp [hsent]
    · simp [owed, ← filterMap_select, hsince, hgot]

/-- A subscriber to the bucket `[1]` and to a range of its keys. -/
def narrow : WatchFilter := ⟨some [[1]], none, some ([2], [5]), []⟩

/-- It has room for one set.  The first commit concerns it in part, the second not at all; between
them a transaction is rolled back, and the third commit finds the queue full. -/
def overflowSchedule : List WatchAction :=
  [.subscribe 1 narrow, .begin, .record [[1]] [2] .put, .record [[1]] [9] .put,
    .record [[6]] [2] .put, .commit, .publishNext, .publishNext,
    .begin, .record [[1]] [3] .put, .rollback,
    .begin, .record [[1]] [9] .delete, .commit, .publishNext, .publishNext,
    .begin, .record [[1]] [4] .delete, .commit, .publishNext, .publishNext,
    .tryRecvEvent 0, .recvEvent 0]

/-- What the first commit publishes. -/
def firstSet : ChangeSet :=
  ⟨1, [⟨[[1]], [2], .put⟩, ⟨[[1]], [9], .put⟩, ⟨[[6]], [2], .put⟩], false⟩

/-- What the second commit publishes. -/
def secondSet : ChangeSet := ⟨2, [⟨[[1]], [9], .delete⟩], false⟩

/-- What the third commit publishes. -/
def thirdSet : ChangeSet := ⟨3, [⟨[[1]], [4], .delete⟩], false⟩

/-- The history of that schedule. -/
def overflowEvents : List WatchEvent :=
  [.subscribed, .begun, .recorded [[1]] [2] .put, .recorded [[1]] [9] .put,
    .recorded [[6]] [2] .put, .committed firstSet, .offered, .offered,
    .begun, .recorded [[1]] [3] .put, .rolledBack,
    .begun, .recorded [[1]] [9] .delete, .committed secondSet, .offered, .offered,
    .begun, .recorded [[1]] [4] .delete, .committed thirdSet, .offered, .offered,
    .answered 0 (.ok ⟨1, [⟨[[1]], [2], .put⟩], false⟩), .answered 0 (.error .overflow)]

/-- The subscription afterwards. -/
def overflowed : Watch := ⟨narrow, 1, [], some .overflow, false, true⟩

theorem watch_delivery_overflow :
    (WatchHub.new 0).run overflowSchedule =
      some (⟨3, none, none, [overflowed]⟩, overflowEvents) ∧
    receivedBy 0 overflowEvents = [⟨1, [⟨[[1]], [2], .put⟩], false⟩] ∧
    owed overflowEvents 0 overflowed = [⟨1, [⟨[[1]], [2], .put⟩], false⟩, thirdSet] ∧
    Delivered overflowEvents ⟨3, none, none, [overflowed]⟩ 0 overflowed := by
  have hrun : (WatchHub.new 0).run overflowSchedule =
      some (⟨3, none, none, [overflowed]⟩, overflowEvents) := by decide +kernel
  exact ⟨hrun, by decide +kernel, by decide +kernel, (watch_delivery 0 _ _ _ hrun 0 _ rfl).2⟩

end Tagdata.Analysis
