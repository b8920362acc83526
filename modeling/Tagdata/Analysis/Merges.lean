import Tagdata.Analysis.MergeUnion

/-!
# Every merge

The loop of `merge_bucket` by induction over the source, with one lemma for each kind of entry: it
ends with the union of both sides, or, under the policy `Error`, at a conflict.
-/

set_option autoImplicit false

namespace Tagdata.Analysis

open Tagdata.Library Tagdata.Model Tagdata.Interface

/-- A run ends with a result that has the property, or, under the policy `Error`, at a conflict. -/
def Concludes {α : Type} (policy : MergeConflictPolicy) (post : Dir → Prop) (r : Except Error α)
    (d' : Dir) : Prop :=
  (∃ report, r = .ok report ∧ post d') ∨ (policy = .error ∧ ∃ p, r = .error (.mergeConflict p))

section Loop

variable {seen : Dir → List Data → Prop}

theorem Concludes.imp {α : Type} {policy : MergeConflictPolicy} {post post' : Dir → Prop}
    {r : Except Error α} {d' : Dir} (h : Concludes policy post r d')
    (himp : ∀ d, post d → post' d) : Concludes policy post' r d' :=
  Or.imp (fun ⟨report, hr, hpost⟩ => ⟨report, hr, himp d' hpost⟩) id h

/-- A conflict ends the rest of a run, too. -/
theorem wp_concludes {α β : Type} {policy : MergeConflictPolicy} {p : Program α}
    {f : α → Program β} {d : Dir} {middle post : Dir → Prop}
    (hp : Prog.wp (Dir.serve seen) p d (Concludes policy middle))
    (hf : ∀ a d₁, middle d₁ → Prog.wp (Dir.serve seen) (f a) d₁ (Concludes policy post)) :
    Prog.wp (Dir.serve seen) (p >>= f) d (Concludes policy post) := by
  apply Prog.wp_seq hp
  · rintro a d₁ (⟨_, -, hmiddle⟩ | ⟨-, _, hfailed⟩)
    · exact hf a d₁ hmiddle
    · cases hfailed
  · rintro e d₁ (⟨_, hok, -⟩ | ⟨hpolicy, p, hfailed⟩)
    · cases hok
    · exact .inr ⟨hpolicy, p, congrArg _ (Except.error.inj hfailed)⟩

/-- The lookup bucket of the source, and whether there are expirations to manage. -/
theorem mergeStart_spec {s : Contents} {d : Dir} (hs : SourceSound s) (hd : Sound d) :
    Prog.wp (Dir.serve seen) (Program.mergeStart s) d fun r d' => d' = d ∧
      ∃ e manage, r = .ok (e, manage) ∧
        (∀ k, Contents.expirationIn e k = .ok (sourceExpirations s k)) ∧
        (manage = false → ∀ k, sourceExpirations s k = none ∧ expirationsOf d k = none) := by
  cases hs with
  | mk _ values eight _ =>
    unfold Program.mergeStart Contents.expirationBucket
    rcases hfind : s.find ttlBucket with - | v | e
    · have hnone : ∀ k, sourceExpirations s k = none := by
        intro k
        simp [sourceExpirations, hfind]
      simp only [Prog.wp_bind, Prog.wp_ofExcept, Prog.andThen_ok, Option.isSome_none,
        Bool.false_eq_true, if_false]
      apply Prog.wp_mono hd.expires.expirationBucket
      rintro r d' ⟨rfl, present, rfl, hpresent⟩
      refine ⟨rfl, none, present, rfl, fun k => ?_, fun hm k => ⟨hnone k, hpresent hm k⟩⟩
      rw [hnone k]
      rfl
    · exact absurd (.inl rfl) (values ttlBucket (mem_valueKeys hfind))
    · simp only [Prog.wp_bind, Prog.wp_ofExcept, Prog.andThen_ok, Option.isSome_some, if_true,
        Prog.wp_pure, true_and]
      refine ⟨some e, true, rfl, fun k => ?_, fun hm => by cases hm⟩
      rcases hk : e.find k with - | b | i
      · simp [Contents.expirationIn, sourceExpirations, hfind, hk]
      · simp [Contents.expirationIn, sourceExpirations, hfind, hk, decodeExpiration,
          eight e k b hfind hk, Except.map]
      · simp [Contents.expirationIn, sourceExpirations, hfind, hk]

theorem Sound.raise {d : Dir} (h : Sound d) (nextInt : Nat) : Sound (d.raise nextInt) := by
  have hexp : expirationsOf (d.raise nextInt) = expirationsOf d := expirationsOf_congr rfl
  refine .mk ?_ fun name c hname hc => h.inner hname hc
  rw [hexp]
  exact h.expires.congr rfl rfl

/-- The source has been merged, and the destination is sound. -/
def Union (policy : MergeConflictPolicy) (exps : Expirations) (s : Contents) (d d' : Dir) : Prop :=
  Merged policy exps s d d' ∧ Sound d'

theorem Sound.union_done {d : Dir} (h : Sound d) (policy : MergeConflictPolicy)
    (exps : Expirations) (nextInt : Nat) :
    Union policy exps (.done nextInt) d (d.raise nextInt) := by
  have hsound := h.raise nextInt
  refine ⟨.mk (fun _ => Dir.empty) hsound.expires (fun k => ⟨?_, fun _ => rfl⟩) ?_, hsound⟩
  · rw [expirationsOf_congr]
    rfl
  · intro name i c _ hs
    cases hs

/-- The bucket to merge into is sound. -/
theorem Sound.ofTarget {d c : Dir} {policy : MergeConflictPolicy} {name : Bytes} (h : Sound d)
    (hname : ¬ Reserved name) (hc : target policy (d.entries name) = some c) : Sound c := by
  rcases hd : d.entries name with - | w | c'
  · rw [hd] at hc
    obtain rfl := Option.some.inj hc
    exact .empty
  · rw [hd, target] at hc
    split at hc
    · cases hc
    · obtain rfl := Option.some.inj hc
      exact .empty
  · rw [hd] at hc
    obtain rfl := Option.some.inj hc
    exact h.inner hname hd

/-! ### One entry of the source -/

section Entry

variable {policy : MergeConflictPolicy} {exps : Expirations} {key : Bytes} {d : Dir}

/-- One key was merged, and all others stayed. -/
structure KeyStep (policy : MergeConflictPolicy) (exps : Expirations) (key : Bytes) (x : Content)
    (d d₁ : Dir) : Prop where
  sound : Sound d₁
  elsewhere : Elsewhere key d d₁
  result : ∃ c', KeyResult policy exps (some x) d d₁ key c' ∧
    ∀ i c, ¬ Reserved key → x = .bucket i → target policy (d.entries key) = some c →
      Merged policy (sourceExpirations i) i c c'

/-- Where neither side has expirations there are none afterwards. -/
theorem KeyStep.unmanaged {x : Content} {d₁ : Dir} (h : KeyStep policy exps key x d d₁)
    (hnone : ∀ k, exps k = none ∧ expirationsOf d k = none) (k : Bytes) :
    exps k = none ∧ expirationsOf d₁ k = none := by
  refine ⟨(hnone k).1, ?_⟩
  by_cases hk : k = key
  · subst hk
    obtain ⟨c', hresult, -⟩ := h.result
    cases x with
    | value v =>
      rw [hresult.1, (hnone k).1, (hnone k).2]
      unfold mergedExpiration
      split <;> rfl
    | bucket i => rw [hresult.1, (hnone k).2]
  · rw [h.elsewhere.expirations k hk, (hnone k).2]

/-- After a step the rest of the source is merged. -/
theorem KeyStep.union {x : Content} {rest s : Contents} {d₁ d' : Dir}
    (h : KeyStep policy exps key x d d₁) (hs : Mergeable s) (hprep : Prepends key x rest s)
    (hrest : Union policy exps rest d₁ d') : Union policy exps s d d' := by
  obtain ⟨c', hresult, hbelow⟩ := h.result
  exact ⟨hrest.1.cons hs hprep h.elsewhere hresult hbelow, hrest.2⟩

/-- A source value. -/
theorem Sound.mergeValue (hd : Sound d) (hkey : ¬ Reserved key) {e : Option Contents}
    (hexp : Contents.expirationIn e key = .ok (exps key)) {manage : Bool}
    (hmanage : manage = false → expirationsOf d key = none) (path : List Bytes) (v : Bytes)
    (report : MergeReport) :
    Prog.wp (Dir.serve seen) (Program.mergeKeyValue policy e manage path key v report) d
      (Concludes policy (KeyStep policy exps key (.value v) d)) := by
  apply Prog.wp_mono (hd.expires.mergeKeyValue hexp (expirationIn_lt hexp)
    (fun hm _ => hmanage hm) hkey policy path v report rfl)
  rintro r d₁ ⟨hr, hstep⟩
  split at hr
  · rename_i hconflict
    exact .inr ⟨resolution_conflict hconflict, _, hr⟩
  · obtain ⟨report₁, rfl⟩ := hr
    have hentry := hstep.entries key hkey
    rw [Function.update_self] at hentry
    refine .inl ⟨report₁, rfl, ?_, hstep.elsewhere, .empty, ⟨?_, hentry⟩,
      fun i c _ hx => by cases hx⟩
    · refine hd.step hstep.elsewhere hstep.expires.of_eq fun c hc => ?_
      rw [hentry] at hc
      unfold mergedEntry at hc
      split at hc
      · cases hc
      · cases hc
      · exact hd.inner hkey hc
      · exact hd.inner hkey hc
    · rw [← hstep.expires.eq_expirationsOf, Function.update_self]
      rfl

/-- A source bucket with a reserved name. -/
theorem Sound.skipReserved (hd : Sound d) (hkey : Reserved key) (i : Contents) :
    KeyStep policy exps key (.bucket i) d d :=
  ⟨hd, .refl key d, .empty, ⟨rfl, fun h => absurd hkey h⟩, fun _ _ h => absurd hkey h⟩

/-- A source bucket over an entry that is kept. -/
theorem Sound.keepEntry (hd : Sound d) (htarget : target policy (d.entries key) = none)
    (i : Contents) : KeyStep policy exps key (.bucket i) d d := by
  refine ⟨hd, .refl key d, .empty, ⟨rfl, fun _ => ?_⟩, fun j c _ _ hc => ?_⟩
  · rw [htarget]
    rfl
  · rw [htarget] at hc
    cases hc

/-- A source bucket that was merged into the bucket at its name. -/
theorem Sound.mergeInto {d₁ c c' : Dir} {i : Contents} (hd : Sound d) (hkey : ¬ Reserved key)
    (htarget : target policy (d.entries key) = some c) (hwrites : Writes key (.bucket c) d d₁)
    (h : Union policy (sourceExpirations i) i c c') :
    KeyStep policy exps key (.bucket i) d (d₁.set key (some (.bucket c'))) := by
  obtain ⟨helse, hexps⟩ := hwrites.elsewhere hkey (some (.bucket c'))
  refine ⟨hd.step helse ?_ fun c₂ hc₂ => ?_, helse, c', ⟨congrFun hexps key, fun _ => ?_⟩, ?_⟩
  · rw [hexps]
    exact (hwrites.expires hd.expires hkey).set hkey _
  · rw [Dir.set_entries_self] at hc₂
    obtain rfl := Entry.bucket.inj (Option.some.inj hc₂)
    exact h.2
  · rw [Dir.set_entries_self, htarget]
    rfl
  · rintro j c₂ - hj hc₂
    obtain rfl := Content.bucket.inj hj
    obtain rfl := Option.some.inj (htarget.symm.trans hc₂)
    exact h.1

/-- A source bucket, given what the merge of the inner bucket does. -/
theorem Sound.mergeNested (hd : Sound d) (hkey : ¬ Reserved key) {i : Contents}
    (path : List Bytes) (report : MergeReport)
    (hinner : ∀ report c, Sound c → Prog.wp (Dir.serve seen)
      (Program.mergeBucket policy (path ++ [key]) i report) c
      (Concludes policy (Union policy (sourceExpirations i) i c)))
    {f : MergeReport → Program MergeReport} {post : Dir → Prop}
    (hf : ∀ report d₁, KeyStep policy exps key (.bucket i) d d₁ →
      Prog.wp (Dir.serve seen) (f report) d₁ (Concludes policy post)) :
    Prog.wp (Dir.serve seen) (do
      let (merge, report) ← Program.mergeTarget policy path key report
      let report ←
        if merge then Program.inside key (Program.mergeBucket policy (path ++ [key]) i report)
        else pure report
      f report) d (Concludes policy post) := by
  rw [Prog.wp_bind]
  apply Prog.wp_mono (mergeTarget_spec policy path key report d)
  intro r d₁ htarget
  split at htarget
  · rename_i hconflict
    obtain ⟨rfl, rfl⟩ := htarget
    refine .inr ⟨?_, _, rfl⟩
    unfold bucketConflict at hconflict
    split at hconflict
    · simpa using hconflict
    · cases hconflict
  split at htarget
  · rename_i hnone
    obtain ⟨⟨report₁, rfl⟩, rfl⟩ := htarget
    exact hf report₁ d₁ (hd.keepEntry hnone i)
  · rename_i c hsome
    obtain ⟨⟨report₁, rfl⟩, hwrites⟩ := htarget
    have hbucket : d₁.entries key = some (.bucket c) := by
      rw [hwrites.entries, Function.update_self]
    simp only [Prog.andThen_ok, if_true, Prog.wp_bind]
    rw [wp_inside hbucket]
    apply Prog.wp_mono (hinner report₁ c (hd.ofTarget hkey hsome))
    rintro r c' (⟨report₂, rfl, hunion⟩ | ⟨hpolicy, p, rfl⟩)
    · exact hf report₂ _ (hd.mergeInto hkey hsome hwrites hunion)
    · exact .inr ⟨hpolicy, p, rfl⟩

end Entry

/-- `merge_bucket`, given what its loop does. -/
theorem Sound.mergeBucket {policy : MergeConflictPolicy} {s : Contents} {d : Dir}
    {path : List Bytes} {report : MergeReport} (hd : Sound d) (hs : SourceSound s)
    (hloop : ∀ e manage, (∀ k, Contents.expirationIn e k = .ok (sourceExpirations s k)) →
      (manage = false → ∀ k, sourceExpirations s k = none ∧ expirationsOf d k = none) →
      Prog.wp (Dir.serve seen) (Program.mergeEntries policy e manage path s report) d
        (Concludes policy (Union policy (sourceExpirations s) s d))) :
    Prog.wp (Dir.serve seen) (Program.mergeBucket policy path s report) d
      (Concludes policy (Union policy (sourceExpirations s) s d)) := by
  unfold Program.mergeBucket
  apply Prog.wp_seq (mergeStart_spec hs hd)
  · rintro ⟨e, manage⟩ d₁ ⟨rfl, _, _, heq, hexp, hmanage⟩
    obtain ⟨rfl, rfl⟩ := Prod.mk.inj (Except.ok.inj heq)
    exact hloop e manage hexp hmanage
  · rintro error d₁ ⟨-, _, _, heq, -⟩
    cases heq

/-- The loop of `merge_bucket`. -/
theorem mergeEntries_spec (policy : MergeConflictPolicy) {s : Contents} (hs : Mergeable s)
    {e : Option Contents} {exps : Expirations}
    (hexp : ∀ k, Contents.expirationIn e k = .ok (exps k)) {d : Dir} {manage : Bool}
    (hmanage : manage = false → ∀ k, exps k = none ∧ expirationsOf d k = none) (hd : Sound d)
    (path : List Bytes) (report : MergeReport) :
    Prog.wp (Dir.serve seen) (Program.mergeEntries policy e manage path s report) d
      (Concludes policy (Union policy exps s d)) := by
  induction s generalizing e exps d manage path report with
  | done nextInt =>
    simp only [Program.mergeEntries, Prog.wp_bind, wp_mergeNextInt, Prog.andThen_ok, Prog.wp_pure]
    exact .inl ⟨report, rfl, hd.union_done policy exps nextInt⟩
  | value key v rest ih =>
    have hprep := prepends_value key v rest
    simp only [Program.mergeEntries]
    apply wp_concludes (hd.mergeValue (hs.values key v hprep.self) (hexp key)
      (fun hm => (hmanage hm key).2) path v report)
    intro report₁ d₁ hstep
    apply Prog.wp_mono (ih (hprep.mergeable hs) hexp (fun hm => hstep.unmanaged (hmanage hm))
      hstep.sound path report₁)
    exact fun r d' h => h.imp fun _ => hstep.union hs hprep
  | bucket name i rest ihinner ih =>
    have hprep := prepends_bucket name i rest
    have hrest : ∀ report d₁, KeyStep policy exps name (.bucket i) d d₁ →
        Prog.wp (Dir.serve seen) (Program.mergeEntries policy e manage path rest report) d₁
          (Concludes policy (Union policy exps (.bucket name i rest) d)) := by
      intro report d₁ hstep
      apply Prog.wp_mono (ih (hprep.mergeable hs) hexp (fun hm => hstep.unmanaged (hmanage hm))
        hstep.sound path report)
      exact fun r d' h => h.imp fun _ => hstep.union hs hprep
    simp only [Program.mergeEntries]
    cases hname : isTtlBucket name with
    | true =>
      have hreserved : Reserved name := by simpa [isTtlBucket, Reserved] using hname
      exact hrest report d (hd.skipReserved hreserved i)
    | false =>
      have hi := hs.inner name i (not_reserved hname) hprep.self
      simp only [Bool.false_eq_true, if_false]
      refine hd.mergeNested (not_reserved hname) path report (fun report₁ c hc => ?_) hrest
      exact hc.mergeBucket hi fun e' manage' hexp' hmanage' =>
        ihinner hi.mergeable hexp' hmanage' hc (path ++ [name]) report₁

/-- `merge_bucket`. -/
theorem mergeBucket_spec (policy : MergeConflictPolicy) {s : Contents} {d : Dir}
    (hs : SourceSound s) (hd : Sound d) (path : List Bytes) (report : MergeReport) :
    Prog.wp (Dir.serve seen) (Program.mergeBucket policy path s report) d
      (Concludes policy (Union policy (sourceExpirations s) s d)) :=
  hd.mergeBucket hs fun _ _ hexp hmanage =>
    mergeEntries_spec policy hs.mergeable hexp hmanage hd path report

end Loop

/-! ## Whole databases -/

/-- The root of a source: its buckets but the journal. -/
structure RootSource (s : Contents) : Prop where
  sorted : s.keys.Pairwise (· < ·)
  inner : ∀ name i, name ≠ journalBucket → s.find name = some (.bucket i) → SourceSound i

/-- The root of a destination: it holds buckets only. -/
def RootSound (d : Dir) : Prop :=
  ∀ name e, name ≠ journalBucket → d.entries name = some e → ∃ c, e = .bucket c ∧ Sound c

/-- The root bucket of a name, or an empty one. -/
def rootBucket (d : Dir) (name : Bytes) : Dir :=
  match d.entries name with
  | some (.bucket c) => c
  | _ => Dir.empty

/-- The root `d` became `d'`. -/
structure RootMerged (policy : MergeConflictPolicy) (s : Contents) (d d' : Dir) : Prop where
  others : ∀ k, (k = journalBucket ∨ ∀ i, s.find k ≠ some (.bucket i)) →
    d'.entries k = d.entries k
  merged : ∀ name i, name ≠ journalBucket → s.find name = some (.bucket i) →
    ∃ c', d'.entries name = some (.bucket c') ∧
      Merged policy (sourceExpirations i) i (rootBucket d name) c'

section Root

variable {seen : Dir → List Data → Prop} {policy : MergeConflictPolicy} {name : Bytes}
  {x : Content} {i rest s : Contents} {d d₁ d' : Dir}

theorem Prepends.rootSource (h : Prepends name x rest s) (hs : RootSource s) : RootSource rest :=
  ⟨h.sorted hs.sorted, fun n i hn hi => hs.inner n i hn (h.find_rest hs.sorted hi)⟩

/-- An entry that the loop passes over: the journal, or a value. -/
theorem RootMerged.skip (hs : s.keys.Pairwise (· < ·)) (hprep : Prepends name x rest s)
    (hskip : name = journalBucket ∨ ∃ v, x = .value v) (h : RootMerged policy rest d d') :
    RootMerged policy s d d' := by
  refine ⟨fun k hk => h.others k ?_, fun n i hn hi => h.merged n i hn ?_⟩
  · exact hk.imp_right fun hk i hi => hk i (hprep.find_rest hs hi)
  · rw [← hprep.others n, hi]
    rintro rfl
    obtain hj | ⟨v, rfl⟩ := hskip
    · exact hn hj
    · rw [hprep.self] at hi
      cases hi

/-- A root bucket was merged, and the rest after it. -/
theorem RootMerged.cons {c' : Dir} (hs : s.keys.Pairwise (· < ·))
    (hprep : Prepends name (.bucket i) rest s) (hname : name ≠ journalBucket)
    (helse : ∀ k, k ≠ name → d₁.entries k = d.entries k)
    (hc' : d₁.entries name = some (.bucket c'))
    (hmerged : Merged policy (sourceExpirations i) i (rootBucket d name) c')
    (h : RootMerged policy rest d₁ d') : RootMerged policy s d d' := by
  refine ⟨fun k hk => ?_, fun n j hn hj => ?_⟩
  · have hne : k ≠ name := by
      rintro rfl
      exact hk.elim hname fun hk => hk i hprep.self
    rw [h.others k (hk.imp_right fun hk j hj => hk j (hprep.find_rest hs hj)), helse k hne]
  · by_cases heq : n = name
    · subst heq
      obtain rfl := Content.bucket.inj (Option.some.inj (hprep.self.symm.trans hj))
      refine ⟨c', ?_, hmerged⟩
      rw [h.others n (.inr fun j hj => by simp [hprep.find_self hs] at hj), hc']
    · obtain ⟨c₂, hc₂, hm⟩ := h.merged n j hn ((hprep.others n heq).symm.trans hj)
      refine ⟨c₂, hc₂, ?_⟩
      rwa [rootBucket, helse n heq] at hm

/-- The first part of a round of `merge_transactions`: the root bucket is there afterwards. -/
theorem mergeRoot_spec (hd : RootSound d) (hname : name ≠ journalBucket) (report : MergeReport) :
    Prog.wp (Dir.serve seen) (Program.mergeRoot name report) d fun r d₁ =>
        (∃ report, r = .ok report) ∧ Writes name (.bucket (rootBucket d name)) d d₁ ∧
          Sound (rootBucket d name) := by
  unfold Program.mergeRoot
  rcases hentry : d.entries name with - | e
  · have hroot : rootBucket d name = Dir.empty := by
      simp [rootBucket, hentry]
    simp only [Prog.wp_bind, wp_attempt, Prog.andThen_ok, wp_perform, Prog.wp_pure, Dir.run,
      hentry, hroot]
    exact ⟨⟨_, rfl⟩, .insert name _ d, .empty⟩
  · obtain ⟨c, rfl, hc⟩ := hd name e hname hentry
    have hget : Dir.run (.getBucket name) d = (.ok .unit, d) := by
      simp [Dir.run, hentry]
    have hroot : rootBucket d name = c := by
      simp [rootBucket, hentry]
    simp only [Prog.wp_bind, wp_attempt, hget, Prog.andThen_ok, Prog.wp_pure, hroot]
    refine ⟨⟨_, rfl⟩, ⟨?_⟩, hc⟩
    rw [← hentry, Function.update_eq_self]

/-- `merge_transactions`. -/
theorem mergeTransactions_spec (policy : MergeConflictPolicy) {s : Contents} (hs : RootSource s)
    {d : Dir} (hd : RootSound d) (report : MergeReport) :
    Prog.wp (Dir.serve seen) (Program.mergeTransactions policy s report) d
      (Concludes policy (RootMerged policy s d)) := by
  induction s generalizing d report with
  | done n => exact .inl ⟨report, rfl, fun k _ => rfl, fun name i _ hs => by cases hs⟩
  | value key v rest ih =>
    have hprep := prepends_value key v rest
    apply Prog.wp_mono (ih (hprep.rootSource hs) hd report)
    exact fun r d' h => h.imp fun _ => .skip hs.sorted hprep (.inr ⟨v, rfl⟩)
  | bucket name i rest _ ih =>
    have hprep := prepends_bucket name i rest
    by_cases hname : name = journalBucket
    · simp only [Program.mergeTransactions, if_pos hname]
      apply Prog.wp_mono (ih (hprep.rootSource hs) hd report)
      exact fun r d' h => h.imp fun _ => .skip hs.sorted hprep (.inl hname)
    · simp only [Program.mergeTransactions, hname, if_false]
      apply Prog.wp_seq (mergeRoot_spec hd hname report)
      rotate_left
      · rintro e d₁ ⟨⟨_, hr⟩, -⟩
        cases hr
      rintro report₁ d₁ ⟨-, hwrites, hsound⟩
      have hbucket : d₁.entries name = some (.bucket (rootBucket d name)) := by
        rw [hwrites.entries, Function.update_self]
      rw [Prog.wp_bind, wp_inside hbucket]
      apply Prog.wp_mono
        (mergeBucket_spec policy (hs.inner name i hname hprep.self) hsound [name] report₁)
      rintro r c' (⟨report₂, rfl, hmerged, hsound'⟩ | ⟨hpolicy, p, rfl⟩)
      · have helse : ∀ k, k ≠ name → (d₁.set name (some (.bucket c'))).entries k = d.entries k := by
          intro k hk
          rw [Dir.set_entries_ne _ hk, hwrites.entries, Function.update_of_ne hk]
        have hd₂ : RootSound (d₁.set name (some (.bucket c'))) := by
          intro n e hn he
          by_cases heq : n = name
          · subst heq
            rw [Dir.set_entries_self] at he
            exact ⟨c', (Option.some.inj he).symm, hsound'⟩
          · rw [helse n heq] at he
            exact hd n e hn he
        rw [Prog.andThen_ok]
        apply Prog.wp_mono (ih (hprep.rootSource hs) hd₂ report₂)
        exact fun r d' h => h.imp fun _ =>
          .cons hs.sorted hprep hname helse (Dir.set_entries_self _ _ _) hmerged
      · exact .inr ⟨hpolicy, p, rfl⟩

end Root

/-- `merge_transactions` on two databases: a merge that returns leaves its changes to the commit
of the destination, one that fails is rolled back. -/
def MergeFrom (policy : MergeConflictPolicy) (source : Contents) (destination : Dir)
    (r : Except Error MergeReport) (destination' : Dir) : Prop :=
  ∃ d', Prog.Ends (Dir.serve Shows) (Program.mergeTransactions policy source .default)
      destination r d' ∧
    destination' = match r with
      | .ok _ => d'
      | .error _ => destination

theorem mergeFrom_outcome {policy : MergeConflictPolicy} {source : Contents} {d d' : Dir}
    {r : Except Error MergeReport} (hsource : RootSource source) (hd : RootSound d)
    (h : MergeFrom policy source d r d') : Concludes policy (RootMerged policy source d) r d' := by
  obtain ⟨d₁, hends, rfl⟩ := h
  obtain ⟨report, rfl, hmerged⟩ | ⟨hpolicy, p, rfl⟩ :=
    Prog.wp_iff_ends.mp (mergeTransactions_spec policy hsource hd .default) r d₁ hends
  · exact .inl ⟨report, rfl, hmerged⟩
  · exact .inr ⟨hpolicy, p, rfl⟩

theorem exists_mergeFrom (policy : MergeConflictPolicy) (source : Contents) (d : Dir) :
    ∃ r d', MergeFrom policy source d r d' := by
  obtain ⟨r, d', hends⟩ :=
    Prog.exists_ends serve_total (Program.mergeTransactions policy source .default) d
  exact ⟨r, _, d', hends, rfl⟩

end Tagdata.Analysis
