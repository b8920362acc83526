import Tagdata.Analysis.Merges

/-!
# Expirations after a merge

The expiration of a value follows the value.  The lookup entry of a name that becomes a nested
bucket is left in place, so a merge is clean exactly when there was no such entry.
-/

set_option autoImplicit false

namespace Tagdata.Analysis

open Tagdata.Library Tagdata.Model Tagdata.Interface

/-- Neither index mentions a name. -/
def Unindexed (d : Dir) (name : Bytes) : Prop :=
  lookupOf d name = none ∧
  ∀ D : Dir, d.entries ttlDeadlinesBucket = some (.bucket D) →
    ∀ t, D.entries (deadlineKey t name) = none

/-- `purge_expired` returns, whatever the time and the limit. -/
def Purges (d : Dir) : Prop :=
  ∀ (time : SystemTime) (limit now : Nat), epochMillis time = .ok now →
    Prog.wp (Dir.serve Shows) (Program.purgeExpired time limit) d fun r _ => ∃ n, r = .ok n

/-- The expirations of a merged bucket, and of those merged below it. -/
inductive TtlFollows (policy : MergeConflictPolicy) : Contents → Dir → Dir → Prop
  | mk {s : Contents} {d d' : Dir} (inner : Bytes → Dir)
      (source : ∀ k v, s.find k = some (.value v) → d.entries k = none ∨ policy = .overwrite →
        expirationsOf d' k = sourceExpirations s k)
      (retained : ∀ k w, ¬ Reserved k → d.entries k = some (.value w) →
        d'.entries k = some (.value w) →
        policy ≠ .overwrite ∨ (∀ v, s.find k ≠ some (.value v)) →
        expirationsOf d' k = expirationsOf d k)
      (buckets : ∀ name c, d'.entries name = some (.bucket c) → Unindexed d' name)
      (purges : Purges d')
      (merged : ∀ name i c, ¬ Reserved name → s.find name = some (.bucket i) →
        target policy (d.entries name) = some c → d'.entries name = some (.bucket (inner name)))
      (follows : ∀ name i c, ¬ Reserved name → s.find name = some (.bucket i) →
        target policy (d.entries name) = some c → TtlFollows policy i c (inner name)) :
      TtlFollows policy s d d'

/-- The name is a nested bucket after the merge. -/
def BucketAfter (policy : MergeConflictPolicy) (s : Contents) (d : Dir) (name : Bytes) : Prop :=
  match s.find name with
  | none => ∃ c, d.entries name = some (.bucket c)
  | some (.value _) => policy ≠ .overwrite ∧ ∃ c, d.entries name = some (.bucket c)
  | some (.bucket _) => ∃ c, target policy (d.entries name) = some c

/-- No name that will be a nested bucket expires, in the destination before the merge. -/
inductive NoStale (policy : MergeConflictPolicy) : Contents → Dir → Prop
  | mk {s : Contents} {d : Dir}
      (unset : ∀ name, Reserved name ∨ BucketAfter policy s d name → expirationsOf d name = none)
      (inner : ∀ name i c, ¬ Reserved name → s.find name = some (.bucket i) →
        target policy (d.entries name) = some c → NoStale policy i c) :
      NoStale policy s d

/-! ## Indexes and nested buckets -/

theorem Expires.unindexed {m : Expirations} {d : Dir} (h : Expires m d) {name : Bytes} :
    Unindexed d name ↔ m name = none := by
  constructor
  · intro hun
    have hnone := hun.1
    rw [h.lookupOf] at hnone
    exact Option.map_eq_none_iff.mp hnone
  · intro hname
    refine ⟨by rw [h.lookupOf, hname]; rfl, fun D hD t => ?_⟩
    obtain ⟨-, -, hnone⟩ | ⟨L, D', -, hD', hindexes⟩ := h
    · rw [hnone] at hD
      cases hD
    · obtain rfl : D' = D := by simpa [hD'] using hD
      simp [hindexes.deadlines, deadlineEntries, drop_deadlineKey, hname]

/-- When no nested bucket expires, a purge returns. -/
theorem Expires.purges {m : Expirations} {d : Dir} (h : Expires m d)
    (hclean : ∀ name c, d.entries name = some (.bucket c) → m name = none) : Purges d := by
  intro time limit now hnow
  apply Prog.wp_mono (h.purgeExpired (fun _ _ hl => hl) time limit)
  rintro r d' ⟨-, hok⟩
  refine hok (fun k t hk c hc => ?_) now hnow
  rw [hclean k c hc] at hk
  cases hk

/-- A nested bucket that expires makes a purge fail. -/
theorem Expires.purge_fails {m : Expirations} {d c : Dir} (h : Expires m d) {k : Bytes} {t : Nat}
    (hk : m k = some t) (hc : d.entries k = some (.bucket c)) {time : SystemTime} {now : Nat}
    (hnow : epochMillis time = .ok now) (hdue : t ≤ now) :
    ∃ d', Prog.Ends (Dir.serve Shows) (Program.purgeExpired time 1) d
      (.error .incompatibleValue) d' := by
  by_contra hnever
  have hwp : Prog.wp (Dir.serve Shows) (Program.purgeExpired time 1) d fun r _ =>
      r ≠ .error .incompatibleValue := by
    rw [Prog.wp_iff_ends]
    rintro r d' hends rfl
    exact hnever ⟨d', hends⟩
  obtain ⟨rfl, -, -⟩ | ⟨L, D, hL, hD, hindexes⟩ := h
  · cases hk
  have ht := hindexes.bounded k t hk
  have hget : Dir.run (.getBucket ttlBucket) d = (.ok .unit, d) := by
    simp [Dir.run, hL]
  have hindex : Dir.run (.getBucket ttlDeadlinesBucket) d = (.ok .unit, d) := by
    simp [Dir.run, hD]
  -- The scan of the deadline bucket may show the deadline of this key first.
  obtain ⟨l, hshows, htake⟩ : ∃ l, Shows D l ∧
      Program.takeExpired now 1 (l.filterMap Data.kvPair) = .ok [(deadlineKey t k, k)] := by
    refine ⟨[.keyValue (deadlineKey t k) []], ⟨by simp, fun x hx =>
      ⟨deadlineKey t k, .value [], ?_, List.mem_singleton.mp hx⟩⟩, ?_⟩
    · simp [hindexes.deadlines, deadlineEntries, drop_deadlineKey, take_deadlineKey,
        length_deadlineKey, ofBeBytes_eight ht, hk]
    · simp [Data.kvPair, Program.takeExpired, decodeDeadlineKey_deadlineKey ht,
        Nat.not_lt.mpr hdue]
  unfold Program.purgeExpired Program.openIndexes Program.purgeDue at hwp
  simp only [Nat.one_ne_zero, if_false, Prog.wp_bind, Prog.wp_ofExcept, hnow, Prog.andThen_ok,
    wp_attempt, hget, Program.deadlineIndex, hindex, Prog.wp_pure, if_true] at hwp
  rw [wp_inside hD, Program.kvPairs, Prog.wp_bind, wp_items] at hwp
  have hrun := hwp l hshows
  simp only [Prog.andThen_ok, Prog.wp_pure, Prog.wp_bind, Prog.wp_ofExcept] at hrun
  rw [htake, Prog.andThen_ok, Prog.wp_bind, Dir.set_self hD, Prog.forEach, Prog.wp_bind',
    Program.purgeOne, Prog.wp_bind] at hrun
  have hrecord : ∀ post, Prog.wp (Dir.serve Shows) (Program.purgeRecord k) d post ↔
      post (.error .incompatibleValue) d := by
    intro post
    simp [Program.purgeRecord, Program.get, Dir.run, hc, Program.dataOf, Dir.dataOf]
  rw [hrecord] at hrun
  exact hrun rfl

/-! ## Clean merges -/

/-- Which names are nested buckets afterwards. -/
theorem Merged.bucket_iff {policy : MergeConflictPolicy} {exps : Expirations} {s : Contents}
    {d d' : Dir} (h : Merged policy exps s d d') {name : Bytes} (hname : ¬ Reserved name) :
    (∃ c, d'.entries name = some (.bucket c)) ↔ BucketAfter policy s d name := by
  obtain ⟨inner, -, keys, -⟩ := h
  have hkey := keys name
  unfold BucketAfter
  rcases hs : s.find name with - | v | i
  · rw [hs] at hkey
    rw [hkey.2 hname]
  · rw [hs] at hkey
    rw [hkey.2, resolution]
    rcases d.entries name with - | w | c
    · simp [resolveValue, mergedEntry]
    · constructor
      · rintro ⟨c, hc⟩
        unfold mergedEntry at hc
        split at hc <;> cases hc
      · rintro ⟨-, c, hc⟩
        cases hc
    · cases policy <;> simp [resolveValue, Resolution.under, mergedEntry]
  · rw [hs] at hkey
    simp only [hkey.2 hname]
    rcases d.entries name with - | w | c <;> cases policy <;> simp [target]

/-- The expirations of names that are not values in the source stay as they were. -/
theorem Merged.untimed {policy : MergeConflictPolicy} {exps : Expirations} {s : Contents}
    {d d' : Dir} (h : Merged policy exps s d d') {k : Bytes}
    (hs : ∀ v, s.find k ≠ some (.value v)) : expirationsOf d' k = expirationsOf d k := by
  obtain ⟨inner, -, keys, -⟩ := h
  have hkey := keys k
  rcases hx : s.find k with - | v | i
  · rw [hx] at hkey
    exact hkey.1
  · exact absurd hx (hs v)
  · rw [hx] at hkey
    exact hkey.1

/-- Those of values follow the resolution. -/
theorem Merged.timed {policy : MergeConflictPolicy} {exps : Expirations} {s : Contents}
    {d d' : Dir} (h : Merged policy exps s d d') {k v : Bytes} (hs : s.find k = some (.value v)) :
    expirationsOf d' k =
      mergedExpiration (resolution policy exps d k v) (expirationsOf d k) (exps k) := by
  obtain ⟨inner, -, keys, -⟩ := h
  have hkey := keys k
  rw [hs] at hkey
  exact hkey.1

/-- The expirations of names that are nested buckets afterwards stay as they were. -/
theorem BucketAfter.untimed {policy : MergeConflictPolicy} {exps : Expirations} {s : Contents}
    {d d' : Dir} (h : Merged policy exps s d d') {name : Bytes}
    (hafter : BucketAfter policy s d name) : expirationsOf d' name = expirationsOf d name := by
  unfold BucketAfter at hafter
  rcases hs : s.find name with - | v | i
  · exact h.untimed (by simp [hs])
  · rw [hs] at hafter
    obtain ⟨hpolicy, c, hc⟩ := hafter
    rw [h.timed hs, resolution, hc]
    cases policy with
    | overwrite => exact absurd rfl hpolicy
    | keepExisting => rfl
    | error => rfl
  · exact h.untimed (by simp [hs])

/-- A value that was kept keeps its expiration. -/
theorem mergedExpiration_keep {policy : MergeConflictPolicy} {old : Option Entry}
    {oldExpiration : Option Nat} {value w : Bytes} {expiration : Option Nat}
    (hold : old = some (.value w)) (hpolicy : policy ≠ .overwrite) :
    mergedExpiration (resolveValue policy old oldExpiration value expiration) oldExpiration
      expiration = oldExpiration := by
  subst hold
  unfold resolveValue
  cases policy with
  | overwrite => exact absurd rfl hpolicy
  | keepExisting | error =>
    simp only [Resolution.under]
    split
    · split <;> rfl
    · rfl

/-- A value that was taken from the source brings its expiration. -/
theorem mergedExpiration_source {policy : MergeConflictPolicy} {old : Option Entry}
    {oldExpiration : Option Nat} {value : Bytes} {expiration : Option Nat}
    (h : old = none ∨ policy = .overwrite) :
    mergedExpiration (resolveValue policy old oldExpiration value expiration) oldExpiration
      expiration = expiration := by
  obtain rfl | rfl := h
  · rfl
  · unfold resolveValue Resolution.under
    split
    · rfl
    · split
      · split
        · assumption
        · rfl
      · rfl
    · rfl

/-- A merge leaves the expirations clean exactly when no name that it makes or keeps a nested
bucket expired before. -/
theorem Merged.ttlFollows_iff {policy : MergeConflictPolicy} {s : Contents} {exps : Expirations}
    {d d' : Dir} (h : Merged policy exps s d d') (hexps : exps = sourceExpirations s)
    (hs : SourceSound s) : TtlFollows policy s d d' ↔ NoStale policy s d := by
  induction h with
  | @mk exps s d d' inner expires keys below ih =>
    subst hexps
    obtain ⟨-, hvalues, -, hinner⟩ := hs
    have hmerged : Merged policy (sourceExpirations s) s d d' :=
      .mk inner expires keys below
    have hreserved : ∀ name, Reserved name → expirationsOf d' name = expirationsOf d name :=
      fun name hname => hmerged.untimed fun v hv => hvalues name (mem_valueKeys hv) hname
    have merged : ∀ name i c, ¬ Reserved name → s.find name = some (.bucket i) →
        target policy (d.entries name) = some c →
          d'.entries name = some (.bucket (inner name)) := by
      intro name i c hname hi ht
      have hkey := keys name
      rw [hi] at hkey
      rw [hkey.2 hname, ht]
      rfl
    constructor
    · rintro ⟨inner', source, retained, buckets, purges, merged', follows⟩
      have hclean : ∀ name c, d'.entries name = some (.bucket c) →
          expirationsOf d' name = none :=
        fun name c hc => expires.unindexed.mp (buckets name c hc)
      refine .mk (fun name hname => ?_) fun name i c hname hs ht => ?_
      · by_cases hres : Reserved name
        · -- A reserved name that expires is one of the two indexes.
          rw [← hreserved name hres]
          obtain ⟨hnone, -⟩ | ⟨L, D, hL, hD, -⟩ := expires
          · exact congrFun hnone name
          · obtain rfl | rfl := hres
            · exact hclean _ L hL
            · exact hclean _ D hD
        · have hafter := hname.resolve_left hres
          obtain ⟨c, hc⟩ := (hmerged.bucket_iff hres).mpr hafter
          rw [← hafter.untimed hmerged]
          exact hclean name c hc
      · have heq : inner name = inner' name := by
          have h₁ := merged name i c hname hs ht
          rw [merged' name i c hname hs ht] at h₁
          exact (Entry.bucket.inj (Option.some.inj h₁)).symm
        exact (ih name i c hname hs ht rfl (hinner name i hname hs)).mp
          (heq ▸ follows name i c hname hs ht)
    · rintro ⟨unset, hrest⟩
      have hclean : ∀ name c, d'.entries name = some (.bucket c) →
          expirationsOf d' name = none := by
        intro name c hc
        by_cases hres : Reserved name
        · rw [hreserved name hres, unset name (.inl hres)]
        · have hafter := (hmerged.bucket_iff hres).mp ⟨c, hc⟩
          rw [hafter.untimed hmerged, unset name (.inr hafter)]
      refine .mk inner ?_ ?_ (fun name c hc => expires.unindexed.mpr (hclean name c hc))
        (expires.purges hclean) merged fun name i c hname hs ht => ?_
      · intro k v hs hcase
        rw [hmerged.timed hs]
        exact mergedExpiration_source hcase
      · intro k w hk hd hd' hcase
        rcases hs : s.find k with - | v | i
        · exact hmerged.untimed (by simp [hs])
        · rw [hmerged.timed hs]
          exact mergedExpiration_keep hd (hcase.resolve_right fun hne => hne v hs)
        · exact hmerged.untimed (by simp [hs])
      · exact (ih name i c hname hs ht rfl (hinner name i hname hs)).mpr
          (hrest name i c hname hs ht)

/-! ## Whole databases -/

/-- The expirations of every merged bucket of a database. -/
def RootTtlFollows (policy : MergeConflictPolicy) (s : Contents) (d d' : Dir) : Prop :=
  ∀ name i, name ≠ journalBucket → s.find name = some (.bucket i) →
    ∃ c', d'.entries name = some (.bucket c') ∧ TtlFollows policy i (rootBucket d name) c'

/-- In no merged bucket of the destination a name expires that will be a nested bucket. -/
def RootNoStale (policy : MergeConflictPolicy) (s : Contents) (d : Dir) : Prop :=
  ∀ name i, name ≠ journalBucket → s.find name = some (.bucket i) →
    NoStale policy i (rootBucket d name)

/-- After a merge that returned, expirations follow the winners, nested buckets have none and
purges return, exactly when no name that the merge makes or keeps a nested bucket expired in the
destination before. -/
theorem mergeFrom_ttlFollows_iff (policy : MergeConflictPolicy) {source : Contents}
    {destination d' : Dir} (hsource : RootSource source) (hdestination : RootSound destination)
    {report : MergeReport} (h : MergeFrom policy source destination (.ok report) d') :
    RootTtlFollows policy source destination d' ↔ RootNoStale policy source destination := by
  obtain ⟨-, -, -, hmerged⟩ | ⟨-, p, hfailed⟩ := mergeFrom_outcome hsource hdestination h
  rotate_left
  · cases hfailed
  constructor
  · intro hfollows name i hname hs
    obtain ⟨c', hc', hm⟩ := hmerged name i hname hs
    obtain ⟨c₂, hc₂, hf⟩ := hfollows name i hname hs
    obtain rfl : c' = c₂ := by simpa [hc'] using hc₂
    exact (hm.ttlFollows_iff rfl (hsource.inner name i hname hs)).mp hf
  · intro hclean name i hname hs
    obtain ⟨c', hc', hm⟩ := hmerged name i hname hs
    exact ⟨c', hc', (hm.ttlFollows_iff rfl (hsource.inner name i hname hs)).mpr
      (hclean name i hname hs)⟩

/-! ### A nested bucket over a record that expires -/

/-- A record put with a deadline into a new bucket. -/
theorem exists_expiring_record :
    ∃ b : Dir, Prog.Ends (Dir.serve Shows) (Program.putWithTtl [107] [118] 5) Dir.empty
        (.ok ⟨none, 5⟩) b ∧
      Expires (Function.update (fun _ => none) [107] (some 5)) b ∧
      b.entries [107] = some (.value [118]) ∧ Sound b := by
  have hkey : ¬ Reserved [107] := by
    rintro (h | h) <;> revert h <;> decide
  have hwp : Prog.wp (Dir.serve Shows) (Program.putWithTtl [107] [118] 5) Dir.empty fun r b =>
      r = .ok ⟨none, 5⟩ ∧ Expires (Function.update (fun _ => none) [107] (some 5)) b ∧
        SameRecords (Dir.empty.insert [107] (.value [118])) b :=
    expires_empty.putWithTtl_value hkey (fun c hc => by cases hc) [118] rfl
  obtain ⟨r, b, hends⟩ :=
    Prog.exists_ends serve_total (Program.putWithTtl [107] [118] 5) Dir.empty
  obtain ⟨rfl, hexpires, hsame⟩ := Prog.wp_iff_ends.mp hwp r b hends
  refine ⟨b, hends, hexpires, by rw [hsame.entries _ hkey, Dir.insert_entries_self], ?_⟩
  refine .mk hexpires.of_eq fun name c hname hc => ?_
  rw [hsame.entries name hname] at hc
  by_cases heq : name = [107]
  · simp [heq] at hc
  · rw [Dir.insert_entries_ne _ heq] at hc
    cases hc

/-- A source with a nested bucket. -/
theorem rootSource_nested :
    RootSource (.bucket [98] (.bucket [107] (.done 0) (.done 1)) (.done 1)) := by
  have hempty : SourceSound (.done 0) :=
    .mk .nil (fun k hk => by cases hk) (fun e k b hs => by cases hs) fun name i _ hs => by cases hs
  have hne : ttlBucket ≠ [107] := by decide
  have hinner : SourceSound (.bucket [107] (.done 0) (.done 1)) := by
    refine .mk (by simp [Contents.keys]) (fun k hk => by cases hk) ?_ fun name i _ hs => ?_
    · intro e k b hs
      simp [Contents.find, hne] at hs
    · simp only [Contents.find] at hs
      split at hs
      · obtain rfl := Content.bucket.inj (Option.some.inj hs)
        exact hempty
      · cases hs
  refine ⟨by simp [Contents.keys], fun name i _ hs => ?_⟩
  simp only [Contents.find] at hs
  split at hs
  · obtain rfl := Content.bucket.inj (Option.some.inj hs)
    exact hinner
  · cases hs

theorem rootSound_single {b : Dir} (hb : Sound b) (name : Bytes) :
    RootSound (Dir.empty.set name (some (.bucket b))) := by
  intro n e _ he
  by_cases hn : n = name
  · rw [hn, Dir.set_entries_self] at he
    exact ⟨b, (Option.some.inj he).symm, hb⟩
  · rw [Dir.set_entries_ne _ hn] at he
    cases he

/-- Under the policy `KeepExisting` the record stays, and so does its expiration. -/
theorem mergeFrom_ttlFollows_keepExisting :
    ∃ (source : Contents) (b d' : Dir) (report : MergeReport),
      Prog.Ends (Dir.serve Shows) (Program.putWithTtl [107] [118] 5) Dir.empty
        (.ok ⟨none, 5⟩) b ∧
      MergeFrom .keepExisting source (Dir.empty.set [98] (some (.bucket b))) (.ok report) d' ∧
      RootTtlFollows .keepExisting source (Dir.empty.set [98] (some (.bucket b))) d' := by
  obtain ⟨b, hends, hexpires, hentry, hsound⟩ := exists_expiring_record
  have hdestination := rootSound_single hsound [98]
  obtain ⟨r, d', hmerge⟩ := exists_mergeFrom .keepExisting
    (.bucket [98] (.bucket [107] (.done 0) (.done 1)) (.done 1))
    (Dir.empty.set [98] (some (.bucket b)))
  obtain ⟨report, rfl, -⟩ | ⟨hpolicy, -⟩ :=
    mergeFrom_outcome rootSource_nested hdestination hmerge
  rotate_left
  · cases hpolicy
  refine ⟨_, b, d', report, hends, hmerge, ?_⟩
  apply (mergeFrom_ttlFollows_iff .keepExisting rootSource_nested hdestination hmerge).mpr
  intro name i _ hs
  obtain rfl : name = [98] := by simpa [Contents.keys] using mem_keys_of_find hs
  obtain rfl : Contents.bucket [107] (.done 0) (.done 1) = i := by simpa [Contents.find] using hs
  have hroot : rootBucket (Dir.empty.set [98] (some (.bucket b))) [98] = b := by
    simp [rootBucket]
  rw [hroot]
  refine .mk (fun n hn => ?_) fun n j c _ hj ht => ?_
  · rw [← hexpires.eq_expirationsOf]
    have hne : n ≠ [107] := by
      rintro rfl
      obtain hres | hafter := hn
      · rcases hres with h | h <;> revert h <;> decide
      · simp [BucketAfter, Contents.find, hentry, target] at hafter
    rw [Function.update_of_ne hne]
  · obtain rfl : n = [107] := by simpa [Contents.keys] using mem_keys_of_find hj
    simp [hentry, target] at ht

/-- Under the policy `Overwrite` a nested bucket takes the place of the record, its expiration is
left behind, and a later purge fails. -/
theorem mergeFrom_stale_expiration :
    ∃ (source : Contents) (b d' c' : Dir) (report : MergeReport),
      Prog.Ends (Dir.serve Shows) (Program.putWithTtl [107] [118] 5) Dir.empty
        (.ok ⟨none, 5⟩) b ∧
      RootSource source ∧ RootSound (Dir.empty.set [98] (some (.bucket b))) ∧
      MergeFrom .overwrite source (Dir.empty.set [98] (some (.bucket b))) (.ok report) d' ∧
      ¬ RootTtlFollows .overwrite source (Dir.empty.set [98] (some (.bucket b))) d' ∧
      d'.entries [98] = some (.bucket c') ∧ (∃ c, c'.entries [107] = some (.bucket c)) ∧
      lookupOf c' [107] = some (beBytes 8 5) ∧
      ∃ c'', Prog.Ends (Dir.serve Shows) (Program.purgeExpired 9 1) c'
        (.error .incompatibleValue) c'' := by
  obtain ⟨b, hends, hexpires, hentry, hsound⟩ := exists_expiring_record
  have hdestination := rootSound_single hsound [98]
  have hkey : ¬ Reserved [107] := by
    rintro (h | h) <;> revert h <;> decide
  obtain ⟨r, d', hmerge⟩ := exists_mergeFrom .overwrite
    (.bucket [98] (.bucket [107] (.done 0) (.done 1)) (.done 1))
    (Dir.empty.set [98] (some (.bucket b)))
  obtain ⟨report, rfl, -, hmerged⟩ | ⟨hpolicy, -⟩ :=
    mergeFrom_outcome rootSource_nested hdestination hmerge
  rotate_left
  · cases hpolicy
  obtain ⟨c', hc', hm⟩ := hmerged [98] (.bucket [107] (.done 0) (.done 1)) (by decide) rfl
  have hroot : rootBucket (Dir.empty.set [98] (some (.bucket b))) [98] = b := by
    simp [rootBucket]
  rw [hroot] at hm
  have hafter : BucketAfter .overwrite (.bucket [107] (.done 0) (.done 1)) b [107] := by
    simp [BucketAfter, Contents.find, hentry, target]
  obtain ⟨c, hc⟩ := (hm.bucket_iff hkey).mpr hafter
  have hexp : expirationsOf c' [107] = some 5 := by
    rw [hafter.untimed hm, ← hexpires.eq_expirationsOf, Function.update_self]
  have hexpires' : Expires (expirationsOf c') c' := by
    cases hm
    assumption
  refine ⟨_, b, d', c', report, hends, rootSource_nested, hdestination, hmerge, ?_, hc', ⟨c, hc⟩,
    by rw [hexpires'.lookupOf, hexp]; rfl,
    hexpires'.purge_fails hexp hc (rfl : epochMillis 9 = .ok 9) (by decide)⟩
  intro hfollows
  obtain ⟨c₂, hc₂, hf⟩ := hfollows [98] (.bucket [107] (.done 0) (.done 1)) (by decide) rfl
  obtain rfl : c' = c₂ := by simpa [hc'] using hc₂
  obtain ⟨inner, -, -, buckets, -, -, -⟩ := hf
  have hnone := hexpires'.unindexed.mp (buckets [107] c hc)
  rw [hexp] at hnone
  cases hnone

end Tagdata.Analysis
