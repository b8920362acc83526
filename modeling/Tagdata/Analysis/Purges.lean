import Tagdata.Analysis.CollectionScans
import Tagdata.Analysis.Scans
import Tagdata.Analysis.Simulation
import Tagdata.Analysis.TtlIndexes

/-!
# Bounded purges

The keys of the deadline bucket compare as pairs of a deadline and a key, so a scan meets the
earliest deadlines first and may stop at the first one that is not due.  `purge_expired`
removes those it met from the three buckets.  It makes room for `limit` of them before it knows
how many there are.
-/

set_option autoImplicit false

namespace Tagdata.Analysis

open Tagdata.Library Tagdata.Library.SearchTree Tagdata.Model Tagdata.Interface

/-- The order of deadlines, and of keys with the same deadline. -/
def earlier (x y : Nat × Bytes) : Prop := x.1 < y.1 ∨ x.1 = y.1 ∧ x.2 < y.2

/-! ## The order of the deadline keys -/

section Order

/-- Lists of one length compare before what follows them. -/
theorem append_lt_of_length_eq {a b : Bytes} (hlen : a.length = b.length) (h : a < b)
    (x y : Bytes) : a ++ x < b ++ y := by
  induction a generalizing b with
  | nil =>
    rw [List.eq_nil_of_length_eq_zero hlen.symm] at h
    exact absurd h (lt_irrefl _)
  | cons c a ih =>
    cases b with
    | nil => cases hlen
    | cons e b =>
      rw [List.cons_append, List.cons_append, List.cons_lt_cons_iff]
      rcases List.cons_lt_cons_iff.mp h with hce | ⟨hce, hab⟩
      · exact .inl hce
      · exact .inr ⟨hce, ih (Nat.succ.inj hlen) hab⟩

theorem deadlineKey_lt_of_earlier {x y : Nat × Bytes} (hy : y.1 < 2 ^ 64) (h : earlier x y) :
    deadlineKey x.1 x.2 < deadlineKey y.1 y.2 := by
  rcases h with hlt | ⟨heq, hlt⟩
  · exact append_lt_of_length_eq (by simp) (beBytes_lt hlt (by simpa using hy)) _ _
  · rw [deadlineKey, deadlineKey, heq]
    exact List.append_left_lt hlt

theorem earlier_of_deadlineKey_lt {x y : Nat × Bytes} (hx : x.1 < 2 ^ 64)
    (h : deadlineKey x.1 x.2 < deadlineKey y.1 y.2) : earlier x y := by
  rcases lt_trichotomy x.1 y.1 with hlt | heq | hgt
  · exact .inl hlt
  · rcases lt_trichotomy x.2 y.2 with hlt | heq' | hgt'
    · exact .inr ⟨heq, hlt⟩
    · rw [heq, heq'] at h
      exact absurd h (lt_irrefl _)
    · exact absurd h (deadlineKey_lt_of_earlier hx (.inr ⟨heq.symm, hgt'⟩)).not_gt
  · exact absurd h (deadlineKey_lt_of_earlier hx (.inl hgt)).not_gt

end Order

/-! ## What the scan collects -/

/-- The deadline key of an expiration and its key, as the scan collects them. -/
def dueEntry (x : Nat × Bytes) : Bytes × Bytes := (deadlineKey x.1 x.2, x.2)

/-- The scan takes the first deadlines that are due. -/
theorem takeExpired_earliest (now : Nat) {entries : List (Nat × Bytes)}
    (hbounded : ∀ x ∈ entries, x.1 < 2 ^ 64) (hsorted : entries.Pairwise earlier) (limit : Nat) :
    Program.takeExpired now limit (entries.map fun x => (deadlineKey x.1 x.2, [])) =
      .ok (((entries.filter fun x => x.1 ≤ now).take limit).map dueEntry) := by
  induction entries generalizing limit with
  | nil => cases limit <;> rfl
  | cons x entries ih =>
    cases limit with
    | zero => rfl
    | succ limit =>
      rw [List.pairwise_cons] at hsorted
      have hx := hbounded x List.mem_cons_self
      have hrest := ih (fun y hy => hbounded y (List.mem_cons_of_mem _ hy)) hsorted.2 limit
      rw [List.map_cons, Program.takeExpired, decodeDeadlineKey_deadlineKey hx]
      by_cases hnow : now < x.1
      · -- everything after it is later
        have hnone : ((x :: entries).filter fun y => decide (y.1 ≤ now)) = [] := by
          refine List.filter_eq_nil_iff.mpr fun y hy => ?_
          have hle : x.1 ≤ y.1 := by
            rcases List.mem_cons.mp hy with rfl | hy
            · exact le_rfl
            · rcases hsorted.1 y hy with hlt | ⟨heq, -⟩
              · exact hlt.le
              · exact heq.le
          simpa using hnow.trans_le hle
        rw [hnone]
        simp [hnow]
      · simp [hnow, hrest, not_lt.mp hnow, dueEntry]

/-- The expiration that a deadline key is for. -/
def expirationAt (x : Bytes) : Nat × Bytes := (ofBeBytes (x.take 8), x.drop 8)

theorem expirationAt_deadlineKey {t : Nat} (ht : t < 2 ^ 64) (k : Bytes) :
    expirationAt (deadlineKey t k) = (t, k) := by
  rw [expirationAt, take_deadlineKey, drop_deadlineKey, ofBeBytes_eight ht]

/-- The records of a deadline bucket are the expirations in their order. -/
theorem deadlines_listed {m : Expirations} {X : Dir} {l : List Data}
    (hX : X.entries = deadlineEntries m) (hbounded : ∀ k t, m k = some t → t < 2 ^ 64)
    (hl : Lists X l) :
    ∃ entries : List (Nat × Bytes),
      l.filterMap Data.kvPair = entries.map (fun x => (deadlineKey x.1 x.2, [])) ∧
      entries.Pairwise earlier ∧ ∀ t k, (t, k) ∈ entries ↔ m k = some t := by
  have hpair : ∀ {p : Bytes × Bytes}, p ∈ l.filterMap Data.kvPair ↔
      ∃ t k, m k = some t ∧ p = (deadlineKey t k, []) := by
    rintro ⟨x, v⟩
    have hmem : (x, v) ∈ l.filterMap Data.kvPair ↔ X.entries x = some (.value v) := mem_pairsOf hl
    rw [hmem, hX, deadlineEntries]
    constructor
    · intro hentry
      split at hentry
      · rename_i hx
        have hkey := (eq_deadlineKey (hbounded _ _ hx.2)).mpr ⟨hx.1, rfl, rfl⟩
        have hv : [] = v := by simpa using hentry
        exact ⟨_, _, hx.2, Prod.ext hkey hv.symm⟩
      · cases hentry
    · rintro ⟨t, k, hk, heq⟩
      obtain ⟨rfl, rfl⟩ := Prod.mk.inj heq
      rw [drop_deadlineKey, take_deadlineKey, ofBeBytes_eight (hbounded k t hk)]
      exact if_pos ⟨length_deadlineKey t k, hk⟩
  refine ⟨(l.filterMap Data.kvPair).map fun p => expirationAt p.1, ?_, ?_, fun t k => ?_⟩
  · rw [List.map_map]
    symm
    refine (List.map_congr_left fun p hp => ?_).trans (List.map_id _)
    obtain ⟨t, k, hk, rfl⟩ := hpair.mp hp
    simp [expirationAt_deadlineKey (hbounded k t hk)]
  · have hsorted := hl.sorted.sublist (kvPair_keys_sublist l)
    rw [List.pairwise_map] at hsorted ⊢
    refine hsorted.imp_of_mem fun {p q} hp hq hlt => ?_
    obtain ⟨t, k, hk, rfl⟩ := hpair.mp hp
    obtain ⟨t', k', hk', rfl⟩ := hpair.mp hq
    rw [expirationAt_deadlineKey (hbounded k t hk), expirationAt_deadlineKey (hbounded k' t' hk')]
    exact earlier_of_deadlineKey_lt (hbounded k t hk) hlt
  · rw [List.mem_map]
    constructor
    · rintro ⟨p, hp, heq⟩
      obtain ⟨t', k', hk', rfl⟩ := hpair.mp hp
      rw [expirationAt_deadlineKey (hbounded k' t' hk')] at heq
      obtain ⟨rfl, rfl⟩ := Prod.mk.inj heq
      exact hk'
    · intro hk
      exact ⟨_, hpair.mpr ⟨t, k, hk, rfl⟩, expirationAt_deadlineKey (hbounded k t hk) k⟩

/-- What a scan of the deadline bucket takes: the first of the expirations that are due. -/
theorem due_listed {m : Expirations} {X : Dir} {l : List Data}
    (hX : X.entries = deadlineEntries m) (hbounded : ∀ k t, m k = some t → t < 2 ^ 64)
    (hl : Lists X l) (now : Nat) :
    ∃ due : List (Nat × Bytes),
      due.Pairwise earlier ∧ (∀ t k, (t, k) ∈ due ↔ m k = some t ∧ t ≤ now) ∧
      ∀ limit, Program.takeExpired now limit (l.filterMap Data.kvPair) =
        .ok ((due.take limit).map dueEntry) := by
  obtain ⟨entries, hpairs, hsorted, hmem⟩ := deadlines_listed hX hbounded hl
  refine ⟨entries.filter fun x => x.1 ≤ now, hsorted.filter _, fun t k => ?_, fun limit => ?_⟩
  · rw [List.mem_filter, hmem]
    simp
  · rw [hpairs]
    exact takeExpired_earliest now (fun x hx => hbounded x.2 x.1 ((hmem x.1 x.2).mp hx)) hsorted
      limit

/-- A key has one deadline. -/
theorem keys_nodup {m : Expirations} {due : List (Nat × Bytes)} (hsorted : due.Pairwise earlier)
    (hm : ∀ x ∈ due, m x.2 = some x.1) : (due.map Prod.snd).Nodup := by
  rw [List.nodup_iff_pairwise_ne, List.pairwise_map]
  refine hsorted.imp_of_mem fun {x y} hx hy hearlier heq => ?_
  have htime : x.1 = y.1 := by
    have hx' := hm x hx
    rw [heq, hm y hy] at hx'
    exact (Option.some.inj hx').symm
  rcases hearlier with hlt | ⟨-, hlt⟩
  · omega
  · rw [heq] at hlt
    exact lt_irrefl _ hlt

/-! ## Removing -/

section Remove

variable {seen : Dir → List Data → Prop} {d : Dir}

/-- The expirations without some keys. -/
def without (m : Expirations) (gone : List Bytes) : Expirations :=
  fun k => if k ∈ gone then none else m k

theorem without_cons (m : Expirations) (k : Bytes) (gone : List Bytes) :
    without (Function.update m k none) gone = without m (k :: gone) := by
  funext x
  by_cases hx : x = k <;> simp [without, hx]

/-- The loop of `purge_expired`, when no key that expires names a nested bucket. -/
theorem Both.purgeAll_exact (gone : List (Nat × Bytes)) :
    ∀ {m : Expirations} {d : Dir}, Both m m d → (gone.map Prod.snd).Nodup →
      (∀ x ∈ gone, m x.2 = some x.1 ∧ x.1 < 2 ^ 64) →
      (∀ x ∈ gone, ∀ c, d.entries x.2 ≠ some (.bucket c)) →
      Prog.wp (Dir.serve seen) (Prog.forEach Program.purgeOne (gone.map dueEntry)) d fun r d' =>
        r = .ok () ∧ Both (without m (gone.map Prod.snd)) (without m (gone.map Prod.snd)) d' ∧
        ∀ k, ¬ Reserved k →
          d'.entries k = if k ∈ gone.map Prod.snd then none else d.entries k := by
  induction gone with
  | nil =>
    intro m d h hnodup hdue hplain
    have hself : without m [] = m := rfl
    rw [List.map_nil, List.map_nil, hself]
    exact ⟨rfl, h, fun k _ => rfl⟩
  | cons x gone ih =>
    intro m d h hnodup hdue hplain
    rw [List.map_cons, List.nodup_cons] at hnodup
    obtain ⟨hx, ht⟩ := hdue x List.mem_cons_self
    rw [List.map_cons, Prog.forEach, Prog.wp_bind']
    apply Prog.wp_mono (h.purgeOne (x := dueEntry x) hx ht rfl)
    rintro r d₁ (⟨⟨c, hc⟩, -⟩ | ⟨rfl, hboth, hsame⟩)
    · exact absurd hc (hplain x List.mem_cons_self c)
    have hother : ∀ y ∈ gone, y.2 ≠ x.2 := fun y hy heq =>
      hnodup.1 (heq ▸ List.mem_map_of_mem hy)
    have hremoved : ∀ k, ¬ Reserved k → d₁.entries k = if k = x.2 then none else d.entries k :=
      hsame
    -- the reserved names hold buckets
    have hreserved : ∀ y ∈ x :: gone, ¬ Reserved y.2 := by
      obtain ⟨L, X, hL, -, hX, -⟩ := h
      rintro y hy (heq | heq)
      · exact hplain y hy L (heq ▸ hL)
      · exact hplain y hy X (heq ▸ hX)
    apply Prog.wp_mono (ih hboth hnodup.2 (fun y hy => ?_) fun y hy c hc => ?_)
    · rintro r d' ⟨rfl, hboth', hentries⟩
      have hm : without (Function.update m (dueEntry x).2 none) (gone.map Prod.snd) = _ :=
        without_cons m x.2 (gone.map Prod.snd)
      rw [hm] at hboth'
      refine ⟨rfl, hboth', fun k hk => ?_⟩
      rw [hentries k hk, hremoved k hk, List.map_cons]
      by_cases hkx : k = x.2
      · simp [hkx]
      · simp only [List.mem_cons, hkx, false_or, if_false]
    · have hy' := hdue y (List.mem_cons_of_mem _ hy)
      have hne : y.2 ≠ (dueEntry x).2 := hother y hy
      rw [Function.update_of_ne hne]
      exact hy'
    · rw [hremoved _ (hreserved y (List.mem_cons_of_mem _ hy)), if_neg (hother y hy)] at hc
      exact hplain y (List.mem_cons_of_mem _ hy) c hc

end Remove

/-- Records are gone from the bucket and from both of its indexes, and nothing else is: the
indexes themselves remain. -/
structure Purged (gone : List Bytes) (m : Expirations) (d d' : Dir) : Prop where
  records : ∀ k, ¬ Reserved k → d'.entries k = if k ∈ gone then none else d.entries k
  indexes : Expires (without m gone) d'
  remain : ∀ k, Reserved k → (d'.entries k).isSome = (d.entries k).isSome

theorem Both.isSome {m m' : Expirations} {d : Dir} (h : Both m m' d) {k : Bytes}
    (hk : Reserved k) : (d.entries k).isSome = true := by
  obtain ⟨L, X, hL, -, hX, -⟩ := h
  rcases hk with rfl | rfl
  · rw [hL]
    rfl
  · rw [hX]
    rfl

theorem calls_purgeOne (x : Bytes × Bytes) : (Program.purgeOne x).Only Calls := by
  have hget : (Program.get x.2).Only Calls := (calls_perform rfl).bind fun _ => Prog.only_pure _
  have hrecord : (Program.purgeRecord x.2).Only Calls := by
    refine hget.bind fun data => ?_
    rcases data with - | (k | name)
    · trivial
    · trivial
    · exact (calls_perform rfl).bind fun _ => Prog.only_pure _
  have hdelete : ∀ name k, ((Program.perform (.delete k)).inside name).Only Calls :=
    fun name k => (calls_perform rfl).mapCalls (calls_inside name)
  exact hrecord.bind fun _ => (hdelete _ _).bind fun _ => (hdelete _ _).bind fun _ =>
    Prog.only_pure _

/-! ## On the buckets -/

section Buckets

variable {P : Pages} {origin : Option Nest} {b : InnerBucket} {T : Nest} {N fuel : Nat}

/-- Nothing was loaded for writing, neither in the bucket nor in those opened in it. -/
def OnlyOpened (b : InnerBucket) : Prop :=
  b.nodes = [] ∧ ∀ name c, b.buckets.lookup name = some c → c.nodes = []

theorem OnlyOpened.child (h : OnlyOpened b) (name : Bytes) (m : BucketMeta) :
    NoEmptyLeaf (childOf b name m) := by
  have hnodes : (childOf b name m).nodes = [] := by
    rw [childOf]
    cases hlookup : b.buckets.lookup name with
    | none => rfl
    | some c => exact h.2 name c hlookup
  intro n hn
  rw [hnodes] at hn
  cases hn

/-- Opening a nested bucket loads nothing. -/
theorem Overlay.serve_open (h : Overlay P origin b T) (hun : OnlyOpened b) (hN : Within N origin)
    (hfuel : N ≤ fuel) {name : Bytes} {c : Dir} (hd : T.dir.entries name = some (.bucket c))
    (fl : TxFreelist) :
    ∃ b', Bucket.serve P fuel (.call [] (.getBucket name)) (b, fl) =
        .ok (.ok (.output .unit), (b', fl)) ∧ Overlay P origin b' T ∧ OnlyOpened b' := by
  rcases h.entry_cases name with ⟨-, hd'⟩ | ⟨v, -, hd'⟩ | ⟨m, S, hcur, -⟩
  · rw [hd] at hd'; cases hd'
  · rw [hd] at hd'; cases hd'
  obtain ⟨b', hget, -, hover⟩ := h.opens hN hfuel false hcur fl
  refine ⟨b', ?_, hover, ?_⟩
  · rw [serve_eq_settle]
    simp [Bucket.method, Bucket.atPath, Bucket.run, Bucket.getBucket, InnerBucket.getBucket,
      Bucket.alive, estate_bind, estate_map, h.alive, hget, settle]
  · obtain ⟨links, hnamed⟩ := bucketGetter_named h.opened (h.searchable hN hfuel) false hcur
    rw [onBucket, hnamed] at hget
    obtain ⟨-, hstate⟩ := EStateM.Result.ok.inj hget
    obtain ⟨rfl, -⟩ := Prod.mk.inj hstate
    refine ⟨hun.1, fun x c hx => ?_⟩
    cases hlookup : b.buckets.lookup name with
    | some c' =>
      simp only [hlookup] at hx
      exact hun.2 x c hx
    | none =>
      simp only [hlookup] at hx
      by_cases hxn : x = name
      · rw [hxn, Assoc.lookup_insert_self] at hx
        rw [← Option.some.inj hx]
        rfl
      · rw [Assoc.lookup_insert_ne hxn] at hx
        exact hun.2 x c hx

/-- A scan of a nested bucket in which nothing was loaded. -/
theorem Overlay.serve_scan (h : Overlay P origin b T) (hun : OnlyOpened b) (hN : Within N origin)
    (hfuel : N ≤ fuel) {name : Bytes} {c : Dir} (hd : T.dir.entries name = some (.bucket c))
    (hlen : ∀ S, T.subs.lookup name = some S →
      S.tree.subs.length + S.tree.content.length + 2 ≤ fuel) (fl : TxFreelist) :
    ∃ l b' T', Bucket.serve P fuel (.scan [name]) (b, fl) = .ok (.ok (.items l), (b', fl)) ∧
      Lists c l ∧ Overlay P origin b' T' ∧ T'.dir = T.dir := by
  rcases h.entry_cases name with ⟨-, hd'⟩ | ⟨v, -, hd'⟩ | ⟨m, S, hcur, hS, hd', hpage, hchild⟩
  · rw [hd] at hd'; cases hd'
  · rw [hd] at hd'; cases hd'
  obtain rfl : c = S.dir := by
    rw [hd] at hd'
    simpa using hd'
  obtain ⟨b', hget, hlookup, hover⟩ := h.opens hN hfuel false hcur fl
  obtain ⟨hscan, -⟩ := hchild.scans_of_filled (hchild.filled (hun.child name m)) (hlen S hS)
  obtain ⟨t, n, subs⟩ := T
  refine ⟨S.tree.content.map Data.ofLeaf, b'.setBucket name (childOf b name m),
    ⟨t, n, Assoc.insert name S subs⟩, ?_, hchild.lists, hover.setChild hcur hpage hchild, ?_⟩
  · rw [serve_eq_settle]
    simp [Bucket.method, Bucket.atPath, InnerBucket.getBucket, hget, hlookup, estate_bind,
      estate_map, hscan, settle]
  · exact (Nest.dir_inside S hcur).trans (Dir.set_self hd)

/-- The first part of a purge finds both indexes. -/
theorem Overlay.openIndexes_found (h : Overlay P origin b T) (hun : OnlyOpened b)
    (hN : Within N origin) (hfuel : N ≤ fuel) {L X : Dir}
    (hL : T.dir.entries ttlBucket = some (.bucket L))
    (hX : T.dir.entries ttlDeadlinesBucket = some (.bucket X)) (fl : TxFreelist) :
    ∃ b', Program.openIndexes.runs P fuel (b, fl) = .ok (.ok true) (b', fl) ∧
      Overlay P origin b' T ∧ OnlyOpened b' := by
  obtain ⟨b₁, hserve₁, hover₁, hun₁⟩ := h.serve_open hun hN hfuel hL fl
  obtain ⟨b₂, hserve₂, hover₂, hun₂⟩ := hover₁.serve_open hun₁ hN hfuel hX fl
  refine ⟨b₂, ?_, hover₂, hun₂⟩
  simp [Program.runs, Program.exec, Program.openIndexes, Program.deadlineIndex, Prog.exec_bind,
    Program.attempt, Prog.exec, hserve₁, hserve₂]

/-- The first part of a purge without a lookup bucket. -/
theorem Overlay.openIndexes_missing (h : Overlay P origin b T) (hN : Within N origin)
    (hfuel : N ≤ fuel) (hL : T.dir.entries ttlBucket = none) (fl : TxFreelist) :
    ∃ b' fl' T', Program.openIndexes.runs P fuel (b, fl) = .ok (.ok false) (b', fl') ∧
      Overlay P origin b' T' ∧ T'.dir = T.dir := by
  obtain ⟨a, b', fl', T', hserve, hmap, hover⟩ := h.serve_call Shows hN hfuel fl
    (.call [] (.getBucket ttlBucket)) rfl
  obtain ⟨rfl, hdir⟩ := hmap
  have hrun : Dir.run (.getBucket ttlBucket) T.dir = (.error .bucketMissing, T.dir) := by
    simp [Dir.run, hL]
  simp only [Dir.atPath, hrun] at hserve hdir
  refine ⟨b', fl', T', ?_, hover, hdir⟩
  simp [Program.runs, Program.exec, Program.openIndexes, Prog.exec_bind, Program.attempt,
    Prog.exec, hserve, Except.map]

/-- The second part of a purge. -/
theorem Overlay.purgeDue_earliest (h : Overlay P origin b T) (hun : OnlyOpened b)
    (hN : Within N origin) (hfuel : N ≤ fuel) {m : Expirations} {L X : Dir}
    (hL : T.dir.entries ttlBucket = some (.bucket L))
    (hX : T.dir.entries ttlDeadlinesBucket = some (.bucket X)) (hindexes : Indexes m L X)
    (hplain : ∀ k t, m k = some t → ∀ c, T.dir.entries k ≠ some (.bucket c))
    (hlen : ∀ S, T.subs.lookup ttlDeadlinesBucket = some S →
      S.tree.subs.length + S.tree.content.length + 2 ≤ fuel) (now limit : Nat)
    (fl : TxFreelist) :
    ∃ (due : List (Nat × Bytes)) (b' : InnerBucket) (fl' : TxFreelist) (T' : Nest),
      due.Pairwise earlier ∧ (∀ t k, (t, k) ∈ due ↔ m k = some t ∧ t ≤ now) ∧
      (Program.purgeDue now limit).runs P fuel (b, fl) =
        .ok (.ok (min limit due.length)) (b', fl') ∧
      Overlay P origin b' T' ∧ Purged ((due.take limit).map Prod.snd) m T.dir T'.dir := by
  obtain ⟨l, b₁, T₁, hscan, hl, hover₁, hdir⟩ := h.serve_scan hun hN hfuel hX hlen fl
  obtain ⟨due, hsorted, hdue, htake⟩ := due_listed hindexes.deadlines hindexes.bounded hl now
  have hsub : ∀ x ∈ due.take limit, m x.2 = some x.1 := fun x hx =>
    ((hdue x.1 x.2).mp (List.mem_of_mem_take hx)).1
  have hboth : Both m m T₁.dir := by
    rw [hdir]
    exact ⟨L, X, hL, hindexes.lookup, hX, hindexes.deadlines⟩
  have hwp : Prog.wp (Dir.serve Shows) _ T₁.dir _ := hboth.purgeAll_exact (due.take limit)
    (keys_nodup (hsorted.sublist (List.take_sublist _ _)) hsub)
    (fun x hx => ⟨hsub x hx, hindexes.bounded x.2 x.1 (hsub x hx)⟩) fun x hx c => by
      rw [hdir]
      exact hplain x.2 x.1 (hsub x hx) c
  obtain ⟨r, b₂, fl₂, T₂, hrun, ⟨rfl, hboth₂, hrecords⟩, hover₂⟩ :=
    hover₁.exec_calls hN hfuel fl (Prog.only_forEach calls_purgeOne _) hwp
  refine ⟨due, b₂, fl₂, T₂, hsorted, hdue, ?_, hover₂, fun k hk => ?_,
    hboth₂.expires fun k t hk => ?_, fun k hk => ?_⟩
  · have hpairs : Prog.exec (Bucket.serve P fuel) (Program.kvPairs.inside ttlDeadlinesBucket)
        (b, fl) = .ok (.ok (l.filterMap Data.kvPair), (b₁, fl)) := by
      simp [Program.inside, Program.kvPairs, Program.items, Prog.exec_mapCalls, Prog.exec_bind,
        Prog.exec, Request.inside, hscan]
    rw [List.map_take] at hrun
    simp [Program.runs, Program.exec, Program.purgeDue, Prog.exec_bind, hpairs, htake, hrun]
  · rw [hrecords k hk, hdir]
  · refine hindexes.bounded k t ?_
    rw [without] at hk
    split at hk
    · cases hk
    · exact hk
  · rw [hboth₂.isSome hk, ← hdir, hboth.isSome hk]

/-- The expirations that are due at a time, in their order. -/
theorem Overlay.due_exists (h : Overlay P origin b T) {m : Expirations} (hexp : Expires m T.dir)
    (time : SystemTime) :
    ∃ due : List (Nat × Bytes),
      due.Pairwise earlier ∧ ∀ t k, (t, k) ∈ due ↔ m k = some t ∧ (t : Int) ≤ time := by
  obtain ⟨rfl, -, -⟩ | ⟨L, X, -, hX, hindexes⟩ := hexp
  · exact ⟨[], List.Pairwise.nil, by simp⟩
  rcases Int.lt_or_le time 0 with hneg | hpos
  · refine ⟨[], List.Pairwise.nil, fun t k => ?_⟩
    have hlate : ¬ (t : Int) ≤ time := by omega
    simp [hlate]
  · rcases h.entry_cases ttlDeadlinesBucket with ⟨-, hd⟩ | ⟨v, -, hd⟩ | ⟨c, S, -, -, hd, -, hchild⟩
    · rw [hX] at hd; cases hd
    · rw [hX] at hd; cases hd
    obtain rfl : X = S.dir := by
      rw [hX] at hd
      simpa using hd
    obtain ⟨due, hsorted, hdue, -⟩ :=
      due_listed hindexes.deadlines hindexes.bounded hchild.lists time.toNat
    refine ⟨due, hsorted, fun t k => ?_⟩
    have hle : t ≤ time.toNat ↔ (t : Int) ≤ time := by omega
    rw [hdue, hle]

end Buckets

/-! ## The first purge of a transaction -/

theorem epochMillis_eq_ok {time : SystemTime} {now : Nat} (h : epochMillis time = .ok now) :
    (now : Int) = time := by
  rw [epochMillis] at h
  split at h
  · cases h
  rename_i hpos
  split at h
  · have hnow : time.toNat = now := Except.ok.inj h
    rw [← hnow]
    exact Int.toNat_of_nonneg (Int.not_lt.mp hpos)
  · cases h

/-- The purge of a bucket that was just opened, at a time in the range of the deadlines and with
memory for `limit` keys. -/
theorem Committed.purge {P : Pages} {info : BucketMeta} {D : Nest} (h : Committed P info D)
    {m : Expirations} (hexp : Expires m D.dir)
    (hplain : ∀ k t, m k = some t → ∀ c, D.dir.entries k ≠ some (.bucket c)) {fuel : Nat}
    (hsize : D.size ≤ fuel) (hlen : ∀ S, D.subs.lookup ttlDeadlinesBucket = some S →
      S.tree.subs.length + S.tree.content.length + 2 ≤ fuel) (fl : TxFreelist)
    {maxCapacity limit now : Nat} {time : SystemTime} (hzero : limit ≠ 0)
    (hnow : epochMillis time = .ok now)
    (hcap : D.dir.entries ttlBucket = none ∨ limit ≤ maxCapacity) :
    ∃ (due : List (Nat × Bytes)) (b' : InnerBucket) (fl' : TxFreelist) (T' : Nest),
      due.Pairwise earlier ∧ (∀ t k, (t, k) ∈ due ↔ m k = some t ∧ (t : Int) ≤ time) ∧
      Bucket.purgeExpired P fuel maxCapacity time limit (.fromMeta info, fl) =
        .ok (.ok (min limit due.length)) (b', fl') ∧
      Overlay P (some D) b' T' ∧ Purged ((due.take limit).map Prod.snd) m D.dir T'.dir := by
  have hover := h.overlay
  have hun : OnlyOpened (.fromMeta info) := ⟨rfl, fun name c hc => by cases hc⟩
  obtain ⟨rfl, hL, hX⟩ | ⟨L, X, hL, hX, hindexes⟩ := id hexp
  · obtain ⟨b', fl', T', hopen, hover', hdir⟩ :=
      hover.openIndexes_missing h.within hsize hL fl
    refine ⟨[], b', fl', T', List.Pairwise.nil, by simp, ?_, hover', ?_⟩
    · simp [Bucket.purgeExpired, hzero, hnow, estate_bind, hopen]
    · rw [hdir, List.take_nil]
      exact ⟨fun k _ => rfl, hexp, fun _ _ => rfl⟩
  · obtain ⟨b₁, hopen, hover₁, hun₁⟩ :=
      hover.openIndexes_found hun h.within hsize hL hX fl
    have hle : ¬ maxCapacity < limit := by
      rcases hcap with hnone | hle
      · rw [hL] at hnone
        cases hnone
      · exact not_lt.mpr hle
    obtain ⟨due, b', fl', T', hsorted, hdue, hpurge, hover', hpurged⟩ :=
      hover₁.purgeDue_earliest hun₁ h.within hsize hL hX hindexes hplain hlen now limit fl
    refine ⟨due, b', fl', T', hsorted, fun t k => ?_, ?_, hover', hpurged⟩
    · rw [hdue, ← epochMillis_eq_ok hnow, Int.ofNat_le]
    · simp [Bucket.purgeExpired, hzero, hnow, estate_bind, hopen, hle, hpurge]

/-- The same purge without that memory. -/
theorem Committed.purge_panics {P : Pages} {info : BucketMeta} {D : Nest} (h : Committed P info D)
    {m : Expirations} (hexp : Expires m D.dir) {fuel : Nat} (hsize : D.size ≤ fuel)
    (fl : TxFreelist) {maxCapacity limit now : Nat} {time : SystemTime}
    (hnow : epochMillis time = .ok now) (hL : D.dir.entries ttlBucket ≠ none)
    (hcap : maxCapacity < limit) :
    ∃ s, Bucket.purgeExpired P fuel maxCapacity time limit (.fromMeta info, fl) =
      .error (.panic "capacity overflow") s := by
  have hzero : limit ≠ 0 := by omega
  have hun : OnlyOpened (.fromMeta info) := ⟨rfl, fun name c hc => by cases hc⟩
  obtain ⟨-, hnone, -⟩ | ⟨L, X, hL, hX, -⟩ := hexp
  · exact absurd hnone hL
  · obtain ⟨b₁, hopen, -⟩ := h.overlay.openIndexes_found hun h.within hsize hL hX fl
    exact ⟨(b₁, fl), by simp [Bucket.purgeExpired, hzero, hnow, estate_bind, hopen, hcap]⟩

/-- A purge at a time removes the first of the expirations that are due, at most `limit` of
them. -/
def PurgesEarliest (P : Pages) (fuel maxCapacity : Nat) (time : SystemTime) (limit : Nat)
    (m : Expirations) (d : Dir) (s : BucketTx) : Prop :=
  ∃ (due : List (Nat × Bytes)) (s' : BucketTx) (d' : Dir),
    due.Pairwise earlier ∧ (∀ t k, (t, k) ∈ due ↔ m k = some t ∧ (t : Int) ≤ time) ∧
    Bucket.purgeExpired P fuel maxCapacity time limit s = .ok (.ok (min limit due.length)) s' ∧
    StandsFor P s' d' ∧ Purged ((due.take limit).map Prod.snd) m d d'

/-- The rounds that a scan of a nested bucket takes are bounded. -/
theorem exists_rounds (D : Nest) (name : Bytes) :
    ∃ n, ∀ S, D.subs.lookup name = some S →
      S.tree.subs.length + S.tree.content.length + 2 ≤ n := by
  cases hS : D.subs.lookup name with
  | none => exact ⟨0, fun S h => by cases h⟩
  | some S =>
    refine ⟨S.tree.subs.length + S.tree.content.length + 2, fun S' h => ?_⟩
    rw [← Option.some.inj h]

/-- **The first purge of a transaction removes the earliest deadlines if and only if the time
is in the range of the deadlines and there is memory for `limit` keys.**  The first is not asked
for when `limit` is zero, the second not when nothing in the bucket expires. -/
theorem purge_earliest_iff {P : Pages} {info : BucketMeta} {D : Nest} (h : Committed P info D)
    {m : Expirations} (hexp : Expires m D.dir)
    (hplain : ∀ k t, m k = some t → ∀ c, D.dir.entries k ≠ some (.bucket c)) :
    ∃ N, ∀ fuel ≥ N, ∀ (fl : TxFreelist) (maxCapacity : Nat) (time : SystemTime) (limit : Nat),
      PurgesEarliest P fuel maxCapacity time limit m D.dir (.fromMeta info, fl) ↔
        limit = 0 ∨ (∃ now, epochMillis time = .ok now) ∧
          (D.dir.entries ttlBucket = none ∨ limit ≤ maxCapacity) := by
  obtain ⟨n, hn⟩ := exists_rounds D ttlDeadlinesBucket
  refine ⟨D.size + n, fun fuel hfuel fl maxCapacity time limit => ?_⟩
  have hsize : D.size ≤ fuel := by omega
  by_cases hzero : limit = 0
  · obtain ⟨due, hsorted, hdue⟩ := h.overlay.due_exists hexp time
    refine iff_of_true ⟨due, (.fromMeta info, fl), D.dir, hsorted, hdue, ?_,
      ⟨_, D, h.overlay, rfl⟩, ?_⟩ (.inl hzero)
    · rw [Bucket.purgeExpired, if_pos hzero, hzero, Nat.zero_min]
      rfl
    · rw [hzero]
      exact ⟨fun k _ => rfl, hexp, fun _ _ => rfl⟩
  cases hnow : epochMillis time with
  | error e =>
    -- the error is reported before anything is looked up
    refine iff_of_false ?_ (by simp [hzero])
    rintro ⟨due, s', d', -, -, hrun, -⟩
    rw [Bucket.purgeExpired, if_neg hzero, hnow] at hrun
    cases hrun
  | ok now =>
    have hcond : (limit = 0 ∨ (∃ now', (Except.ok now : Except Error Nat) = .ok now') ∧
        (D.dir.entries ttlBucket = none ∨ limit ≤ maxCapacity)) ↔
        D.dir.entries ttlBucket = none ∨ limit ≤ maxCapacity := by simp [hzero]
    rw [hcond]
    constructor
    · rintro ⟨due, s', d', -, -, hrun, -⟩
      by_contra hcap
      obtain ⟨hL, hcap⟩ := not_or.mp hcap
      obtain ⟨s, hpanics⟩ := h.purge_panics hexp hsize fl hnow hL (not_le.mp hcap)
      rw [hpanics] at hrun
      cases hrun
    · intro hcap
      obtain ⟨due, b', fl', T', hsorted, hdue, hrun, hover, hpurged⟩ :=
        h.purge hexp hplain hsize (fun S hS => (hn S hS).trans (by omega)) fl hzero hnow hcap
      exact ⟨due, (b', fl'), T'.dir, hsorted, hdue, hrun, ⟨_, T', hover, rfl⟩, hpurged⟩

/-! ### A bucket with both indexes -/

/-- Records that expire at one time. -/
theorem expires_together {t : Nat} (ht : t < 2 ^ 64) (keys : List Bytes) {d : Dir}
    {i j : Info} {n n' : Nat}
    (hlookup : d.entries ttlBucket =
      some (.bucket (⟨leaf i (keys.map fun k => .kv k (beBytes 8 t)), n, []⟩ : Nest).dir))
    (hdeadlines : d.entries ttlDeadlinesBucket =
      some (.bucket
        (⟨leaf j ((keys.map (deadlineKey t)).map fun x => .kv x []), n', []⟩ : Nest).dir)) :
    Expires (fun k => if k ∈ keys then some t else none) d := by
  refine .inr ⟨_, _, hlookup, hdeadlines, ?_, ?_, ?_⟩
  · intro k t' hk
    split at hk
    · rwa [← Option.some.inj hk]
    · cases hk
  · rw [dir_leaf_records]
    funext k
    by_cases hk : k ∈ keys <;> simp [lookupEntries, hk]
  · rw [dir_leaf_records]
    funext x
    have hmem : x ∈ keys.map (deadlineKey t) ↔
        8 ≤ x.length ∧ x.drop 8 ∈ keys ∧ ofBeBytes (x.take 8) = t := by
      rw [List.mem_map]
      constructor
      · rintro ⟨k, hk, hx⟩
        obtain ⟨hlen, hdrop, htake⟩ := (eq_deadlineKey ht).mp hx.symm
        exact ⟨hlen, hdrop ▸ hk, htake⟩
      · rintro ⟨hlen, hk, htake⟩
        exact ⟨x.drop 8, hk, ((eq_deadlineKey ht).mpr ⟨hlen, rfl, htake⟩).symm⟩
    rw [deadlineEntries]
    by_cases hx : x ∈ keys.map (deadlineKey t)
    · obtain ⟨hlen, hk, htake⟩ := hmem.mp hx
      rw [if_pos hx, if_pos ⟨hlen, by rw [if_pos hk, htake]⟩]
    · rw [if_neg hx, if_neg]
      rintro ⟨hlen, hk⟩
      split at hk
      · exact hx (hmem.mpr ⟨hlen, by assumption, (Option.some.inj hk).symm⟩)
      · cases hk

/-- A bucket at page 2 with its lookup bucket at page 3 and its deadline bucket at page 4. -/
def indexedPages : Pages where
  validate
    | 2 => .ok ⟨2, 0, .leaf [.bucket ttlDeadlinesBucket ⟨4, 1⟩, .bucket ttlBucket ⟨3, 1⟩,
        .kv [5] [50], .kv [6] [60]]⟩
    | 3 => .ok ⟨3, 0, .leaf [.kv [5] (beBytes 8 100)]⟩
    | 4 => .ok ⟨4, 0, .leaf [.kv (deadlineKey 100 [5]) []]⟩
    | _ => .error "page is out of range"
  pagesize := 1024

/-- The nest of that file. -/
def indexedNest : Nest :=
  ⟨leaf ⟨2, 1, none⟩ [.bucket ttlDeadlinesBucket ⟨4, 1⟩, .bucket ttlBucket ⟨3, 1⟩,
      .kv [5] [50], .kv [6] [60]], 4,
    [(ttlDeadlinesBucket, ⟨leaf ⟨4, 1, none⟩ [.kv (deadlineKey 100 [5]) []], 1, []⟩),
      (ttlBucket, ⟨leaf ⟨3, 1, none⟩ [.kv [5] (beBytes 8 100)], 1, []⟩)]⟩

theorem indexed_committed : Committed indexedPages ⟨2, 4⟩ indexedNest :=
  committed_of_check (by decide +kernel) (by decide +kernel) rfl rfl

theorem timedExpirations_eq_some {k : Bytes} {t : Nat} :
    timedExpirations k = some t ↔ k = [5] ∧ t = 100 := by
  rw [timedExpirations]
  split
  · simp [*, eq_comm]
  · simp [*]

theorem indexed_expires : Expires timedExpirations indexedNest.dir := by
  have hsame : timedExpirations = fun k => if k ∈ [[5]] then some 100 else none := by
    funext k
    simp [timedExpirations]
  rw [hsame]
  exact expires_together (by omega) _ (by rw [Nest.dir_entries]; rfl)
    (by rw [Nest.dir_entries]; rfl)

theorem indexed_plain (k : Bytes) (t : Nat) (hk : timedExpirations k = some t) (c : Dir) :
    indexedNest.dir.entries k ≠ some (.bucket c) := by
  rw [(timedExpirations_eq_some.mp hk).1, Nest.dir_entries]
  exact fun h => by cases h

/-- At time 200 the record `[5]` is purged. -/
theorem purge_earliest_indexed :
    ∃ N, ∀ fuel ≥ N, PurgesEarliest indexedPages fuel 1000 200 7 timedExpirations indexedNest.dir
      (.fromMeta ⟨2, 4⟩, timedFreelist) := by
  obtain ⟨N, h⟩ := purge_earliest_iff indexed_committed indexed_expires indexed_plain
  exact ⟨N, fun fuel hfuel => (h fuel hfuel timedFreelist 1000 200 7).mpr
    (.inr ⟨⟨200, rfl⟩, .inr (by omega)⟩)⟩

/-- With a limit for which there is no memory the purge panics, and before the epoch it fails,
although one record and none are due. -/
theorem purge_fails :
    (∃ s, Bucket.purgeExpired indexedPages 12 (2 ^ 63 - 1) 200 (2 ^ 64 - 1)
      (.fromMeta ⟨2, 4⟩, timedFreelist) = .error (.panic "capacity overflow") s) ∧
    ∃ s, Bucket.purgeExpired indexedPages 12 (2 ^ 63 - 1) (-1) 1
      (.fromMeta ⟨2, 4⟩, timedFreelist) = .ok (.error .io) s := by
  exact ⟨⟨_, by rfl⟩, _, by rfl⟩

end Tagdata.Analysis
