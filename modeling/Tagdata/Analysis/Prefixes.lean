import Tagdata.Analysis.Scans
import Tagdata.Analysis.TypedRanges
import Tagdata.Analysis.Simulation

/-!
# Prefix scans

`prefix` seeks the prefix and stops at the first record that lacks it.  The records with the
prefix follow each other from the prefix on, so the scan is exact when it begins there.  But
when the prefix is no key, `seek` leaves the cursor on the entry before it; if that is a record,
it lacks the prefix and the scan ends before it has begun.
-/

set_option autoImplicit false

namespace Tagdata.Analysis

open Tagdata.Library Tagdata.Library.SearchTree Tagdata.Model Tagdata.Interface

/-! ## Prefixes and the order of the keys -/

/-- Between a prefix and a key that has it there are only keys that have it. -/
theorem prefix_between {p a c : Bytes} (hle : p ≤ a) (hlt : a < c) (hc : p <+: c) : p <+: a := by
  induction p generalizing a c with
  | nil => exact List.nil_prefix
  | cons x p ih =>
    cases c with
    | nil => exact absurd hlt (List.not_lt_nil a)
    | cons z c =>
      obtain ⟨rfl, hpc⟩ := List.cons_prefix_cons.mp hc
      cases a with
      | nil => exact absurd hle (not_le.mpr (List.nil_lt_cons x p))
      | cons y a =>
        -- the first bytes are the same, since that of the middle key is between them
        rw [← not_lt, List.cons_lt_cons_iff, not_or] at hle
        rcases List.cons_lt_cons_iff.mp hlt with hyx | ⟨rfl, hac⟩
        · exact absurd hyx hle.1
        · have hpa : p ≤ a := not_lt.mp fun hap => hle.2 ⟨rfl, hap⟩
          exact List.cons_prefix_cons.mpr ⟨rfl, ih hpa hac hpc⟩

/-- A key with the prefix is not before it. -/
theorem prefix_le {p k : Bytes} (h : p <+: k) : p ≤ k := not_lt.mp (List.IsPrefix.le h)

/-- The entries that a prefix scan goes over: those from the prefix on, after the greatest
smaller entry if the prefix itself is no key. -/
def fromPrefix (p : Bytes) (content : List Leaf) : List Leaf :=
  if (entryAt p content).isSome then fromKey p content
  else (content.filter fun e => e.key < p).getLast?.toList ++ fromKey p content

/-- The scan begins at a record before the prefix. -/
def BeginsBefore (p : Bytes) (content : List Leaf) : Prop :=
  entryAt p content = none ∧ ∃ k v, (content.filter fun e => e.key < p).getLast? = some (.kv k v)

section Scan

variable {K V : Type} {codec : Codec K V} {P : Pages} {D : Nest} {b : InnerBucket}
  {N fuel millis : Nat} {now : SystemTime} {m : Expirations} {l : List Leaf}
  {stops live : Bytes → Bool} {p : Bytes}

/-- From the prefix on, the scan is exact. -/
theorem produced_fromKey (h : SortedBy Leaf.key l) (hstops : ∀ k, stops k = !p.isPrefixOf k) :
    produced codec stops live (fromKey p l) =
      ((records l).filter fun r => p.isPrefixOf r.1 && live r.1).map fun r =>
        codec.decode r.1 r.2 := by
  have hcut : ((records l).filter fun r => decide (p ≤ r.1)).Pairwise fun r r' =>
      p.isPrefixOf r'.1 = true → p.isPrefixOf r.1 = true := by
    have hsorted := (records_sorted h).filter fun r => decide (p ≤ r.1)
    refine hsorted.imp_of_mem fun {r r'} hr _ hlt hpre => ?_
    have hle : p ≤ r.1 := by simpa using (List.mem_filter.mp hr).2
    rw [List.isPrefixOf_iff_prefix] at hpre ⊢
    exact prefix_between hle hlt hpre
  simp only [produced, hstops, Bool.not_not]
  rw [fromKey_eq_filter h, records_filter _ fun k => decide (p ≤ k), takeWhile_eq_filter hcut,
    List.filter_filter, List.filter_filter]
  congr 1
  refine List.filter_congr fun r _ => ?_
  cases hpre : p.isPrefixOf r.1 with
  | false => simp
  | true => simp [prefix_le (List.isPrefixOf_iff_prefix.mp hpre)]

/-- The scan gives the live records with the prefix, unless there are some and it begins at a
record before the prefix. -/
theorem produced_fromPrefix_iff (codec : Codec K V) (live : Bytes → Bool)
    (h : SortedBy Leaf.key l) (hstops : ∀ k, stops k = !p.isPrefixOf k) :
    produced codec stops live (fromPrefix p l) =
        (((records l).filter fun r => p.isPrefixOf r.1 && live r.1).map fun r =>
          codec.decode r.1 r.2) ↔
      (BeginsBefore p l → ∀ r ∈ records l, p.isPrefixOf r.1 = true → live r.1 = false) := by
  cases hentry : entryAt p l with
  | some e =>
    rw [fromPrefix, hentry, if_pos Option.isSome_some]
    refine iff_of_true (produced_fromKey h hstops) fun hbegins => ?_
    rw [BeginsBefore, hentry] at hbegins
    cases hbegins.1
  | none =>
    rw [fromPrefix, hentry, if_neg (by simp)]
    cases hlast : (l.filter fun e => decide (e.key < p)).getLast? with
    | none =>
      refine iff_of_true (produced_fromKey h hstops) fun hbegins => ?_
      obtain ⟨-, k, v, hkv⟩ := hbegins
      rw [hlast] at hkv
      cases hkv
    | some e =>
      cases e with
      | bucket name info =>
        refine iff_of_true (produced_fromKey h hstops) fun hbegins => ?_
        obtain ⟨-, k, v, hkv⟩ := hbegins
        rw [hlast] at hkv
        cases hkv
      | kv k v =>
        have hlt : (Leaf.kv k v).key < p := by
          simpa using (List.mem_filter.mp (List.mem_of_getLast? hlast)).2
        have hstop : stops k = true := by
          rw [hstops, Bool.not_eq_true', ← Bool.not_eq_true, List.isPrefixOf_iff_prefix]
          exact fun hpre => absurd hlt (prefix_le hpre).not_gt
        have hnil : produced codec stops live
            ((some (Leaf.kv k v)).toList ++ fromKey p l) = [] := by
          rw [Option.toList_some, List.singleton_append, produced_kv, hstop]
          rfl
        rw [hnil, eq_comm, List.map_eq_nil_iff, List.filter_eq_nil_iff]
        have hbegins : BeginsBefore p l := ⟨hentry, k, v, hlast⟩
        simp only [hbegins, true_implies, Bool.and_eq_true, not_and, Bool.not_eq_true]

/-- `prefix` on a collection that was only read. -/
theorem prefixIter_reads (h : Overlay P (some D) b D) (hN : Within N (some D)) (hfuel : N ≤ fuel)
    (hlook : LookedUp m D.dir) (hnow : epochMillis now = .ok millis) (p : Bytes)
    (fl : TxFreelist) :
    ∃ c e b', Collection.prefixIter P fuel p (b, fl) =
        .ok ⟨c, .ok e, none, some p, none, none, false⟩ (b', fl) ∧
      Knows P fuel now (liveAt m millis) e ∧ Overlay P (some D) b' D ∧
      Ahead P b' D.tree c (fromPrefix p D.tree.content) := by
  obtain ⟨st, links, hseek, hplace⟩ := seekCursor_reads h hN hfuel p fl
  have hover := h.withParents links
  have hb := hover.traversable
  obtain ⟨e, b', hiter, hknows, hover', hsame⟩ :=
    iterWith_reads hover hN hfuel hlook hnow ⟨st, false, false⟩ fl
  refine ⟨⟨st, false, false⟩, e, b', ?_, hknows, hover', ?_⟩
  · simp [Collection.prefixIter, caught, estate_bind, estate_map, hseek, hiter]
  · rcases hplace with hblank | ⟨l, x, r, hst, hs⟩
    · rw [hblank.content]
      exact (Ahead.blank false hblank).congr hsame
    · have hstart : fromPrefix p D.tree.content = x :: r := by
        obtain ⟨hfound, hfrom, -⟩ := hst.sought hb hs
        obtain ⟨hl, hr⟩ := hst.split hb
        rw [fromPrefix, hfound, hfrom, hst.content]
        cases hs with
        | here hx => simp [hx]
        | below hx habove =>
          have hsplit : l ++ x :: r = (l ++ [x]) ++ r := by simp
          have hlow : ∀ y ∈ l ++ [x], y.key < p := by
            simpa [or_imp, forall_and, hx] using fun y hy => (hl y hy).trans hx
          rw [if_neg (by simpa using hx.ne), hsplit,
            filter_lt_cut hlow fun y hy => (habove y hy).le, if_pos hx]
          simp
        | first hnil hx =>
          subst hnil
          have hnone : (([] ++ x :: r : List Leaf).filter fun e => decide (e.key < p)) = [] :=
            filter_lt_cut (by simp) (by simpa [hx.le] using fun y hy => (hx.trans (hr y hy)).le)
          rw [if_neg (by simpa using hx.ne'), if_neg hx.not_gt, hnone]
          rfl
      rw [hstart]
      exact (Ahead.moved false hst).congr hsame

end Scan

/-! ## Removing records -/

/-- The deadline bucket, if there is one, holds no nested bucket. -/
def DeadlinesPlain (d : Dir) : Prop :=
  d.entries ttlDeadlinesBucket = none ∨
  ∃ X : Dir, d.entries ttlDeadlinesBucket = some (.bucket X) ∧ ∀ x c, X.entries x ≠ some (.bucket c)

/-- Records are gone with their expirations, and nothing else is. -/
structure Removed (gone : List Bytes) (d d' : Dir) : Prop where
  records : ∀ k, ¬ Reserved k → d'.entries k = if k ∈ gone then none else d.entries k
  expirations : ∀ k, lookupOf d' k = if k ∈ gone then none else lookupOf d k

section Remove

variable {K V : Type} {codec : Codec K V} {seen : Dir → List Data → Prop} {m : Expirations}
  {d : Dir}

theorem LookedUp.lookupOf (h : LookedUp m d) (k : Bytes) :
    lookupOf d k = (m k).map (beBytes 8) := by
  obtain ⟨hnone, hm⟩ | ⟨L, hL, -, hentries⟩ := h
  · simp [Analysis.lookupOf, hnone, hm k]
  · cases hk : m k <;> simp [Analysis.lookupOf, hL, rawValue, hentries, lookupEntries, hk]

theorem LookedUp.congr {d' : Dir} (h : LookedUp m d)
    (hsame : d'.entries ttlBucket = d.entries ttlBucket) : LookedUp m d' := by
  unfold LookedUp at h ⊢
  rwa [hsame]

theorem DeadlinesPlain.congr {d' : Dir} (h : DeadlinesPlain d)
    (hsame : d'.entries ttlDeadlinesBucket = d.entries ttlDeadlinesBucket) :
    DeadlinesPlain d' := by
  unfold DeadlinesPlain at h ⊢
  rwa [hsame]

/-- `remove_deadline` touches the deadline bucket only. -/
theorem DeadlinesPlain.removeDeadline (h : DeadlinesPlain d) (t : Nat) (k : Bytes) :
    Prog.wp (Dir.serve seen) (Program.removeDeadline t k) d fun r d' =>
      r = .ok () ∧ DeadlinesPlain d' ∧ ∀ x, x ≠ ttlDeadlinesBucket →
        d'.entries x = d.entries x := by
  obtain hnone | ⟨X, hX, hplain⟩ := id h
  · have hget : Dir.run (.getBucket ttlDeadlinesBucket) d = (.error .bucketMissing, d) := by
      simp [Dir.run, hnone]
    rw [Program.removeDeadline, Prog.wp_bind, wp_attempt, hget]
    exact ⟨rfl, h, fun _ _ => rfl⟩
  · apply Prog.wp_mono (removeDeadline_spec hX (hplain _))
    rintro r d' ⟨rfl, rfl⟩
    refine ⟨rfl, .inr ⟨_, Dir.set_entries_self _ _ _, fun x c hx => ?_⟩,
      fun x hx => Dir.set_entries_ne d hx _⟩
    by_cases hxk : x = deadlineKey t k
    · rw [hxk, Dir.set_entries_self] at hx
      cases hx
    · rw [Dir.set_entries_ne X hxk] at hx
      exact hplain x c hx

/-- `clear_ttl` unbinds one key. -/
theorem LookedUp.clearTtl (h : LookedUp m d) (hplain : DeadlinesPlain d) (k : Bytes) :
    Prog.wp (Dir.serve seen) (Program.clearTtl k) d fun r d' => (∃ a, r = .ok a) ∧
      LookedUp (Function.update m k none) d' ∧ DeadlinesPlain d' ∧
      ∀ x, ¬ Reserved x → d'.entries x = d.entries x := by
  unfold Program.clearTtl
  obtain ⟨hnone, hm⟩ | ⟨L, hL, hbounded, hentries⟩ := id h
  · have hget : Dir.run (.getBucket ttlBucket) d = (.error .bucketMissing, d) := by
      simp [Dir.run, hnone]
    have hself : Function.update m k none = m := Function.update_eq_self_iff.mpr (hm k).symm
    rw [Prog.wp_bind, wp_attempt, hget, hself]
    exact ⟨⟨_, rfl⟩, h, hplain, fun _ _ => rfl⟩
  · have hget : Dir.run (.getBucket ttlBucket) d = (.ok .unit, d) := by
      simp [Dir.run, hL]
    obtain ⟨hstate, hanswer⟩ := run_delete_value (d := L) (k := k) (by
      rw [hentries]
      exact lookupEntries_ne_bucket m k)
    have hlook : LookedUp (Function.update m k none)
        (d.set ttlBucket (some (.bucket (L.set k none)))) := by
      refine .inr ⟨_, Dir.set_entries_self _ _ _, fun x t hx => ?_, ?_⟩
      · by_cases hxk : x = k
        · simp [hxk] at hx
        · rw [Function.update_of_ne hxk] at hx
          exact hbounded x t hx
      · rw [lookupEntries_update, ← hentries]
        rfl
    have hplain' : DeadlinesPlain (d.set ttlBucket (some (.bucket (L.set k none)))) :=
      hplain.congr (Dir.set_entries_ne d ttlBucket_ne.symm _)
    have hsame : ∀ x, ¬ Reserved x →
        (d.set ttlBucket (some (.bucket (L.set k none)))).entries x = d.entries x :=
      fun x hx => Dir.set_entries_ne d (fun heq => hx (.inl heq)) _
    rw [Prog.wp_bind, wp_attempt, hget]
    simp only [Prog.andThen_ok]
    rw [Prog.wp_bind, wp_inside hL, wp_attempt, hstate]
    rcases hanswer with ⟨-, hanswer⟩ | ⟨v, hv, hanswer⟩
    · rw [hanswer]
      exact ⟨⟨_, rfl⟩, hlook, hplain', hsame⟩
    · obtain ⟨t, hk, rfl⟩ : ∃ t, m k = some t ∧ beBytes 8 t = v := by
        simpa [hentries, lookupEntries] using hv
      rw [hanswer]
      simp only [Prog.andThen_ok, Prog.wp_bind, Program.valueOf, Option.getD_some,
        Prog.wp_ofExcept, decodeExpiration_eight (hbounded k t hk)]
      apply Prog.wp_mono (hplain'.removeDeadline t k)
      rintro r d' ⟨rfl, hplain'', hrest⟩
      refine ⟨⟨_, rfl⟩, hlook.congr (hrest _ ttlBucket_ne), hplain'', fun x hx => ?_⟩
      rw [hrest x fun heq => hx (.inr heq), hsame x hx]

/-- A record has no reserved name. -/
theorem LookedUp.not_reserved (h : LookedUp m d) (hplain : DeadlinesPlain d) {k v : Bytes}
    (hk : d.entries k = some (.value v)) : ¬ Reserved k := by
  rintro (rfl | rfl)
  · obtain ⟨hnone, -⟩ | ⟨L, hL, -⟩ := h
    · rw [hk] at hnone
      cases hnone
    · rw [hk] at hL
      cases hL
  · obtain hnone | ⟨X, hX, -⟩ := hplain
    · rw [hk] at hnone
      cases hnone
    · rw [hk] at hX
      cases hX

/-- `remove` takes a record away with its expiration. -/
theorem LookedUp.remove (h : LookedUp m d) (hplain : DeadlinesPlain d) (r : Row codec)
    (hr : d.entries r.encodedKey = some (.value r.encodedValue)) :
    Prog.wp (Dir.serve seen) (Collection.remove codec r.key) d fun a d' => (∃ v, a = .ok v) ∧
      LookedUp (Function.update m r.encodedKey none) d' ∧ DeadlinesPlain d' ∧
      ∀ x, ¬ Reserved x → d'.entries x = if x = r.encodedKey then none else d.entries x := by
  have hkey := h.not_reserved hplain hr
  have hrun : Dir.run (.delete r.encodedKey) d =
      (.ok (.pair (some (r.encodedKey, r.encodedValue))), d.set r.encodedKey none) := by
    simp [Dir.run, hr]
  have hset : ∀ x, x ≠ r.encodedKey → (d.set r.encodedKey none).entries x = d.entries x :=
    fun x hx => Dir.set_entries_ne d hx _
  have hlook : LookedUp m (d.set r.encodedKey none) :=
    h.congr (hset _ fun heq => hkey (.inl heq.symm))
  have hplain' : DeadlinesPlain (d.set r.encodedKey none) :=
    hplain.congr (hset _ fun heq => hkey (.inr heq.symm))
  have hvalue : rawValue d r.encodedKey = some r.encodedValue := by rw [rawValue, hr]
  rw [Collection.remove, Prog.wp_bind, Prog.wp_ofExcept, r.encodes, Prog.andThen_ok, Prog.wp_bind,
    Program.storage, Prog.wp_mapError, wp_getKv, hvalue]
  simp only [Except.mapError, Prog.andThen_ok, Prog.wp_bind, Prog.wp_ofExcept, r.decodes_value,
    Program.storage, Prog.wp_mapError, wp_perform, hrun]
  apply Prog.wp_mono (hlook.clearTtl hplain' r.encodedKey)
  rintro a d' ⟨⟨cleared, rfl⟩, hlook', hplain'', hsame⟩
  refine ⟨⟨_, rfl⟩, hlook', hplain'', fun x hx => ?_⟩
  rw [hsame x hx]
  by_cases hxk : x = r.encodedKey
  · rw [if_pos hxk, hxk, Dir.set_entries_self]
  · rw [if_neg hxk, hset x hxk]

/-- `remove` for several records. -/
theorem LookedUp.removeAll (rows : List (Row codec)) :
    ∀ {m : Expirations} {d : Dir}, LookedUp m d → DeadlinesPlain d →
      (rows.map Row.encodedKey).Nodup →
      (∀ r ∈ rows, d.entries r.encodedKey = some (.value r.encodedValue)) →
      Prog.wp (Dir.serve seen) (Collection.removeAll codec (rows.map Row.key)) d fun a d' =>
        a = .ok () ∧ Removed (rows.map Row.encodedKey) d d' := by
  induction rows with
  | nil =>
    intro m d h hplain hnodup hrows
    exact ⟨rfl, fun k _ => rfl, fun k => rfl⟩
  | cons r rows ih =>
    intro m d h hplain hnodup hrows
    rw [List.map_cons, List.nodup_cons] at hnodup
    rw [List.map_cons, Collection.removeAll, Prog.forEach, Prog.wp_bind', Prog.wp_bind]
    apply Prog.wp_mono (h.remove hplain r (hrows r List.mem_cons_self))
    rintro a d₁ ⟨⟨v, rfl⟩, h₁, hplain₁, hentries⟩
    have hpresent : ∀ r' ∈ rows, d₁.entries r'.encodedKey = some (.value r'.encodedValue) := by
      intro r' hr'
      have hvalue := hrows r' (List.mem_cons_of_mem _ hr')
      have hne : r'.encodedKey ≠ r.encodedKey := fun heq =>
        hnodup.1 (heq ▸ List.mem_map_of_mem hr')
      rw [hentries _ (h.not_reserved hplain hvalue), if_neg hne, hvalue]
    apply Prog.wp_mono (ih h₁ hplain₁ hnodup.2 hpresent)
    rintro a d' ⟨rfl, hremoved⟩
    refine ⟨rfl, fun k hk => ?_, fun k => ?_⟩
    · rw [hremoved.records k hk, hentries k hk]
      by_cases hkr : k = r.encodedKey <;> simp [hkr]
    · rw [hremoved.expirations, h₁.lookupOf, h.lookupOf]
      by_cases hkr : k = r.encodedKey
      · simp [hkr]
      · simp [hkr]

end Remove

/-! ## `delete_prefix` -/

section Calls

theorem calls_removeDeadline (t : Nat) (k : Bytes) : (Program.removeDeadline t k).Only Calls := by
  refine (calls_attempt rfl).bind fun r => ?_
  rcases r with e | o
  · cases e <;> trivial
  · refine ((calls_attempt rfl).mapCalls (calls_inside ttlDeadlinesBucket)).bind fun r => ?_
    rcases r with e | o
    · cases e <;> trivial
    · trivial

theorem calls_clearTtl (k : Bytes) : (Program.clearTtl k).Only Calls := by
  refine (calls_attempt rfl).bind fun r => ?_
  rcases r with e | o
  · cases e <;> trivial
  · refine ((calls_attempt rfl).mapCalls (calls_inside ttlBucket)).bind fun r => ?_
    rcases r with e | o
    · cases e <;> trivial
    · exact (Prog.only_ofExcept _).bind fun t =>
        (calls_removeDeadline t k).bind fun _ => Prog.only_pure _

variable {K V : Type} (codec : Codec K V)

theorem calls_remove (key : K) : (Collection.remove codec key).Only Calls := by
  refine (Prog.only_ofExcept _).bind fun k => ?_
  have hget : (Program.getKv k).Only Calls := (calls_perform rfl).bind fun _ => Prog.only_pure _
  refine hget.mapError.bind fun previous => ?_
  cases previous with
  | none => trivial
  | some v =>
    exact (Prog.only_ofExcept _).bind fun _ => (calls_perform rfl).mapError.bind fun _ =>
      (calls_clearTtl k).mapError.bind fun _ => Prog.only_pure _

theorem calls_removeAll (keys : List K) : (Collection.removeAll codec keys).Only Calls :=
  Prog.only_forEach (fun key => (calls_remove codec key).bind fun _ => Prog.only_pure _) keys

end Calls

section Delete

variable {K V : Type} {codec : Codec K V} {P : Pages} {D : Nest} {b : InnerBucket}
  {N fuel millis : Nat} {now : SystemTime} {m : Expirations} {rows : List (Row codec)}

/-- The live rows whose encoded key has the prefix. -/
def prefixedRows (live : Bytes → Bool) (p : Bytes) (rows : List (Row codec)) : List (Row codec) :=
  rows.filter fun r => p.isPrefixOf r.encodedKey && live r.encodedKey

/-- The keys that `delete_prefix` collects. -/
theorem collectKeys_yields {it it' : CollectionIter} {rows : List (Row codec)}
    (h : Yields (CollectionIter.next P fuel b codec now) it (itemsOf rows) it') :
    ∀ n, rows.length < n →
      Collection.collectKeys P fuel codec now b n it = .ok (.ok (rows.map Row.key)) it' := by
  induction rows generalizing it with
  | nil =>
    intro n hn
    obtain ⟨n, rfl⟩ : ∃ k, n = k + 1 := ⟨n - 1, by omega⟩
    cases h with
    | done stop =>
      rw [Collection.collectKeys, estate_bind_ok stop]
      rfl
  | cons r rows ih =>
    intro n hn
    rw [List.length_cons] at hn
    obtain ⟨n, rfl⟩ : ∃ k, n = k + 1 := ⟨n - 1, by omega⟩
    rw [itemsOf, List.map_cons] at h
    cases h with
    | more step rest =>
      rw [Collection.collectKeys, estate_bind_ok step]
      simp [estate_bind, ih rest n (by omega)]

/-- A prefix scan yields the rows with the prefix, unless it begins before them. -/
theorem prefix_yields (h : Overlay P (some D) b D)
    (hlen : D.tree.subs.length + D.tree.content.length + 2 ≤ fuel) (hN : Within N (some D))
    (hfuel : N ≤ fuel) (hlook : LookedUp m D.dir) (hnow : epochMillis now = .ok millis)
    (hrows : records D.tree.content = rows.map Row.encoded) (p : Bytes) (fl : TxFreelist) :
    ∃ it b' items it', Collection.prefixIter P fuel p (b, fl) = .ok it (b', fl) ∧
      Overlay P (some D) b' D ∧ items.length < fuel ∧
      Yields (CollectionIter.next P fuel b' codec now) it items it' ∧
      (items = itemsOf (prefixedRows (liveAt m millis) p rows) ↔
        (BeginsBefore p D.tree.content → ∀ r ∈ rows, p.isPrefixOf r.encodedKey = true →
          liveAt m millis r.encodedKey = false)) := by
  obtain ⟨c, e, b', hmake, hknows, hover, hahead⟩ :=
    prefixIter_reads h hN hfuel hlook hnow p fl
  have hstops : ∀ k, CollectionIter.stops ⟨c, .ok e, none, some p, none, none, false⟩ k =
      !p.isPrefixOf k := by
    intro k
    simp [CollectionIter.stops]
  obtain ⟨it', hyields⟩ := yields_ahead codec ⟨c, .ok e, none, some p, none, none, false⟩
    hover.traversable hlen rfl rfl (hknows.knowsOf fun _ => True) (fun _ _ _ => trivial) rfl hahead
  refine ⟨_, b', _, it', hmake, hover, ?_, hyields, ?_⟩
  · have hle := hahead.length_le
    exact (length_produced_le _ _).trans_lt (by omega)
  · have hiff := produced_fromPrefix_iff codec (liveAt m millis) h.traversable.sorted hstops
    rw [hrows, decode_rows rows fun k => p.isPrefixOf k && liveAt m millis k] at hiff
    refine hiff.trans (forall_congr' fun _ => ?_)
    simp [Row.encoded]

/-- `delete_prefix` removes the rows that its scan yields. -/
theorem deletePrefixed_removes (hN : Within N (some D)) (hfuel : N ≤ fuel)
    (hlook : LookedUp m D.dir) (hplain : DeadlinesPlain D.dir)
    {it it' : CollectionIter} {b' : InnerBucket} {fl : TxFreelist} {p : Bytes}
    {gone : List (Row codec)} (hmake : Collection.prefixIter P fuel p (b, fl) = .ok it (b', fl))
    (hover : Overlay P (some D) b' D) (hshort : gone.length < fuel)
    (hyields : Yields (CollectionIter.next P fuel b' codec now) it (itemsOf gone) it')
    (hnodup : (gone.map Row.encodedKey).Nodup)
    (hgone : ∀ r ∈ gone, D.dir.entries r.encodedKey = some (.value r.encodedValue)) :
    ∃ s d, Collection.deletePrefixed P fuel codec now p (b, fl) = .ok (.ok gone.length) s ∧
      StandsFor P s d ∧ Removed (gone.map Row.encodedKey) D.dir d := by
  have hkeys : Collection.prefixedKeys P fuel codec now p (b, fl) =
      .ok (.ok (gone.map Row.key)) (b', fl) := by
    simp [Collection.prefixedKeys, estate_bind, hmake, collectKeys_yields hyields fuel hshort]
  have hwp : Prog.wp (Dir.serve Shows) (Collection.removeAll codec (gone.map Row.key)) D.dir _ :=
    LookedUp.removeAll gone hlook hplain hnodup hgone
  obtain ⟨r, b'', fl', T', hrun, ⟨rfl, hremoved⟩, hover'⟩ :=
    hover.exec_calls hN hfuel fl (calls_removeAll codec (gone.map Row.key)) hwp
  refine ⟨(b'', fl'), T'.dir, ?_, ⟨_, _, hover', rfl⟩, hremoved⟩
  simp [Collection.deletePrefixed, Collection.running, estate_bind, hkeys, hrun]

end Delete

/-- The rows are records of the bucket. -/
theorem Overlay.row_entry {K V : Type} {codec : Codec K V} {P : Pages} {D : Nest}
    {b : InnerBucket} (h : Overlay P (some D) b D) {rows : List (Row codec)}
    (hrows : records D.tree.content = rows.map Row.encoded) {r : Row codec} (hr : r ∈ rows) :
    D.dir.entries r.encodedKey = some (.value r.encodedValue) := by
  apply (mem_pairsOf h.lists).mp
  rw [pairsOf_content, hrows]
  exact List.mem_map_of_mem hr

/-- `prefix` yields exactly the live rows with the prefix, and `delete_prefix` removes exactly
those. -/
structure PrefixExact {K V : Type} (P : Pages) (fuel : Nat) (codec : Codec K V) (now : SystemTime)
    (p : Bytes) (wanted : List (Row codec)) (d : Dir) (s : BucketTx) : Prop where
  scan : ∃ s', Collection.scanned P fuel codec now (Collection.prefixIter P fuel p) s =
    .ok (itemsOf wanted) s'
  delete : ∃ s' d', Collection.deletePrefixed P fuel codec now p s = .ok (.ok wanted.length) s' ∧
    StandsFor P s' d' ∧ Removed (wanted.map Row.encodedKey) d d'

/-- **Prefix scans are exact if and only if they do not begin at a record before the prefix, or
there is no live record with the prefix.** -/
theorem prefix_exact_iff {K V : Type} {codec : Codec K V} {P : Pages} {m : BucketMeta} {D : Nest}
    (h : Committed P m D) {expirations : Expirations} (hlook : LookedUp expirations D.dir)
    (hplain : DeadlinesPlain D.dir) {now : SystemTime} {millis : Nat}
    (hnow : epochMillis now = .ok millis) (rows : List (Row codec))
    (hrows : records D.tree.content = rows.map Row.encoded) (fl : TxFreelist) (p : Bytes) :
    Ordered rows ∧
    ∃ N, ∀ fuel ≥ N,
      (PrefixExact P fuel codec now p (prefixedRows (liveAt expirations millis) p rows) D.dir
          (.fromMeta m, fl) ↔
        (BeginsBefore p D.tree.content → ∀ r ∈ rows, p.isPrefixOf r.encodedKey = true →
          liveAt expirations millis r.encodedKey = false)) := by
  have hover := h.overlay
  have hordered := ordered_rows hover.traversable.sorted hrows
  refine ⟨hordered, D.size + D.tree.subs.length + D.tree.content.length + 2, fun fuel hfuel => ?_⟩
  have hsize : D.size ≤ fuel := by omega
  obtain ⟨it, b, items, it', hmake, hover', hshort, hyields, hiff⟩ :=
    prefix_yields hover (by omega) h.within hsize hlook hnow hrows p fl
  have hscan : Collection.scanned P fuel codec now (Collection.prefixIter P fuel p)
      (.fromMeta m, fl) = .ok items (b, fl) := by
    simp [Collection.scanned, CollectionIter.collect, estate_bind, hmake,
      hyields.drain .diverge fuel hshort]
  rw [← hiff]
  constructor
  · rintro ⟨⟨s', hexact⟩, -⟩
    rw [hscan] at hexact
    exact (EStateM.Result.ok.inj hexact).1
  · rintro rfl
    rw [itemsOf, List.length_map] at hshort
    refine ⟨⟨_, hscan⟩, deletePrefixed_removes h.within hsize hlook hplain hmake hover'
      hshort hyields ?_ fun r hr => hover.row_entry hrows (List.mem_of_mem_filter hr)⟩
    have hsub : Ordered (prefixedRows (liveAt expirations millis) p rows) := hordered.filter _
    rw [List.nodup_iff_pairwise_ne, List.pairwise_map]
    exact hsub.imp ne_of_lt

/-- At time 200 the prefix `[6]` is a key of the collection with an expiration. -/
theorem prefix_exact_timed :
    ∃ N, ∀ fuel ≥ N, PrefixExact timedPages fuel bytesCodec 200 [6]
      (prefixedRows (liveAt timedExpirations 200) [6]
        (bytesRows [([1], [10]), ([5], [50]), ([6], [60])])) timedNest.dir
      (.fromMeta ⟨2, 4⟩, timedFreelist) := by
  have hnow : epochMillis 200 = .ok 200 := rfl
  have hplain : DeadlinesPlain timedNest.dir := .inl (by rw [Nest.dir_entries]; rfl)
  obtain ⟨-, N, h⟩ := prefix_exact_iff timed_committed timed_lookedUp hplain hnow
    (bytesRows [([1], [10]), ([5], [50]), ([6], [60])]) rfl timedFreelist [6]
  refine ⟨N, fun fuel hfuel => (h fuel hfuel).mpr ?_⟩
  rintro ⟨hnone, -⟩
  cases hnone

/-- A collection with the records `[1]` and `[5, 0]`. -/
def prefixPages : Pages where
  validate
    | 2 => .ok ⟨2, 0, .leaf [.kv [1] [10], .kv [5, 0] [50]]⟩
    | _ => .error "page is out of range"
  pagesize := 1024

/-- The prefix `[5]` is no key and `[1]` is a record, so the scan misses `[5, 0]` and nothing is
deleted. -/
theorem prefix_misses_records :
    ([5] : Bytes).isPrefixOf [5, 0] = true ∧
    (∃ s, Collection.scanned prefixPages 12 bytesCodec 200
      (Collection.prefixIter prefixPages 12 [5])
      (.fromMeta ⟨2, 2⟩, timedFreelist) = .ok [] s) ∧
    ∃ s, Collection.deletePrefixed prefixPages 12 bytesCodec 200 [5]
      (.fromMeta ⟨2, 2⟩, timedFreelist) = .ok (.ok 0) s := by
  exact ⟨rfl, ⟨_, by rfl⟩, _, by rfl⟩

end Tagdata.Analysis
