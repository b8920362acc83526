import Tagdata.Analysis.Positions

/-!
# Sequences of cursor calls

One cursor takes any sequence of `seek`, `seek_last`, `next`, `previous` and `current`.  What
it answers depends on the stack and the two flags, and these on the last call that moved it;
`Situation` says how.  One call takes a situation to a situation, except at three places: a
second `next` on an empty bucket, `current` or `previous` after `next` ended below a root
branch, and `previous` after `previous` ended.
-/

set_option autoImplicit false

namespace Tagdata.Analysis

open Tagdata.Library Tagdata.Library.SearchTree Tagdata.Model

/-- A call on a cursor. -/
inductive CursorCall where
  | seek (key : Bytes)
  | seekLast
  | next
  | previous
  | current
deriving DecidableEq, Repr

/-- What a call answers. -/
inductive CursorAnswer where
  | found (exact : Bool)
  | moved
  | item (data : Option Data)
deriving DecidableEq, Repr

/-- A call on the cursor of a bucket. -/
def CursorCall.run (P : Pages) (fuel : Nat) :
    CursorCall → EStateM Fault (Cursor × InnerBucket) CursorAnswer
  | .seek key => CursorAnswer.found <$> Cursor.seek P fuel key
  | .seekLast => (fun _ => .moved) <$> Range.onCursor fun b => Cursor.seekLast P b fuel
  | .next => CursorAnswer.item <$> Range.onCursor fun b => Cursor.advance P b fuel
  | .previous => CursorAnswer.item <$> Range.onCursor fun b => Cursor.previous P b fuel
  | .current => CursorAnswer.item <$> Range.onCursor fun b c =>
      Model.ofExcept (Cursor.current P b c) c

/-- The last call that moved the cursor, with its answer. -/
abbrev LastMove := Option (CursorCall × CursorAnswer)

/-- The last move after one more call. -/
def LastMove.after (last : LastMove) (call : CursorCall) (answer : CursorAnswer) : LastMove :=
  if call = .current then last else some (call, answer)

/-- An answered item is an entry of the tree. -/
def AnswersEntry (t : NodeTree) : CursorAnswer → Prop
  | .item (some data) => ∃ e ∈ t.content, data = Data.ofLeaf e
  | _ => True

/-- `next` and `previous` answer `None` when the last move was the same and answered `None`. -/
def StaysExhausted (last : LastMove) (call : CursorCall) (answer : CursorAnswer) : Prop :=
  call = .next ∨ call = .previous → last = some (call, .item none) → answer = .item none

/-- Every call of the sequence returns, items are entries, and an exhausted direction stays
exhausted until the cursor is moved otherwise. -/
def GoesWell (P : Pages) (fuel : Nat) (t : NodeTree) :
    LastMove → Cursor × InnerBucket → List CursorCall → Prop
  | _, _, [] => True
  | last, s, call :: calls => ∃ answer s', call.run P fuel s = .ok answer s' ∧
      AnswersEntry t answer ∧ StaysExhausted last call answer ∧
      GoesWell P fuel t (last.after call answer) s' calls

/-- The calls that keep a cursor well, by the last move. -/
def Permitted (t : NodeTree) (last : LastMove) : CursorCall → Prop
  | .next => t.content = [] → ∀ answer, last ≠ some (.next, answer)
  | .previous => (t.content ≠ [] → last ≠ some (.previous, .item none)) ∧
      (t.isLeaf = false → last ≠ some (.next, .item none))
  | .current => t.isLeaf = false → last ≠ some (.next, .item none)
  | _ => True

/-- Every call of the sequence is permitted where it is made. -/
def Careful (P : Pages) (fuel : Nat) (t : NodeTree) :
    LastMove → Cursor × InnerBucket → List CursorCall → Prop
  | _, _, [] => True
  | last, s, call :: calls => Permitted t last call ∧
      ∀ answer s', call.run P fuel s = .ok answer s' →
        Careful P fuel t (last.after call answer) s' calls

instance (t : NodeTree) : (answer : CursorAnswer) → Decidable (AnswersEntry t answer)
  | .item (some data) => inferInstanceAs (Decidable (∃ e ∈ t.content, data = Data.ofLeaf e))
  | .item none => inferInstanceAs (Decidable True)
  | .found _ => inferInstanceAs (Decidable True)
  | .moved => inferInstanceAs (Decidable True)

instance (last : LastMove) (call : CursorCall) (answer : CursorAnswer) :
    Decidable (StaysExhausted last call answer) := by
  unfold StaysExhausted
  infer_instance

instance decidableGoesWell (P : Pages) (fuel : Nat) (t : NodeTree) :
    (last : LastMove) → (s : Cursor × InnerBucket) → (calls : List CursorCall) →
      Decidable (GoesWell P fuel t last s calls)
  | _, _, [] => .isTrue trivial
  | last, s, call :: calls =>
      match hrun : call.run P fuel s with
      | .error _ _ => .isFalse fun ⟨_, _, h, _⟩ => by rw [hrun] at h; cases h
      | .ok answer s' =>
          have := decidableGoesWell P fuel t (last.after call answer) s' calls
          decidable_of_iff (AnswersEntry t answer ∧ StaysExhausted last call answer ∧
              GoesWell P fuel t (last.after call answer) s' calls) <| by
            constructor
            · exact fun h => ⟨answer, s', hrun, h⟩
            · rintro ⟨answer', s'', h, hrest⟩
              rw [hrun] at h
              cases h
              exact hrest

theorem not_next_iff (last : LastMove) :
    last.map Prod.fst ≠ some .next ↔ ∀ answer, last ≠ some (.next, answer) := by
  cases last <;> simp [Prod.ext_iff]

instance (t : NodeTree) (last : LastMove) : (call : CursorCall) → Decidable (Permitted t last call)
  | .next =>
      have := decidable_of_iff _ (not_next_iff last)
      inferInstanceAs (Decidable (t.content = [] → ∀ answer, last ≠ some (.next, answer)))
  | .previous => inferInstanceAs (Decidable (_ ∧ _))
  | .current => inferInstanceAs (Decidable (_ → _))
  | .seek _ => inferInstanceAs (Decidable True)
  | .seekLast => inferInstanceAs (Decidable True)

instance decidableCareful (P : Pages) (fuel : Nat) (t : NodeTree) :
    (last : LastMove) → (s : Cursor × InnerBucket) → (calls : List CursorCall) →
      Decidable (Careful P fuel t last s calls)
  | _, _, [] => .isTrue trivial
  | last, s, call :: calls =>
      match hrun : call.run P fuel s with
      | .error _ _ =>
          decidable_of_iff (Permitted t last call) <| by simp [Careful, hrun]
      | .ok answer s' =>
          have := decidableCareful P fuel t (last.after call answer) s' calls
          decidable_of_iff (Permitted t last call ∧
            Careful P fuel t (last.after call answer) s' calls) <| by simp [Careful, hrun]

section Ends

variable {P : Pages} {b : InnerBucket} {t : NodeTree} {st : List SearchPath}
  {l r : List Leaf} {x : Leaf} {fuel : Nat}

/-- A tree with a branch at its root has entries. -/
theorem Traversable.content_ne_nil (hb : Traversable P b t) (hbranch : t.isLeaf = false) :
    t.content ≠ [] := by
  intro hempty
  cases hchunks : t.chunks with
  | nil => exact chunks_ne_nil hb.readable.bushy hchunks
  | cons d ds =>
    have hd : d ≠ [] := hb.filled hbranch d (by rw [hchunks]; exact List.mem_cons_self)
    rw [← chunks_flatten, hchunks, List.flatten_cons, List.append_eq_nil_iff] at hempty
    exact hd hempty.1

theorem Blank.isLeaf (h : Blank P b t st) : t.isLeaf = true := by
  obtain ⟨i, id, rfl, -, -⟩ := h
  rfl

theorem AtPath.eq_nil {u : NodeTree} (h : AtPath P b st [] u) : st = [] := by
  cases st with
  | nil => rfl
  | cons e st => exact absurd h (by simp [AtPath])

/-- `next` after the last element of a root leaf leaves the cursor on that element. -/
theorem advance_last_leaf (hb : Traversable P b t) (hleaf : t.isLeaf = true)
    (h : Stands P b t st l x []) (pc : Bool) (hfuel : 0 < fuel) :
    Cursor.advance P b fuel ⟨st, true, pc⟩ = .ok none ⟨st, true, false⟩ := by
  obtain ⟨C, i, pre, post, id, rest, hplug, hsees, hpath, rfl, -, hr⟩ := h
  obtain ⟨rfl, -⟩ := List.append_eq_nil_iff.mp hr.symm
  cases C with
  | cons f C =>
    rw [← hplug, isLeaf_plug_cons] at hleaf
    cases hleaf
  | nil =>
    rw [hpath.eq_nil]
    refine advance_pastEnd hb ⟨pre.length, id, rfl, hplug ▸ hsees, ?_, ?_⟩ pc hfuel
    all_goals
      rw [← show leaf i (pre ++ [x]) = t from hplug]
      simp [NodeData.len]

/-- `current` reads a value of the root branch after `next` ended. -/
theorem current_pastEnd (hb : Traversable P b t) (hbranch : t.isLeaf = false)
    (h : PastEnd P b t st) (nc pc : Bool) :
    ∃ pn : PageNode, Cursor.current P b ⟨st, nc, pc⟩ = .error (pn.invalidType "VAL") := by
  obtain ⟨j, id, rfl, ⟨pn, hpn, hd⟩, -, -⟩ := h
  cases t with
  | leaf i d => cases hbranch
  | branch i ks => exact ⟨pn, by simp [Cursor.current, hb.alive, hpn, val_of_branches hd]⟩

/-- `previous` on an empty root leaf that it answered for leaves it. -/
theorem previous_blank_again (h : Blank P b t st) (nc : Bool) (hfuel : 0 < fuel) :
    Cursor.previous P b fuel ⟨st, nc, true⟩ = .ok none ⟨[], nc, true⟩ := by
  obtain ⟨i, id, -, -, rfl⟩ := h
  obtain ⟨fuel, rfl⟩ : ∃ m, fuel = m + 1 := ⟨fuel - 1, by omega⟩
  exact previous_end nc (List.cons_ne_nil _ _) (stepBack_end nc true fuel)

/-- `seek_last` goes to the last element, or nowhere. -/
theorem seekLast_stands (hb : Traversable P b t) (c : Cursor) (hfuel : t.subs.length ≤ fuel) :
    (t.content = [] ∧ Cursor.seekLast P b fuel c = .ok () ⟨[], false, false⟩) ∨
    ∃ st l x, Stands P b t st l x [] ∧
      Cursor.seekLast P b fuel c = .ok () ⟨st, false, false⟩ := by
  by_cases hempty : ∃ i, t = leaf i []
  · left
    obtain ⟨i, rfl⟩ := hempty
    obtain ⟨fuel, rfl⟩ : ∃ m, fuel = m + 1 := ⟨fuel - 1, by simp at hfuel; omega⟩
    have hdesc := descendLast_empty [] false false hb.readable.sees fuel
    rw [← hb.root] at hdesc
    exact ⟨content_leaf i [], by simp [Cursor.seekLast, estate_bind, estate_map, hdesc]⟩
  · right
    have hne : ∀ d ∈ t.chunks, d ≠ [] := by
      cases t with
      | leaf i d =>
        intro d' hd' hnil
        obtain rfl : d' = d := by simpa using hd'
        exact hempty ⟨i, by rw [hnil]⟩
      | branch i ks => exact hb.filled rfl
    obtain ⟨C, i, d, st, id, hplug, hsees, hpath, hd, hchunks, hdesc⟩ :=
      descendLast_to_leaf hb.readable (D := []) false false hne hb.readable.sees
        (show AtPath P b [] [] t from trivial) fuel hfuel
    rw [← hb.root] at hdesc
    have hplace : plug C (leaf i d) = t := hplug
    have hafter : after C = [] := by
      have h1 : t.chunks = chunksBefore C ++ [d] ++ chunksAfter C := by
        rw [← hplace, chunks_plug, chunks_leaf]
      have h2 : chunksBefore C ++ [d] = t.chunks := by simpa [chunksBefore] using hchunks
      have hnil : chunksAfter C = [] := by
        rw [← h2] at h1
        exact List.append_right_eq_self.mp h1.symm
      rw [← chunksAfter_flatten, hnil]
      rfl
    obtain ⟨pre, x, rfl⟩ := (List.eq_nil_or_concat' d).resolve_left hd
    have hlen : (pre ++ [x]).length - 1 = pre.length := by simp
    rw [hlen] at hdesc
    refine ⟨_, before C ++ pre, x, ⟨C, i, pre, [], id, st, hplace, hsees, hpath, rfl, rfl, ?_⟩, ?_⟩
    · rw [hafter, List.nil_append]
    · simp [Cursor.seekLast, estate_bind, estate_map, hdesc]

/-- `previous` on a cursor without a stack goes to the last element, whatever its flags. -/
theorem previous_unset (hb : Traversable P b t) (nc pc : Bool) (hfuel : t.subs.length ≤ fuel) :
    (t.content = [] ∧ Cursor.previous P b fuel ⟨[], nc, pc⟩ = .ok none ⟨[], false, true⟩) ∨
    ∃ st l x, Stands P b t st l x [] ∧
      Cursor.previous P b fuel ⟨[], nc, pc⟩ = .ok (some (Data.ofLeaf x)) ⟨st, false, true⟩ := by
  rcases seekLast_stands hb ⟨[], nc, pc⟩ hfuel with ⟨hempty, hseek⟩ | ⟨st, l, x, hst, hseek⟩
  · left
    have hcur : Cursor.current P b ⟨[], false, true⟩ = .ok none := by
      simp [Cursor.current, hb.alive]
    exact ⟨hempty, by simp [Cursor.previous, estate_bind, hseek, hcur]⟩
  · right
    have hcur := current_stands hb hst false true
    exact ⟨st, l, x, hst, by simp [Cursor.previous, estate_bind, hseek, hcur]⟩

end Ends

/-- Where a cursor is, by the last call that moved it. -/
inductive Situation (P : Pages) (b : InnerBucket) (t : NodeTree) : LastMove → Cursor → Prop
  | unset {last : LastMove} {nc pc : Bool} (fresh : ∀ answer, last ≠ some (.next, answer)) :
      Situation P b t last ⟨[], nc, pc⟩
  | stands {last : LastMove} {st : List SearchPath} {nc pc : Bool} {l : List Leaf} {x : Leaf}
      {r : List Leaf} (place : Stands P b t st l x r)
      (back : last ≠ some (.previous, .item none))
      (ended : last = some (.next, .item none) → t.isLeaf = true ∧ nc = true ∧ r = []) :
      Situation P b t last ⟨st, nc, pc⟩
  | blank {last : LastMove} {st : List SearchPath} {nc pc : Bool} (place : Blank P b t st)
      (again : nc = true ↔ ∃ answer, last = some (.next, answer)) :
      Situation P b t last ⟨st, nc, pc⟩
  | past {st : List SearchPath} (place : PastEnd P b t st) (branch : t.isLeaf = false) :
      Situation P b t (some (.next, .item none)) ⟨st, true, false⟩

/-- The call is permitted, and goes well. -/
def Proceeds (P : Pages) (fuel : Nat) (t : NodeTree) (last : LastMove) (call : CursorCall)
    (c : Cursor) (b : InnerBucket) : Prop :=
  Permitted t last call ∧ ∃ answer c' b', call.run P fuel (c, b) = .ok answer (c', b') ∧
    AnswersEntry t answer ∧ StaysExhausted last call answer ∧ Traversable P b' t ∧
    Situation P b' t (last.after call answer) c'

/-- The call is not permitted, and does not go well. -/
def Breaks (P : Pages) (fuel : Nat) (t : NodeTree) (last : LastMove) (call : CursorCall)
    (s : Cursor × InnerBucket) : Prop :=
  ¬ Permitted t last call ∧
    ∀ answer s', call.run P fuel s = .ok answer s' → ¬ StaysExhausted last call answer

section Steps

variable {P : Pages} {b : InnerBucket} {t : NodeTree} {last : LastMove} {c : Cursor} {fuel : Nat}

theorem content_ne_nil {st : List SearchPath} {l r : List Leaf} {x : Leaf}
    (h : Stands P b t st l x r) : t.content ≠ [] := by
  rw [h.content]
  simp

theorem answersEntry_stands {st : List SearchPath} {l r : List Leaf} {x : Leaf}
    (h : Stands P b t st l x r) : AnswersEntry t (.item (some (Data.ofLeaf x))) :=
  ⟨x, by rw [h.content]; simp, rfl⟩

theorem run_next {c' : Cursor} {d : Option Data} (h : Cursor.advance P b fuel c = .ok d c') :
    CursorCall.next.run P fuel (c, b) = .ok (.item d) (c', b) := by
  simp [CursorCall.run, Range.onCursor, estate_map, h]

theorem run_previous {c' : Cursor} {d : Option Data}
    (h : Cursor.previous P b fuel c = .ok d c') :
    CursorCall.previous.run P fuel (c, b) = .ok (.item d) (c', b) := by
  simp [CursorCall.run, Range.onCursor, estate_map, h]

theorem run_seekLast {c' : Cursor} (h : Cursor.seekLast P b fuel c = .ok () c') :
    CursorCall.seekLast.run P fuel (c, b) = .ok .moved (c', b) := by
  simp [CursorCall.run, Range.onCursor, estate_map, h]

theorem run_current {d : Option Data} (h : Cursor.current P b c = .ok d) :
    CursorCall.current.run P fuel (c, b) = .ok (.item d) (c, b) := by
  simp [CursorCall.run, Range.onCursor, estate_map, h]

/-- A step to the next element, from any call of `next` that answers an element. -/
theorem proceeds_next {st : List SearchPath} {l r : List Leaf} {x : Leaf} (hb : Traversable P b t)
    (hlast : last ≠ some (.next, .item none)) (hst : Stands P b t st l x r)
    (h : Cursor.advance P b fuel c = .ok (some (Data.ofLeaf x)) ⟨st, true, false⟩) :
    Proceeds P fuel t last .next c b :=
  ⟨fun hempty => absurd hempty (content_ne_nil hst), _, _, _, run_next h, answersEntry_stands hst,
    fun _ h => absurd h hlast, hb, .stands hst (by simp [LastMove.after])
    (by simp [LastMove.after])⟩

theorem proceeds_previous {st : List SearchPath} {l r : List Leaf} {x : Leaf}
    (hb : Traversable P b t) (hlast : last ≠ some (.previous, .item none))
    (hended : t.isLeaf = false → last ≠ some (.next, .item none)) (hst : Stands P b t st l x r)
    (h : Cursor.previous P b fuel c = .ok (some (Data.ofLeaf x)) ⟨st, false, true⟩) :
    Proceeds P fuel t last .previous c b :=
  ⟨⟨fun _ => hlast, hended⟩, _, _, _, run_previous h, answersEntry_stands hst,
    fun _ h => absurd h hlast, hb, .stands hst (by simp [LastMove.after])
    (by simp [LastMove.after])⟩

/-- `next` in every situation. -/
theorem Situation.next (hs : Situation P b t last c) (hb : Traversable P b t)
    (hfuel : t.subs.length + 2 ≤ fuel) :
    Proceeds P fuel t last .next c b ∨ Breaks P fuel t last .next (c, b) := by
  cases hs with
  | @unset _ nc pc fresh =>
    left
    rcases advance_unset hb nc pc hfuel with ⟨st, hblank, hadv⟩ | ⟨st, x, r, hst, hadv⟩
    · exact ⟨fun _ => fresh, _, _, _, run_next hadv, trivial, fun _ _ => rfl, hb,
        .blank hblank (by simp [LastMove.after])⟩
    · exact proceeds_next hb (fresh _) hst hadv
  | @stands _ st nc pc l x r place back ended =>
    left
    cases nc with
    | false =>
      refine proceeds_next hb ?_ place (advance_stands hb place pc fuel)
      intro h
      exact absurd (ended h).2.1 (by simp)
    | true =>
      cases r with
      | cons y r =>
        obtain ⟨st', hst', hadv⟩ := advance_on hb place pc hfuel
        refine proceeds_next hb ?_ hst' hadv
        intro h
        exact absurd (ended h).2.2 (by simp)
      | nil =>
        have hpermitted : Permitted t last .next :=
          fun hempty => absurd hempty (content_ne_nil place)
        cases hleaf : t.isLeaf with
        | true =>
          have hadv := advance_last_leaf hb hleaf place pc (show 0 < fuel by omega)
          exact ⟨hpermitted, _, _, _, run_next hadv, trivial, fun _ _ => rfl, hb,
            .stands place (by simp [LastMove.after]) fun _ => ⟨hleaf, rfl, rfl⟩⟩
        | false =>
          obtain ⟨top, hpast, hadv⟩ := advance_last hb place pc hfuel
          exact ⟨hpermitted, _, _, _, run_next hadv, trivial, fun _ _ => rfl, hb, .past hpast hleaf⟩
  | @blank _ st nc pc place again =>
    cases nc with
    | false =>
      left
      have hfresh : ∀ answer, last ≠ some (.next, answer) := by
        intro answer h
        exact absurd (again.mpr ⟨answer, h⟩) (by simp)
      exact ⟨fun _ => hfresh, _, _, _, run_next (advance_blank hb place pc fuel), trivial,
        fun _ _ => rfl, hb, .blank place (by simp [LastMove.after])⟩
    | true =>
      right
      obtain ⟨answer, hlast⟩ := again.mp rfl
      have hadv := advance_blank_again hb place pc (show 0 < fuel by omega)
      refine ⟨fun h => h place.content answer hlast, fun answer s' hrun => ?_⟩
      simp [CursorCall.run, Range.onCursor, estate_map, hadv] at hrun
  | past place branch =>
    left
    have hadv := advance_pastEnd hb place false (show 0 < fuel by omega)
    exact ⟨fun hempty => absurd hempty (hb.content_ne_nil branch), _, _, _, run_next hadv, trivial,
      fun _ _ => rfl, hb, .past place branch⟩

/-- `previous` in every situation. -/
theorem Situation.previous (hs : Situation P b t last c) (hb : Traversable P b t)
    (hfuel : t.subs.length + 2 ≤ fuel) :
    Proceeds P fuel t last .previous c b ∨ Breaks P fuel t last .previous (c, b) := by
  cases hs with
  | @unset _ nc pc fresh =>
    rcases previous_unset hb nc pc (show t.subs.length ≤ fuel by omega) with
      ⟨hempty, hprev⟩ | ⟨st, l, x, hst, hprev⟩
    · left
      exact ⟨⟨fun h => absurd hempty h, fun _ => fresh _⟩, _, _, _, run_previous hprev, trivial,
        fun _ _ => rfl, hb, .unset (by simp [LastMove.after])⟩
    · by_cases hlast : last = some (.previous, .item none)
      · right
        refine ⟨fun h => h.1 (content_ne_nil hst) hlast, fun answer s' hrun hstays => ?_⟩
        rw [run_previous hprev] at hrun
        cases hrun
        cases hstays (.inr rfl) hlast
      · exact .inl (proceeds_previous hb hlast (fun _ => fresh _) hst hprev)
  | @stands _ st nc pc l x r place back ended =>
    left
    have hended : t.isLeaf = false → last ≠ some (.next, .item none) := by
      intro hbranch h
      rw [(ended h).1] at hbranch
      cases hbranch
    cases pc with
    | false => exact proceeds_previous hb back hended place (previous_stands hb place nc fuel)
    | true =>
      rcases List.eq_nil_or_concat' l with rfl | ⟨l, y, rfl⟩
      · have hprev := previous_first hb place nc hfuel
        exact ⟨⟨fun _ => back, hended⟩, _, _, _, run_previous hprev, trivial, fun _ _ => rfl, hb,
          .unset (by simp [LastMove.after])⟩
      · obtain ⟨st', hst', hprev⟩ := previous_on hb place nc hfuel
        exact proceeds_previous hb back hended hst' hprev
  | @blank _ st nc pc place again =>
    left
    have hpermitted : Permitted t last .previous := by
      refine ⟨fun h => absurd place.content h, fun hbranch => ?_⟩
      rw [place.isLeaf] at hbranch
      cases hbranch
    cases pc with
    | false =>
      exact ⟨hpermitted, _, _, _, run_previous (previous_blank hb place nc fuel), trivial,
        fun _ _ => rfl, hb, .blank place (by simp [LastMove.after])⟩
    | true =>
      have hprev := previous_blank_again place nc (show 0 < fuel by omega)
      exact ⟨hpermitted, _, _, _, run_previous hprev, trivial, fun _ _ => rfl, hb,
        .unset (by simp [LastMove.after])⟩
  | @past st place branch =>
    right
    refine ⟨fun h => h.2 branch rfl, fun answer s' hrun => ?_⟩
    have hst : st ≠ [] := by
      obtain ⟨j, id, rfl, -⟩ := place
      simp
    obtain ⟨pn, hcur⟩ := current_pastEnd hb branch place false true
    have hprev : Cursor.previous P b fuel ⟨st, true, false⟩ =
        .error (pn.invalidType "VAL") ⟨st, false, true⟩ := by
      rw [previous_stay true fuel hst, hcur]
      rfl
    simp [CursorCall.run, Range.onCursor, estate_map, hprev] at hrun

/-- `current` in every situation. -/
theorem Situation.current (hs : Situation P b t last c) (hb : Traversable P b t) :
    Proceeds P fuel t last .current c b ∨ Breaks P fuel t last .current (c, b) := by
  have hkeep {d : Option Data} (hcur : Cursor.current P b c = .ok d) (hd : AnswersEntry t (.item d))
      (hlast : t.isLeaf = false → last ≠ some (.next, .item none)) :
      Proceeds P fuel t last .current c b :=
    ⟨hlast, _, _, _, run_current hcur, hd, by simp [StaysExhausted], hb, hs⟩
  cases hs with
  | @unset _ nc pc fresh =>
    have hcur : Cursor.current P b ⟨[], nc, pc⟩ = .ok none := by simp [Cursor.current, hb.alive]
    exact .inl (hkeep hcur trivial fun _ => fresh _)
  | stands place back ended =>
    refine .inl (hkeep (current_stands hb place _ _) (answersEntry_stands place)
      fun hbranch h => ?_)
    rw [(ended h).1] at hbranch
    cases hbranch
  | blank place again =>
    refine .inl (hkeep (current_blank hb place _ _) trivial fun hbranch => ?_)
    rw [place.isLeaf] at hbranch
    cases hbranch
  | past place branch =>
    right
    refine ⟨fun h => h branch rfl, fun answer s' hrun => ?_⟩
    obtain ⟨pn, hcur⟩ := current_pastEnd hb branch place true false
    simp [CursorCall.run, Range.onCursor, estate_map, hcur] at hrun

/-- Every call in every situation. -/
theorem Situation.step (hs : Situation P b t last c) (hb : Traversable P b t)
    (hfuel : t.subs.length + 2 ≤ fuel) (call : CursorCall) :
    Proceeds P fuel t last call c b ∨ Breaks P fuel t last call (c, b) := by
  cases call with
  | next => exact hs.next hb hfuel
  | previous => exact hs.previous hb hfuel
  | current => exact hs.current hb
  | seekLast =>
    left
    rcases seekLast_stands hb c (show t.subs.length ≤ fuel by omega) with
      ⟨-, hseek⟩ | ⟨st, l, x, hst, hseek⟩
    · exact ⟨trivial, _, _, _, run_seekLast hseek, trivial, by simp [StaysExhausted], hb,
        .unset (by simp [LastMove.after])⟩
    · exact ⟨trivial, _, _, _, run_seekLast hseek, trivial, by simp [StaysExhausted], hb,
        .stands hst (by simp [LastMove.after]) (by simp [LastMove.after])⟩
  | seek key =>
    left
    obtain ⟨st, links, hb', hseek, hplace⟩ :=
      seek_stands hb key c (show t.subs.length ≤ fuel by omega)
    have hrun : (CursorCall.seek key).run P fuel (c, b) =
        .ok (.found (entryAt key t.content).isSome) (⟨st, false, false⟩, withParents b links) := by
      simp only [CursorCall.run, estate_map, hseek]
    refine ⟨trivial, _, _, _, hrun, trivial, by simp [StaysExhausted], hb', ?_⟩
    rcases hplace with hblank | ⟨l, x, r, hst, -⟩
    · exact .blank hblank (by simp [LastMove.after])
    · exact .stands hst (by simp [LastMove.after]) (by simp [LastMove.after])

/-- A sequence of calls goes well when every call is permitted, and only then. -/
theorem Situation.goesWell_iff (hs : Situation P b t last c) (hb : Traversable P b t)
    (hfuel : t.subs.length + 2 ≤ fuel) (calls : List CursorCall) :
    GoesWell P fuel t last (c, b) calls ↔ Careful P fuel t last (c, b) calls := by
  induction calls generalizing last c b with
  | nil => exact Iff.rfl
  | cons call calls ih =>
    rcases hs.step hb hfuel call with
      ⟨hpermitted, answer, c', b', hrun, hanswered, hstays, hb', hs'⟩ | ⟨hnot, hbreaks⟩
    · have hrest := ih hs' hb'
      constructor
      · rintro ⟨answer', s', hrun', -, -, hgoes⟩
        obtain ⟨rfl, rfl⟩ : answer = answer' ∧ (c', b') = s' := by simpa [hrun] using hrun'
        refine ⟨hpermitted, fun answer' s' hrun' => ?_⟩
        obtain ⟨rfl, rfl⟩ : answer = answer' ∧ (c', b') = s' := by simpa [hrun] using hrun'
        exact hrest.mp hgoes
      · rintro ⟨-, hcareful⟩
        exact ⟨answer, _, hrun, hanswered, hstays, hrest.mpr (hcareful answer _ hrun)⟩
    · constructor
      · rintro ⟨answer, s', hrun, -, hstays, -⟩
        exact absurd hstays (hbreaks answer s' hrun)
      · rintro ⟨hpermitted, -⟩
        exact absurd hpermitted hnot

end Steps

/-- On a committed bucket, a sequence of calls on a new cursor returns from every call with
entries of the bucket, and with stable ends, exactly when every call is permitted by the last
move before it: on an empty bucket no second `next` follows a `next`; on other buckets no
`previous` follows a `previous` that answered `None`; and in a tree of several levels neither
`current` nor `previous` follows a `next` that answered `None`. -/
theorem cursor_total_iff {P : Pages} {m : BucketMeta} {t : NodeTree}
    (h : CommittedTree P m.rootPage t) {fuel : Nat} (hfuel : t.subs.length + 2 ≤ fuel)
    (calls : List CursorCall) :
    GoesWell P fuel t none (Cursor.new, .fromMeta m) calls ↔
      Careful P fuel t none (Cursor.new, .fromMeta m) calls :=
  Situation.goesWell_iff (.unset (by simp)) h.traversable hfuel calls

/-- The root leaf of an empty bucket. -/
def blankPages : Pages where
  validate
    | 2 => .ok ⟨2, 0, .leaf []⟩
    | _ => .error "page is out of range"
  pagesize := 1024

/-- Three entries in two leaves, walked over in both directions. -/
theorem cursor_total_both_ways :
    GoesWell twoLeafPages 5 twoLeafTree none (Cursor.new, .fromMeta ⟨2, 0⟩)
      [.seek [2], .current, .previous, .previous, .previous, .next, .next, .previous, .seekLast,
        .next, .next, .next] := by
  refine (cursor_total_iff (m := ⟨2, 0⟩) twoLeafTree_committed (by decide) _).mpr ?_
  decide +kernel

/-- A second `next` on the empty bucket, `current` and `previous` after the last entry of two
leaves, and `previous` after the first one: it answers the last entry again. -/
theorem cursor_ends_badly :
    ¬ GoesWell blankPages 5 (.leaf ⟨2, 1, none⟩ []) none (Cursor.new, .fromMeta ⟨2, 0⟩)
      [.next, .next] ∧
    ¬ GoesWell twoLeafPages 5 twoLeafTree none (Cursor.new, .fromMeta ⟨2, 0⟩)
      [.next, .next, .next, .next, .current] ∧
    ¬ GoesWell twoLeafPages 5 twoLeafTree none (Cursor.new, .fromMeta ⟨2, 0⟩)
      [.next, .next, .next, .next, .previous] ∧
    ¬ GoesWell twoLeafPages 5 twoLeafTree none (Cursor.new, .fromMeta ⟨2, 0⟩)
      [.previous, .previous, .previous, .previous, .previous] := by
  decide

end Tagdata.Analysis
