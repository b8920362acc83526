import Mathlib

/-!
# Parsers of byte strings

A parser takes bytes from the front of its input.  `Reads p bytes a` says that it takes exactly
`bytes` and returns `a`, whatever comes after them.  A format is right when its parser reads what
its encoder wrote; both sides are put together from the same parts.
-/

set_option autoImplicit false

namespace Tagdata.Library

variable {ε ε' α β : Type}

/-- A computation that consumes its input. -/
abbrev Parser (ε α : Type) := StateT (List UInt8) (Except ε) α

/-- The parser takes these bytes and returns this value. -/
def Reads (p : Parser ε α) (bytes : List UInt8) (a : α) : Prop :=
  ∀ rest, p.run (bytes ++ rest) = .ok (a, rest)

theorem reads_pure (a : α) : Reads (pure a : Parser ε α) [] a := fun _ => rfl

theorem Reads.bind {p : Parser ε α} {f : α → Parser ε β} {bytes more : List UInt8} {a : α} {b : β}
    (hp : Reads p bytes a) (hf : Reads (f a) more b) : Reads (p >>= f) (bytes ++ more) b := by
  intro rest
  rw [StateT.run_bind, List.append_assoc, hp]
  exact hf rest

/-- The last step of a parser, which takes nothing. -/
theorem Reads.map {p : Parser ε α} {f : α → β} {bytes : List UInt8} {a : α} (hp : Reads p bytes a) :
    Reads (p >>= fun a => pure (f a)) bytes (f a) := by
  have h := Reads.bind (f := fun a => pure (f a)) hp (reads_pure (f a))
  rwa [List.append_nil] at h

/-- What a sequence returned, both parts have returned. -/
theorem run_bind_ok {p : Parser ε α} {f : α → Parser ε β} {bytes rest : List UInt8} {b : β}
    (h : (p >>= f).run bytes = .ok (b, rest)) :
    ∃ a more, p.run bytes = .ok (a, more) ∧ (f a).run more = .ok (b, rest) := by
  rw [StateT.run_bind] at h
  cases hrun : p.run bytes with
  | error e =>
    rw [hrun] at h
    cases h
  | ok r =>
    rw [hrun] at h
    exact ⟨r.1, r.2, rfl, h⟩

/-- On the bytes alone nothing is left. -/
theorem Reads.run {p : Parser ε α} {bytes : List UInt8} {a : α} (h : Reads p bytes a) :
    p.run bytes = .ok (a, []) := by
  have hnil := h []
  rwa [List.append_nil] at hnil

/-! ## Repetition -/

/-- Runs a parser a number of times. -/
def times (p : Parser ε α) : Nat → Parser ε (List α)
  | 0 => pure []
  | n + 1 => do
      let a ← p
      let as ← times p n
      return a :: as

/-- The encodings one after another, unless one of them fails. -/
def encodeAll (encode : α → Except ε (List UInt8)) : List α → Except ε (List UInt8)
  | [] => .ok []
  | a :: as => do
      let bytes ← encode a
      let more ← encodeAll encode as
      return bytes ++ more

theorem reads_times {p : Parser ε α} {encode : α → Except ε (List UInt8)} {as : List α}
    {bytes : List UInt8} (h : ∀ a ∈ as, ∀ b, encode a = .ok b → Reads p b a)
    (hbytes : encodeAll encode as = .ok bytes) : Reads (times p as.length) bytes as := by
  induction as generalizing bytes with
  | nil =>
    obtain rfl := Except.ok.inj hbytes
    exact reads_pure []
  | cons a as ih =>
    cases hfirst : encode a with
    | error e => simp [encodeAll, hfirst, bind, Except.bind] at hbytes
    | ok first =>
      cases hmore : encodeAll encode as with
      | error e => simp [encodeAll, hfirst, hmore, bind, Except.bind] at hbytes
      | ok more =>
        have hsplit : bytes = first ++ more := by
          simpa [encodeAll, hfirst, hmore, bind, Except.bind, pure, Except.pure] using hbytes.symm
        rw [hsplit]
        have hrest := ih (fun x hx => h x (List.mem_cons_of_mem _ hx)) hmore
        exact (h a (by simp) first hfirst).bind hrest.map

/-! ## Truncated input -/

/-- What a parser returns does not depend on the bytes it has left. -/
def Extends (p : Parser ε α) : Prop :=
  ∀ bytes a rest, p.run bytes = .ok (a, rest) → ∀ more,
    p.run (bytes ++ more) = .ok (a, rest ++ more)

theorem extends_pure (a : α) : Extends (pure a : Parser ε α) := by
  intro bytes b rest h more
  obtain ⟨rfl, rfl⟩ := Prod.mk.inj (Except.ok.inj h)
  rfl

theorem extends_throw (e : ε) : Extends (throw e : Parser ε α) := by
  intro bytes b rest h
  cases h

theorem Extends.bind {p : Parser ε α} {f : α → Parser ε β} (hp : Extends p)
    (hf : ∀ a, Extends (f a)) : Extends (p >>= f) := by
  intro bytes b rest h more
  obtain ⟨a, left, hfirst, hsecond⟩ := run_bind_ok h
  rw [StateT.run_bind, hp bytes a left hfirst more]
  exact hf a left b rest hsecond more

theorem extends_times {p : Parser ε α} (hp : Extends p) (n : Nat) : Extends (times p n) := by
  induction n with
  | zero => exact extends_pure []
  | succ n ih => exact hp.bind fun a => ih.bind fun as => extends_pure (a :: as)

/-- A parser refuses what is left of an encoding when something is cut off its end. -/
theorem Reads.truncated {p : Parser ε α} {bytes more : List UInt8} {a : α}
    (h : Reads p (bytes ++ more) a) (hp : Extends p) (hmore : more ≠ []) :
    ∃ e, p.run bytes = .error e := by
  cases hrun : p.run bytes with
  | error e => exact ⟨e, rfl⟩
  | ok r =>
    have hlong := (hp bytes r.1 r.2 hrun more).symm.trans h.run
    have hnil := (Prod.mk.inj (Except.ok.inj hlong)).2
    exact absurd (List.append_eq_nil_iff.mp hnil).2 hmore

/-! ## Other errors -/

/-- The parser with its errors renamed. -/
def mapErrors (f : ε → ε') (p : Parser ε α) : Parser ε' α := fun bytes => (p.run bytes).mapError f

theorem mapErrors_pure (f : ε → ε') (a : α) : mapErrors f (pure a : Parser ε α) = pure a := rfl

theorem mapErrors_bind (f : ε → ε') (p : Parser ε α) (g : α → Parser ε β) :
    mapErrors f (p >>= g) = mapErrors f p >>= fun a => mapErrors f (g a) := by
  funext bytes
  show ((p >>= g).run bytes).mapError f =
    (p.run bytes).mapError f >>= fun r => ((g r.1).run r.2).mapError f
  rw [StateT.run_bind]
  cases p.run bytes <;> rfl

theorem mapErrors_lift (f : ε → ε') (r : Except ε α) :
    mapErrors f (liftM r : Parser ε α) = liftM (r.mapError f) := by
  funext bytes
  cases r <;> rfl

theorem mapErrors_times (f : ε → ε') (p : Parser ε α) (n : Nat) :
    mapErrors f (times p n) = times (mapErrors f p) n := by
  induction n with
  | zero => rfl
  | succ n ih => simp only [times, mapErrors_bind, ih, mapErrors_pure]

end Tagdata.Library
