import Mathlib

/-!
# Programs over an interface

A program calls operations of an interface, looks at their answers, and ends with a result or
with an error.  An interface is a relation between states: a call may be answered in several
ways.  `Ends` says how a program can end, and `wp` that it ends in a postcondition whatever the
interface answers.  The same program runs on a machine that serves the calls; a machine that
simulates the interface ends as the interface allows.
-/

set_option autoImplicit false

namespace Tagdata.Library

/-- Programs with operations `O`, answers `A`, errors `ε` and results `α`. -/
inductive Prog (O A ε α : Type) where
  | done (a : α)
  | fail (e : ε)
  | call (o : O) (next : A → Prog O A ε α)

namespace Prog

variable {O A ε α β : Type}

/-- Runs one program after another; an error ends both. -/
def bind : Prog O A ε α → (α → Prog O A ε β) → Prog O A ε β
  | .done a, f => f a
  | .fail e, _ => .fail e
  | .call o next, f => .call o fun a => (next a).bind f

instance : Monad (Prog O A ε) where
  pure := .done
  bind := .bind

/-- A computation without calls. -/
def ofExcept : Except ε α → Prog O A ε α
  | .ok a => .done a
  | .error e => .fail e

/-- Performs an action for the elements of a list, one after another. -/
def forEach {ι : Type} (body : ι → Prog O A ε Unit) : List ι → Prog O A ε Unit
  | [] => .done ()
  | i :: is => (body i).bind fun _ => forEach body is

/-- The same program with other calls. -/
def mapCalls (f : O → O) : Prog O A ε α → Prog O A ε α
  | .done a => .done a
  | .fail e => .fail e
  | .call o next => .call (f o) fun a => (next a).mapCalls f

/-- The same program with other errors. -/
def mapError {ε' : Type} (f : ε → ε') : Prog O A ε α → Prog O A ε' α
  | .done a => .done a
  | .fail e => .fail (f e)
  | .call o next => .call o fun a => (next a).mapError f

/-! ## Meaning -/

section Meaning

variable {S T : Type}

/-- The answers and next states an interface allows for a call. -/
abbrev Iface (S O A : Type) := S → O → A → S → Prop

/-- How a program can end. -/
def Ends (rel : Iface S O A) : Prog O A ε α → S → Except ε α → S → Prop
  | .done a, s, r, s' => r = .ok a ∧ s' = s
  | .fail e, s, r, s' => r = .error e ∧ s' = s
  | .call o next, s, r, s' => ∃ a t, rel s o a t ∧ (next a).Ends rel t r s'

/-- The program ends in the postcondition, whatever the interface answers. -/
def wp (rel : Iface S O A) : Prog O A ε α → S → (Except ε α → S → Prop) → Prop
  | .done a, s, post => post (.ok a) s
  | .fail e, s, post => post (.error e) s
  | .call o next, s, post => ∀ a t, rel s o a t → (next a).wp rel t post

variable {rel : Iface S O A}

theorem wp_iff_ends {p : Prog O A ε α} {s : S} {post : Except ε α → S → Prop} :
    wp rel p s post ↔ ∀ r s', Ends rel p s r s' → post r s' := by
  induction p generalizing s with
  | done a => simp [wp, Ends]
  | fail e => simp [wp, Ends]
  | call o next ih =>
    constructor
    · rintro h r s' ⟨a, t, hrel, hnext⟩
      exact (ih a).mp (h a t hrel) r s' hnext
    · intro h a t hrel
      apply (ih a).mpr
      intro r s' hnext
      exact h r s' ⟨a, t, hrel, hnext⟩

/-- What a program can end in, by the rules for `wp`. -/
theorem ends_iff_wp {p : Prog O A ε α} {s s' : S} {r : Except ε α} :
    Ends rel p s r s' ↔ ¬ wp rel p s fun x t => ¬ (x = r ∧ t = s') := by
  rw [wp_iff_ends]
  constructor
  · intro h hnever
    exact hnever r s' h ⟨rfl, rfl⟩
  · intro h
    by_contra hnever
    apply h
    rintro x t hends ⟨rfl, rfl⟩
    exact hnever hends

@[simp] theorem wp_done (a : α) (s : S) (post : Except ε α → S → Prop) :
    wp rel (.done a) s post = post (.ok a) s := rfl

@[simp] theorem wp_pure (a : α) (s : S) (post : Except ε α → S → Prop) :
    wp rel (pure a) s post = post (.ok a) s := rfl

@[simp] theorem wp_fail (e : ε) (s : S) (post : Except ε α → S → Prop) :
    wp rel (.fail e) s post = post (.error e) s := rfl

@[simp] theorem wp_ofExcept (x : Except ε α) (s : S) (post : Except ε α → S → Prop) :
    wp rel (ofExcept x) s post = post x s := by
  cases x <;> rfl

/-- What the first program has to end in for the second to end in `post`. -/
def andThen (rel : Iface S O A) (f : α → Prog O A ε β) (post : Except ε β → S → Prop) :
    Except ε α → S → Prop
  | .ok a, s => wp rel (f a) s post
  | .error e, s => post (.error e) s

@[simp] theorem andThen_ok (f : α → Prog O A ε β) (post : Except ε β → S → Prop) (a : α)
    (s : S) : andThen rel f post (.ok a) s = wp rel (f a) s post := rfl

@[simp] theorem andThen_error (f : α → Prog O A ε β) (post : Except ε β → S → Prop) (e : ε)
    (s : S) : andThen rel f post (.error e) s = post (.error e) s := rfl

theorem wp_bind' (p : Prog O A ε α) (f : α → Prog O A ε β) (s : S)
    (post : Except ε β → S → Prop) :
    wp rel (p.bind f) s post ↔ wp rel p s (andThen rel f post) := by
  induction p generalizing s with
  | done a => rfl
  | fail e => rfl
  | call o next ih =>
    simp only [bind, wp]
    exact forall_congr' fun a => forall_congr' fun t => imp_congr_right fun _ => ih a t

@[simp] theorem wp_bind (p : Prog O A ε α) (f : α → Prog O A ε β) (s : S)
    (post : Except ε β → S → Prop) :
    wp rel (p >>= f) s post ↔ wp rel p s (andThen rel f post) :=
  wp_bind' p f s post

theorem wp_mono {p : Prog O A ε α} {s : S} {post post' : Except ε α → S → Prop}
    (h : wp rel p s post) (hpost : ∀ r s, post r s → post' r s) : wp rel p s post' := by
  rw [wp_iff_ends] at h ⊢
  exact fun r s' hends => hpost r s' (h r s' hends)

theorem wp_and {p : Prog O A ε α} {s : S} {post post' : Except ε α → S → Prop}
    (h : wp rel p s post) (h' : wp rel p s post') :
    wp rel p s fun r s => post r s ∧ post' r s := by
  rw [wp_iff_ends] at h h' ⊢
  exact fun r s' hends => ⟨h r s' hends, h' r s' hends⟩

theorem wp_true (p : Prog O A ε α) (s : S) : wp rel p s fun _ _ => True :=
  wp_iff_ends.mpr fun _ _ _ => trivial

/-- Where every call is answered, a program ends. -/
theorem exists_ends (htotal : ∀ s o, ∃ a t, rel s o a t) (p : Prog O A ε α) (s : S) :
    ∃ r s', Ends rel p s r s' := by
  induction p generalizing s with
  | done a => exact ⟨.ok a, s, rfl, rfl⟩
  | fail e => exact ⟨.error e, s, rfl, rfl⟩
  | call o next ih =>
    obtain ⟨a, t, hrel⟩ := htotal s o
    obtain ⟨r, s', hends⟩ := ih a t
    exact ⟨r, s', a, t, hrel, hends⟩

/-- The rule of sequence, with a fact that holds in between. -/
theorem wp_seq {p : Prog O A ε α} {f : α → Prog O A ε β} {s : S}
    {middle : Except ε α → S → Prop} {post : Except ε β → S → Prop}
    (hp : wp rel p s middle) (hok : ∀ a s, middle (.ok a) s → wp rel (f a) s post)
    (herror : ∀ e s, middle (.error e) s → post (.error e) s) :
    wp rel (p >>= f) s post := by
  rw [wp_bind]
  apply wp_mono hp
  intro r s hr
  cases r with
  | ok a => exact hok a s hr
  | error e => exact herror e s hr

/-- A postcondition for the runs that return. -/
def onOk (post : α → S → Prop) : Except ε α → S → Prop
  | .ok a, s => post a s
  | .error _, _ => True

@[simp] theorem onOk_ok (post : α → S → Prop) (a : α) (s : S) :
    onOk post (.ok a : Except ε α) s = post a s := rfl

@[simp] theorem onOk_error (post : α → S → Prop) (e : ε) (s : S) :
    onOk post (.error e : Except ε α) s = True := rfl

/-- An error of the first program is one of both. -/
theorem wp_seq_ok {p : Prog O A ε α} {f : α → Prog O A ε β} {s : S} {middle : α → S → Prop}
    {post : β → S → Prop} (hp : wp rel p s (onOk middle))
    (hok : ∀ a s, middle a s → wp rel (f a) s (onOk post)) :
    wp rel (p >>= f) s (onOk post) :=
  wp_seq hp (fun a s h => hok a s h) fun _ _ _ => trivial

/-- A program whose calls go to a part of the state. -/
theorem wp_mapCalls {inner : Iface T O A} {f : O → O} {put : T → S}
    (hlens : ∀ t o a s', rel (put t) (f o) a s' ↔ ∃ t', inner t o a t' ∧ s' = put t')
    (p : Prog O A ε α) (t : T) (post : Except ε α → S → Prop) :
    wp rel (p.mapCalls f) (put t) post ↔ wp inner p t fun r t => post r (put t) := by
  induction p generalizing t with
  | done a => rfl
  | fail e => rfl
  | call o next ih =>
    simp only [mapCalls, wp, hlens]
    constructor
    · intro h a t' hinner
      exact (ih a t').mp (h a _ ⟨t', hinner, rfl⟩)
    · rintro h a s' ⟨t', hinner, rfl⟩
      exact (ih a t').mpr (h a t' hinner)

@[simp] theorem wp_mapError {ε' : Type} (f : ε → ε') (p : Prog O A ε α) (s : S)
    (post : Except ε' α → S → Prop) :
    wp rel (p.mapError f) s post ↔ wp rel p s fun r => post (r.mapError f) := by
  induction p generalizing s with
  | done a => rfl
  | fail e => rfl
  | call o next ih =>
    simp only [mapError, wp]
    exact forall_congr' fun a => forall_congr' fun t => imp_congr_right fun _ => ih a t

/-! ### What every call keeps -/

/-- Whatever a program does, it keeps a property of the state. -/
def Keeps (rel : Iface S O A) (Q : S → Prop) (p : Prog O A ε α) : Prop :=
  ∀ s, Q s → wp rel p s fun _ s' => Q s'

section Keeps

variable {Q : S → Prop}

theorem keeps_pure (a : α) : Keeps rel Q (pure a : Prog O A ε α) := fun _ h => h

theorem keeps_fail (e : ε) : Keeps rel Q (.fail e : Prog O A ε α) := fun _ h => h

theorem keeps_ofExcept (x : Except ε α) : Keeps rel Q (ofExcept x : Prog O A ε α) := by
  intro s h
  rwa [wp_ofExcept]

theorem Keeps.bind {p : Prog O A ε α} {f : α → Prog O A ε β} (hp : Keeps rel Q p)
    (hf : ∀ a, Keeps rel Q (f a)) : Keeps rel Q (p >>= f) := by
  intro s h
  exact wp_seq (hp s h) (fun a s' hq => hf a s' hq) fun _ _ hq => hq

theorem keeps_forEach {ι : Type} {body : ι → Prog O A ε Unit} (h : ∀ i, Keeps rel Q (body i))
    (is : List ι) : Keeps rel Q (forEach body is) := by
  induction is with
  | nil => exact fun _ hq => hq
  | cons i is ih => exact Keeps.bind (h i) fun _ => ih

theorem Keeps.mapError {ε' : Type} {f : ε → ε'} {p : Prog O A ε α} (hp : Keeps rel Q p) :
    Keeps rel Q (p.mapError f) := by
  intro s h
  rw [wp_mapError]
  exact hp s h

end Keeps

/-- A program makes only calls of one kind. -/
def Only (kind : O → Prop) : Prog O A ε α → Prop
  | .done _ => True
  | .fail _ => True
  | .call o next => kind o ∧ ∀ a, (next a).Only kind

section Only

variable {kind : O → Prop}

theorem only_pure (a : α) : Only kind (pure a : Prog O A ε α) := trivial

theorem only_ofExcept (x : Except ε α) : Only kind (ofExcept x : Prog O A ε α) := by
  cases x <;> trivial

theorem Only.bind {p : Prog O A ε α} {f : α → Prog O A ε β} (hp : Only kind p)
    (hf : ∀ a, Only kind (f a)) : Only kind (p >>= f) := by
  change Only kind (p.bind f)
  induction p with
  | done a => exact hf a
  | fail e => trivial
  | call o next ih => exact ⟨hp.1, fun a => ih a (hp.2 a)⟩

theorem Only.mapCalls {p : Prog O A ε α} {f : O → O} (hf : ∀ o, kind o → kind (f o))
    (hp : Only kind p) : Only kind (p.mapCalls f) := by
  induction p with
  | done a => trivial
  | fail e => trivial
  | call o next ih => exact ⟨hf o hp.1, fun a => ih a (hp.2 a)⟩

theorem Only.mapError {ε' : Type} {f : ε → ε'} {p : Prog O A ε α} (hp : Only kind p) :
    Only kind (p.mapError f) := by
  induction p with
  | done a => trivial
  | fail e => trivial
  | call o next ih => exact ⟨hp.1, fun a => ih a (hp.2 a)⟩

theorem only_forEach {ι : Type} {body : ι → Prog O A ε Unit} (h : ∀ i, Only kind (body i))
    (is : List ι) : Only kind (forEach body is) := by
  induction is with
  | nil => trivial
  | cons i is ih => exact Only.bind (h i) fun _ => ih

/-- Where calls of one kind are answered, a program that makes only those ends. -/
theorem Only.exists_ends {p : Prog O A ε α} (hanswer : ∀ s o, kind o → ∃ a t, rel s o a t)
    (hp : Only kind p) (s : S) : ∃ r s', Ends rel p s r s' := by
  induction p generalizing s with
  | done a => exact ⟨.ok a, s, rfl, rfl⟩
  | fail e => exact ⟨.error e, s, rfl, rfl⟩
  | call o next ih =>
    obtain ⟨a, t, hrel⟩ := hanswer s o hp.1
    obtain ⟨r, s', hends⟩ := ih a (hp.2 a) t
    exact ⟨r, s', a, t, hrel, hends⟩

/-- A program whose calls keep a property keeps it. -/
theorem Only.keeps {Q : S → Prop} {p : Prog O A ε α}
    (hkind : ∀ s o a s', kind o → rel s o a s' → Q s → Q s') (hp : Only kind p) :
    Keeps rel Q p := by
  induction p with
  | done a => exact fun _ h => h
  | fail e => exact fun _ h => h
  | call o next ih =>
    intro s h a s' hrel
    exact ih a (hp.2 a) s' (hkind s o a s' hp.1 hrel h)

end Only

end Meaning

/-! ## Machines -/

section Machines

variable {S T F : Type}

/-- Runs a program on a machine that serves its calls. -/
def exec (serve : O → T → Except F (A × T)) :
    Prog O A ε α → T → Except F (Except ε α × T)
  | .done a, t => .ok (.ok a, t)
  | .fail e, t => .ok (.error e, t)
  | .call o next, t =>
      match serve o t with
      | .ok (a, t) => (next a).exec serve t
      | .error f => .error f

@[simp] theorem exec_pure (serve : O → T → Except F (A × T)) (a : α) (t : T) :
    (pure a : Prog O A ε α).exec serve t = .ok (.ok a, t) := rfl

@[simp] theorem exec_ofExcept (serve : O → T → Except F (A × T)) (x : Except ε α) (t : T) :
    (ofExcept x : Prog O A ε α).exec serve t = .ok (x, t) := by
  cases x <;> rfl

/-- Other calls are the same calls on another machine. -/
theorem exec_mapCalls (serve : O → T → Except F (A × T)) (f : O → O) (p : Prog O A ε α) (t : T) :
    (p.mapCalls f).exec serve t = p.exec (fun o => serve (f o)) t := by
  induction p generalizing t with
  | done a => rfl
  | fail e => rfl
  | call o next ih =>
    simp only [mapCalls, exec]
    cases serve (f o) t with
    | error fault => rfl
    | ok at' => exact ih at'.1 at'.2

/-- Runs one program after another on a machine. -/
theorem exec_bind (serve : O → T → Except F (A × T)) (p : Prog O A ε α) (f : α → Prog O A ε β)
    (t : T) : (p >>= f).exec serve t =
      match p.exec serve t with
      | .ok (.ok a, t) => (f a).exec serve t
      | .ok (.error e, t) => .ok (.error e, t)
      | .error fault => .error fault := by
  change (p.bind f).exec serve t = _
  induction p generalizing t with
  | done a => rfl
  | fail e => rfl
  | call o next ih =>
    simp only [bind, exec]
    cases serve o t with
    | error fault => rfl
    | ok at' => exact ih at'.1 at'.2

/-- Where a machine serves every call of one kind as the interface allows, it runs a program of
such calls to its end. -/
theorem Only.exec_wp {kind : O → Prop} {serve : O → T → Except F (A × T)} {rel : Iface S O A}
    {R : T → S → Prop}
    (hserve : ∀ t s o, kind o → R t s → ∃ a t' s', serve o t = .ok (a, t') ∧ rel s o a s' ∧ R t' s')
    {p : Prog O A ε α} (hp : Only kind p) {t : T} {s : S} (hR : R t s)
    {post : Except ε α → S → Prop} (hwp : wp rel p s post) :
    ∃ r t' s', p.exec serve t = .ok (r, t') ∧ post r s' ∧ R t' s' := by
  induction p generalizing t s with
  | done a => exact ⟨.ok a, t, s, rfl, hwp, hR⟩
  | fail e => exact ⟨.error e, t, s, rfl, hwp, hR⟩
  | call o next ih =>
    obtain ⟨a, t₁, s₁, hcall, hrel, hR₁⟩ := hserve t s o hp.1 hR
    obtain ⟨r, t', s', hrun, hpost, hR'⟩ := ih a (hp.2 a) hR₁ (hwp a s₁ hrel)
    refine ⟨r, t', s', ?_, hpost, hR'⟩
    rw [exec, hcall]
    exact hrun

end Machines

end Prog

end Tagdata.Library
