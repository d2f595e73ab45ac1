import Mathlib.Data.Sigma.Basic

/-! Programs that make calls and go on with the replies: the calls made on the way, a monitor
that watches them, and runs against a handler, which may throw. -/
namespace Programs
universe u
variable {C : Type u} {R : C → Type u} {α β : Type u}

inductive Program (R : C → Type u) (α : Type u) where
  | ret (a : α)
  | call (c : C) (next : R c → Program R α)

abbrev Event (R : C → Type u) := (c : C) × R c

namespace Program

def bind (p : Program R α) (f : α → Program R β) : Program R β :=
  match p with
  | .ret a => f a
  | .call c next => .call c fun r => (next r).bind f

instance : Monad (Program R) where
  pure := .ret
  bind := bind

def perform (c : C) : Program R (R c) := .call c .ret

/-- What is left of a program after some calls. -/
inductive Steps : Program R α → List (Event R) → Program R α → Prop
  | refl (p : Program R α) : Steps p [] p
  | call {c : C} {next : R c → Program R α} {es : List (Event R)} {q : Program R α} (r : R c)
      (h : Steps (next r) es q) : Steps (.call c next) (⟨c, r⟩ :: es) q

@[simp] theorem bind_ret (a : α) (f : α → Program R β) : (ret a : Program R α) >>= f = f a := rfl

@[simp] theorem bind_call (c : C) (next : R c → Program R α) (f : α → Program R β) :
    call c next >>= f = call c fun r => next r >>= f := rfl

@[simp] theorem perform_bind (c : C) (f : R c → Program R α) :
    (perform c : Program R (R c)) >>= f = call c f := rfl

theorem Steps.bind {p : Program R α} {es es' : List (Event R)} {a : α} {f : α → Program R β}
    {q : Program R β} (h : Steps p es (.ret a)) (h' : Steps (f a) es' q) :
    Steps (p >>= f) (es ++ es') q := by
  generalize hr : (Program.ret a : Program R α) = r at h
  induction h with
  | refl p =>
    subst hr
    exact h'
  | call r h ih => exact .call r (ih hr)

theorem Steps.of_bind {p : Program R α} {es : List (Event R)} {f : α → Program R β}
    {q : Program R β} (h : Steps (p >>= f) es q) :
    (∃ p', Steps p es p' ∧ q = p' >>= f) ∨
      ∃ es₁ es₂ a, es = es₁ ++ es₂ ∧ Steps p es₁ (.ret a) ∧ Steps (f a) es₂ q := by
  induction p generalizing es with
  | ret a => exact .inr ⟨[], es, a, rfl, .refl _, h⟩
  | call c next ih =>
    cases h with
    | refl => exact .inl ⟨_, .refl _, rfl⟩
    | call r h =>
      obtain ⟨p', hp, hq⟩ | ⟨es₁, es₂, a, rfl, hp, hf⟩ := ih r h
      · exact .inl ⟨p', .call r hp, hq⟩
      · exact .inr ⟨_ :: es₁, es₂, a, rfl, .call r hp, hf⟩

theorem Steps.ret_of_bind {p : Program R α} {es : List (Event R)} {f : α → Program R β} {b : β}
    (h : Steps (p >>= f) es (.ret b)) :
    ∃ es₁ es₂ a, es = es₁ ++ es₂ ∧ Steps p es₁ (.ret a) ∧ Steps (f a) es₂ (.ret b) := by
  obtain ⟨p', hp, hq⟩ | h := h.of_bind
  · cases p' with
    | ret a => exact ⟨es, [], a, (List.append_nil es).symm, hp, hq ▸ .refl _⟩
    | call c next => cases hq
  · exact h

theorem Steps.ret_of_perform {c : C} {f : R c → Program R α} {es : List (Event R)} {a : α}
    (h : Steps (perform c >>= f) es (.ret a)) :
    ∃ r es', es = ⟨c, r⟩ :: es' ∧ Steps (f r) es' (.ret a) := by
  rw [perform_bind] at h
  cases h with
  | call r h => exact ⟨r, _, rfl, h⟩

/-- Where two runs of a program go on the same way, its own calls and its result are the same. -/
theorem Steps.append_inj {p : Program R α} {es es' rest rest' : List (Event R)} {a a' : α}
    (h : Steps p es (.ret a)) (h' : Steps p es' (.ret a')) (heq : es ++ rest = es' ++ rest') :
    a = a' ∧ rest = rest' := by
  induction p generalizing es es' with
  | ret b =>
    cases h
    cases h'
    exact ⟨rfl, heq⟩
  | call c next ih =>
    cases h with
    | call r h =>
      cases h' with
      | call r' h' =>
        obtain ⟨he, hrest⟩ := List.cons_eq_cons.mp heq
        cases he
        exact ih r h h' hrest

/-- Every call that a program may make is good. -/
def Makes (good : C → Prop) : Program R α → Prop
  | .ret _ => True
  | .call c next => good c ∧ ∀ r, Makes good (next r)

theorem Makes.bind {good : C → Prop} {p : Program R α} {f : α → Program R β} (h : Makes good p)
    (hf : ∀ a, Makes good (f a)) : Makes good (p >>= f) := by
  induction p with
  | ret a => exact hf a
  | call c next ih => exact ⟨h.1, fun r => ih r (h.2 r)⟩

theorem Makes.pure {good : C → Prop} (a : α) : Makes good (pure a : Program R α) := trivial

theorem Makes.perform {good : C → Prop} {c : C} {f : R c → Program R α} (hc : good c)
    (hf : ∀ r, Makes good (f r)) : Makes good (perform c >>= f) := ⟨hc, hf⟩

theorem Makes.steps {good : C → Prop} {p q : Program R α} {es : List (Event R)} (h : Makes good p)
    (hs : Steps p es q) : ∀ e ∈ es, good e.1 := by
  induction hs with
  | refl p => simp
  | call r hs ih => exact List.forall_mem_cons.mpr ⟨h.1, ih (h.2 r)⟩

section Monitor
variable {Q : Type u} (δ : Q → Event R → Option Q)

/-- The state of a monitor after some calls; none when it has refused one. -/
def watch : Q → List (Event R) → Option Q
  | q, [] => some q
  | q, e :: es => (δ q e).bind fun q' => watch q' es

/-- From the state q the monitor lets every call pass and post holds at the end. -/
def Pre (post : α → Q → Prop) : Program R α → Q → Prop
  | .ret a, q => post a q
  | .call c next, q => ∀ r, ∃ q', δ q ⟨c, r⟩ = some q' ∧ Pre post (next r) q'

variable {δ}

theorem Pre.pure {post : α → Q → Prop} {a : α} {q : Q} (h : post a q) :
    Pre δ post (pure a : Program R α) q := h

theorem Pre.perform {post : α → Q → Prop} {c : C} {f : R c → Program R α} {q : Q}
    (h : ∀ r, ∃ q', δ q ⟨c, r⟩ = some q' ∧ Pre δ post (f r) q') :
    Pre δ post (Program.perform c >>= f) q := h

theorem watch_append (q : Q) (es es' : List (Event R)) :
    watch δ q (es ++ es') = (watch δ q es).bind fun q' => watch δ q' es' := by
  induction es generalizing q with
  | nil => rfl
  | cons e es ih =>
    rw [List.cons_append, watch, watch]
    cases δ q e with
    | none => rfl
    | some q' => exact ih q'

theorem Pre.mono {post post' : α → Q → Prop} {p : Program R α} {q : Q} (h : Pre δ post p q)
    (hpost : ∀ a q, post a q → post' a q) : Pre δ post' p q := by
  induction p generalizing q with
  | ret a => exact hpost a q h
  | call c next ih =>
    intro r
    obtain ⟨q', hq, hnext⟩ := h r
    exact ⟨q', hq, ih r hnext⟩

theorem Pre.bind {mid : α → Q → Prop} {post : β → Q → Prop} {p : Program R α}
    {f : α → Program R β} {q : Q} (h : Pre δ mid p q)
    (hf : ∀ a q, mid a q → Pre δ post (f a) q) : Pre δ post (p >>= f) q := by
  induction p generalizing q with
  | ret a => exact hf a q h
  | call c next ih =>
    intro r
    obtain ⟨q', hq, hnext⟩ := h r
    exact ⟨q', hq, ih r hnext⟩

/-- What the precondition promises of every run, complete or not. -/
theorem Steps.watch {post : α → Q → Prop} {p p' : Program R α} {es : List (Event R)} {q : Q}
    (h : Steps p es p') (hpre : Pre δ post p q) :
    ∃ q', Program.watch δ q es = some q' ∧ Pre δ post p' q' := by
  induction h generalizing q with
  | refl p => exact ⟨q, rfl, hpre⟩
  | call r h ih =>
    obtain ⟨q₁, hq, hnext⟩ := hpre r
    obtain ⟨q', hw, hp⟩ := ih hnext
    exact ⟨q', by rw [Program.watch, hq]; exact hw, hp⟩

end Monitor

section Run
variable {σ : Type u} (h : σ → (c : C) → R c × σ)

def run : Program R α → σ → α × σ
  | .ret a, s => (a, s)
  | .call c next, s => run (next (h s c).1) (h s c).2

def trace : Program R α → σ → List (Event R)
  | .ret _, _ => []
  | .call c next, s => ⟨c, (h s c).1⟩ :: trace (next (h s c).1) (h s c).2

variable {h}

@[simp] theorem run_ret (a : α) (s : σ) : run h (ret a) s = (a, s) := rfl

@[simp] theorem trace_ret (a : α) (s : σ) : trace h (ret a) s = [] := rfl

@[simp] theorem run_call (c : C) (next : R c → Program R α) (s : σ) :
    run h (call c next) s = run h (next (h s c).1) (h s c).2 := rfl

theorem run_bind (p : Program R α) (f : α → Program R β) (s : σ) :
    run h (p >>= f) s = run h (f (run h p s).1) (run h p s).2 := by
  induction p generalizing s with
  | ret a => rfl
  | call c next ih => exact ih (h s c).1 (h s c).2

theorem trace_bind (p : Program R α) (f : α → Program R β) (s : σ) :
    trace h (p >>= f) s = trace h p s ++ trace h (f (run h p s).1) (run h p s).2 := by
  induction p generalizing s with
  | ret a => rfl
  | call c next ih => exact congrArg (_ :: ·) (ih (h s c).1 (h s c).2)

theorem steps_trace (p : Program R α) (s : σ) :
    Steps p (trace h p s) (.ret (run h p s).1) := by
  induction p generalizing s with
  | ret a => exact .refl _
  | call c next ih => exact .call _ (ih (h s c).1 (h s c).2)

end Run

section Attempt
variable {σ ε : Type u} (h : σ → (c : C) → Except ε (R c) × σ)

/-- Run a program until a call throws. Programs catch nothing. -/
def attempt : Program R α → σ → Except ε α × σ
  | .ret a, s => (.ok a, s)
  | .call c next, s =>
    match h s c with
    | (.ok r, s') => attempt (next r) s'
    | (.error e, s') => (.error e, s')

variable {h}

theorem attempt_call {c : C} {next : R c → Program R α} {s s' : σ} {r : R c}
    (hc : h s c = (.ok r, s')) : attempt h (call c next) s = attempt h (next r) s' := by
  rw [attempt, hc]

theorem attempt_throw {c : C} {next : R c → Program R α} {s s' : σ} {e : ε}
    (hc : h s c = (.error e, s')) : attempt h (call c next) s = (.error e, s') := by
  rw [attempt, hc]

theorem attempt_bind {p : Program R α} {f : α → Program R β} {s s' : σ} {a : α}
    (hp : attempt h p s = (.ok a, s')) : attempt h (p >>= f) s = attempt h (f a) s' := by
  induction p generalizing s with
  | ret b =>
    obtain ⟨hb, rfl⟩ := Prod.mk.inj hp
    rw [bind_ret, Except.ok.inj hb]
  | call c next ih =>
    rw [bind_call, attempt]
    rw [attempt] at hp
    split at hp
    · next r s₁ hc => exact ih r hp
    · cases (Prod.mk.inj hp).1

end Attempt

end Program
end Programs
