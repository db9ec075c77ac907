import Mathlib.Tactic.Common
import Mathlib.Tactic.Cases

/-!
# Programs whose steps may fail

A program that writes files does not run to its end: any of its steps may
report an error after part of its effect took place, and the process may stop
inside any step.  `Prog σ ε α` is a program over a state `σ` that reads one
`Fault` for each of its file steps; the list of faults decides everything, so a
program is a function and can be evaluated.

`Prog.Ends p s r s'` forgets the list: some choice of faults takes `p` from `s`
to the end `r` in the state `s'`.  `Prog.Leads p s Q W` says of all ends what holds
after a return and after a failure.  There is a rule of it for each construct, so a
safety argument follows the text of its program.
-/

namespace Ptr.Lib

/-- What the environment does to one file step.  The number says how much of
the step's effect is left behind. -/
inductive Fault
  | none
  | fail (k : Nat)
  | crash (k : Nat)

/-- How a program ends: with a value, with an error its caller sees, or inside
a step. -/
inductive Outcome (ε α : Type)
  | ok (a : α)
  | err (e : ε)
  | crash
  deriving DecidableEq

def Outcome.Failed {ε α : Type} : Outcome ε α → Prop
  | .ok _ => False
  | .err _ => True
  | .crash => True

/-- The value satisfies `Q`, or the failure `W`. -/
def Outcome.Meets {ε α : Type} (Q : α → Prop) (W : Option ε → Prop) : Outcome ε α → Prop
  | .ok a => Q a
  | .err e => W (some e)
  | .crash => W none

def Outcome.mapErr {ε ε' α : Type} (f : ε → ε') : Outcome ε α → Outcome ε' α
  | .ok a => .ok a
  | .err e => .err (f e)
  | .crash => .crash

@[simp] theorem Outcome.failed_elim {ε α : Type} (w : Option ε) :
    (w.elim .crash .err : Outcome ε α).Failed := by
  cases w <;> trivial

@[simp] theorem Outcome.mapErr_eq_ok {ε ε' α : Type} {f : ε → ε'} {r : Outcome ε α} {a} :
    r.mapErr f = .ok a ↔ r = .ok a := by cases r <;> simp [Outcome.mapErr]

/-- A program over the state `σ`, run against a list of faults.  A list that is
used up means that no further step fails. -/
def Prog (σ ε α : Type) : Type := σ → List Fault → Outcome ε α × σ × List Fault

namespace Prog

variable {σ τ ε ε' α β : Type} {r : Outcome ε α} {g : σ → σ} {e : ε}

def pure (a : α) : Prog σ ε α := fun s fs => (.ok a, s, fs)

def bind (p : Prog σ ε α) (f : α → Prog σ ε β) : Prog σ ε β := fun s fs =>
  match p s fs with
  | (.ok a, s', fs') => f a s' fs'
  | (.err e, s', fs') => (.err e, s', fs')
  | (.crash, s', fs') => (.crash, s', fs')

instance : Monad (Prog σ ε) where
  pure := pure
  bind := bind

def throw (e : ε) : Prog σ ε α := fun s fs => (.err e, s, fs)

def get : Prog σ ε σ := fun s fs => (.ok s, s, fs)

def modify (f : σ → σ) : Prog σ ε Unit := fun s fs => (.ok (), f s, fs)

def ofExcept (r : Except ε α) : Prog σ ε α :=
  match r with
  | .ok a => pure a
  | .error e => throw e

/-- One file step.  `done` is its whole effect, `part k` what is left of it when
it fails or the process stops inside it. -/
def step (e : ε) (done : σ → σ) (part : Nat → σ → σ) : Prog σ ε Unit := fun s fs =>
  match fs with
  | [] => (.ok (), done s, [])
  | .none :: fs => (.ok (), done s, fs)
  | .fail k :: fs => (.err e, part k s, fs)
  | .crash k :: fs => (.crash, part k s, fs)

/-- A file step that happens as a whole or not at all, such as a rename. -/
def atomic (e : ε) (g : σ → σ) : Prog σ ε Unit := step e g fun k s => if k = 0 then s else g s

/-- A step like `atomic` whose error means that it had no effect. -/
def allOrNothing (e : ε) (g : σ → σ) : Prog σ ε Unit := fun s fs =>
  match fs with
  | [] => (.ok (), g s, [])
  | .none :: fs => (.ok (), g s, fs)
  | .fail _ :: fs => (.err e, s, fs)
  | .crash k :: fs => (.crash, if k = 0 then s else g s, fs)

def attempt (p : Prog σ ε Unit) : Prog σ ε Unit := fun s fs =>
  match p s fs with
  | (.crash, s', fs') => (.crash, s', fs')
  | (_, s', fs') => (.ok (), s', fs')

/-- `inspect_err`: a change of state when `p` returns an error. -/
def onErr (f : σ → σ) (p : Prog σ ε α) : Prog σ ε α := fun s fs =>
  match p s fs with
  | (.ok a, s', fs') => (.ok a, s', fs')
  | (.err e, s', fs') => (.err e, f s', fs')
  | (.crash, s', fs') => (.crash, s', fs')

def mapErr (f : ε → ε') (p : Prog σ ε α) : Prog σ ε' α := fun s fs =>
  match p s fs with
  | (.ok a, s', fs') => (.ok a, s', fs')
  | (.err e, s', fs') => (.err (f e), s', fs')
  | (.crash, s', fs') => (.crash, s', fs')

def zoom (view : σ → τ) (put : τ → σ → σ) (p : Prog τ ε α) : Prog σ ε α := fun s fs =>
  match p (view s) fs with
  | (r, t, fs') => (r, put t s, fs')

/-- Run `p` with a local variable that starts at `t`; its last value is
returned with the result. -/
def withLocal (t : τ) (p : Prog (τ × σ) ε α) : Prog σ ε (α × τ) := fun s fs =>
  match p (t, s) fs with
  | (.ok a, (t', s'), fs') => (.ok (a, t'), s', fs')
  | (.err e, (_, s'), fs') => (.err e, s', fs')
  | (.crash, (_, s'), fs') => (.crash, s', fs')

/-- Some choice of faults takes `p` from `s` to the end `r` in `s'`. -/
def Ends (p : Prog σ ε α) (s : σ) (r : Outcome ε α) (s' : σ) : Prop :=
  ∃ fs fs', p s fs = (r, s', fs')

theorem ends_run (p : Prog σ ε α) (s : σ) (fs : List Fault) :
    p.Ends s (p s fs).1 (p s fs).2.1 := ⟨fs, (p s fs).2.2, rfl⟩

theorem ends_of_run {p : Prog σ ε α} {s} {fs : List Fault} {x} (hx : p s fs = x) (hr : x.1 = r) :
    p.Ends s r x.2.1 :=
  ⟨fs, x.2.2, by rw [hx, ← hr]⟩

variable {p : Prog σ ε α} {f : α → Prog σ ε β} {s s' : σ}

theorem ends_pure {a} (h : (Pure.pure a : Prog σ ε α).Ends s r s') : r = .ok a ∧ s' = s := by
  obtain ⟨fs, fs', h⟩ := h
  simp only [Pure.pure, Prog.pure, Prod.mk.injEq] at h
  exact ⟨h.1.symm, h.2.1.symm⟩

theorem ends_throw (h : (throw e : Prog σ ε α).Ends s r s') :
    r = .err e ∧ s' = s := by
  obtain ⟨fs, fs', h⟩ := h
  simp only [throw, Prod.mk.injEq] at h
  exact ⟨h.1.symm, h.2.1.symm⟩

theorem ends_get {r} (h : (get : Prog σ ε σ).Ends s r s') : s' = s := by
  obtain ⟨fs, fs', h⟩ := h
  simp only [get, Prod.mk.injEq] at h
  exact h.2.1.symm

theorem ends_modify {r} (h : (modify g : Prog σ ε Unit).Ends s r s') : r = .ok () ∧ s' = g s := by
  obtain ⟨fs, fs', h⟩ := h
  simp only [modify, Prod.mk.injEq] at h
  exact ⟨h.1.symm, h.2.1.symm⟩

theorem ends_ofExcept {x} (h : (ofExcept x : Prog σ ε α).Ends s r s') : s' = s := by
  cases x with
  | ok => exact (ends_pure h).2
  | error => exact (ends_throw h).2

/-- **A sequence ends in its second part, or with the error or the stop of its
first part.** -/
theorem ends_bind_cases {r} (h : (p >>= f).Ends s r s') :
    (∃ a s₁, p.Ends s (.ok a) s₁ ∧ (f a).Ends s₁ r s') ∨
      (∃ e, r = .err e ∧ p.Ends s (.err e) s') ∨ (r = .crash ∧ p.Ends s .crash s') := by
  obtain ⟨fs, fs', h⟩ := h
  simp only [Bind.bind, Prog.bind] at h
  rcases hp : p s fs with ⟨a | e | _, s₁, fs1⟩ <;> rw [hp] at h <;> simp only [Prod.mk.injEq] at h
  · exact .inl ⟨a, s₁, ⟨fs, fs1, hp⟩, ⟨fs1, fs', h⟩⟩
  · obtain ⟨rfl, rfl, rfl⟩ := h
    exact .inr (.inl ⟨e, rfl, ⟨fs, fs1, hp⟩⟩)
  · obtain ⟨rfl, rfl, rfl⟩ := h
    exact .inr (.inr ⟨rfl, ⟨fs, fs1, hp⟩⟩)

/-- **A sequence ends in its second part, or its first part failed.** -/
theorem ends_bind {r} (h : (p >>= f).Ends s r s') :
    (∃ a s₁, p.Ends s (.ok a) s₁ ∧ (f a).Ends s₁ r s') ∨
      (r.Failed ∧ ∃ r₀, r₀.Failed ∧ p.Ends s r₀ s') := by
  rcases ends_bind_cases h with hf | ⟨e, rfl, hp⟩ | ⟨rfl, hp⟩
  · exact .inl hf
  · exact .inr ⟨trivial, .err e, trivial, hp⟩
  · exact .inr ⟨trivial, .crash, trivial, hp⟩

/-- **What one file step can do.** -/
theorem ends_step {done part r} (h : (step e done part).Ends s r s') :
    (r = .ok () ∧ s' = done s) ∨ (r.Failed ∧ ∃ k, s' = part k s) := by
  obtain ⟨fs, fs', h⟩ := h
  rcases fs with _ | ⟨_ | k | k, fs⟩ <;> simp only [step] at h <;>
    obtain ⟨rfl, rfl, -⟩ := h
  · exact .inl ⟨rfl, rfl⟩
  · exact .inl ⟨rfl, rfl⟩
  · exact .inr ⟨trivial, k, rfl⟩
  · exact .inr ⟨trivial, k, rfl⟩

theorem ends_mapErr {g} {r : Outcome ε' α} (h : (p.mapErr g).Ends s r s') :
    ∃ r₀, p.Ends s r₀ s' ∧ r = r₀.mapErr g := by
  obtain ⟨fs, fs', h⟩ := h
  simp only [mapErr] at h
  rcases hp : p s fs with ⟨a | e | _, s1, fs1⟩ <;> rw [hp] at h <;>
    simp only [Prod.mk.injEq] at h <;>
    obtain ⟨rfl, rfl, rfl⟩ := h <;> exact ⟨_, ⟨fs, fs1, hp⟩, rfl⟩

theorem ends_mapErr_ok {g : ε → ε'} {a : α} (h : (p.mapErr g).Ends s (.ok a) s') :
    p.Ends s (.ok a) s' := by
  obtain ⟨r, hp, hr⟩ := ends_mapErr h
  rwa [Outcome.mapErr_eq_ok.mp hr.symm] at hp

theorem ends_onErr (h : (p.onErr g).Ends s r s') :
    (p.Ends s r s' ∧ (∀ e, r ≠ .err e)) ∨ ∃ e s₁, r = .err e ∧ p.Ends s (.err e) s₁ ∧
      s' = g s₁ := by
  obtain ⟨fs, fs', h⟩ := h
  simp only [onErr] at h
  rcases hp : p s fs with ⟨a | e | _, s₁, fs1⟩ <;> rw [hp] at h <;>
    simp only [Prod.mk.injEq] at h <;>
    obtain ⟨rfl, rfl, rfl⟩ := h
  · exact .inl ⟨⟨fs, fs1, hp⟩, fun e h => by cases h⟩
  · exact .inr ⟨e, s₁, rfl, ⟨fs, fs1, hp⟩, rfl⟩
  · exact .inl ⟨⟨fs, fs1, hp⟩, fun e h => by cases h⟩

theorem ends_zoom {view} {put : τ → σ → σ} {q : Prog τ ε α} (h : (q.zoom view put).Ends s r s') :
    ∃ t, q.Ends (view s) r t ∧ s' = put t s := by
  obtain ⟨fs, fs', h⟩ := h
  obtain ⟨rfl, rfl, -⟩ := h
  exact ⟨_, ends_run q (view s) fs, rfl⟩

theorem ends_withLocal {t} {q : Prog (τ × σ) ε α} {r} (h : (q.withLocal t).Ends s r s') :
    ∃ r₀ t', q.Ends (t, s) r₀ (t', s') ∧
      r = (match r₀ with | .ok a => .ok (a, t') | .err e => .err e | .crash => .crash) := by
  obtain ⟨fs, fs', h⟩ := h
  simp only [withLocal] at h
  rcases hq : q (t, s) fs with ⟨a | e | _, ⟨t', s1⟩, fs1⟩ <;> rw [hq] at h <;>
    simp only [Prod.mk.injEq] at h <;> obtain ⟨rfl, rfl, rfl⟩ := h <;>
    exact ⟨_, t', ⟨fs, fs1, hq⟩, rfl⟩

/-! ### Sequences that begin with a step that cannot stop -/

/-! ### Pre- and postconditions -/

/-- From `s`, the program returns a value with `Q`, or it fails in a state with `W`,
which is told the error, or `none` if the process stopped. -/
def Leads (p : Prog σ ε α) (s : σ) (Q : α → σ → Prop) (W : Option ε → σ → Prop) : Prop :=
  ∀ r s', p.Ends s r s' → r.Meets (Q · s') (W · s')

section Leads

variable {Q Q' : α → σ → Prop} {R : β → σ → Prop} {V W : Option ε → σ → Prop} {S : σ → Prop}

theorem Leads.ok {a} (h : p.Leads s Q W) (hp : p.Ends s (.ok a) s') : Q a s' := h _ s' hp

theorem Leads.err {e} (h : p.Leads s Q W) (hp : p.Ends s (.err e) s') : W (some e) s' := h _ s' hp

theorem Leads.crash (h : p.Leads s Q W) (hp : p.Ends s .crash s') : W none s' := h _ s' hp

theorem Leads.failed (h : p.Leads s Q fun _ => S) (hp : p.Ends s r s') (hr : r.Failed) : S s' := by
  cases r with
  | ok => exact hr.elim
  | err => exact h.err hp
  | crash => exact h.crash hp

theorem Leads.always (h : p.Leads s (fun _ => S) fun _ => S) (hp : p.Ends s r s') : S s' := by
  cases r with
  | ok => exact h.ok hp
  | err => exact h.err hp
  | crash => exact h.crash hp

/-- A statement about the outcome; the failure is the error, or the stop. -/
theorem Leads.elim {C : Outcome ε α → σ → Prop}
    (h : p.Leads s (fun a => C (.ok a)) fun w => C (w.elim .crash .err)) (hp : p.Ends s r s') :
    C r s' := by
  cases r with
  | ok => exact h.ok hp
  | err => exact h.err hp
  | crash => exact h.crash hp

theorem Leads.imp (h : p.Leads s Q W) (hQ : ∀ a s', Q a s' → Q' a s')
    (hW : ∀ w s', W w s' → V w s') : p.Leads s Q' V := by
  intro r s' hp
  cases r with
  | ok a => exact hQ a s' (h.ok hp)
  | err e => exact hW (some e) s' (h.err hp)
  | crash => exact hW none s' (h.crash hp)

theorem Leads.bind (hp : p.Leads s Q W) (hf : ∀ a s', Q a s' → (f a).Leads s' R W) :
    (p >>= f).Leads s R W := by
  intro r s' h
  rcases ends_bind_cases h with ⟨a, s₁, h₁, h₂⟩ | ⟨e, rfl, h₁⟩ | ⟨rfl, h₁⟩
  · exact hf a s₁ (hp.ok h₁) r s' h₂
  · exact hp.err h₁
  · exact hp.crash h₁

/-- The rule of sequence, where the first part may fail in fewer ways than the whole. -/
theorem Leads.seq (hp : p.Leads s Q V) (hW : ∀ w s', V w s' → W w s')
    (hf : ∀ a s', Q a s' → (f a).Leads s' R W) : (p >>= f).Leads s R W :=
  (hp.imp (fun _ _ h => h) hW).bind hf

theorem leads_of_ends (h : ∀ r s', p.Ends s r s' → S s') : p.Leads s (fun _ => S) fun _ => S := by
  intro r s' hp
  cases r <;> exact h _ s' hp

theorem leads_pure {a} (h : Q a s) : (Pure.pure a : Prog σ ε α).Leads s Q W := by
  intro r s' hp
  obtain ⟨rfl, rfl⟩ := ends_pure hp
  exact h

theorem leads_throw (h : W (some e) s) : (throw e : Prog σ ε α).Leads s Q W := by
  intro r s' hp
  obtain ⟨rfl, rfl⟩ := ends_throw hp
  exact h

theorem leads_get_bind {f : σ → Prog σ ε β} (h : (f s).Leads s R W) : (get >>= f).Leads s R W := h

theorem leads_modify {Q : Unit → σ → Prop} (h : Q () (g s)) :
    (modify g : Prog σ ε Unit).Leads s Q W := by
  intro r s' hp
  obtain ⟨rfl, rfl⟩ := ends_modify hp
  exact h

theorem leads_modify_bind {f : Unit → Prog σ ε β} (h : (f ()).Leads (g s) R W) :
    (modify g >>= f).Leads s R W := h

theorem leads_ofExcept_bind {x} (hx : ∀ a, x = .ok a → (f a).Leads s R W) (h : ∀ e, W (some e) s) :
    (ofExcept x >>= f).Leads s R W := by
  cases x with
  | ok a => exact hx a rfl
  | error e =>
    intro r s' hp
    obtain ⟨rfl, rfl⟩ := ends_throw hp
    exact h e

theorem leads_ofExcept_ok {x a} (hx : x = .ok a) (h : (f a).Leads s R W) :
    (ofExcept x >>= f).Leads s R W := by
  subst hx
  exact h

section Steps

variable {Q : Unit → σ → Prop} {q : Prog σ ε Unit}

theorem leads_step {done part} (h : Q () (done s)) (hpart : ∀ k w, W w (part k s)) :
    (step e done part).Leads s Q W := by
  intro r s' hp
  rcases ends_step hp with ⟨rfl, rfl⟩ | ⟨hr, k, rfl⟩
  · exact h
  · cases r with
    | ok => exact hr.elim
    | err | crash => exact hpart k _

theorem leads_step_bind {done part} {k : Unit → Prog σ ε β} (hpart : ∀ n w, W w (part n s))
    (h : (k ()).Leads (done s) R W) : (step e done part >>= k).Leads s R W := by
  refine (leads_step (Q := fun _ t => t = done s) rfl hpart).bind ?_
  rintro _ _ rfl
  exact h

theorem leads_atomic (h : Q () (g s)) (hs : ∀ w, W w s) (hg : ∀ w, W w (g s)) :
    (atomic e g).Leads s Q W := by
  refine leads_step h fun k w => ?_
  split
  · exact hs w
  · exact hg w

theorem leads_atomic_bind {k : Unit → Prog σ ε β} (hs : ∀ w, W w s) (hg : ∀ w, W w (g s))
    (h : (k ()).Leads (g s) R W) : (atomic e g >>= k).Leads s R W := by
  refine (leads_atomic (Q := fun _ t => t = g s) rfl hs hg).bind ?_
  rintro _ _ rfl
  exact h

theorem leads_allOrNothing (h : Q () (g s)) (hs : ∀ w, W w s) (hg : W none (g s)) :
    (allOrNothing e g).Leads s Q W := by
  rintro r s' ⟨fs, fs', hp⟩
  rcases fs with _ | ⟨_ | k | k, fs⟩ <;> simp only [allOrNothing] at hp <;>
    obtain ⟨rfl, rfl, -⟩ := hp
  · exact h
  · exact h
  · exact hs (some e)
  · split
    · exact hs none
    · exact hg

theorem leads_attempt (h : q.Leads s Q fun _ s' => Q () s' ∧ W none s') :
    q.attempt.Leads s Q W := by
  rintro r s' ⟨fs, fs', hp⟩
  simp only [attempt] at hp
  rcases hq : q s fs with ⟨a | e | _, s₁, fs₁⟩ <;> rw [hq] at hp <;>
    simp only [Prod.mk.injEq] at hp <;>
    obtain ⟨rfl, rfl, rfl⟩ := hp
  · exact h.ok ⟨fs, fs₁, hq⟩
  · exact (h.err ⟨fs, fs₁, hq⟩).1
  · exact (h.crash ⟨fs, fs₁, hq⟩).2

end Steps

theorem leads_onErr (h : p.Leads s Q V) (herr : ∀ e s', V (some e) s' → W (some e) (g s'))
    (hcrash : ∀ s', V none s' → W none s') : (p.onErr g).Leads s Q W := by
  intro r s' hp
  rcases ends_onErr hp with ⟨hq, hne⟩ | ⟨e, s₁, rfl, hq, rfl⟩
  · cases r with
    | ok => exact h.ok hq
    | err e => exact (hne e rfl).elim
    | crash => exact hcrash s' (h.crash hq)
  · exact herr e s₁ (h.err hq)

theorem leads_mapErr {f : ε' → ε} {q : Prog σ ε' α} (h : q.Leads s Q fun w s' => W (w.map f) s') :
    (q.mapErr f).Leads s Q W := by
  intro r s' hp
  obtain ⟨r₀, hq, rfl⟩ := ends_mapErr hp
  cases r₀ <;> exact h _ s' hq

theorem leads_zoom {view} {put : τ → σ → σ} {q : Prog τ ε α}
    (h : q.Leads (view s) (fun a t => Q a (put t s)) fun w t => W w (put t s)) :
    (q.zoom view put).Leads s Q W := by
  intro r s' hp
  obtain ⟨t, hq, rfl⟩ := ends_zoom hp
  exact h r t hq

theorem leads_withLocal {t} {q : Prog (τ × σ) ε α} {Q : α × τ → σ → Prop}
    (h : q.Leads (t, s) (fun a x => Q (a, x.1) x.2) fun w x => W w x.2) :
    (q.withLocal t).Leads s Q W := by
  intro r s' hp
  obtain ⟨r₀, t', hq, rfl⟩ := ends_withLocal hp
  cases r₀ <;> exact h _ _ hq

end Leads

/-- From every state in `P`. -/
def Triple (P : σ → Prop) (p : Prog σ ε α) (Q : α → σ → Prop) (W : σ → Prop) : Prop :=
  ∀ s, P s → p.Leads s Q fun _ => W

variable {P P' : σ → Prop} {Q : α → σ → Prop} {R : β → σ → Prop} {W W' : σ → Prop}

theorem triple_pure {a} (h : ∀ s, P s → Q a s) : Triple P (Pure.pure a : Prog σ ε α) Q W :=
  fun s hP => leads_pure (h s hP)

theorem triple_bind (hp : Triple P p Q W) (hf : ∀ a, Triple (Q a) (f a) R W) :
    Triple P (p >>= f) R W :=
  fun s hP => (hp s hP).bind hf

theorem Triple.weaken (h : Triple P p Q W) (hP : ∀ s, P' s → P s) {Q'} (hQ : ∀ a s, Q a s → Q' a s)
    (hW : ∀ s, W s → W' s) : Triple P' p Q' W' :=
  fun s hs => (h s (hP s hs)).imp hQ fun _ => hW

theorem triple_exists {ι : Type} {P : ι → σ → Prop} (h : ∀ i, Triple (P i) p Q W) :
    Triple (fun s => ∃ i, P i s) p Q W := by
  rintro s ⟨i, hP⟩
  exact h i s hP

/-! ### Runs without a fault -/

def Succeeds (p : Prog σ ε α) (s : σ) : Prop := ∃ a s', p s [] = (.ok a, s', [])

theorem Succeeds.ends (h : p.Succeeds s) :
    ∃ a s', p s [] = (.ok a, s', []) ∧ p.Ends s (.ok a) s' := by
  obtain ⟨a, s', h⟩ := h
  exact ⟨a, s', h, [], [], h⟩

theorem succeeds_pure (a : α) : (Pure.pure a : Prog σ ε α).Succeeds s := ⟨a, s, rfl⟩

theorem succeeds_step (e : ε) (done : σ → σ) (part : Nat → σ → σ) : (step e done part).Succeeds s :=
  ⟨(), done s, rfl⟩

theorem succeeds_allOrNothing (e : ε) (g : σ → σ) : (allOrNothing e g).Succeeds s := ⟨(), g s, rfl⟩

theorem succeeds_modify (g : σ → σ) : (modify g : Prog σ ε Unit).Succeeds s := ⟨(), g s, rfl⟩

/-- **A sequence succeeds** if its second part does from wherever the first may
end. -/
theorem succeeds_bind (hp : p.Succeeds s) (hf : ∀ a s', p.Ends s (.ok a) s' → (f a).Succeeds s') :
    (p >>= f).Succeeds s := by
  obtain ⟨a, s', hrun, hends⟩ := hp.ends
  obtain ⟨b, s'', h⟩ := hf a s' hends
  refine ⟨b, s'', ?_⟩
  simp [Bind.bind, Prog.bind, hrun, h]

theorem succeeds_get_bind {f : σ → Prog σ ε β} (h : (f s).Succeeds s) : (get >>= f).Succeeds s := h

theorem succeeds_ofExcept_bind {x a} (hx : x = .ok a) (h : (f a).Succeeds s) :
    (ofExcept x >>= f).Succeeds s := by
  subst hx
  exact h

theorem succeeds_mapErr (g : ε → ε') (h : p.Succeeds s) : (p.mapErr g).Succeeds s := by
  obtain ⟨a, s', h⟩ := h
  exact ⟨a, s', by simp [mapErr, h]⟩

theorem succeeds_zoom {view} {put : τ → σ → σ} {q : Prog τ ε α} (h : q.Succeeds (view s)) :
    (q.zoom view put).Succeeds s := by
  obtain ⟨a, t, h⟩ := h
  exact ⟨a, put t s, by simp [zoom, h]⟩

theorem succeeds_withLocal {t} {q : Prog (τ × σ) ε α} (h : q.Succeeds (t, s)) :
    (q.withLocal t).Succeeds s := by
  obtain ⟨a, ⟨t', s'⟩, h⟩ := h
  exact ⟨(a, t'), s', by simp [withLocal, h]⟩

def Returns (p : Prog σ ε α) (s : σ) (Q : α → σ → Prop) : Prop :=
  ∃ a s', p s [] = (.ok a, s', []) ∧ Q a s'

section Returns

variable {Q : α → σ → Prop} {R : β → σ → Prop}

theorem Succeeds.returns (h : p.Succeeds s) : p.Returns s fun a s' => p.Ends s (.ok a) s' := h.ends

theorem Returns.bind (hp : p.Returns s Q) (hf : ∀ a s', Q a s' → (f a).Returns s' R) :
    (p >>= f).Returns s R := by
  obtain ⟨a, s', hrun, hQ⟩ := hp
  obtain ⟨b, s'', h, hR⟩ := hf a s' hQ
  refine ⟨b, s'', ?_, hR⟩
  simp [Bind.bind, Prog.bind, hrun, h]

theorem returns_get_bind {f : σ → Prog σ ε β} (h : (f s).Returns s R) : (get >>= f).Returns s R := h

theorem returns_ofExcept_bind {x a} (hx : x = .ok a) (h : (f a).Returns s R) :
    (ofExcept x >>= f).Returns s R := by
  subst hx
  exact h

end Returns

/-! ### Runs without a fault that may end in an error -/

/-- Without faults `p` returns a value or an error. -/
def Calm (p : Prog σ ε α) : Prop := ∀ s, ∃ r s', p s [] = (r, s', []) ∧ r ≠ .crash

theorem calm_pure (a : α) : (Pure.pure a : Prog σ ε α).Calm := fun s => ⟨.ok a, s, rfl, nofun⟩

theorem calm_throw (e : ε) : (throw e : Prog σ ε α).Calm := fun s => ⟨.err e, s, rfl, nofun⟩

theorem calm_get : (get : Prog σ ε σ).Calm := fun s => ⟨.ok s, s, rfl, nofun⟩

theorem calm_modify (g : σ → σ) : (modify g : Prog σ ε Unit).Calm :=
  fun s => ⟨.ok (), g s, rfl, nofun⟩

theorem calm_ofExcept (x : Except ε α) : (ofExcept x : Prog σ ε α).Calm := by
  cases x with
  | ok a => exact calm_pure a
  | error e => exact calm_throw e

theorem calm_step (e : ε) (done : σ → σ) (part : Nat → σ → σ) : (step e done part).Calm :=
  fun s => ⟨.ok (), done s, rfl, nofun⟩

theorem calm_allOrNothing (e : ε) (g : σ → σ) : (allOrNothing e g).Calm :=
  fun s => ⟨.ok (), g s, rfl, nofun⟩

theorem calm_of_succeeds (h : ∀ s, p.Succeeds s) : p.Calm := by
  intro s
  obtain ⟨a, s', hrun⟩ := h s
  exact ⟨.ok a, s', hrun, nofun⟩

theorem Calm.onErr (h : p.Calm) (g : σ → σ) : (p.onErr g).Calm := by
  intro s
  obtain ⟨r, s', hrun, hr⟩ := h s
  cases r with
  | ok a => exact ⟨.ok a, s', by simp [Prog.onErr, hrun], nofun⟩
  | err e => exact ⟨.err e, g s', by simp [Prog.onErr, hrun], nofun⟩
  | crash => exact (hr rfl).elim

theorem Calm.zoom {view} {put : τ → σ → σ} {q : Prog τ ε α} (h : q.Calm) :
    (q.zoom view put).Calm := by
  intro s
  obtain ⟨r, t, hrun, hr⟩ := h (view s)
  exact ⟨r, put t s, by simp [Prog.zoom, hrun], hr⟩

theorem Calm.withLocal {t} {q : Prog (τ × σ) ε α} (h : q.Calm) : (q.withLocal t).Calm := by
  intro s
  obtain ⟨r, ⟨t', s'⟩, hrun, hr⟩ := h (t, s)
  cases r with
  | ok a => exact ⟨.ok (a, t'), s', by simp [Prog.withLocal, hrun], nofun⟩
  | err e => exact ⟨.err e, s', by simp [Prog.withLocal, hrun], nofun⟩
  | crash => exact (hr rfl).elim

theorem Calm.bind (hp : p.Calm) (hf : ∀ a, (f a).Calm) : (p >>= f).Calm := by
  intro s
  obtain ⟨r, s', hrun, hr⟩ := hp s
  cases r with
  | ok a =>
    obtain ⟨r', s'', hrun', hr'⟩ := hf a s'
    exact ⟨r', s'', by simp [Bind.bind, Prog.bind, hrun, hrun'], hr'⟩
  | err e => exact ⟨.err e, s', by simp [Bind.bind, Prog.bind, hrun], nofun⟩
  | crash => exact (hr rfl).elim

/-- **The error of a sequence without faults** is that of its first part, or of its
second from where the first ended. -/
theorem Calm.bind_err {e} (hp : p.Calm) {fs} (h : (p >>= f) s [] = (.err e, s', fs)) :
    p.Ends s (.err e) s' ∨ ∃ a s₁, p.Ends s (.ok a) s₁ ∧ f a s₁ [] = (.err e, s', fs) := by
  obtain ⟨r, s₁, hrun, hr⟩ := hp s
  simp only [Bind.bind, Prog.bind, hrun] at h
  cases r with
  | ok a => exact .inr ⟨a, s₁, ⟨[], [], hrun⟩, h⟩
  | err =>
    obtain ⟨rfl, rfl, -⟩ := h
    exact .inl ⟨[], [], hrun⟩
  | crash => exact (hr rfl).elim

theorem Succeeds.not_err {e fs} (hp : p.Succeeds s) : p s [] ≠ (.err e, s', fs) := by
  obtain ⟨a, s'', hrun⟩ := hp
  rw [hrun]
  nofun

/-! ### What a program moves in one direction only -/

section Along

variable {v : σ → τ} {D : τ → τ → Prop} {g : σ → σ}

def Along (v : σ → τ) (D : τ → τ → Prop) (p : Prog σ ε α) : Prop :=
  ∀ s r s', p.Ends s r s' → D (v s) (v s')

theorem Along.onErr (hp : p.Along v D) (hg : ∀ s, v (g s) = v s) : (p.onErr g).Along v D := by
  intro s r s' he
  rcases ends_onErr he with ⟨h, -⟩ | ⟨e, s1, -, h, rfl⟩
  · exact hp s r s' h
  · rw [hg]
    exact hp s _ s1 h

variable [IsPreorder τ D]

theorem along_of_eq (h : ∀ s r s', p.Ends s r s' → v s' = v s) : p.Along v D := by
  intro s r s' he
  rw [h s r s' he]
  exact refl_of D _

theorem along_pure (a : α) : (Pure.pure a : Prog σ ε α).Along v D :=
  along_of_eq fun _ _ _ h => by rw [(ends_pure h).2]

theorem along_throw (e : ε) : (throw e : Prog σ ε α).Along v D :=
  along_of_eq fun _ _ _ h => by rw [(ends_throw h).2]

theorem along_get : (get : Prog σ ε σ).Along v D := along_of_eq fun _ _ _ h => by rw [ends_get h]

theorem along_ofExcept (x : Except ε α) : (ofExcept x : Prog σ ε α).Along v D :=
  along_of_eq fun _ _ _ h => by rw [ends_ofExcept h]

theorem along_modify (hg : ∀ s, v (g s) = v s) : (modify g : Prog σ ε Unit).Along v D :=
  along_of_eq fun _ _ _ h => by rw [(ends_modify h).2, hg]

theorem along_of_leads (h : ∀ s, p.Leads s (fun _ s' => v s' = v s) fun _ s' => v s' = v s) :
    p.Along v D :=
  along_of_eq fun s _ _ => (h s).always

theorem along_step {e : ε} {done} {part : Nat → σ → σ} (hdone : ∀ s, v (done s) = v s)
    (hpart : ∀ k s, v (part k s) = v s) : (step e done part).Along v D :=
  along_of_leads fun s => leads_step (hdone s) fun k _ => hpart k s

theorem along_allOrNothing {e : ε} (hg : ∀ s, v (g s) = v s) : (allOrNothing e g).Along v D :=
  along_of_leads fun s => leads_allOrNothing (hg s) (fun _ => rfl) (hg s)

theorem Along.bind (hp : p.Along v D) (hf : ∀ a, (f a).Along v D) : (p >>= f).Along v D := by
  intro s r s' he
  rcases ends_bind he with ⟨a, s1, h1, h2⟩ | ⟨-, r0, -, h1⟩
  · exact trans_of D (hp s _ s1 h1) (hf a s1 r s' h2)
  · exact hp s r0 s' h1

end Along

/-! ### Refusals -/

def Refuses (p : Prog σ ε α) (s : σ) : Prop := ∀ fs, ∃ e, p s fs = (.err e, s, fs)

theorem Refuses.ends {r} (h : p.Refuses s) (he : p.Ends s r s') : (∃ e, r = .err e) ∧ s' = s := by
  obtain ⟨fs, fs', he⟩ := he
  obtain ⟨e, hrun⟩ := h fs
  rw [hrun] at he
  obtain ⟨rfl, rfl, -⟩ := he
  exact ⟨⟨e, rfl⟩, rfl⟩

theorem refuses_throw (e : ε) : (throw e : Prog σ ε α).Refuses s := fun _ => ⟨e, rfl⟩

theorem Refuses.bind (h : p.Refuses s) : (p >>= f).Refuses s := by
  intro fs
  obtain ⟨e, hrun⟩ := h fs
  exact ⟨e, by simp [Bind.bind, Prog.bind, hrun]⟩

theorem refuses_get_bind {f : σ → Prog σ ε β} (h : (f s).Refuses s) : (get >>= f).Refuses s := h

theorem refuses_ofExcept_bind {x} (h : ∀ a, x = .ok a → (f a).Refuses s) :
    (ofExcept x >>= f).Refuses s := by
  cases x with
  | ok a => exact h a rfl
  | error e => exact (refuses_throw e).bind

end Prog

end Ptr.Lib
