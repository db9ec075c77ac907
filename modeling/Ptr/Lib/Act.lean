import Mathlib.Tactic.Common

/-!
# Actions on a state that may fail

`Act σ ε α` is a computation that changes a state and ends with a value or an error; the
state is kept in both cases.  `Leads x s Q E` says how `x` can end from `s` on; it follows
the parts of `x`, so that a loop is proved by its rules.  `Along R E x` says that `x`
moves the state along the relation `R`, whatever it ends with, and fails with errors of
`E` only: for a preorder this follows from the parts of `x`.
-/

namespace Ptr.Lib

def Act (σ ε α : Type) : Type := σ → Except ε α × σ

namespace Act

variable {σ ε α β : Type}

protected def pure (a : α) : Act σ ε α := fun s => (.ok a, s)

protected def bind (x : Act σ ε α) (f : α → Act σ ε β) : Act σ ε β := fun s =>
  match x s with
  | (.ok a, s') => f a s'
  | (.error e, s') => (.error e, s')

instance : Monad (Act σ ε) where
  pure := Act.pure
  bind := Act.bind

def throw (e : ε) : Act σ ε α := fun s => (.error e, s)

def gets (f : σ → α) : Act σ ε α := fun s => (.ok (f s), s)

def modify (f : σ → σ) : Act σ ε Unit := fun s => (.ok (), f s)

def onError (x : Act σ ε α) (f : σ → σ) : Act σ ε α := fun s =>
  match x s with
  | (.ok a, s') => (.ok a, s')
  | (.error e, s') => (.error e, f s')

theorem bind_apply (x : Act σ ε α) (f : α → Act σ ε β) (s : σ) :
    (x >>= f) s = match x s with
      | (.ok a, s') => f a s'
      | (.error e, s') => (.error e, s') := rfl

/-! ### Pre- and postconditions -/

/-- From `s` on, `x` ends with a value and a state in `Q`, or an error and a state in `E`. -/
def Leads (x : Act σ ε α) (s : σ) (Q : α → σ → Prop) (E : ε → σ → Prop) : Prop :=
  match x s with
  | (.ok a, s') => Q a s'
  | (.error e, s') => E e s'

variable {x : Act σ ε α} {f : α → Act σ ε β} {s : σ} {Q Q' : α → σ → Prop} {E E' : ε → σ → Prop}

theorem Leads.imp (h : x.Leads s Q E) (hQ : ∀ a s', Q a s' → Q' a s')
    (hE : ∀ e s', E e s' → E' e s') : x.Leads s Q' E' := by
  rw [Leads] at h ⊢
  split at h
  · exact hQ _ _ h
  · exact hE _ _ h

theorem Leads.bind {Q' : β → σ → Prop} (hx : x.Leads s Q E)
    (hf : ∀ a s', Q a s' → (f a).Leads s' Q' E) : (x >>= f).Leads s Q' E := by
  rw [Leads] at hx
  rw [Leads, bind_apply]
  split at hx
  · exact hf _ _ hx
  · exact hx

theorem Leads.run {a s'} {Q : β → σ → Prop} (hx : x s = (.ok a, s')) (hf : (f a).Leads s' Q E) :
    (x >>= f).Leads s Q E := by
  rwa [Leads, bind_apply, hx]

theorem Leads.onError {g : σ → σ} (h : x.Leads s Q fun e s' => E e (g s')) :
    (x.onError g).Leads s Q E := by
  rw [Leads] at h
  rw [Leads, Act.onError]
  split at h
  · exact h
  · exact h

/-! ### Moving along a relation -/

/-- The state moves along `R`, and every error satisfies `E`. -/
def Along (R : σ → σ → Prop) (E : ε → Prop) (x : Act σ ε α) : Prop :=
  ∀ s, R s (x s).2 ∧ ∀ e, (x s).1 = .error e → E e

variable {R : σ → σ → Prop} {E : ε → Prop}

theorem Along.leads (h : Along R E x) (s : σ) :
    x.Leads s (fun _ s' => R s s') fun e s' => R s s' ∧ E e := by
  obtain ⟨hmoves, herror⟩ := h s
  rw [Leads]
  split
  · next heq => rwa [heq] at hmoves
  · next e _ heq =>
    rw [heq] at hmoves herror
    exact ⟨hmoves, herror e rfl⟩

theorem along_pure (hrefl : ∀ s, R s s) (a : α) : Along R E (Pure.pure a : Act σ ε α) :=
  fun s => ⟨hrefl s, fun _ he => by cases he⟩

theorem along_throw (hrefl : ∀ s, R s s) {e} (he : E e) : Along R E (throw e : Act σ ε α) :=
  fun s => ⟨hrefl s, fun _ h => by cases h; exact he⟩

theorem along_bind (htrans : ∀ {a b c}, R a b → R b c → R a c) {x} {f : α → Act σ ε β}
    (hx : Along R E x) (hf : ∀ a, Along R E (f a)) : Along R E (x >>= f) := by
  intro s
  obtain ⟨hfirst, herror⟩ := hx s
  rw [bind_apply]
  split
  · next a s' heq =>
    rw [heq] at hfirst
    exact ⟨htrans hfirst (hf a s').1, (hf a s').2⟩
  · next e s' heq =>
    rw [heq] at hfirst herror
    exact ⟨hfirst, fun e' he' => herror e' (by cases he'; rfl)⟩

end Act

end Ptr.Lib
