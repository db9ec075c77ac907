import Mathlib.Tactic.Common

/-!
# Sequences of checks

A function of checks in `Except` succeeds exactly when each of its checks does.
These lemmas turn the success of a sequence into the conjunction of what it
checked.
-/

namespace Ptr.Lib

variable {ε α β : Type} {x : Except ε α} {b : β}

theorem bind_eq_ok {f} : (x >>= f) = .ok b ↔ ∃ a, x = .ok a ∧ f a = .ok b := by
  cases x with
  | error | ok => simp [bind, Except.bind]

theorem bind_unit_eq_ok {x} {f : Unit → Except ε β} :
    (x >>= f) = .ok b ↔ x = .ok () ∧ f () = .ok b := by
  rw [bind_eq_ok]
  exact ⟨fun ⟨(), h⟩ => h, fun h => ⟨(), h⟩⟩

theorem refuse_eq_ok {c : Prop} [Decidable c] {e} {x : Except ε β} :
    (if c then .error e else x) = .ok b ↔ ¬ c ∧ x = .ok b := by
  by_cases hc : c <;> simp [hc]

theorem throw_if_eq_ok {ε α : Type} {c : Prop} [Decidable c] {e} {k : PUnit → Except ε α} {a} :
    (if c then throw e >>= k else k PUnit.unit) = .ok a ↔ ¬ c ∧ k PUnit.unit = .ok a := by
  have hthrow : (throw e >>= k) = .error e := rfl
  rw [hthrow, refuse_eq_ok]

theorem isOk_iff {ε : Type} {x : Except ε Unit} : x.isOk = true ↔ x = .ok () := by
  cases x with
  | error | ok => simp [Except.toBool]

theorem throw_unless_eq_ok {ε : Type} {c : Prop} [Decidable c] {e} :
    (if c then throw e else pure () : Except ε Unit) = .ok () ↔ ¬ c := by
  change (if c then Except.error e else .ok ()) = _ ↔ _
  rw [refuse_eq_ok, and_iff_left rfl]

theorem mapError_eq_ok {ε' : Type} {f : ε → ε'} {a} : x.mapError f = .ok a ↔ x = .ok a := by
  cases x with
  | error | ok => simp [Except.mapError]

theorem map_eq_ok {f} : x.map f = .ok b ↔ ∃ a, x = .ok a ∧ f a = b := by
  cases x with
  | error | ok => simp [Except.map]

theorem forM_eq_ok {f : α → Except ε Unit} {l : List α} :
    l.forM f = .ok () ↔ ∀ a ∈ l, f a = .ok () := by
  induction l with
  | nil => exact iff_of_true rfl (by simp)
  | cons a l ih =>
    rw [List.forall_mem_cons, ← ih]
    exact bind_unit_eq_ok

def okOr (x : Option α) (e : ε) : Except ε α := x.elim (.error e) .ok

@[simp] theorem okOr_eq_ok {x : Option α} {e : ε} {a} : okOr x e = .ok a ↔ x = some a := by
  cases x with
  | none | some => simp [okOr]

theorem exists_foldlM {σ : Type} {f : σ → α → Except ε σ} {l : List α}
    (h : ∀ s, ∀ a ∈ l, ∃ s', f s a = .ok s') (s : σ) : ∃ s', l.foldlM f s = .ok s' := by
  induction l generalizing s with
  | nil => exact ⟨s, rfl⟩
  | cons a l ih =>
    obtain ⟨next, hnext⟩ := h s a List.mem_cons_self
    obtain ⟨last, hlast⟩ := ih (fun s b hb => h s b (List.mem_cons_of_mem a hb)) next
    exact ⟨last, by rw [List.foldlM_cons, hnext]; exact hlast⟩

/-- **An invariant of a fold**, of the elements taken so far and the state. -/
theorem foldlM_along {σ : Type} {f : σ → α → Except ε σ} {P : List α → σ → Prop} {l : List α} {s s'}
    (h : l.foldlM f s = .ok s') (hs : P [] s)
    (hstep : ∀ done s, ∀ a ∈ l, ∀ s', P done s → f s a = .ok s' → P (done ++ [a]) s') : P l s' := by
  suffices hrest : ∀ rest done s, (∀ a ∈ rest, a ∈ l) → P done s → rest.foldlM f s = .ok s' →
      P (done ++ rest) s' from hrest l [] s (fun _ ha => ha) hs h
  intro rest
  induction rest with
  | nil =>
    rintro done s - hP h
    cases h
    rwa [List.append_nil]
  | cons a rest ih =>
    intro done s hmem hP h
    rw [List.forall_mem_cons] at hmem
    obtain ⟨next, hnext, h⟩ := bind_eq_ok.mp h
    rw [List.append_cons]
    exact ih _ next hmem.2 (hstep done s a hmem.1 next hP hnext) h

end Ptr.Lib
