import Mathlib.Tactic.Common

/-!
# Elements and what comes before them

`EachAfter P l` says that every element of `l` stands in `P` to the list before it.
A list that only grows at its end keeps the property by checking the new element.
-/

namespace Ptr.Lib

open List

variable {α : Type} {P Q : List α → α → Prop} {l : List α} {c : α}

def EachAfter (P : List α → α → Prop) (l : List α) : Prop :=
  ∀ before x after, l = before ++ x :: after → P before x

theorem eachAfter_nil : EachAfter P [] := by
  intro before x after h
  cases before <;> cases h

theorem eachAfter_append_singleton : EachAfter P (l ++ [c]) ↔ EachAfter P l ∧ P l c := by
  constructor
  · intro h
    refine ⟨?_, h l c [] rfl⟩
    intro before x after hl
    refine h before x (after ++ [c]) ?_
    rw [hl, append_assoc, cons_append]
  · rintro ⟨hold, hnew⟩ before x after hl
    -- The split is at the new element exactly when nothing follows it.
    rcases eq_nil_or_concat after with rfl | ⟨rest, last, rfl⟩
    · obtain ⟨rfl, hx⟩ := append_inj_left' hl rfl, append_inj_right' hl rfl
      cases hx
      exact hnew
    · rw [concat_eq_append, ← cons_append, ← append_assoc] at hl
      exact hold before x rest (append_inj_left' hl rfl)

theorem eachAfter_iff_get : EachAfter P l ↔ ∀ i : Fin l.length, P (l.take i) (l.get i) := by
  constructor
  · intro h i
    refine h (l.take i) (l.get i) (l.drop (i + 1)) ?_
    rw [get_eq_getElem, getElem_cons_drop, take_append_drop]
  · intro h before x after hl
    subst hl
    have hi := h ⟨before.length, by simp⟩
    simpa using hi

instance decidableEachAfter [∀ before x, Decidable (P before x)] : Decidable (EachAfter P l) :=
  decidable_of_iff _ eachAfter_iff_get.symm

theorem EachAfter.of_mem (h : EachAfter P l) {x} (hx : x ∈ l) :
    ∃ before after, l = before ++ x :: after ∧ P before x := by
  obtain ⟨before, after, hl⟩ := append_of_mem hx
  exact ⟨before, after, hl, h before x after hl⟩

end Ptr.Lib
