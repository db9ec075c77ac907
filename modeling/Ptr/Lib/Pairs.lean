import Mathlib.Tactic.Common

/-!
# Keys of two parts

Pairs are ordered by their first part and then by their second, and the order
separates pairs when it separates parts.
-/

namespace Ptr.Lib

open Std

variable {α β : Type} [Ord α] [Ord β]

instance pairOrd : Ord (α × β) := lexOrd

theorem compare_pair (p q : α × β) : compare p q = (compare p.1 q.1).then (compare p.2 q.2) := rfl

instance pairTransOrd [TransOrd α] [TransOrd β] : TransOrd (α × β) :=
  inferInstanceAs (TransCmp (compareLex (compareOn Prod.fst) (compareOn Prod.snd)))

instance pairLawfulEqOrd [LawfulEqOrd α] [LawfulEqOrd β] : LawfulEqOrd (α × β) where
  compare_self {p} := by simp
  eq_of_compare {p q} h := by
    rw [compare_pair, Ordering.then_eq_eq] at h
    exact Prod.ext (LawfulEqOrd.eq_of_compare h.1) (LawfulEqOrd.eq_of_compare h.2)

end Ptr.Lib
