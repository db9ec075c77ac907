import Ptr.Runtime.ReadBack

/-!
# The execution section has one spelling

Bytes that are accepted are written again as they are.  A value whose entries do not
carry their keys is written too, and never read back (`misplaced_attempt_not_read`).
-/

namespace Ptr.Runtime

open Lib Std

namespace ExecutionObligations

/-- **The codec of the execution section.**  A value that is written is read back as it
is if its entries carry their keys and it has a revision exactly with a scope; and bytes
that are read are written again as they are. -/
theorem execution_codec (e : ExecutionObligations) :
    (∀ bs, e.encode = .ok bs → e.Canonical → decodeExecution (!e.scopes.isEmpty) bs = .ok e) ∧
      ∀ hasScopes bs, decodeExecution hasScopes bs = .ok e → e.encode = .ok bs ∧ e.Canonical := by
  constructor
  · intro bs hwritten hcanonical
    exact decodeExecution_iff.mpr ⟨hwritten, hcanonical, (Bool.not_not _).symm⟩
  · intro hasScopes bs h
    obtain ⟨hwritten, hcanonical, -⟩ := decodeExecution_iff.mp h
    exact ⟨hwritten, hcanonical⟩

end ExecutionObligations

def attemptAt (index : CommitIndex) : UnsettledEffect :=
  ⟨index, none, "t", "o", .pure, ⟨"p", "u", 0, 0, .zero⟩⟩

/-- An attempt of index 2 that stands under index 1. -/
def misplaced : ExecutionObligations :=
  ⟨⟨(∅ : ExtTreeMap CommitIndex UnsettledEffect).insert 1 (attemptAt 2), ∅⟩, ∅, none⟩

/-- **The writer takes what the reader refuses.** -/
theorem misplaced_attempt_not_read : misplaced.encode = .ok (itemBytes misplaced.items) ∧
    misplaced.scopes.isEmpty = misplaced.scopeRevision.isNone ∧
    decodeExecution (!misplaced.scopes.isEmpty) (itemBytes misplaced.items) = .error noncanonical :=
  ⟨by rfl, by rfl, by rfl⟩

/-- Two attempts under their own indices and a key that is settled. -/
def placed : ExecutionObligations :=
  ⟨⟨((∅ : ExtTreeMap CommitIndex UnsettledEffect).insert 1 (attemptAt 1)).insert 2 (attemptAt 2),
    (∅ : ExtTreeMap String SettledOutcome).insert "k" .notApplied⟩, ∅, none⟩

theorem placed_attempt_read : placed.Canonical ∧
    decodeExecution (!placed.scopes.isEmpty) (itemBytes placed.items) = .ok placed := by
  have hcanonical : placed.Canonical := by
    refine ⟨?_, fun id part h => by simp [placed] at h, rfl⟩
    intro i u h
    simp only [placed] at h
    obtain ⟨rfl, rfl⟩ | ⟨-, h⟩ := some_of_insert h
    · rfl
    obtain ⟨rfl, rfl⟩ | ⟨-, h⟩ := some_of_insert h
    · rfl
    · simp at h
  have hwritten : placed.encode = .ok (itemBytes placed.items) := by decide +kernel
  exact ⟨hcanonical, (ExecutionObligations.execution_codec placed).1 _ hwritten hcanonical⟩

end Ptr.Runtime
