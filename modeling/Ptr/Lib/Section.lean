import Ptr.Lib.Checks
import Ptr.Lib.Bytes

/-!
# Writing into a bounded section

A writer appends items to a section that holds at most `room` bytes.  An item is
refused for itself (`allowed`) or because it does not fit any more.  A list of items
is written exactly when every item is allowed and all of them fit together, and
then their bytes stand one behind the other.
-/

namespace Ptr.Lib

variable {ε ι : Type}

structure ItemFormat (ι : Type) where
  bytes : ι → Bytes
  allowed : ι → Bool

namespace ItemFormat

variable (F : ItemFormat ι) (room : Nat) (full : ε)

def put (out : Bytes) (i : ι) : Except ε Bytes :=
  if !F.allowed i ∨ room - out.length < (F.bytes i).length then .error full
  else .ok (out ++ F.bytes i)

def putAll (items : List ι) (out : Bytes) : Except ε Bytes := items.foldlM (F.put room full) out

variable {F room full} {out : Bytes}

theorem put_eq_ok {i out'} (hout : out.length ≤ room) :
    F.put room full out i = .ok out' ↔
      F.allowed i = true ∧ (out ++ F.bytes i).length ≤ room ∧ out ++ F.bytes i = out' := by
  rw [put, refuse_eq_ok, not_or, Except.ok.injEq, List.length_append, and_assoc]
  refine and_congr (by simp) (and_congr ?_ .rfl)
  omega

theorem putAll_eq_ok {items out'} (hout : out.length ≤ room) :
    F.putAll room full items out = .ok out' ↔
      (∀ i ∈ items, F.allowed i = true) ∧ (out ++ items.flatMap F.bytes).length ≤ room ∧
        out ++ items.flatMap F.bytes = out' := by
  induction items generalizing out with
  | nil =>
    rw [putAll]
    simp [pure, Except.pure, hout]
  | cons i items ih =>
    rw [putAll, List.foldlM_cons, bind_eq_ok, List.flatMap_cons, ← List.append_assoc,
      List.forall_mem_cons]
    constructor
    · rintro ⟨next, hput, hrest⟩
      obtain ⟨hallowed, hfits, rfl⟩ := (put_eq_ok hout).mp hput
      obtain ⟨hitems, hroom, heq⟩ := (ih hfits).mp hrest
      exact ⟨⟨hallowed, hitems⟩, hroom, heq⟩
    · rintro ⟨⟨hallowed, hitems⟩, hroom, heq⟩
      have hfits : (out ++ F.bytes i).length ≤ room := by
        rw [List.length_append] at hroom
        omega
      exact ⟨_, (put_eq_ok hout).mpr ⟨hallowed, hfits, rfl⟩, (ih hfits).mpr ⟨hitems, hroom, heq⟩⟩

end ItemFormat

end Ptr.Lib
