import Mathlib.Tactic.Common
import Std.Data.String.ToNat

/-!
# Splitting texts

A text is split at the first place where a separator stands (`splitOnce`).  What
was put together from parts in which the separator cannot begin is split into the
same parts, and what is split has only one spelling.
-/

namespace Ptr.Lib

def stripPrefix (pre cs : List Char) : Option (List Char) :=
  if pre.isPrefixOf cs then some (cs.drop pre.length) else none

theorem stripPrefix_eq_some {pre cs rest} : stripPrefix pre cs = some rest ↔ cs = pre ++ rest := by
  rw [stripPrefix]
  constructor
  · intro h
    split at h
    · next hpre =>
      obtain ⟨more, rfl⟩ := List.isPrefixOf_iff_prefix.mp hpre
      cases h
      simp
    · cases h
  · rintro rfl
    simp

def splitOnce (sep : List Char) : List Char → Option (List Char × List Char)
  | [] => if sep = [] then some ([], []) else none
  | c :: cs =>
    if sep.isPrefixOf (c :: cs) then some ([], (c :: cs).drop sep.length)
    else (splitOnce sep cs).map fun p => (c :: p.1, p.2)

theorem splitOnce_append {c sep a b} (h : c ∉ a) :
    splitOnce (c :: sep) (a ++ (c :: sep) ++ b) = some (a, b) := by
  induction a with
  | nil => simp [splitOnce]
  | cons d a ih =>
    obtain ⟨hne, hmem⟩ := not_or.mp (mt List.mem_cons.mpr h)
    rw [List.cons_append, List.cons_append, splitOnce, ih hmem, if_neg]
    · rfl
    · simp [hne]

theorem splitOnce_eq_some {sep cs a b} (h : splitOnce sep cs = some (a, b)) :
    cs = a ++ sep ++ b := by
  induction cs generalizing a b with
  | nil =>
    rw [splitOnce] at h
    split at h
    · next hsep =>
      cases h
      rw [hsep]
      rfl
    · cases h
  | cons c cs ih =>
    rw [splitOnce] at h
    split at h
    · next hpre =>
      cases h
      obtain ⟨rest, hrest⟩ := List.isPrefixOf_iff_prefix.mp hpre
      rw [← hrest]
      simp
    · obtain ⟨⟨x, y⟩, hsplit, heq⟩ := Option.map_eq_some_iff.mp h
      cases heq
      rw [ih hsplit]
      rfl

theorem splitOn_three {c} {x y z : List Char} (hx : c ∉ x) (hy : c ∉ y) (hz : c ∉ z) :
    (x ++ c :: (y ++ c :: z)).splitOn c = [x, y, z] := by
  have h : ([c].intercalate [x, y, z]).splitOn c = [x, y, z] :=
    List.splitOn_intercalate c (by simp [hx, hy, hz]) (by simp)
  simpa using h

end Ptr.Lib
