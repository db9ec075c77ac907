import Mathlib.Data.List.Nodup
import Mathlib.Algebra.GroupWithZero.Nat
import Ptr.Lib.Keyed

/-!
# Sums over the entries of a map

The entries of a map weigh something, and the weight of the map is their sum.  A new
key adds its weight, and a new value adds its weight and takes the old one's.
-/

namespace Ptr.Lib

open Std ExtTreeMap

variable {κ ν : Type} [Ord κ] [TransOrd κ] [LawfulEqOrd κ] {m : ExtTreeMap κ ν} {k : κ} {v : ν}

omit [LawfulEqOrd κ] in
theorem nodup_toList (m : ExtTreeMap κ ν) : m.toList.Nodup := by
  refine List.Nodup.of_map Prod.fst ?_
  rw [map_fst_toList_eq_keys]
  exact nodup_keys

omit [LawfulEqOrd κ] in
@[simp] theorem toList_empty : (∅ : ExtTreeMap κ ν).toList = [] := by
  rw [← List.length_eq_zero_iff, length_toList]
  exact size_empty

theorem toList_insert_perm (h : k ∉ m) : (m.insert k v).toList.Perm ((k, v) :: m.toList) := by
  have hnone : m[k]? = none := getElem?_eq_none h
  refine (List.perm_ext_iff_of_nodup (nodup_toList _) ?_).mpr ?_
  · refine List.nodup_cons.mpr ⟨?_, nodup_toList m⟩
    rw [mem_toList_iff_getElem?_eq_some, hnone]
    simp
  · rintro ⟨k', v'⟩
    rw [mem_toList_iff_getElem?_eq_some, List.mem_cons, mem_toList_iff_getElem?_eq_some,
      getElem?_insert]
    by_cases hk : k = k'
    · subst hk
      rw [hnone]
      simp [eq_comm]
    · rw [if_neg (by rwa [LawfulEqOrd.compare_eq_iff_eq])]
      simp [Ne.symm hk]

theorem toList_singleton : ((∅ : ExtTreeMap κ ν).insert k v).toList = [(k, v)] := by
  have hperm := toList_insert_perm (k := k) (v := v) not_mem_empty
  exact List.perm_singleton.mp hperm

theorem sum_toList_insert (f : κ × ν → Nat) (h : k ∉ m) :
    ((m.insert k v).toList.map f).sum = f (k, v) + (m.toList.map f).sum := by
  rw [((toList_insert_perm h).map f).sum_nat, List.map_cons, List.sum_cons]

theorem sum_toList_update (f : κ × ν → Nat) {old} (h : m[k]? = some old) :
    ((m.insert k v).toList.map f).sum + f (k, old) = (m.toList.map f).sum + f (k, v) := by
  have herase : k ∉ m.erase k := by simp
  have hsame : ∀ w, (m.erase k).insert k w = m.insert k w := by
    intro w
    refine ext_getElem? fun k' => ?_
    rw [getElem?_insert, getElem?_insert, getElem?_erase]
    by_cases hk : compare k k' = .eq
    · rw [if_pos hk, if_pos hk]
    · rw [if_neg hk, if_neg hk, if_neg hk]
  have hsum : ∀ w, ((m.insert k w).toList.map f).sum =
      f (k, w) + ((m.erase k).toList.map f).sum := by
    intro w
    rw [← hsame, sum_toList_insert f herase]
  have hbefore := hsum old
  rw [insert_eq_self h] at hbefore
  rw [hsum]
  omega

theorem sum_toList_replace {f : κ × ν → Nat} {old} (h : m[k]? = some old)
    (hf : f (k, v) = f (k, old)) : ((m.insert k v).toList.map f).sum = (m.toList.map f).sum := by
  have hupdate := sum_toList_update (v := v) f h
  omega

end Ptr.Lib
