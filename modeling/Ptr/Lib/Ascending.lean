import Ptr.Lib.Bytes
import Ptr.Lib.Keyed

/-!
# Reading entries in ascending order

A reader takes entries one after another and refuses one whose key is not above the
key before it, so that each set of entries has one spelling.  The entries of a map,
written in its order, are read back as the map.
-/

namespace Ptr.Lib.Reader

open Std List ExtTreeMap

variable {ε κ β σ : Type}

/-- `n` entries; each is read with the key before it. -/
def entries (item : Option κ → Reader ε (κ × β)) (add : σ → κ × β → σ) :
    Nat → Option κ → σ → Reader ε σ
  | 0, _, s => pure s
  | n + 1, previous, s => do
    let p ← item previous
    entries item add n (some p.1) (add s p)

variable [Ord κ] {item : Option κ → Reader ε (κ × β)} {add : σ → κ × β → σ} {put : κ × β → Bytes}

def Above (previous : Option κ) (k : κ) : Prop := ∀ j ∈ previous, compare j k = .lt

theorem entries_put {ps : List (κ × β)}
    (hitem : ∀ p ∈ ps, ∀ previous, Above previous p.1 →
      ∀ rest, item previous (put p ++ rest) = .ok (p, rest))
    (hsorted : ps.Pairwise fun p q => compare p.1 q.1 = .lt) {previous}
    (hprevious : ∀ p ∈ ps, Above previous p.1) (s : σ) (rest : Bytes) :
    entries item add ps.length previous s (ps.flatMap put ++ rest) =
      .ok (ps.foldl add s, rest) := by
  induction ps generalizing previous s with
  | nil => rfl
  | cons p ps ih =>
    rw [pairwise_cons] at hsorted
    rw [length_cons, entries, flatMap_cons, append_assoc,
      bind_of_ok (hitem p mem_cons_self previous (hprevious p mem_cons_self) _)]
    refine ih (fun q hq => hitem q (mem_cons_of_mem _ hq)) hsorted.2 ?_ _
    intro q hq k hk
    cases hk
    exact hsorted.1 q hq

variable [TransOrd κ] [LawfulEqOrd κ]

theorem entries_map {item : Option κ → Reader ε (κ × β)} {put} (m : ExtTreeMap κ β)
    (hitem : ∀ p ∈ m.toList, ∀ previous, Above previous p.1 →
      ∀ rest, item previous (put p ++ rest) = .ok (p, rest)) (rest : Bytes) :
    entries item store m.size none ∅ (m.toList.flatMap put ++ rest) = .ok (m, rest) := by
  have h : entries item store m.toList.length none ∅ (m.toList.flatMap put ++ rest) =
      .ok (m.toList.foldl store ∅, rest) :=
    entries_put hitem ordered_keys_toList (fun p _ j hj => by cases hj) ∅ rest
  rw [foldl_store_toList, length_toList] at h
  exact h

theorem toList_foldl_store {ps : List (κ × β)}
    (hsorted : ps.Pairwise fun p q => compare p.1 q.1 = .lt) :
    (ps.foldl store (∅ : ExtTreeMap κ β)).toList = ps := by
  have hne : ∀ {j k : κ}, compare j k = .lt → j ≠ k := by
    rintro j k hlt rfl
    exact absurd (hlt.symm.trans ReflCmp.compare_self) (by decide)
  have hkeys : (ps.map Prod.fst).Nodup := pairwise_map.mpr (hsorted.imp hne)
  have hperm : (ps.foldl store ∅).toList.Perm ps := by
    have hnodup : ∀ {qs : List (κ × β)}, (qs.Pairwise fun p q => compare p.1 q.1 = .lt) →
        qs.Nodup :=
      fun h => h.imp fun hlt heq => hne hlt (congrArg Prod.fst heq)
    refine (perm_ext_iff_of_nodup (hnodup ordered_keys_toList) (hnodup hsorted)).mpr ?_
    rintro ⟨k, v⟩
    rw [mem_toList_iff_getElem?_eq_some, getElem?_foldl_store hkeys]
  refine hperm.eq_of_pairwise ?_ ordered_keys_toList hsorted
  intro p q _ _ hpq hqp
  exact absurd rfl (hne (TransCmp.lt_trans hpq hqp))

section Exact

variable {P Q : κ × β → Prop}
  (hitem : ∀ previous, Exact (item previous) put fun p => P p ∧ Above previous p.1 ∧ Q p)
include hitem

omit [LawfulEqOrd κ] in
theorem entries_spelt (n : Nat) (previous : Option κ) (s : σ) {bs rest s'}
    (h : entries item add n previous s bs = .ok (s', rest)) :
    ∃ ps : List (κ × β), ps.length = n ∧ bs = ps.flatMap put ++ rest ∧ s' = ps.foldl add s ∧
      ps.Pairwise (fun p q => compare p.1 q.1 = .lt) ∧ ∀ p ∈ ps, Above previous p.1 ∧
      P p ∧ Q p := by
  induction n generalizing previous s bs with
  | zero =>
    cases h
    exact ⟨[], rfl, rfl, rfl, .nil, by simp⟩
  | succ n ih =>
    obtain ⟨p, mid, hp, hrest⟩ := bind_iff.mp h
    obtain ⟨rfl, hP, habove, hQ⟩ := (hitem previous _ _ _).mp hp
    obtain ⟨ps, rfl, rfl, rfl, hsorted, hps⟩ := ih (some p.1) (add s p) hrest
    refine ⟨p :: ps, rfl, ?_, rfl, pairwise_cons.mpr ⟨?_, hsorted⟩, ?_⟩
    · rw [flatMap_cons, append_assoc]
    · exact fun q hq => (hps q hq).1 p.1 rfl
    · refine forall_mem_cons.mpr ⟨⟨habove, hP, hQ⟩, fun q hq => ⟨?_, (hps q hq).2⟩⟩
      exact fun j hj => TransCmp.lt_trans (habove j hj) ((hps q hq).1 p.1 rfl)

theorem exact_entries (n : Nat) :
    Exact (entries item store n none ∅) (fun m => m.toList.flatMap put)
      fun m => m.size = n ∧ ∀ p ∈ m.toList, P p ∧ Q p := by
  intro bs m rest
  constructor
  · intro h
    obtain ⟨ps, hlength, rfl, rfl, hsorted, hps⟩ := entries_spelt hitem n none ∅ h
    simp only [← length_toList, toList_foldl_store hsorted]
    exact ⟨trivial, hlength, fun p hp => (hps p hp).2⟩
  · rintro ⟨rfl, rfl, hm⟩
    exact entries_map m (fun p hp previous habove _ =>
      (hitem previous).of_put ⟨(hm p hp).1, habove, (hm p hp).2⟩) rest

end Exact

theorem entries_set {item : Option κ → Reader ε (κ × Unit)} {put} (s : ExtTreeSet κ)
    (hitem : ∀ k ∈ s.toList, ∀ previous, Above previous k →
      ∀ rest, item previous (put k ++ rest) = .ok ((k, ()), rest)) (rest : Bytes) :
    entries item (fun (t : ExtTreeSet κ) p => t.insert p.1) s.size none ∅
      (s.toList.flatMap put ++ rest) = .ok (s, rest) := by
  have h : entries item (fun t p => t.insert p.1) (s.toList.map (·, ())).length none ∅
      ((s.toList.map (·, ())).flatMap (fun p => put p.1) ++ rest) =
      .ok ((s.toList.map (·, ())).foldl (fun (t : ExtTreeSet κ) p => t.insert p.1) ∅, rest) := by
    refine entries_put ?_ ?_ (fun p _ j hj => by cases hj) ∅ rest
    · intro p hp previous habove rest
      obtain ⟨k, hk, rfl⟩ := mem_map.mp hp
      exact hitem k hk previous habove rest
    · rw [pairwise_map]
      exact ExtTreeSet.ordered_toList
  rw [foldl_map, foldl_insert_toList, length_map, ExtTreeSet.length_toList, flatMap_map] at h
  exact h

end Ptr.Lib.Reader
