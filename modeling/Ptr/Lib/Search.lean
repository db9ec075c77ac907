import Mathlib.Tactic.Common
import Mathlib.Logic.Relation
import Mathlib.Algebra.Order.Group.Nat
import Mathlib.Algebra.GroupWithZero.Nat
import Mathlib.Algebra.Order.BigOperators.Group.List
import Std.Data.ExtTreeMap
import Std.Data.ExtTreeSet

/-!
# Searching along a finite successor map

A stack of keys to visit and a set of keys visited: a key popped for the first
time is added to the set and its successors are pushed.  The search ends, and
what it has then visited is what the successor relation reaches from the keys it
started with.
-/

namespace Ptr.Lib

open Std List ExtTreeSet

variable {α : Type} [Ord α] [TransOrd α]

section

variable [LawfulEqOrd α]

def Follows (next : ExtTreeMap α (List α)) (a b : α) : Prop := b ∈ next.getD a []

/-- The successors of the keys not visited yet, which bound the pushes to come. -/
def unfollowed (next : ExtTreeMap α (List α)) (out : ExtTreeSet α) : Nat :=
  (next.toList.map fun p => if p.1 ∈ out then 0 else p.2.length).sum

omit [Ord α] [TransOrd α] [LawfulEqOrd α] in
theorem sum_map_add_le {u v} {l : List α} {a} {c : Nat} (hle : ∀ x, u x ≤ v x) (ha : a ∈ l)
    (hc : u a + c ≤ v a) : (l.map u).sum + c ≤ (l.map v).sum := by
  induction l with
  | nil => cases ha
  | cons x l ih =>
    rw [map_cons, map_cons, sum_cons, sum_cons]
    rcases mem_cons.mp ha with rfl | ha
    · have hrest : (l.map u).sum ≤ (l.map v).sum := sum_le_sum fun x _ => hle x
      omega
    · have hrest := ih ha
      have hx := hle x
      omega

theorem unfollowed_insert {next} {out : ExtTreeSet α} {k} (hk : k ∉ out) :
    unfollowed next (out.insert k) + (next.getD k []).length ≤ unfollowed next out := by
  have hle : ∀ p : α × List α, (if p.1 ∈ out.insert k then 0 else p.2.length) ≤
      if p.1 ∈ out then 0 else p.2.length := by
    intro p
    by_cases hp : p.1 ∈ out
    · simp [hp]
    split
    · exact Nat.zero_le _
    · exact le_rfl
  cases hnext : next[k]? with
  | none =>
    rw [ExtTreeMap.getD_eq_getD_getElem?, hnext]
    exact sum_le_sum fun p _ => hle p
  | some =>
    rw [ExtTreeMap.getD_eq_getD_getElem?, hnext]
    refine sum_map_add_le hle (ExtTreeMap.mem_toList_iff_getElem?_eq_some.mpr hnext) ?_
    simp [hk]

end

/-- `while let Some(key) = stack.pop()`: the top of the stack is the head of the
list, so the successors of a key are pushed in reverse. -/
def search [LawfulEqOrd α] (next : ExtTreeMap α (List α)) (out : ExtTreeSet α) :
    List α → ExtTreeSet α
  | [] => out
  | k :: stack =>
    if k ∈ out then search next out stack
    else search next (out.insert k) ((next.getD k []).reverse ++ stack)
termination_by stack => unfollowed next out + stack.length
decreasing_by
  · simp
  · have : unfollowed next (out.insert k) + _ ≤ _ := unfollowed_insert ‹k ∉ out›
    simp only [length_append, length_reverse, length_cons]
    omega

/-- The most that a search holds at once: the keys visited and the stack together, taken
whenever the successors of a key are pushed. -/
def peak [LawfulEqOrd α] (next : ExtTreeMap α (List α)) (out : ExtTreeSet α) : List α → Nat
  | [] => 0
  | k :: stack =>
    if k ∈ out then peak next out stack
    else max ((out.insert k).size + stack.length + (next.getD k []).length)
      (peak next (out.insert k) ((next.getD k []).reverse ++ stack))
termination_by stack => unfollowed next out + stack.length
decreasing_by
  · simp
  · have : unfollowed next (out.insert k) + _ ≤ _ := unfollowed_insert ‹k ∉ out›
    simp only [length_append, length_reverse, length_cons]
    omega

variable [LawfulEqOrd α] {next : ExtTreeMap α (List α)} {out : ExtTreeSet α} {stack : List α}

/-- What holds of the keys at hand and passes to successors holds of every key
visited. -/
theorem search_induction {P : α → Prop} (hnext : ∀ a b, P a → Follows next a b → P b)
    (hout : ∀ k ∈ out, P k) (hstack : ∀ k ∈ stack, P k) : ∀ k ∈ search next out stack, P k := by
  fun_induction search next out stack with
  | case1 => exact hout
  | case2 out k stack hk ih => exact ih hout fun j hj => hstack j (mem_cons_of_mem _ hj)
  | case3 out k stack hk ih =>
    have hPk : P k := hstack k mem_cons_self
    apply ih
    · intro j hj
      rcases mem_insert.mp hj with hj | hj
      · rwa [← LawfulEqOrd.eq_of_compare hj]
      · exact hout j hj
    · intro j hj
      rcases mem_append.mp hj with hj | hj
      · exact hnext k j hPk (mem_reverse.mp hj)
      · exact hstack j (mem_cons_of_mem _ hj)

theorem mem_search_of_mem {k} (h : k ∈ out ∨ k ∈ stack) : k ∈ search next out stack := by
  fun_induction search next out stack with
  | case1 => simpa using h
  | case2 out j stack hj ih =>
    apply ih
    rcases h with h | h
    · exact .inl h
    · rcases mem_cons.mp h with rfl | h
      · exact .inl hj
      · exact .inr h
  | case3 out j stack hj ih =>
    apply ih
    rcases h with h | h
    · exact .inl (mem_insert.mpr (.inr h))
    · rcases mem_cons.mp h with rfl | h
      · exact .inl mem_insert_self
      · exact .inr (mem_append_right _ h)

/-- The invariant of the loop: a visited key's successors are visited or on the
stack. -/
theorem search_closed (h : ∀ a ∈ out, ∀ b, Follows next a b → b ∈ out ∨ b ∈ stack) :
    ∀ a ∈ search next out stack, ∀ b, Follows next a b → b ∈ search next out stack := by
  fun_induction search next out stack with
  | case1 => simpa using h
  | case2 out k stack hk ih =>
    apply ih
    intro a ha b hb
    rcases h a ha b hb with hb | hb
    · exact .inl hb
    · rcases mem_cons.mp hb with rfl | hb
      · exact .inl hk
      · exact .inr hb
  | case3 out k stack hk ih =>
    apply ih
    intro a ha b hb
    rcases mem_insert.mp ha with ha | ha
    · obtain rfl := LawfulEqOrd.eq_of_compare ha
      exact .inr (mem_append_left _ (mem_reverse.mpr hb))
    rcases h a ha b hb with hb | hb
    · exact .inl (mem_insert.mpr (.inr hb))
    · rcases mem_cons.mp hb with rfl | hb
      · exact .inl mem_insert_self
      · exact .inr (mem_append_right _ hb)

theorem size_search_le : (search next out stack).size ≤ max out.size (peak next out stack) := by
  fun_induction search next out stack with
  | case1 => exact le_max_left _ _
  | case2 out k stack hk ih => rwa [peak, if_pos hk]
  | case3 out k stack hk ih =>
    rw [peak, if_neg hk]
    omega

/-- The successors that the keys among `keys` name, apart from those of the keys visited. -/
def named (next : ExtTreeMap α (List α)) (keys out : ExtTreeSet α) : Nat :=
  (keys.toList.map fun k => if k ∈ out then 0 else (next.getD k []).length).sum

theorem named_insert {keys : ExtTreeSet α} {k} (next : ExtTreeMap α (List α)) (hkey : k ∈ keys)
    (hnew : k ∉ out) :
    named next keys (out.insert k) + (next.getD k []).length ≤ named next keys out := by
  refine sum_map_add_le (fun j => ?_) (mem_toList.mpr hkey) ?_
  · by_cases hj : j ∈ out
    · simp [hj]
    split
    · exact Nat.zero_le _
    · exact le_rfl
  · rw [if_pos ExtTreeSet.mem_insert_self, if_neg hnew, Nat.zero_add]

/-- Among keys that are closed under succession a search holds no more than what it has
and what they still name. -/
theorem peak_le_named (keys : ExtTreeSet α) (hstack : ∀ k ∈ stack, k ∈ keys)
    (hclosed : ∀ a ∈ keys, ∀ b, Follows next a b → b ∈ keys) :
    peak next out stack ≤ out.size + stack.length + named next keys out := by
  fun_induction peak next out stack with
  | case1 => exact Nat.zero_le _
  | case2 out k stack hk ih =>
    have hrest := ih fun j hj => hstack j (mem_cons_of_mem _ hj)
    rw [length_cons]
    omega
  | case3 out k stack hk ih =>
    have hkey := hstack k mem_cons_self
    have hinsert : (out.insert k).size ≤ out.size + 1 := size_insert_le
    have hnamed := named_insert next hkey hk
    have hrest := ih fun j hj => by
      rcases mem_append.mp hj with hj | hj
      · exact hclosed k hkey j (mem_reverse.mp hj)
      · exact hstack j (mem_cons_of_mem _ hj)
    rw [length_append, length_reverse] at hrest
    rw [length_cons]
    omega

theorem mem_search_empty {b : α} :
    b ∈ search next ∅ stack ↔ ∃ a ∈ stack, Relation.ReflTransGen (Follows next) a b := by
  constructor
  · refine search_induction
      (P := fun b => ∃ a ∈ stack, Relation.ReflTransGen (Follows next) a b) ?_ ?_ ?_ b
    · rintro b c ⟨a, ha, hab⟩ hbc
      exact ⟨a, ha, hab.tail hbc⟩
    · intro k hk
      exact absurd hk not_mem_empty
    · intro k hk
      exact ⟨k, hk, .refl⟩
  · rintro ⟨a, ha, hab⟩
    have hclosed : ∀ a ∈ search next ∅ stack, ∀ b, Follows next a b → b ∈ search next ∅ stack :=
      search_closed fun a ha => absurd ha not_mem_empty
    induction hab with
    | refl => exact mem_search_of_mem (.inr ha)
    | tail _ hbc ih => exact hclosed _ ih _ hbc

end Ptr.Lib
