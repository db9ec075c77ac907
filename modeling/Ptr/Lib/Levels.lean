import Mathlib.Logic.Relation
import Std.Data.ExtTreeSet
import Ptr.Lib.Checks

/-!
# Searching level by level, within bounds

A breadth-first search from one key: the keys of a level are expanded in order, and
a key met for the first time is appended to the result and to the next level.  The
search refuses a result longer than a limit and a level deeper than a limit.  If it
does not refuse, its result holds every key that can be reached, the start apart.
-/

namespace Ptr.Lib

open Std Relation List ExtTreeSet

variable {α : Type} [Ord α] [TransOrd α]

inductive SearchBound
  | visited | depth

structure Visit (α : Type) [Ord α] [TransOrd α] where
  seen : ExtTreeSet α
  order : List α
  next : List α

def visitAll (limit : Nat) : List α → Visit α → Except SearchBound (Visit α)
  | [], v => .ok v
  | child :: children, v =>
    if child ∈ v.seen then visitAll limit children v
    else if limit ≤ v.order.length then .error .visited
    else visitAll limit children ⟨v.seen.insert child, v.order ++ [child], v.next ++ [child]⟩

/-- `budget` is the number of levels that may still be followed. -/
def levels (limit : Nat) (children : α → List α) :
    Nat → List α → ExtTreeSet α → List α → Except SearchBound (List α)
  | 0, frontier, seen, order => do
    let v ← visitAll limit (frontier.flatMap children) ⟨seen, order, []⟩
    if v.next.isEmpty then .ok v.order else .error .depth
  | budget + 1, frontier, seen, order => do
    let v ← visitAll limit (frontier.flatMap children) ⟨seen, order, []⟩
    if v.next.isEmpty then .ok v.order else levels limit children budget v.next v.seen v.order

def bounded (limit budget : Nat) (children : α → List α) (root : α) : Except SearchBound (List α) :=
  levels limit children budget [root] ((∅ : ExtTreeSet α).insert root) []

variable {limit : Nat} {children : α → List α}

/-- What one level does: its children are all seen, and what is new is in the result
and in the next level. -/
structure Visited (level : List α) (v w : Visit α) : Prop where
  seen : ∀ k ∈ v.seen, k ∈ w.seen
  met : ∀ k ∈ level, k ∈ w.seen
  order : ∀ k ∈ v.order, k ∈ w.order
  new : ∀ k ∈ w.seen, k ∈ v.seen ∨ k ∈ w.order ∧ k ∈ w.next
  next : ∀ k ∈ v.next, k ∈ w.next
  fresh : ∀ k ∈ w.order, k ∈ v.order ∨ k ∉ v.seen

/-- The invariant of the loop: what was seen is the start or in the result, where the
start is not, and either it is still to be expanded or its children were seen. -/
structure Searching (children : α → List α) (root : α) (frontier : List α) (seen : ExtTreeSet α)
    (order : List α) : Prop where
  start : root ∈ seen
  kept : ∀ k ∈ seen, k = root ∨ k ∈ order
  apart : root ∉ order
  closed : ∀ k ∈ seen, k ∈ frontier ∨ ∀ c ∈ children k, c ∈ seen

theorem Searching.visit {root frontier order seen w}
    (hs : Searching children root frontier seen order)
    (hv : Visited (frontier.flatMap children) ⟨seen, order, []⟩ w) :
    Searching children root w.next w.seen w.order := by
  refine ⟨hv.seen root hs.start, fun k hk => ?_, fun h => ?_, fun k hk => ?_⟩
  · rcases hv.new k hk with hk | hk
    · exact (hs.kept k hk).imp_right (hv.order k)
    · exact .inr hk.1
  · exact (hv.fresh root h).elim hs.apart fun h => h hs.start
  · rcases hv.new k hk with hk | hk
    · refine .inr fun c hc => ?_
      rcases hs.closed k hk with hfrontier | hseen
      · exact hv.met c (mem_flatMap.mpr ⟨k, hfrontier, hc⟩)
      · exact hv.seen c (hseen c hc)
    · exact .inl hk.2

theorem Searching.reached {root order seen} (hs : Searching children root [] seen order) :
    root ∉ order ∧ ∀ k, ReflTransGen (fun a b => b ∈ children a) root k → k = root ∨ k ∈ order := by
  refine ⟨hs.apart, fun k h => hs.kept k ?_⟩
  induction h with
  | refl => exact hs.start
  | tail _ hstep ih => exact (hs.closed _ ih).resolve_left (by simp) _ hstep

section

variable [LawfulEqOrd α]

theorem visited_of_visitAll {level} {v w : Visit α} (h : visitAll limit level v = .ok w) :
    Visited level v w := by
  induction level generalizing v with
  | nil =>
    cases h
    exact ⟨fun _ h => h, by simp, fun _ h => h, fun _ h => .inl h, fun _ h => h, fun _ h => .inl h⟩
  | cons child level ih =>
    rw [visitAll] at h
    split at h
    · rename_i hseen
      have hv := ih h
      exact ⟨hv.seen, forall_mem_cons.mpr ⟨hv.seen child hseen, hv.met⟩, hv.order, hv.new,
        hv.next, hv.fresh⟩
    · split at h
      · cases h
      have hv := ih h
      have hchild : child ∈ w.seen := hv.seen child mem_insert_self
      refine ⟨fun k hk => hv.seen k (mem_insert.mpr (.inr hk)),
        forall_mem_cons.mpr ⟨hchild, hv.met⟩, fun k hk => hv.order k (mem_append_left _ hk), ?_,
        fun k hk => hv.next k (mem_append_left _ hk), ?_⟩
      · intro k hk
        rcases hv.new k hk with hk | hk
        · rcases mem_insert.mp hk with hk | hk
          · obtain rfl := LawfulEqOrd.eq_of_compare hk
            exact .inr ⟨hv.order _ (by simp), hv.next _ (by simp)⟩
          · exact .inl hk
        · exact .inr hk
      · intro k hk
        rcases hv.fresh k hk with hk | hk
        · rcases mem_append.mp hk with hk | hk
          · exact .inl hk
          · rw [mem_singleton.mp hk]
            exact .inr ‹_›
        · exact .inr fun hmem => hk (mem_insert.mpr (.inr hmem))

theorem mem_of_levels {root} {budget : Nat} {frontier order result} {seen : ExtTreeSet α}
    (h : levels limit children budget frontier seen order = .ok result)
    (hs : Searching children root frontier seen order) :
    root ∉ result ∧ ∀ k, ReflTransGen (fun a b => b ∈ children a) root k →
      k = root ∨ k ∈ result := by
  induction budget generalizing frontier order seen with
  | zero | succ budget ih =>
    obtain ⟨v, hv, h⟩ := bind_eq_ok.mp h
    have hs' := hs.visit (visited_of_visitAll hv)
    split at h
    · rename_i hempty
      cases h
      rw [isEmpty_iff.mp hempty] at hs'
      exact hs'.reached
    · first
        | exact ih h hs'
        | cases h

/-- **The result holds every key that can be reached**, the start apart. -/
theorem mem_of_bounded {root budget result} (h : bounded limit budget children root = .ok result) :
    root ∉ result ∧ ∀ k, ReflTransGen (fun a b => b ∈ children a) root k →
      k = root ∨ k ∈ result := by
  have honly : ∀ j ∈ (∅ : ExtTreeSet α).insert root, j = root := by
    intro j hj
    rcases mem_insert.mp hj with hj | hj
    · exact (LawfulEqOrd.eq_of_compare hj).symm
    · exact absurd hj (by simp)
  exact mem_of_levels h ⟨mem_insert_self, fun j hj => .inl (honly j hj), by simp,
    fun j hj => .inl (by simp [honly j hj])⟩

end

/-- A relation that gains edges out of one key only: a path is one of before, or it
reaches that key before its first new edge and goes on after its last. -/
theorem transGen_of_added {β : Type} {r r'} {x a b : β} {new : β → Prop}
    (h : ∀ a b, r' a b → r a b ∨ a = x ∧ new b) (hab : TransGen r' a b) :
    TransGen r a b ∨ ReflTransGen r a x ∧ ∃ p, new p ∧ ReflTransGen r p b := by
  induction hab using TransGen.head_induction_on with
  | single hstep =>
    rcases h _ _ hstep with hstep | ⟨rfl, hnew⟩
    · exact .inl (.single hstep)
    · exact .inr ⟨.refl, _, hnew, .refl⟩
  | head hstep _ ih =>
    rcases h _ _ hstep with hstep | ⟨rfl, hnew⟩
    · rcases ih with hold | ⟨hx, hrest⟩
      · exact .inl (.head hstep hold)
      · exact .inr ⟨.head hstep hx, hrest⟩
    · rcases ih with hold | ⟨-, hrest⟩
      · exact .inr ⟨.refl, _, hnew, hold.to_reflTransGen⟩
      · exact .inr ⟨.refl, hrest⟩

end Ptr.Lib
