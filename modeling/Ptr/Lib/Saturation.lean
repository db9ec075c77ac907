import Ptr.Lib.Search

/-!
# Growing a set until nothing is added

Each entry has a key and names other keys.  A pass adds the key of every entry that
names a member of the set, what the pass itself added before included, and passes
are repeated until one leaves the size as it was.  The passes end, and the set is then
what can be reached from the keys it started with.
-/

namespace Ptr.Lib

open Std List ExtTreeSet Relation

variable {α β : Type} [Ord α] [TransOrd α] {key : β → α} {names : β → List α} {bs : List β}
  {s : ExtTreeSet α}

def pass (key : β → α) (names : β → List α) : List β → ExtTreeSet α → ExtTreeSet α
  | [], s => s
  | b :: bs, s => pass key names bs (if ∃ a ∈ names b, a ∈ s then s.insert (key b) else s)

/-- The entries whose keys are still to be added, which bound the passes to come. -/
def unmarked (key : β → α) (bs : List β) (s : ExtTreeSet α) : Nat :=
  (bs.map fun b => if key b ∈ s then 0 else 1).sum

def Named (key : β → α) (names : β → List α) (bs : List β) (a k : α) : Prop :=
  ∃ b ∈ bs, key b = k ∧ a ∈ names b

section

variable [LawfulEqOrd α]

/-- What a pass does, one new key at a time. -/
theorem pass_induction {P : ExtTreeSet α → Prop} (hs : P s)
    (hstep : ∀ t, P t → ∀ b ∈ bs, ∀ a ∈ names b, a ∈ t → key b ∉ t → P (t.insert (key b))) :
    P (pass key names bs s) := by
  induction bs generalizing s with
  | nil => exact hs
  | cons b bs ih =>
    refine ih ?_ fun t ht c hc => hstep t ht c (mem_cons_of_mem b hc)
    split
    · next hany =>
      obtain ⟨a, ha, hmem⟩ := hany
      by_cases hb : key b ∈ s
      · have hsame : s.insert (key b) = s := ext_mem fun k => by
          rw [mem_insert, LawfulEqOrd.compare_eq_iff_eq, or_iff_right_of_imp]
          rintro rfl
          exact hb
        rwa [hsame]
      · exact hstep s hs b mem_cons_self a ha hmem hb
    · exact hs

theorem mem_pass_of_mem {k} (h : k ∈ s) : k ∈ pass key names bs s :=
  pass_induction (P := (k ∈ ·)) h fun _ ht _ _ _ _ _ _ => mem_insert.mpr (.inr ht)

theorem mem_pass {b a} (hb : b ∈ bs) (ha : a ∈ names b) (h : a ∈ s) :
    key b ∈ pass key names bs s := by
  induction bs generalizing s with
  | nil => cases hb
  | cons c bs ih =>
    rcases mem_cons.mp hb with rfl | hb
    · rw [pass, if_pos ⟨a, ha, h⟩]
      exact mem_pass_of_mem mem_insert_self
    · refine ih hb ?_
      split
      · exact mem_insert.mpr (.inr h)
      · exact h

theorem reached_of_mem_pass {k} (h : k ∈ pass key names bs s) :
    ∃ a ∈ s, ReflTransGen (Named key names bs) a k := by
  refine pass_induction (P := fun t => ∀ k ∈ t, ∃ a ∈ s, ReflTransGen (Named key names bs) a k)
    (fun k hk => ⟨k, hk, .refl⟩) (fun t ht b hb a ha hmem _ k hk => ?_) k h
  rcases mem_insert.mp hk with hk | hk
  · obtain ⟨start, hstart, hpath⟩ := ht a hmem
    exact ⟨start, hstart, hpath.tail ⟨b, hb, LawfulEqOrd.eq_of_compare hk, ha⟩⟩
  · exact ht k hk

theorem pass_grows : pass key names bs s = s ∨
    s.size < (pass key names bs s).size ∧
      unmarked key bs (pass key names bs s) < unmarked key bs s := by
  refine pass_induction (P := fun t => t = s ∨ s.size < t.size ∧
    unmarked key bs t < unmarked key bs s) (.inl rfl) fun t ht b hb _ _ _ hnew => .inr ?_
  have hsize : (t.insert (key b)).size = t.size + 1 := by simp [size_insert, hnew]
  have hless : unmarked key bs (t.insert (key b)) + 1 ≤ unmarked key bs t := by
    refine sum_map_add_le (fun c => ?_) hb ?_
    · by_cases hc : key c ∈ t
      · simp [hc, mem_insert]
      · rw [if_neg hc]
        split <;> decide
    · simp [hnew]
  rcases ht with rfl | ht <;> omega

end

/-- `loop`, until a pass leaves the size as it was. -/
def saturate [LawfulEqOrd α] (key : β → α) (names : β → List α) (bs : List β) (s : ExtTreeSet α) :
    ExtTreeSet α :=
  let next := pass key names bs s
  if next.size = s.size then next else saturate key names bs next
termination_by unmarked key bs s
decreasing_by exact (pass_grows.resolve_left fun h => absurd (congrArg size h) ‹_›).2

variable [LawfulEqOrd α]

/-- **The set it ends with is what the keys it started with reach.** -/
theorem mem_saturate {k} :
    k ∈ saturate key names bs s ↔ ∃ a ∈ s, ReflTransGen (Named key names bs) a k := by
  fun_induction saturate key names bs s with
  | case1 s next hsize =>
    have hsame : next = s := pass_grows.resolve_right fun h => h.1.ne' hsize
    rw [hsame]
    refine ⟨fun hk => ⟨k, hk, .refl⟩, ?_⟩
    rintro ⟨a, ha, hpath⟩
    induction hpath with
    | refl => exact ha
    | tail _ hstep ih =>
      obtain ⟨b, hb, rfl, hname⟩ := hstep
      rw [← hsame]
      exact mem_pass hb hname ih
  | case2 s next hsize ih =>
    rw [ih]
    constructor
    · rintro ⟨a, ha, hpath⟩
      obtain ⟨start, hstart, hto⟩ := reached_of_mem_pass ha
      exact ⟨start, hstart, hto.trans hpath⟩
    · rintro ⟨a, ha, hpath⟩
      exact ⟨a, mem_pass_of_mem ha, hpath⟩

end Ptr.Lib
