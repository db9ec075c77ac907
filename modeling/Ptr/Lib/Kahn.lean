import Mathlib.Tactic.Common
import Mathlib.Logic.Relation
import Mathlib.Data.List.Perm.Subperm
import Mathlib.Order.WellFounded
import Mathlib.Data.Fintype.Order
import Ptr.Lib.Keyed

/-!
# Counting the keys a topological order can take

Kahn's algorithm: each key waits for a number of inputs, a key that waits for
none is ready, and taking a ready key releases the keys that have it as an input.
The count of the keys taken is the number of all keys exactly when the graph has
no cycle.
-/

namespace Ptr.Lib

open Std Relation List

variable {α : Type} [Ord α] [TransOrd α]

/-- One input of `child` less to wait for; the last one makes it ready.  `none`
is the panic of a key that is missing or waits for nothing. -/
def release (s : ExtTreeMap α Nat × List α) (child : α) : Option (ExtTreeMap α Nat × List α) :=
  match s.1[child]? with
  | some (n + 1) => some (s.1.insert child n, if n = 0 then child :: s.2 else s.2)
  | _ => none

/-- `while let Some(key) = ready.pop()`, with the top of the stack at the head of
the list.  `fuel` bounds the keys taken. -/
def kahn (next : ExtTreeMap α (List α)) : Nat → ExtTreeMap α Nat → List α → Nat → Option Nat
  | _, _, [], visited => some visited
  | 0, _, _ :: _, _ => none
  | fuel + 1, degree, k :: ready, visited =>
    match (next.getD k []).foldlM release (degree, ready) with
    | none => none
    | some (degree, ready) => kahn next fuel degree ready (visited + 1)

/-! ### The graph of a run -/

structure InputGraph (α : Type) [Ord α] [TransOrd α] where
  inputs : α → List α
  next : ExtTreeMap α (List α)
  nodes : List α
  nodup_inputs : ∀ k, (inputs k).Nodup
  nodup_next : ∀ k, (next.getD k []).Nodup
  nodup_nodes : nodes.Nodup
  mem_next : ∀ {a b}, b ∈ next.getD a [] ↔ a ∈ inputs b
  input_mem : ∀ {a b}, a ∈ inputs b → a ∈ nodes
  derived_mem : ∀ {a b}, a ∈ inputs b → b ∈ nodes

namespace InputGraph

variable (g : InputGraph α)

def Feeds (a b : α) : Prop := a ∈ g.inputs b

def Acyclic : Prop := ∀ k, ¬ TransGen g.Feeds k k

variable {g}

def Ordered (g : InputGraph α) : List α → Prop
  | [] => True
  | k :: ks => (∀ a, g.Feeds a k → a ∈ ks) ∧ Ordered g ks

theorem Ordered.closed {ks} (h : g.Ordered ks) {a b} (hb : b ∈ ks)
    (hab : ReflTransGen g.Feeds a b) :
    a ∈ ks := by
  induction hab using ReflTransGen.head_induction_on with
  | refl => exact hb
  | head hac _ ih =>
    clear hb
    induction ks with
    | nil => cases ih
    | cons k ks ih' =>
      rcases mem_cons.mp ih with rfl | hc
      · exact mem_cons_of_mem _ (h.1 _ hac)
      · exact mem_cons_of_mem _ (ih' h.2 hc)

/-- A key on a cycle would be behind itself. -/
theorem Ordered.not_cycle {ks} (h : g.Ordered ks) (hnodup : ks.Nodup) {k} (hk : k ∈ ks) :
    ¬ TransGen g.Feeds k k := by
  induction ks with
  | nil => cases hk
  | cons j ks ih =>
    obtain ⟨hj, hnodup⟩ := nodup_cons.mp hnodup
    rcases mem_cons.mp hk with rfl | hk
    · intro hcycle
      obtain ⟨a, hka, hak⟩ := TransGen.tail'_iff.mp hcycle
      exact hj (h.2.closed (h.1 a hak) hka)
    · exact ih h.2 hnodup hk

open Classical in
noncomputable def pending (g : InputGraph α) (done : List α) (k : α) : Nat :=
  (g.inputs k).countP (· ∉ done)

theorem pending_eq_zero {done k} : g.pending done k = 0 ↔ ∀ a, g.Feeds a k → a ∈ done := by
  simp [pending, Feeds]

/-- Taking `j` leaves one input less to the keys that have it as an input, and
the others as they are. -/
theorem pending_cons {done j} (hj : j ∉ done) (k : α) :
    (g.Feeds j k → g.pending done k = g.pending (j :: done) k + 1) ∧
      (¬ g.Feeds j k → g.pending (j :: done) k = g.pending done k) := by
  unfold Feeds pending
  have hnodup := g.nodup_inputs k
  generalize g.inputs k = as at hnodup ⊢
  induction as with
  | nil => simp
  | cons a as ih =>
    obtain ⟨ha, hnodup⟩ := nodup_cons.mp hnodup
    obtain ⟨hin, hout⟩ := ih hnodup
    by_cases haj : a = j
    · subst haj
      refine ⟨fun _ => ?_, fun h => absurd mem_cons_self h⟩
      rw [countP_cons_of_pos (by simpa using hj), countP_cons_of_neg (by simp), hout ha]
    · have hmem : j ∈ a :: as ↔ j ∈ as := by simp [Ne.symm haj]
      rw [hmem]
      by_cases hdone : a ∈ done
      · rw [countP_cons_of_neg (by simp [hdone]), countP_cons_of_neg (by simp [hdone])]
        exact ⟨hin, hout⟩
      · rw [countP_cons_of_pos (by simp [hdone]), countP_cons_of_pos (by simp [hdone, haj])]
        exact ⟨fun h => congrArg (· + 1) (hin h), fun h => congrArg (· + 1) (hout h)⟩

/-- The loop invariant: `done` is taken and in order, `ready` is what else waits
for nothing, and the degrees are the inputs still to come. -/
structure Running (g : InputGraph α) (done ready : List α) (degree : ExtTreeMap α Nat) : Prop where
  degree_node : ∀ k ∈ g.nodes, degree[k]? = some (g.pending done k)
  ready_iff : ∀ k, k ∈ ready ++ done ↔ k ∈ g.nodes ∧ g.pending done k = 0
  nodup : (ready ++ done).Nodup
  ordered : g.Ordered done

theorem Running.takes_all {done degree} (h : g.Running done [] degree) (hacyclic : g.Acyclic) :
    ∀ k ∈ g.nodes, k ∈ done := by
  -- on the finitely many nodes the inputs of inputs are well-founded
  let Below (a b : { k // k ∈ g.nodes }) : Prop := TransGen g.Feeds a.1 b.1
  have hirrefl : Std.Irrefl Below := ⟨fun a => hacyclic a.1⟩
  have hfinite : Finite { k // k ∈ g.nodes } := g.nodes.finite_toSet
  have hwf : WellFounded Below := Finite.wellFounded_of_trans_of_irrefl Below
  intro k hk
  refine hwf.induction (C := fun k => k.1 ∈ done) ⟨k, hk⟩ ?_
  rintro ⟨k, hk⟩ ih
  have hnone : g.pending done k = 0 := pending_eq_zero.mpr fun a ha =>
    ih ⟨a, g.input_mem ha⟩ (.single ha)
  exact (h.ready_iff k).mpr ⟨hk, hnone⟩

/-- All keys are taken exactly when there is no cycle. -/
theorem Running.length_eq_iff {done degree} (h : g.Running done [] degree) :
    done.length = g.nodes.length ↔ g.Acyclic := by
  have hsub : done ⊆ g.nodes := fun k hk => ((h.ready_iff k).mp hk).1
  have hsubperm := Nodup.subperm h.nodup hsub
  constructor
  · intro hlen k hcycle
    obtain ⟨a, -, hak⟩ := TransGen.tail'_iff.mp hcycle
    have hperm := hsubperm.perm_of_length_le (Nat.le_of_eq hlen.symm)
    exact h.ordered.not_cycle h.nodup (hperm.mem_iff.mpr (g.derived_mem hak)) hcycle
  · intro hacyclic
    have hback := g.nodup_nodes.subperm (h.takes_all hacyclic)
    exact Nat.le_antisymm hsubperm.length_le hback.length_le

end InputGraph

/-! ### The run -/

variable [LawfulEqOrd α]

theorem foldlM_release {cs : List α} (hnodup : cs.Nodup) {degree}
    (hwait : ∀ c ∈ cs, ∃ n, degree[c]? = some (n + 1)) (ready : List α) :
    ∃ degree', cs.foldlM release (degree, ready) =
        some (degree', (cs.filter fun c => degree[c]? = some 1).reverse ++ ready) ∧
      ∀ x, (x ∈ cs → degree'[x]? = degree[x]?.map (· - 1)) ∧
      (x ∉ cs → degree'[x]? = degree[x]?) := by
  induction cs generalizing degree ready with
  | nil => exact ⟨degree, rfl, fun x => ⟨fun h => absurd h not_mem_nil, fun _ => rfl⟩⟩
  | cons c cs ih =>
    obtain ⟨hc, hnodup⟩ := nodup_cons.mp hnodup
    obtain ⟨n, hn⟩ := hwait c mem_cons_self
    -- the first release touches no other key
    have hother : ∀ x ∈ cs, (degree.insert c n)[x]? = degree[x]? := by
      intro x hx
      refine getElem?_insert_ne ?_
      rintro rfl
      exact hc hx
    have hrest : ∀ x ∈ cs, ∃ m, (degree.insert c n)[x]? = some (m + 1) := by
      intro x hx
      rw [hother x hx]
      exact hwait x (mem_cons_of_mem _ hx)
    obtain ⟨degree', hrun, hdeg⟩ := ih hnodup hrest (if n = 0 then c :: ready else ready)
    refine ⟨degree', ?_, ?_⟩
    · have hstep : release (degree, ready) c =
          some (degree.insert c n, if n = 0 then c :: ready else ready) := by
        rw [release, hn]
      have hsame : (cs.filter fun x => (degree.insert c n)[x]? = some 1) = cs.filter fun x =>
          degree[x]? = some 1 := by
        apply filter_congr
        intro x hx
        rw [hother x hx]
      rw [foldlM_cons, hstep]
      rw [hsame] at hrun
      simp only [Option.bind_eq_bind, Option.bind_some, hrun, filter_cons, hn]
      by_cases hzero : n = 0 <;> simp [hzero]
    · intro x
      obtain ⟨hin, hout⟩ := hdeg x
      constructor
      · intro hx
        rcases mem_cons.mp hx with rfl | hx
        · rw [hout hc, ExtTreeMap.getElem?_insert_self, hn]
          rfl
        · rw [hin hx, hother x hx]
      · intro hx
        rw [mem_cons, not_or] at hx
        rw [hout hx.2, getElem?_insert_ne (Ne.symm hx.1)]

namespace InputGraph

variable {g : InputGraph α}

theorem Running.take {done ready : List α} {degree} {k : α}
    (h : g.Running done (k :: ready) degree) :
    ∃ degree' ready', (g.next.getD k []).foldlM release (degree, ready) = some (degree', ready') ∧
      g.Running (k :: done) ready' degree' := by
  obtain ⟨hknew, -⟩ := nodup_cons.mp h.nodup
  have hkdone : k ∉ done := fun hk => hknew (mem_append_right _ hk)
  have hk := (h.ready_iff k).mp mem_cons_self
  have hchild : ∀ c, c ∈ g.next.getD k [] ↔ g.Feeds k c := fun c => g.mem_next
  have hdegree : ∀ c ∈ g.next.getD k [], degree[c]? = some (g.pending (k :: done) c + 1) := by
    intro c hc
    rw [h.degree_node c (g.derived_mem (g.mem_next.mp hc)),
      (pending_cons hkdone c).1 ((hchild c).mp hc)]
  obtain ⟨degree', hrun, hdeg⟩ :=
    foldlM_release (g.nodup_next k) (fun c hc => ⟨_, hdegree c hc⟩) ready
  refine ⟨degree', _, hrun, ?_⟩
  -- a released key was waiting for `k` alone
  have hnew : ∀ c, c ∈ (g.next.getD k []).filter (fun c => degree[c]? = some 1) ↔
      g.Feeds k c ∧ g.pending (k :: done) c = 0 := by
    intro c
    rw [mem_filter, hchild]
    constructor
    · rintro ⟨hc, hone⟩
      rw [hdegree c ((hchild c).mpr hc)] at hone
      exact ⟨hc, by simpa using hone⟩
    · rintro ⟨hc, hzero⟩
      refine ⟨hc, ?_⟩
      rw [hdegree c ((hchild c).mpr hc), hzero]
      simp
  have hold : ∀ c ∈ ready ++ done, ¬ g.Feeds k c := by
    intro c hc hfeeds
    have hzero := ((h.ready_iff c).mp (mem_cons_of_mem _ hc)).2
    rw [(pending_cons hkdone c).1 hfeeds] at hzero
    cases hzero
  refine ⟨?_, ?_, ?_, ?_⟩
  · intro c hc
    by_cases hfeeds : g.Feeds k c
    · rw [(hdeg c).1 ((hchild c).mpr hfeeds), hdegree c ((hchild c).mpr hfeeds)]
      rfl
    · rw [(hdeg c).2 (fun hmem => hfeeds ((hchild c).mp hmem)), h.degree_node c hc,
        (pending_cons hkdone c).2 hfeeds]
  · intro c
    have hready := h.ready_iff c
    simp only [mem_append, mem_cons, mem_reverse, hnew] at hready ⊢
    by_cases hfeeds : g.Feeds k c
    · have hpend := (pending_cons hkdone c).1 hfeeds
      have hnode := g.derived_mem hfeeds
      constructor
      · rintro ((⟨-, hzero⟩ | hc) | hc)
        · exact ⟨hnode, hzero⟩
        · exact absurd hfeeds (hold c (mem_append_left _ hc))
        · rcases hc with rfl | hc
          · omega
          · exact absurd hfeeds (hold c (mem_append_right _ hc))
      · rintro ⟨-, hzero⟩
        exact .inl (.inl ⟨hfeeds, hzero⟩)
    · rw [(pending_cons hkdone c).2 hfeeds]
      tauto
  · rw [append_assoc, nodup_append]
    refine ⟨nodup_reverse.mpr ((g.nodup_next k).filter _), ?_, ?_⟩
    · exact (perm_middle.nodup_iff).mpr h.nodup
    intro a ha b hb
    rw [mem_reverse, hnew] at ha
    rintro rfl
    rcases mem_append.mp hb with hb | hb
    · exact hold a (mem_append_left _ hb) ha.1
    rcases mem_cons.mp hb with rfl | hb
    · have hpend := (pending_cons hkdone a).1 ha.1
      omega
    · exact hold a (mem_append_right _ hb) ha.1
  · exact ⟨pending_eq_zero.mp hk.2, h.ordered⟩

theorem kahn_run {fuel done ready degree} (h : g.Running done ready degree)
    (hfuel : g.nodes.length ≤ fuel + done.length) :
    ∃ done' degree', kahn g.next fuel degree ready done.length = some done'.length ∧
      g.Running done' [] degree' := by
  induction fuel generalizing done ready degree with
  | zero =>
    cases ready with
    | nil => exact ⟨done, degree, rfl, h⟩
    | cons k ready =>
      have hsub : k :: ready ++ done ⊆ g.nodes := fun j hj => ((h.ready_iff j).mp hj).1
      have hle := (h.nodup.subperm hsub).length_le
      simp only [length_cons, length_append] at hle
      omega
  | succ fuel ih =>
    cases ready with
    | nil => exact ⟨done, degree, rfl, h⟩
    | cons =>
      obtain ⟨degree', ready', hrun, hnext⟩ := h.take
      obtain ⟨done', degree'', hend, hdone⟩ := ih hnext (by rw [length_cons]; omega)
      refine ⟨done', degree'', ?_, hdone⟩
      rw [kahn, hrun]
      exact hend

end InputGraph

end Ptr.Lib
