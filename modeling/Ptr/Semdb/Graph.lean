import Ptr.Lib.Keyed
import Ptr.Lib.Search
import Ptr.Lib.Kahn

/-!
# The dependency graph of the semantic store

`DependencyGraph` keeps the input set of each derived key.  `affected_by` searches
along the dependents of the changed keys and `acyclic` counts a topological order;
both work on the transposed map, which they build from the input sets.
-/

namespace Ptr.Semdb

open Lib Std List ExtTreeMap

structure DependencyGraph where
  inputs : ExtTreeMap String (ExtTreeSet String)
  deriving DecidableEq

namespace DependencyGraph

def empty : DependencyGraph := ⟨∅⟩

def inputsOf (g : DependencyGraph) (k : String) : ExtTreeSet String := g.inputs.getD k ∅

def edges (g : DependencyGraph) : List (String × String) :=
  g.inputs.toList.flatMap fun p => p.2.toList.map fun input => (input, p.1)

def reverse (g : DependencyGraph) : ExtTreeMap String (List String) := group g.edges

def affectedBy (g : DependencyGraph) (changed : ExtTreeSet String) : ExtTreeSet String :=
  search g.reverse ∅ changed.toList.reverse

def degree (g : DependencyGraph) : ExtTreeMap String Nat :=
  g.reverse.keys.foldl (fun degree k => degree.insertIfNew k 0)
    (g.inputs.map fun _ inputs => inputs.size)

/-- `acyclic`, where `none` is a panic. -/
def acyclicRun (g : DependencyGraph) : Option Bool :=
  let ready := ((g.degree.toList.filter (·.2 = 0)).map Prod.fst).reverse
  (kahn g.reverse g.degree.size g.degree ready 0).map (· == g.degree.size)

def acyclic (g : DependencyGraph) : Bool := g.acyclicRun.getD false

def Feeds (g : DependencyGraph) (a b : String) : Prop := a ∈ g.inputsOf b

variable {g : DependencyGraph}

theorem mem_edges {a b} : (a, b) ∈ g.edges ↔ g.Feeds a b := by
  simp only [edges, mem_flatMap, mem_map, Prod.mk.injEq, Feeds, inputsOf]
  constructor
  · rintro ⟨⟨k, inputs⟩, hk, input, hinput, rfl, rfl⟩
    rw [ExtTreeMap.mem_toList_iff_getElem?_eq_some] at hk
    rw [ExtTreeMap.getD_eq_getD_getElem?, hk]
    exact ExtTreeSet.mem_toList.mp hinput
  · intro h
    cases hb : g.inputs[b]? with
    | none =>
      rw [ExtTreeMap.getD_eq_getD_getElem?, hb] at h
      exact absurd h ExtTreeSet.not_mem_empty
    | some inputs =>
      rw [ExtTreeMap.getD_eq_getD_getElem?, hb] at h
      exact ⟨(b, inputs), ExtTreeMap.mem_toList_iff_getElem?_eq_some.mpr hb, a,
        ExtTreeSet.mem_toList.mpr h, rfl, rfl⟩

theorem follows_reverse {a b} : Follows g.reverse a b ↔ g.Feeds a b := by
  rw [Follows, reverse, mem_getD_group, mem_edges]

/-- The affected keys are those that the changed keys reach through dependents. -/
theorem mem_affectedBy {changed k} :
    k ∈ g.affectedBy changed ↔ ∃ c ∈ changed, Relation.ReflTransGen g.Feeds c k := by
  have hrel : Follows g.reverse = g.Feeds := by
    funext a b
    exact propext follows_reverse
  rw [affectedBy, mem_search_empty, hrel]
  simp

theorem nodup_edges : g.edges.Nodup := by
  refine nodup_flatMap.mpr ⟨?_, ?_⟩
  · rintro ⟨k, inputs⟩ -
    refine Nodup.map ?_ (ExtTreeSet.distinct_toList.imp ReflCmp.ne_of_cmp_ne_eq)
    intro a b hab
    exact (Prod.mk.inj hab).1
  · refine (distinct_keys_toList).imp ?_
    rintro ⟨k, inputs⟩ ⟨k', inputs'⟩ hne ⟨a, b⟩ hab hab'
    obtain ⟨_, -, heq⟩ := mem_map.mp hab
    obtain ⟨_, -, heq'⟩ := mem_map.mp hab'
    apply hne
    rw [(Prod.mk.inj heq).2, (Prod.mk.inj heq').2]
    exact ReflOrd.compare_self

theorem nodup_reverse (k : String) : (g.reverse.getD k []).Nodup := by
  rw [reverse, getD_group]
  refine Nodup.map_on ?_ (nodup_edges.filter _)
  intro p hp q hq hpq
  have hp' := LawfulEqOrd.eq_of_compare (eq_of_beq (mem_filter.mp hp).2)
  have hq' := LawfulEqOrd.eq_of_compare (eq_of_beq (mem_filter.mp hq).2)
  exact Prod.ext (hp'.trans hq'.symm) hpq

theorem mem_reverse {k} : k ∈ g.reverse ↔ ∃ b, g.Feeds k b := by
  rw [reverse, mem_group]
  exact exists_congr fun b => mem_edges

theorem getElem?_foldl_insertIfNew (ks : List String) (degree : ExtTreeMap String Nat)
    (k : String) :
    (ks.foldl (fun degree k => degree.insertIfNew k 0) degree)[k]? =
      if k ∈ ks ∧ k ∉ degree then some 0 else degree[k]? := by
  induction ks generalizing degree with
  | nil => simp
  | cons j ks ih =>
    rw [foldl_cons, ih, getElem?_insertIfNew]
    by_cases hj : j = k
    · subst hj
      by_cases hd : j ∈ degree <;> simp
    · simp [hj, Ne.symm]

theorem degree_getElem? (k : String) :
    g.degree[k]? = if k ∈ g.inputs ∨ k ∈ g.reverse then some (g.inputsOf k).size else none := by
  rw [degree, getElem?_foldl_insertIfNew, inputsOf]
  by_cases hk : k ∈ g.inputs
  · simp [hk, ExtTreeMap.getElem_eq_getD ∅]
  · by_cases hr : k ∈ g.reverse
    · simp [hk, ExtTreeMap.getD_eq_fallback]
    · simp [hk, hr]

theorem mem_degree {k} : k ∈ g.degree ↔ k ∈ g.inputs ∨ k ∈ g.reverse := by
  rw [mem_iff_isSome_getElem?, degree_getElem?]
  by_cases hk : k ∈ g.inputs ∨ k ∈ g.reverse <;> simp

def inputGraph (g : DependencyGraph) : InputGraph String where
  inputs k := (g.inputsOf k).toList
  next := g.reverse
  nodes := g.degree.keys
  nodup_inputs k := ExtTreeSet.distinct_toList.imp ReflCmp.ne_of_cmp_ne_eq
  nodup_next := nodup_reverse
  nodup_nodes := ExtTreeMap.nodup_keys
  mem_next := follows_reverse.trans ExtTreeSet.mem_toList.symm
  input_mem h := ExtTreeMap.mem_keys.mpr
    (mem_degree.mpr (.inr (mem_reverse.mpr ⟨_, ExtTreeSet.mem_toList.mp h⟩)))
  derived_mem {a b} h := by
    refine ExtTreeMap.mem_keys.mpr (mem_degree.mpr (.inl ?_))
    by_contra hb
    rw [ExtTreeSet.mem_toList, inputsOf, ExtTreeMap.getD_eq_fallback hb] at h
    exact ExtTreeSet.not_mem_empty h

theorem inputGraph_feeds : g.inputGraph.Feeds = g.Feeds := by
  funext a b
  exact propext ExtTreeSet.mem_toList

theorem running_init :
    g.inputGraph.Running [] ((g.degree.toList.filter (·.2 = 0)).map Prod.fst).reverse g.degree := by
  have hpending : ∀ k, g.inputGraph.pending [] k = (g.inputsOf k).size := by
    intro k
    simp [InputGraph.pending, inputGraph]
  have hdegree : ∀ k ∈ g.degree, g.degree[k]? = some (g.inputGraph.pending [] k) := by
    intro k hk
    rw [degree_getElem?, if_pos (mem_degree.mp hk), hpending]
  have hready : ∀ k, k ∈ (g.degree.toList.filter (·.2 = 0)).map Prod.fst ↔
      k ∈ g.degree ∧ g.inputGraph.pending [] k = 0 := by
    intro k
    rw [List.mem_map]
    constructor
    · rintro ⟨⟨j, n⟩, hjn, rfl⟩
      obtain ⟨hj, hn⟩ := List.mem_filter.mp hjn
      rw [mem_toList_iff_getElem?_eq_some] at hj
      have hmem : j ∈ g.degree := mem_of_some hj
      rw [hdegree j hmem] at hj
      exact ⟨hmem, (Option.some.inj hj).trans (of_decide_eq_true hn)⟩
    · rintro ⟨hk, hzero⟩
      refine ⟨(k, 0), List.mem_filter.mpr ⟨?_, rfl⟩, rfl⟩
      rw [mem_toList_iff_getElem?_eq_some, hdegree k hk, hzero]
  refine ⟨fun k hk => hdegree k (mem_keys.mp hk), fun k => ?_, ?_, trivial⟩
  · rw [List.append_nil, List.mem_reverse, hready]
    exact and_congr_left fun _ => mem_keys.symm
  · rw [List.append_nil, List.nodup_reverse]
    refine List.Nodup.sublist (List.Sublist.map _ List.filter_sublist) ?_
    rw [map_fst_toList_eq_keys]
    exact nodup_keys

def Acyclic (g : DependencyGraph) : Prop := ∀ k, ¬ Relation.TransGen g.Feeds k k

/-- The check neither panics nor misses a cycle, and refuses no graph without one. -/
theorem acyclicRun_eq : ∃ b, g.acyclicRun = some b ∧ (b = true ↔ g.Acyclic) := by
  have hfuel : g.inputGraph.nodes.length ≤ g.degree.size + ([] : List String).length := by
    simp [inputGraph]
  obtain ⟨done, degree, hrun, hend⟩ := InputGraph.kahn_run running_init hfuel
  refine ⟨done.length == g.degree.size, ?_, ?_⟩
  · show Option.map _ (kahn g.reverse _ _ _ 0) = _
    rw [show kahn g.reverse g.degree.size g.degree _ 0 = some done.length from hrun]
    rfl
  · rw [beq_iff_eq, Acyclic, ← inputGraph_feeds]
    have hlen := hend.length_eq_iff
    rwa [show g.inputGraph.nodes.length = g.degree.size from length_keys] at hlen

theorem acyclic_iff : g.acyclic = true ↔ g.Acyclic := by
  obtain ⟨b, hrun, hb⟩ := acyclicRun_eq
  rw [acyclic, hrun]
  exact hb

end DependencyGraph

end Ptr.Semdb
