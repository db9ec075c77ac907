import Ptr.Memory.Supersession
import Ptr.Runtime.Manifest

/-!
# The closure of a bound object

A manifest binds knowledge together with everything that it depends on.  Before it is
relied on, `ensure_closure_valid_at` walks the dependencies of a bound object and asks
whether each of them still holds.  The walk is bounded twice: by the objects it has seen,
and, before the dependencies of an object are put on the stack, by what would stand there.
A dependency stands on the stack once for every object that names it, so the second bound
counts more than the closure holds (`shared_dependencies_refused`).
-/

namespace Ptr

open List hiding mem_insert_self
open Lib Std Memory Relation ExtTreeSet

def Memory.KnowledgeValidity.isValidAt (v : KnowledgeValidity) (now : Timestamp) : Bool :=
  (v.validFrom.all fun start => start ≤ now) && v.validUntil.all fun stop => now < stop

namespace Memory.KnowledgeStore

/-- `object_at`: with the lifecycle that the store has on record. -/
def objectAt (s : KnowledgeStore) (key : KnowledgeKey) : Option KnowledgeObject :=
  (s.objects[key]?).map fun o => { o with lifecycle := s.lifecycleOf key }

def dependencies (s : KnowledgeStore) : ExtTreeMap KnowledgeKey (List KnowledgeKey) :=
  s.objects.map fun _ o => o.dependencies

theorem getD_dependencies {s : KnowledgeStore} {key} {o : KnowledgeObject}
    (h : s.objectAt key = some o) : s.dependencies.getD key [] = o.dependencies := by
  obtain ⟨stored, hstored, rfl⟩ := Option.map_eq_some_iff.mp h
  simp [dependencies, ExtTreeMap.getD_eq_getD_getElem?, hstored]

end Memory.KnowledgeStore

namespace Memory

def maxDependencyClosure : Nat := 4096

/-- `while let Some(key) = pending.pop()`: the head of the list is the end of the
vector. -/
def walkClosure (s : KnowledgeStore) (root : KnowledgeKey) (now : Timestamp)
    (seen : ExtTreeSet KnowledgeKey) : List KnowledgeKey → Except Runtime.RuntimeManifestError Unit
  | [] => .ok ()
  | key :: pending =>
    if key ∈ seen then walkClosure s root now seen pending
    else if maxDependencyClosure < (seen.insert key).size then
      .error (.invalidKnowledgeDependency root)
    else match _h : s.objectAt key with
      | none => .error (.missingKnowledgeGeneration key)
      | some object =>
        if object.lifecycle = .invalidated then .error (.revokedKnowledgeGeneration key)
        else if !object.validity.isValidAt now then .error (.expiredKnowledgeGeneration key now)
        else if maxDependencyClosure < (seen.insert key).size + pending.length +
            object.dependencies.length then
          .error (.invalidKnowledgeDependency root)
        else walkClosure s root now (seen.insert key) (object.dependencies.reverse ++ pending)
termination_by pending => unfollowed s.dependencies seen + pending.length
decreasing_by
  · simp
  · have : unfollowed s.dependencies (seen.insert key) + _ ≤ _ := unfollowed_insert ‹key ∉ seen›
    rw [KnowledgeStore.getD_dependencies _h] at this
    simp only [List.length_append, List.length_reverse, List.length_cons]
    omega

def ensureClosureValidAt (s : KnowledgeStore) (root : KnowledgeKey) (now : Timestamp) :
    Except Runtime.RuntimeManifestError Unit :=
  walkClosure s root now ∅ [root]

/-! ### What a walk asks for -/

def Holds (s : KnowledgeStore) (now : Timestamp) (key : KnowledgeKey) : Prop :=
  ∃ o, s.objectAt key = some o ∧ o.lifecycle ≠ .invalidated ∧ o.validity.isValidAt now = true

def closure (s : KnowledgeStore) (root : KnowledgeKey) : ExtTreeSet KnowledgeKey :=
  search s.dependencies ∅ [root]

variable {s : KnowledgeStore} {root : KnowledgeKey} {now : Timestamp}
  {seen : ExtTreeSet KnowledgeKey}
  {pending : List KnowledgeKey}

theorem mem_closure {k} : k ∈ closure s root ↔ ReflTransGen (Follows s.dependencies) root k := by
  rw [closure, mem_search_empty]
  simp

/-- **A walk** ends well exactly if whatever the search adds holds, and the search never
holds more than the bound. -/
theorem walk_iff : walkClosure s root now seen pending = .ok () ↔
    (∀ k ∈ search s.dependencies seen pending, k ∈ seen ∨ Holds s now k) ∧
      peak s.dependencies seen pending ≤ maxDependencyClosure := by
  -- A key that does not hold is among what the search adds.
  have hrefused : ∀ {seen key pending}, key ∉ seen → ¬ Holds s now key →
      ¬ ∀ k ∈ search s.dependencies seen (key :: pending), k ∈ seen ∨ Holds s now k := by
    intro seen key pending hseen hnot hall
    exact (hall key (mem_search_of_mem (.inr mem_cons_self))).elim hseen hnot
  fun_induction walkClosure s root now seen pending with
  | case1 =>
    rw [search, peak]
    exact ⟨fun _ => ⟨fun k hk => .inl hk, bot_le⟩, fun _ => rfl⟩
  | case2 seen key pending hseen ih =>
    rw [search, peak, if_pos hseen, if_pos hseen]
    exact ih
  | case3 seen key pending hseen hsize =>
    rw [peak, if_neg hseen]
    exact ⟨fun h => (by cases h), fun h => by have hpeak := h.2; omega⟩
  | case4 seen key pending hseen hsize hnone =>
    refine ⟨fun h => (by cases h), fun h => (hrefused hseen ?_ h.1).elim⟩
    rintro ⟨o, ho, -⟩
    rw [hnone] at ho
    cases ho
  | case5 seen key pending hseen hsize o ho hdead =>
    refine ⟨fun h => (by cases h), fun h => (hrefused hseen ?_ h.1).elim⟩
    rintro ⟨o', ho', hlive, -⟩
    cases ho.symm.trans ho'
    exact hlive hdead
  | case6 seen key pending hseen hsize o ho hlive hexpired =>
    refine ⟨fun h => (by cases h), fun h => (hrefused hseen ?_ h.1).elim⟩
    rintro ⟨o', ho', -, hvalid⟩
    cases ho.symm.trans ho'
    simp [hvalid] at hexpired
  | case7 seen key pending hseen hsize o ho hlive hvalid hroom =>
    rw [peak, if_neg hseen, KnowledgeStore.getD_dependencies ho]
    exact ⟨fun h => (by cases h), fun h => by have hpeak := h.2; omega⟩
  | case8 seen key pending hseen hsize o ho hlive hvalid hroom ih =>
    rw [search, peak, if_neg hseen, if_neg hseen, KnowledgeStore.getD_dependencies ho]
    have hkey : Holds s now key := ⟨o, ho, hlive, by simpa using hvalid⟩
    refine ih.trans (and_congr (forall₂_congr fun k _ => ?_) (by omega))
    rw [mem_insert, LawfulEqOrd.compare_eq_iff_eq, or_assoc]
    refine ⟨fun h => h.elim (fun heq => .inr (heq ▸ hkey)) id, .inr⟩

def plainObject (key : KnowledgeKey) (dependencies : List KnowledgeKey) : KnowledgeObject :=
  { KnowledgeStore.factAt key.2 none with id := key.1, dependencies }

def chainKey (i : Nat) : KnowledgeKey := (String.singleton (.ofNat (65 + i)), 1)

/-- A chain of `n` objects, each of which depends on the same `n` objects and on the next
of the chain.  All are admitted, the last of the chain first. -/
def chain (n : Nat) : KnowledgeStore :=
  let leaves := (List.range n).map chainKey
  let leaf i := plainObject (chainKey i) []
  let link i :=
    plainObject (chainKey (n + i)) (leaves ++ if i + 1 < n then [chainKey (n + i + 1)] else [])
  KnowledgeStore.empty.run blankHash
    (((List.range n).map leaf ++ (List.range n).reverse.map link).map .admission)

theorem chain_holds {n}
    (h : ∀ k ∈ (closure (chain n) (chainKey n)).toList, ((chain n).objectAt k).any fun o =>
      o.lifecycle ≠ .invalidated && o.validity.isValidAt 0) {k}
    (hk : ReflTransGen (Follows (chain n).dependencies) (chainKey n) k) : Holds (chain n) 0 k := by
  have hany := h k (mem_toList.mpr (mem_closure.mpr hk))
  cases ho : (chain n).objectAt k with
  | none => simp [ho] at hany
  | some o => exact ⟨o, ho, by simpa [ho] using hany⟩

end Memory

end Ptr
