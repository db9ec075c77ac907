import Ptr.Lib.Keyed
import Ptr.Memory.Knowledge

/-!
# What a knowledge store can do to a generation

An operation that succeeds does one of four things to the objects, to the pointers
and to the set of invalidated generations (`Move`): it leaves them as they are, it
admits one object, it invalidates a generation with all that depend on it, or it
moves the pointer of an id to another generation and invalidates the one it pointed
at.  Invalidation is for ever, and an invalidated generation is not depended upon.

An activation may name any generation that is not invalidated, so the pointer can
also go back (`activation_goes_back`).  It never does if every activation that the
store accepts names the generation that is current or one that supersedes it.
-/

namespace Ptr.Memory

open Lib
open Std.LawfulEqOrd (eq_of_compare)
open Std.ExtTreeMap (getElem?_insert mem_insert getElem?_insertIfNew)

namespace KnowledgeStore

variable {s s' : KnowledgeStore} {k k' : KnowledgeKey} {sha : Bytes → Digest}

/-! ### Relations between generations -/

def DependsOn (s : KnowledgeStore) (a b : KnowledgeKey) : Prop :=
  ∃ o, s.objects[a]? = some o ∧ b ∈ o.dependencies

def Supersedes (s : KnowledgeStore) (a b : KnowledgeKey) : Prop :=
  ∃ o, s.objects[a]? = some o ∧ o.supersedes = some b

def Invalid (s : KnowledgeStore) (k : KnowledgeKey) : Prop := s.lifecycleOf k = .invalidated

structure Sound (s : KnowledgeStore) : Prop where
  keyed : ∀ {k : KnowledgeKey} {o : KnowledgeObject}, s.objects[k]? = some o → o.key = k
  held : ∀ {a b}, s.DependsOn a b → b ∈ s.objects
  current : ∀ {id : KnowledgeObjectId} {g : Generation}, s.current[id]? = some g →
    (id, g) ∈ s.objects
  started : ∀ {k : KnowledgeKey}, k ∈ s.objects → k.1 ∈ s.current
  clear : ∀ {a b}, s.DependsOn a b → ¬ s.Invalid a → ¬ s.Invalid b

theorem sound_empty : empty.Sound where
  keyed h := by simp [empty] at h
  held := by rintro a b ⟨o, ho, -⟩; simp [empty] at ho
  current h := by simp [empty] at h
  started h := by simp [empty] at h
  clear := by rintro a b ⟨o, ho, -⟩; simp [empty] at ho

/-! ### Records of the lifecycle -/

variable (s)

theorem lifecycleOf_recordLifecycle (k k' : KnowledgeKey) (l : KnowledgeLifecycle) :
    (s.recordLifecycle k l).lifecycleOf k' = if k = k' then l else s.lifecycleOf k' := by
  by_cases h : k = k'
  · subst h
    simp [lifecycleOf, recordLifecycle]
  · simp [lifecycleOf, recordLifecycle, getElem?_insert, h]

@[simp] theorem objects_recordLifecycle (k : KnowledgeKey) (l : KnowledgeLifecycle) :
    (s.recordLifecycle k l).objects = s.objects := rfl

@[simp] theorem current_recordLifecycle (k : KnowledgeKey) (l : KnowledgeLifecycle) :
    (s.recordLifecycle k l).current = s.current := rfl

theorem foldl_recordLifecycle (keys : List KnowledgeKey) (s : KnowledgeStore) :
    let t := keys.foldl (fun s key => s.recordLifecycle key .invalidated) s
    t.objects = s.objects ∧ t.current = s.current ∧ ∀ k, t.Invalid k ↔ s.Invalid k ∨ k ∈ keys := by
  induction keys generalizing s with
  | nil => exact ⟨rfl, rfl, fun k => by simp⟩
  | cons key keys ih =>
    obtain ⟨hobjects, hcurrent, hinvalid⟩ := ih (s.recordLifecycle key .invalidated)
    refine ⟨hobjects, hcurrent, fun k => (hinvalid k).trans ?_⟩
    rw [Invalid, lifecycleOf_recordLifecycle]
    by_cases h : key = k
    · simp [h]
    · simp [h, Invalid, Ne.symm h]

@[simp] theorem objects_applyInvalidation (c : Std.ExtTreeSet KnowledgeKey) :
    (s.applyInvalidation c).objects = s.objects := (foldl_recordLifecycle c.toList s).1

@[simp] theorem current_applyInvalidation (c : Std.ExtTreeSet KnowledgeKey) :
    (s.applyInvalidation c).current = s.current := (foldl_recordLifecycle c.toList s).2.1

theorem invalid_applyInvalidation (c : Std.ExtTreeSet KnowledgeKey) (k : KnowledgeKey) :
    (s.applyInvalidation c).Invalid k ↔ s.Invalid k ∨ k ∈ c := by
  rw [← Std.ExtTreeSet.mem_toList]
  exact (foldl_recordLifecycle c.toList s).2.2 k

variable {s}

theorem mem_invalidationClosure {c} (hs : s.Sound) (h : s.invalidationClosure k = .ok c) :
    k' ∈ c ↔ Relation.ReflTransGen s.DependsOn k' k := by
  have hfollows : ∀ a b, Follows s.dependents a b ↔ s.DependsOn b a := by
    intro a b
    have hmem : b ∈ (s.objects.toList.filter fun p => a ∈ p.2.dependencies).map Prod.fst ↔
        s.DependsOn b a := by
      simp [DependsOn]
    rw [Follows, dependents, Std.ExtTreeMap.getD_eq_getD_getElem?, Std.ExtTreeMap.getElem?_map]
    cases ha : s.objects[a]? with
    | some => exact hmem
    | none =>
      refine ⟨fun h => absurd h (by simp), fun h => ?_⟩
      obtain ⟨o, ho⟩ := mem_iff_some.mp (hs.held h)
      rw [ha] at ho
      cases ho
  obtain ⟨-, h⟩ := refuse_eq_ok.mp h
  cases h
  rw [mem_search_empty, ← Relation.reflTransGen_swap]
  have heq : Follows s.dependents = Function.swap s.DependsOn := by
    funext a b
    exact propext (hfollows a b)
  simp [heq]

/-! ### What one operation does -/

/-- An object of generation 0 or 1, whose link the store does not check, supersedes
nothing; an object that is registered without the checks of an admission would pass
them; and an activation that is accepted names the current generation or one that
supersedes it. -/
def Orderly (s : KnowledgeStore) : KnowledgeOp → Prop
  | .register o => (o.generation ≤ 1 → o.supersedes = none) ∧ ∃ s', s.admitObject o = .ok s'
  | .admission o => o.generation ≤ 1 → o.supersedes = none
  | .activate id g => ∀ c s', s.current[id]? = some c → s.activateGeneration id g = .ok s' →
      g = c ∨ s.Supersedes (id, g) (id, c)
  | _ => True

/-- `o` was accepted: it is new, its dependencies are held and not invalidated, and
it supersedes nothing but the generation below. -/
structure Admissible (s : KnowledgeStore) (o : KnowledgeObject) : Prop where
  new : o.key ∉ s.objects
  dependencies : ∀ d ∈ o.dependencies, d ∈ s.objects ∧ ¬ s.Invalid d
  supersedes : ∀ {p}, o.supersedes = some p →
    p.1 = o.id ∧ p.2.val + 1 = o.generation.val ∧ p ∈ s.objects

inductive Move (s s' : KnowledgeStore) : Prop
  | kept (objects : s'.objects = s.objects) (current : s'.current = s.current)
      (invalid : ∀ k, s'.Invalid k ↔ s.Invalid k)
  | admitted (o : KnowledgeObject) (ok : s.Admissible o)
      (objects : s'.objects = s.objects.insert o.key o)
      (current : s'.current = s.current.insertIfNew o.id o.generation)
      (invalid : ∀ k, k ≠ o.key → (s'.Invalid k ↔ s.Invalid k))
  | cascaded (key : KnowledgeKey) (objects : s'.objects = s.objects)
      (current : s'.current = s.current)
      (invalid : ∀ k, s'.Invalid k ↔ s.Invalid k ∨ Relation.ReflTransGen s.DependsOn k key)
  | activated (id : KnowledgeObjectId) (next previous : Generation)
      (before : s.current[id]? = some previous) (link : s.Supersedes (id, next) (id, previous))
      (valid : ¬ s.Invalid (id, next)) (held : (id, next) ∈ s.objects)
      (objects : s'.objects = s.objects) (current : s'.current = s.current.insert id next)
      (invalid : ∀ k, s'.Invalid k ↔
        s.Invalid k ∨ Relation.ReflTransGen s.DependsOn k (id, previous))

theorem move_refl (s : KnowledgeStore) : Move s s := .kept rfl rfl fun _ => Iff.rfl

theorem move_of_appendRaw {e b} (h : s.appendRaw sha e = .ok (b, s')) : Move s s' := by
  rw [appendRaw, refuse_eq_ok, refuse_eq_ok] at h
  obtain ⟨-, -, h⟩ := h
  split at h
  · split at h
    · cases h
      exact move_refl s
    · cases h
  · cases h
    exact .kept rfl rfl fun _ => .rfl

theorem checkDependency_ok {d} (h : s.checkDependency d = .ok ()) :
    d ∈ s.objects ∧ ¬ s.Invalid d := by
  rw [checkDependency] at h
  split at h
  · cases h
  rename_i o ho
  exact ⟨mem_of_some ho, (refuse_eq_ok.mp h).1⟩

theorem checkSupersedes_ok {o p} (h : s.checkSupersedes o = .ok ())
    (hfirst : o.generation ≤ 1 → o.supersedes = none) (hp : o.supersedes = some p) :
    p.1 = o.id ∧ p.2.val + 1 = o.generation.val ∧ p ∈ s.objects := by
  have hg : 1 < o.generation := by
    by_contra hg
    rw [hfirst (not_lt.mp hg)] at hp
    cases hp
  rw [checkSupersedes, if_pos hg, hp] at h
  obtain ⟨hnot, -⟩ := refuse_eq_ok.mp h
  simp only [not_or, not_not] at hnot
  exact ⟨hnot.1, (U64.checkedAdd_eq_some hnot.2.1).symm, hnot.2.2⟩

theorem registerObject_of_admitObject {o} (h : s.admitObject o = .ok s') :
    s.registerObject o = .ok s' := by
  simp only [admitObject, bind_unit_eq_ok] at h
  exact h.2.2.2.2

theorem move_of_admitObject {o} (hfirst : o.generation ≤ 1 → o.supersedes = none)
    (h : s.admitObject o = .ok s') : Move s s' := by
  simp only [admitObject, registerObject, bind_unit_eq_ok] at h
  obtain ⟨-, -, hdeps, hsup, -, h⟩ := h
  split at h
  · obtain ⟨-, h⟩ := refuse_eq_ok.mp h
    cases h
    exact move_refl s
  · rename_i hnew
    cases h
    refine .admitted o ⟨?_, fun d hd => checkDependency_ok (forM_eq_ok.mp hdeps d hd),
      checkSupersedes_ok hsup hfirst⟩ rfl rfl ?_
    · simp [mem_iff_some, hnew]
    · intro k hk
      simp [Invalid, lifecycleOf, getElem?_insert, hk.symm]

theorem move_of_invalidateGeneration (hs : s.Sound) (h : s.invalidateGeneration k = .ok s') :
    Move s s' := by
  obtain ⟨c, hc, h⟩ := bind_eq_ok.mp h
  cases h
  refine .cascaded k (by simp) (by simp) fun k' => ?_
  rw [invalid_applyInvalidation, mem_invalidationClosure hs hc]

theorem move_of_transition {id dst} (hs : s.Sound) (h : s.transition id dst = .ok s') :
    Move s s' := by
  rw [transition] at h
  split at h
  · cases h
  rename_i g hg
  simp only at h
  split at h
  · cases h
    exact move_refl s
  obtain ⟨-, h⟩ := refuse_eq_ok.mp h
  split at h
  · exact move_of_invalidateGeneration hs h
  -- a demotion: neither the old state nor the new one is the final one
  rename_i hdst
  cases h
  refine .kept rfl rfl fun k => ?_
  rw [Invalid, lifecycleOf_recordLifecycle]
  by_cases hk : (id, g) = k
  · rw [if_pos hk, ← hk]
    have hsrc : s.lifecycleOf (id, g) ≠ .invalidated := by
      intro hsrc
      cases dst <;> simp_all [lifecycleAllowed]
    exact iff_of_false hdst hsrc
  · rw [if_neg hk, Invalid]

theorem invalid_of_activated {o} {t : KnowledgeStore} (ho : t.objects[k]? = some o) (k') :
    (if k ∈ t.lifecycle then t else t.recordLifecycle k o.lifecycle).Invalid k' ↔ t.Invalid k' := by
  split
  · exact .rfl
  rename_i hnone
  have hsame : t.lifecycleOf k = o.lifecycle := by
    rw [lifecycleOf, Std.ExtTreeMap.getElem?_eq_none hnone, ho]
  rw [Invalid, lifecycleOf_recordLifecycle]
  by_cases hk : k = k'
  · rw [if_pos hk, ← hsame, hk, Invalid]
  · rw [if_neg hk, Invalid]

theorem move_of_activateGeneration {id} {g : Generation} (hs : s.Sound)
    (hlink : s.Orderly (.activate id g)) (h : s.activateGeneration id g = .ok s') : Move s s' := by
  replace hlink := fun c hc => hlink c s' hc h
  rw [activateGeneration] at h
  split at h
  · cases h
  rename_i o ho
  obtain ⟨-, h⟩ := bind_unit_eq_ok.mp h
  obtain ⟨hvalid, h⟩ := refuse_eq_ok.mp h
  obtain ⟨t, ht, h⟩ := bind_eq_ok.mp h
  have hheld : ((id, g) : KnowledgeKey) ∈ s.objects := mem_of_some ho
  obtain ⟨previous, hprevious⟩ : ∃ previous, s.current[id]? = some previous :=
    mem_iff_some.mp (hs.started hheld)
  rw [supersede, hprevious, Option.filter_some] at ht
  by_cases hsame : previous = g
  · -- the generation is current already
    simp [hsame] at ht
    subst ht hsame
    cases h
    refine .kept ?_ ?_ fun k => (invalid_of_activated (by exact ho) k).trans .rfl
    · split <;> rfl
    · split <;> exact insert_eq_self hprevious
  · simp only [ne_eq, hsame] at ht
    obtain ⟨c, hc, ht⟩ := bind_eq_ok.mp ht
    obtain ⟨-, ht⟩ := refuse_eq_ok.mp ht
    cases ht
    cases h
    refine .activated id g previous hprevious ((hlink _ hprevious).resolve_left (Ne.symm hsame))
      hvalid hheld ?_ ?_ fun k => ?_
    · split <;> simp
    · split <;> simp
    · rw [invalid_of_activated (by simpa using ho)]
      exact (invalid_applyInvalidation s c k).trans (or_congr_right (mem_invalidationClosure hs hc))

/-! ### Runs -/

/-- An operation that is refused changes nothing. -/
def step (sha : Bytes → Digest) (s : KnowledgeStore) (op : KnowledgeOp) : KnowledgeStore :=
  match s.apply sha op with
  | .ok s => s
  | .error _ => s

def run (sha : Bytes → Digest) (s : KnowledgeStore) (ops : List KnowledgeOp) : KnowledgeStore :=
  ops.foldl (step sha) s

theorem move_of_step {op} (hs : s.Sound) (horderly : s.Orderly op) : Move s (s.step sha op) := by
  rw [step]
  split
  · rename_i t ht
    cases op with
    | raw =>
      rw [apply, map_eq_ok] at ht
      obtain ⟨⟨b, t⟩, ht, rfl⟩ := ht
      exact move_of_appendRaw ht
    | register =>
      obtain ⟨hfirst, t', hadmit⟩ := horderly
      obtain rfl : t' = t := Except.ok.inj ((registerObject_of_admitObject hadmit).symm.trans ht)
      exact move_of_admitObject hfirst hadmit
    | admission => exact move_of_admitObject horderly ht
    | activate => exact move_of_activateGeneration hs horderly ht
    | transition => exact move_of_transition hs ht
    | invalidate =>
      rw [apply, invalidate] at ht
      split at ht
      · cases ht
      · exact move_of_invalidateGeneration hs ht
  · exact move_refl s

/-! ### What every run keeps -/

variable {ops : List KnowledgeOp}

theorem Move.objects_kept (m : Move s s') {o} (h : s.objects[k]? = some o) :
    s'.objects[k]? = some o := by
  cases m with
  | kept objects | cascaded key objects | activated _ _ _ _ _ _ _ objects => rwa [objects]
  | admitted o' ok objects =>
    have hne : o'.key ≠ k := by
      rintro rfl
      exact ok.new (mem_of_some h)
    simpa [objects, getElem?_insert, hne] using h

theorem Move.mem_objects (m : Move s s') (h : k ∈ s.objects) : k ∈ s'.objects := by
  obtain ⟨o, ho⟩ := mem_iff_some.mp h
  exact mem_of_some (m.objects_kept ho)

theorem Move.invalid_kept (m : Move s s') (hk : k ∈ s.objects) (h : s.Invalid k) :
    s'.Invalid k := by
  cases m with
  | kept objects current invalid => exact (invalid k).mpr h
  | cascaded _ _ _ invalid | activated _ _ _ _ _ _ _ _ _ invalid => exact (invalid k).mpr (.inl h)
  | admitted o ok objects current invalid =>
    refine (invalid k ?_).mpr h
    rintro rfl
    exact ok.new hk

/-- A generation that is held and not current becomes so by an activation only, and
then it is not invalidated. -/
theorem Move.not_current (hs : s.Sound) (m : Move s s') (hk : k ∈ s.objects) (h : s.Invalid k)
    (hc : s.current[k.1]? ≠ some k.2) : s'.current[k.1]? ≠ some k.2 := by
  cases m with
  | kept objects current | cascaded key objects current => rwa [current]
  | activated id next previous before link valid held objects current =>
    rw [current]
    intro hnext
    obtain ⟨rfl, rfl⟩ | ⟨-, hnext⟩ := some_of_insert hnext
    · exact valid h
    · exact hc hnext
  | admitted o ok objects current =>
    -- the id of a generation that is held has a pointer already
    rw [current, getElem?_insertIfNew, if_neg]
    · exact hc
    · rintro ⟨hid, hnew⟩
      exact hnew (eq_of_compare hid ▸ hs.started hk)

theorem dependsOn_insert {o} (ho : s'.objects = s.objects.insert o.key o) :
    s'.DependsOn k k' → (k = o.key ∧ k' ∈ o.dependencies) ∨ (k ≠ o.key ∧ s.DependsOn k k') := by
  rintro ⟨o', ho', hk'⟩
  rw [ho] at ho'
  obtain ⟨hk, rfl⟩ | ⟨hk, ho'⟩ := some_of_insert ho'
  · exact .inl ⟨hk.symm, hk'⟩
  · exact .inr ⟨hk.symm, o', ho', hk'⟩

/-- After a cascade, what is still valid depends on nothing invalidated: it would be
part of the cascade. -/
theorem clear_of_cascade {key} (hs : s.Sound) (ho : s'.objects = s.objects)
    (hi : ∀ k, s'.Invalid k ↔ s.Invalid k ∨ Relation.ReflTransGen s.DependsOn k key) {a b}
    (hab : s'.DependsOn a b) (ha : ¬ s'.Invalid a) : ¬ s'.Invalid b := by
  rw [DependsOn, ho] at hab
  rw [hi, not_or] at ha ⊢
  exact ⟨hs.clear hab ha.1, fun hb => ha.2 (Relation.ReflTransGen.head hab hb)⟩

theorem Sound.of_objects (hs : s.Sound) (ho : s'.objects = s.objects)
    (hcurrent : ∀ (id : KnowledgeObjectId) (g : Generation), s'.current[id]? = some g →
      (id, g) ∈ s.objects) (hstarted : ∀ id ∈ s.current, id ∈ s'.current)
    (hclear : ∀ {a b}, s'.DependsOn a b → ¬ s'.Invalid a → ¬ s'.Invalid b) : s'.Sound where
  keyed h := hs.keyed (ho ▸ h)
  held {a b} h := by
    rw [DependsOn, ho] at h
    exact ho ▸ hs.held h
  current h := ho ▸ hcurrent _ _ h
  started hk := hstarted _ (hs.started (ho ▸ hk))
  clear := hclear

theorem Sound.move (hs : s.Sound) (m : Move s s') : s'.Sound := by
  cases m with
  | kept objects current invalid =>
    refine hs.of_objects objects (fun id g h => hs.current (current ▸ h))
      (fun id h => current ▸ h) ?_
    intro a b
    rw [DependsOn, objects, invalid, invalid]
    exact hs.clear
  | cascaded key objects current invalid =>
    exact hs.of_objects objects (fun id g h => hs.current (current ▸ h)) (fun id h => current ▸ h)
      (clear_of_cascade hs objects invalid)
  | activated id next previous before link valid held objects current invalid =>
    refine hs.of_objects objects ?_ ?_ (clear_of_cascade hs objects invalid)
    · intro id g h
      rw [current] at h
      obtain ⟨rfl, rfl⟩ | ⟨-, h⟩ := some_of_insert h
      · exact held
      · exact hs.current h
    · intro id h
      rw [current, mem_insert]
      exact .inr h
  | admitted o ok objects current invalid =>
    have hother : ∀ {k}, k ∈ s.objects → k ≠ o.key := by
      rintro k hk rfl
      exact ok.new hk
    constructor
    · intro k o' h
      rw [objects] at h
      obtain ⟨hk, rfl⟩ | ⟨-, h⟩ := some_of_insert h
      · exact hk
      · exact hs.keyed h
    · intro a b hab
      rw [objects, mem_insert]
      rcases dependsOn_insert objects hab with ⟨-, hb⟩ | ⟨-, hab⟩
      · exact .inr (ok.dependencies b hb).1
      · exact .inr (hs.held hab)
    · intro id g h
      rw [current, getElem?_insertIfNew] at h
      rw [objects, mem_insert]
      split at h
      · rename_i hid
        cases h
        exact .inl (by simp [KnowledgeObject.key, eq_of_compare hid.1])
      · exact .inr (hs.current h)
    · intro k hk
      rw [objects, mem_insert] at hk
      rw [current, Std.ExtTreeMap.mem_insertIfNew]
      rcases hk with hk | hk
      · exact .inl (by simp [← eq_of_compare hk, KnowledgeObject.key])
      · exact .inr (hs.started hk)
    · intro a b hab ha
      rcases dependsOn_insert objects hab with ⟨-, hb⟩ | ⟨hne, hab⟩
      · obtain ⟨hb, hvalid⟩ := ok.dependencies b hb
        rwa [invalid b (hother hb)]
      · rw [invalid b (hother (hs.held hab))]
        exact hs.clear hab (by rwa [← invalid a hne])

/-- No valid generation depends on an invalidated one, over any number of steps. -/
theorem Sound.valid_of_dependsOn (hs : s.Sound) (h : Relation.TransGen s.DependsOn k k')
    (hk : ¬ s.Invalid k) : ¬ s.Invalid k' := by
  induction h with
  | single h => exact hs.clear h hk
  | tail _ h ih => exact hs.clear h ih

/-! ### Runs in which the pointer follows the links -/

def OrderlyRun (sha : Bytes → Digest) : KnowledgeStore → List KnowledgeOp → Prop
  | _, [] => True
  | s, op :: ops => s.Orderly op ∧ OrderlyRun sha (s.step sha op) ops

theorem orderlyRun_append {ops₁ ops₂} :
    OrderlyRun sha s (ops₁ ++ ops₂) ↔ OrderlyRun sha s ops₁ ∧
      OrderlyRun sha (s.run sha ops₁) ops₂ := by
  induction ops₁ generalizing s with
  | nil => simp [OrderlyRun, run]
  | cons op ops ih => simp [OrderlyRun, ih, run, and_assoc]

/-- Links go down by one within an id, and all that the current generation
supersedes, over any number of links, is invalidated. -/
structure Chained (s : KnowledgeStore) : Prop where
  link : ∀ {a b}, s.Supersedes a b → b.1 = a.1 ∧ b.2.val + 1 = a.2.val ∧ b ∈ s.objects
  past : ∀ {id : KnowledgeObjectId} {g : Generation} {k}, s.current[id]? = some g →
    Relation.TransGen s.Supersedes (id, g) k → s.Invalid k

theorem chained_empty : empty.Chained where
  link := by rintro a b ⟨o, ho, -⟩; simp [empty] at ho
  past h := by simp [empty] at h

theorem supersedes_unique {a b c} (hb : s.Supersedes a b) (hc : s.Supersedes a c) : b = c := by
  obtain ⟨o, ho, hb⟩ := hb
  obtain ⟨o', ho', hc⟩ := hc
  rw [ho] at ho'
  cases ho'
  rw [hb] at hc
  exact Option.some.inj hc

theorem Chained.transGen (hc : s.Chained) (h : Relation.TransGen s.Supersedes k k') :
    k'.1 = k.1 ∧ k'.2.val < k.2.val ∧ k' ∈ s.objects := by
  induction h with
  | single h =>
    obtain ⟨hid, hlt, hmem⟩ := hc.link h
    exact ⟨hid, by omega, hmem⟩
  | tail _ h ih =>
    obtain ⟨hid, hlt, hmem⟩ := hc.link h
    exact ⟨hid.trans ih.1, by omega, hmem⟩

theorem supersedes_insert {o} (ho : s'.objects = s.objects.insert o.key o) :
    s'.Supersedes k k' → (k = o.key ∧ o.supersedes = some k') ∨ s.Supersedes k k' := by
  rintro ⟨o', ho', hk'⟩
  rw [ho] at ho'
  obtain ⟨hk, rfl⟩ | ⟨-, ho'⟩ := some_of_insert ho'
  · exact .inl ⟨hk.symm, hk'⟩
  · exact .inr ⟨o', ho', hk'⟩

/-- An admission adds a link of the new object at most, and nothing that was held
links to it. -/
theorem transGen_of_insert {o} (hc : s.Chained) (hnew : o.key ∉ s.objects)
    (ho : s'.objects = s.objects.insert o.key o) (hk : k ∈ s.objects)
    (h : Relation.TransGen s'.Supersedes k k') : Relation.TransGen s.Supersedes k k' := by
  have hold : ∀ {a b}, a ∈ s.objects → s'.Supersedes a b → s.Supersedes a b := by
    intro a b ha hab
    rcases supersedes_insert ho hab with ⟨rfl, -⟩ | hab
    · exact absurd ha hnew
    · exact hab
  induction h with
  | single h => exact .single (hold hk h)
  | tail _ h ih => exact ih.tail (hold (hc.transGen ih).2.2 h)

theorem supersedes_congr (ho : s'.objects = s.objects) : s'.Supersedes = s.Supersedes := by
  unfold Supersedes
  rw [ho]

theorem Chained.of_objects (hc : s.Chained) (ho : s'.objects = s.objects)
    (hpast : ∀ {id : KnowledgeObjectId} {g : Generation} {k}, s'.current[id]? = some g →
      Relation.TransGen s.Supersedes (id, g) k → s'.Invalid k) : s'.Chained where
  link h := by
    rw [supersedes_congr ho] at h
    exact ho ▸ hc.link h
  past hg h := by
    rw [supersedes_congr ho] at h
    exact hpast hg h

theorem Chained.activated {id previous next} (hc : s.Chained)
    (hbefore : s.current[id]? = some previous) (hlink : s.Supersedes (id, next) (id, previous))
    (h : Relation.TransGen s.Supersedes (id, next) k) : k = (id, previous) ∨ s.Invalid k := by
  obtain ⟨b, hb, hrest⟩ := Relation.TransGen.head'_iff.mp h
  obtain rfl := supersedes_unique hlink hb
  rcases Relation.reflTransGen_iff_eq_or_transGen.mp hrest with hk | hk
  · exact .inl hk
  · exact .inr (hc.past hbefore hk)

theorem Chained.move (hs : s.Sound) (hc : s.Chained) (m : Move s s') : s'.Chained := by
  cases m with
  | kept objects current invalid =>
    exact hc.of_objects objects fun hg hk => (invalid _).mpr (hc.past (current ▸ hg) hk)
  | cascaded key objects current invalid =>
    exact hc.of_objects objects fun hg hk => (invalid _).mpr (.inl (hc.past (current ▸ hg) hk))
  | activated id next previous before link valid held objects current invalid =>
    refine hc.of_objects objects fun {id' g k} hg hk => (invalid k).mpr ?_
    rw [current] at hg
    obtain ⟨rfl, rfl⟩ | ⟨-, hg⟩ := some_of_insert hg
    · rcases hc.activated before link hk with rfl | hinvalid
      · exact .inr .refl
      · exact .inl hinvalid
    · exact .inl (hc.past hg hk)
  | admitted o ok objects current invalid =>
    constructor
    · intro a b hab
      rw [objects, mem_insert]
      rcases supersedes_insert objects hab with ⟨rfl, hb⟩ | hab
      · obtain ⟨hid, hlt, hmem⟩ := ok.supersedes hb
        exact ⟨hid, hlt, .inr hmem⟩
      · obtain ⟨hid, hlt, hmem⟩ := hc.link hab
        exact ⟨hid, hlt, .inr hmem⟩
    · intro id g k hg hk
      rw [current, getElem?_insertIfNew] at hg
      split at hg
      · -- the first generation of its id supersedes nothing
        rename_i hid
        cases hg
        exfalso
        obtain ⟨b, hb, -⟩ := Relation.TransGen.head'_iff.mp hk
        rw [← eq_of_compare hid.1] at hb
        rcases supersedes_insert objects hb with ⟨-, hb⟩ | ⟨o', ho', -⟩
        · obtain ⟨hid', -, hmem⟩ := ok.supersedes hb
          exact hid.2 (hid' ▸ hs.started hmem)
        · exact ok.new (mem_of_some ho')
      · have hold := transGen_of_insert hc ok.new objects (hs.current hg) hk
        refine (invalid k ?_).mpr (hc.past hg hold)
        rintro rfl
        exact ok.new (hc.transGen hold).2.2

theorem Move.current_le (hc : s.Chained) (m : Move s s') {id : KnowledgeObjectId} {g}
    (h : s.current[id]? = some g) : ∃ g', s'.current[id]? = some g' ∧ g ≤ g' := by
  cases m with
  | kept objects current | cascaded key objects current => exact ⟨g, current ▸ h, le_refl g⟩
  | admitted o ok objects current =>
    refine ⟨g, ?_, le_refl g⟩
    rw [current, getElem?_insertIfNew, if_neg]
    · exact h
    · rintro ⟨hid, hnot⟩
      exact hnot (eq_of_compare hid ▸ mem_of_some h)
  | activated id' next previous before link valid held objects current =>
    rw [current, getElem?_insert]
    split
    · rename_i hid
      obtain rfl := eq_of_compare hid
      rw [before] at h
      cases h
      obtain ⟨-, hsucc, -⟩ := hc.link link
      refine ⟨next, rfl, Fin.le_def.mpr ?_⟩
      simp only at hsucc
      omega
    · exact ⟨g, h, le_refl g⟩

structure Later (s s' : KnowledgeStore) : Prop where
  current : ∀ {id : KnowledgeObjectId} {g : Generation}, s.current[id]? = some g →
    ∃ g', s'.current[id]? = some g' ∧ g ≤ g'
  held : ∀ {k}, k ∈ s.objects → k ∈ s'.objects
  invalid : ∀ {k}, k ∈ s.objects → s.Invalid k → s'.Invalid k
  behind : ∀ {k}, k ∈ s.objects → s.Invalid k → s.current[k.1]? ≠ some k.2 →
    s'.current[k.1]? ≠ some k.2

theorem orderlyRun_later (hs : s.Sound) (hc : s.Chained) (h : OrderlyRun sha s ops) :
    Later s (s.run sha ops) ∧ (s.run sha ops).Sound ∧ (s.run sha ops).Chained := by
  induction ops generalizing s with
  | nil => exact ⟨⟨fun {id g} h => ⟨g, h, le_refl g⟩, id, fun _ => id, fun _ _ => id⟩, hs, hc⟩
  | cons op ops ih =>
    obtain ⟨horderly, hrest⟩ := h
    have m : Move s (s.step sha op) := move_of_step hs horderly
    obtain ⟨hlater, hsound, hchained⟩ := ih (hs.move m) (Chained.move hs hc m) hrest
    refine ⟨⟨?_, ?_, ?_, ?_⟩, hsound, hchained⟩
    · intro id g hg
      obtain ⟨g1, hg1, hle1⟩ := m.current_le hc hg
      obtain ⟨g2, hg2, hle2⟩ := hlater.current hg1
      exact ⟨g2, hg2, le_trans hle1 hle2⟩
    · exact fun hk => hlater.held (m.mem_objects hk)
    · exact fun hk hi => hlater.invalid (m.mem_objects hk) (m.invalid_kept hk hi)
    · exact fun hk hi hne =>
        hlater.behind (m.mem_objects hk) (m.invalid_kept hk hi) (Move.not_current hs m hk hi hne)

/-- **Generations never come back** in a run whose accepted activations follow the links.  From
any state of the run on, the current generation of an id does not go down.  A
generation that is invalidated stays invalidated, and is not current later unless it
is so now.  What the current generation supersedes, directly or through a chain, is
invalidated and not current from then on.  And what is not invalidated depends on
nothing that is. -/
theorem generations_never_return (sha : Bytes → Digest) (ops₁ ops₂ : List KnowledgeOp)
    (h : OrderlyRun sha empty (ops₁ ++ ops₂)) :
    let s := empty.run sha ops₁
    let s' := s.run sha ops₂
    (∀ (id : KnowledgeObjectId) (g : Generation), s.current[id]? = some g →
      ∃ g', s'.current[id]? = some g' ∧ g ≤ g') ∧
      (∀ k ∈ s.objects, s.lifecycleOf k = .invalidated → s'.lifecycleOf k = .invalidated ∧
      (s.current[k.1]? ≠ some k.2 → s'.current[k.1]? ≠ some k.2)) ∧
      (∀ (id : KnowledgeObjectId) (g : Generation) (k : KnowledgeKey), s.current[id]? = some g →
      Relation.TransGen s.Supersedes (id, g) k → s'.lifecycleOf k = .invalidated ∧
      s'.current[k.1]? ≠ some k.2) ∧ ∀ k k', Relation.TransGen s'.DependsOn k k' →
      s'.lifecycleOf k ≠ .invalidated → s'.lifecycleOf k' ≠ .invalidated := by
  intro s s'
  obtain ⟨h1, h2⟩ := orderlyRun_append.mp h
  obtain ⟨-, hs, hc⟩ := orderlyRun_later sound_empty chained_empty h1
  obtain ⟨hlater, hs', -⟩ := orderlyRun_later hs hc h2
  refine ⟨fun id g hg => hlater.current hg,
    fun k hk hi => ⟨hlater.invalid hk hi, hlater.behind hk hi⟩, ?_,
    fun k k' hk => hs'.valid_of_dependsOn hk⟩
  intro id g k hg hk
  obtain ⟨hid, hlt, hmem⟩ := hc.transGen hk
  have hi := hc.past hg hk
  refine ⟨hlater.invalid hmem hi, hlater.behind hmem hi ?_⟩
  rw [hid, hg]
  intro heq
  rw [← Option.some.inj heq] at hlt
  exact lt_irrefl _ hlt

/-! ### A pointer that goes back -/

def factAt (g : Generation) (supersedes : Option KnowledgeKey) : KnowledgeObject where
  id := "fact"
  «namespace» := ""
  entities := []
  relations := []
  sources := []
  provenance := []
  generation := g
  supersedes := supersedes
  dependencies := []
  confidence := ⟨0, .inl (by decide)⟩
  relevance := ⟨0, .inl (by decide)⟩
  freshness := .current
  conflict := .none
  lifecycle := .hot
  retrievalKeys := []
  tokenCost := 0
  validity := ⟨none, none⟩

def skippingRun : List KnowledgeOp :=
  [.admission (factAt 1 none), .admission (factAt 2 (some ("fact", 1))),
    .admission (factAt 3 (some ("fact", 2))), .activate "fact" 3]

/-- The second generation, which the current one supersedes, was passed over and not
invalidated.  Its activation is accepted: it becomes current and usable, and the third
is invalidated. -/
theorem activation_goes_back :
    let s := empty.run blankHash skippingRun
    let s' := s.run blankHash [.activate "fact" 2]
    s.current["fact"]? = some 3 ∧ s.Supersedes ("fact", 3) ("fact", 2) ∧
      s'.current["fact"]? = some 2 ∧ s'.lifecycleOf ("fact", 2) = .hot ∧
      s'.lifecycleOf ("fact", 3) = .invalidated := by
  refine ⟨by decide +kernel, ⟨factAt 3 (some ("fact", 2)), by decide +kernel, rfl⟩, ?_⟩
  decide +kernel

def followingRun : List KnowledgeOp :=
  [.admission (factAt 1 none), .admission (factAt 2 (some ("fact", 1))), .activate "fact" 2]

theorem followingRun_orderly :
    OrderlyRun blankHash empty (followingRun ++ [.invalidate "fact"]) := by
  refine ⟨fun _ => rfl, ?_, ?_, trivial, trivial⟩
  · intro h
    exact absurd h (by decide)
  · intro c _ hc _
    cases hc
    exact .inr ⟨factAt 2 (some ("fact", 1)), by decide +kernel, rfl⟩

theorem generations_never_return_of_followingRun :
    let s := (empty.run blankHash followingRun).run blankHash [.invalidate "fact"]
    s.lifecycleOf ("fact", 1) = .invalidated ∧ s.current["fact"]? ≠ some 1 :=
  (generations_never_return blankHash followingRun [.invalidate "fact"] followingRun_orderly).2.2.1
    "fact" 2 ("fact", 1) (by decide +kernel)
    (.single ⟨factAt 2 (some ("fact", 1)), by decide +kernel, rfl⟩)

end KnowledgeStore

end Ptr.Memory
