import Ptr.Semdb.Host

/-!
# What a delta does to a state

`stage_cell` says what the three staging loops do to one key, and `stage_unchanged`
and `mem_changed` what follows for the keys a delta changes.  A path of dependents
that starts at a changed key in the old graph can be walked in the new one from a
later changed key (`reaches_staged`), so eviction along either graph leaves no
derivation of a changed input.
-/

namespace Ptr.Semdb

open Lib Std SemanticState SemanticHost DependencyGraph Relation ExtTreeMap ExtTreeSet

/-! ### One key of a staging -/

structure Cell where
  value : Option SemanticValue
  inputs : Option (ExtTreeSet String)
  changed : Bool

namespace Cell

def remove (c : Cell) : Cell := ⟨none, none, c.changed || c.value.isSome || c.inputs.isSome⟩

def upsert (v : SemanticValue) (c : Cell) : Cell :=
  if c.value = some v then c else ⟨some v, c.inputs, true⟩

def declare (ins : ExtTreeSet String) (c : Cell) : Cell :=
  if c.inputs ≠ some ins ∧ ¬ (c.inputs = none ∧ ins.isEmpty) then
    ⟨c.value, if ins.isEmpty then none else some ins, true⟩
  else c

/-- An operation that reports no change made none. -/
theorem eq_of_not_changed {c : Cell} :
    (c.remove.changed = false → c.remove = c) ∧
      (∀ v, (c.upsert v).changed = false → c.upsert v = c) ∧
      ∀ ins, (c.declare ins).changed = false → c.declare ins = c := by
  obtain ⟨value, inputs, changed⟩ := c
  refine ⟨fun h => ?_, fun v h => ?_, fun ins h => ?_⟩
  · simp only [remove, Bool.or_eq_false_iff, Option.isSome_eq_false_iff, Option.isNone_iff_eq_none]
      at h ⊢
    rw [h.1.1, h.1.2, h.2]
    rfl
  · rw [upsert] at h ⊢
    split at h
    · next hv => rw [if_pos hv]
    · cases h
  · rw [declare] at h ⊢
    split at h
    · cases h
    · next hins => rw [if_neg hins]

variable {c : Cell} {v : SemanticValue} {ins : ExtTreeSet String}

theorem changed_upsert : (c.upsert v).changed = true ↔ c.changed = true ∨ c.value ≠ some v := by
  by_cases h : c.value = some v <;> simp [upsert, h]

theorem inputs_upsert : (c.upsert v).inputs = c.inputs := by
  rw [upsert]
  split <;> rfl

theorem value_upsert : (c.upsert v).value = some v := by
  rw [upsert]
  split
  · next h => exact h
  · rfl

/-- An absent input set and an empty one count as the same. -/
theorem declares_iff {old} :
    (old ≠ some ins ∧ ¬ (old = none ∧ ins.isEmpty)) ↔ old.getD ∅ ≠ ins := by
  cases old with
  | none =>
    constructor
    · rintro ⟨-, hne⟩ rfl
      exact hne ⟨rfl, rfl⟩
    · intro hne
      exact ⟨by simp, fun h => hne (ExtTreeSet.isEmpty_iff.mp h.2).symm⟩
  | some => simp

theorem changed_declare :
    (c.declare ins).changed = true ↔ c.changed = true ∨ c.inputs.getD ∅ ≠ ins := by
  rw [declare, ← declares_iff]
  split
  · next h => exact ⟨fun _ => .inr h, fun _ => rfl⟩
  · next h => simp only [h, or_false]

theorem value_declare : (c.declare ins).value = c.value := by
  rw [declare]
  split <;> rfl

def NonEmpty (c : Cell) : Prop := ∀ ins, c.inputs = some ins → ins ≠ ∅

theorem NonEmpty.upsert (h : c.NonEmpty) (v : SemanticValue) : (c.upsert v).NonEmpty := by
  rw [NonEmpty, inputs_upsert]
  exact h

theorem NonEmpty.declare (h : c.NonEmpty) (ins : ExtTreeSet String) : (c.declare ins).NonEmpty := by
  rw [Cell.declare]
  split
  · intro ins' heq
    split at heq
    · cases heq
    · next hne =>
      obtain rfl := Option.some.inj heq
      exact fun hempty => hne (isEmpty_iff.mpr hempty)
  · exact h

end Cell

def Staging.cell (s : Staging) (k : String) : Cell :=
  ⟨s.next.ground[k]?, s.next.dependencies.inputs[k]?, s.changed.contains k⟩

namespace Staging

variable (s : Staging)

theorem cell_remove (k : String) : (s.remove k).cell k = (s.cell k).remove := by
  have hheld : (k ∈ s.next.ground ∨ k ∈ s.next.dependencies.inputs) ↔
      (s.next.ground[k]?.isSome || s.next.dependencies.inputs[k]?.isSome) = true := by
    rw [Bool.or_eq_true, ExtTreeMap.mem_iff_isSome_getElem?, ExtTreeMap.mem_iff_isSome_getElem?]
  simp only [remove, cell, Cell.remove, ExtTreeMap.getElem?_erase_self]
  rw [Bool.or_assoc]
  split
  · next h => rw [hheld.mp h, ExtTreeSet.contains_insert_self, Bool.or_true]
  · next h => rw [Bool.not_eq_true _ |>.mp (fun hs => h (hheld.mpr hs)), Bool.or_false]

theorem cell_upsert (p : String × SemanticValue) :
    (s.upsert p).cell p.1 = (s.cell p.1).upsert p.2 := by
  by_cases h : s.next.ground[p.1]? = some p.2
  · have hcell : (s.cell p.1).value = some p.2 := h
    rw [upsert, if_pos h, Cell.upsert, if_pos hcell]
  · have hcell : ¬ (s.cell p.1).value = some p.2 := h
    rw [upsert, if_neg h, Cell.upsert, if_neg hcell]
    simp [cell]

theorem cell_declare (p : String × ExtTreeSet String) :
    (s.declare p).cell p.1 = (s.cell p.1).declare p.2 := by
  by_cases h : s.next.dependencies.inputs[p.1]? ≠ some p.2 ∧
      ¬ (s.next.dependencies.inputs[p.1]? = none ∧ p.2.isEmpty)
  · have hcell : (s.cell p.1).inputs ≠ some p.2 ∧ ¬ ((s.cell p.1).inputs = none ∧ p.2.isEmpty) := h
    rw [declare, if_pos h, Cell.declare, if_pos hcell]
    by_cases hempty : p.2.isEmpty = true
    · simp [cell, hempty]
    · simp [cell, hempty]
  · have hcell :
        ¬ ((s.cell p.1).inputs ≠ some p.2 ∧ ¬ ((s.cell p.1).inputs = none ∧ p.2.isEmpty)) := h
    rw [declare, if_neg h, Cell.declare, if_neg hcell]

theorem cell_remove_of_ne (j k : String) (h : k ≠ j) : (s.remove j).cell k = s.cell k := by
  by_cases hheld : j ∈ s.next.ground ∨ j ∈ s.next.dependencies.inputs
  · simp [remove, cell, hheld, h.symm, ExtTreeMap.getElem?_erase]
  · simp [remove, cell, hheld, h.symm, ExtTreeMap.getElem?_erase]

theorem cell_upsert_of_ne (p : String × SemanticValue) (k : String) (h : k ≠ p.1) :
    (s.upsert p).cell k = s.cell k := by
  rw [upsert]
  split
  · rfl
  · simp [cell, h.symm, ExtTreeMap.getElem?_insert]

theorem cell_declare_of_ne (p : String × ExtTreeSet String) (k : String) (h : k ≠ p.1) :
    (s.declare p).cell k = s.cell k := by
  rw [declare]
  split
  · by_cases hempty : p.2.isEmpty = true
    · simp [cell, hempty, h.symm, ExtTreeMap.getElem?_erase]
    · simp [cell, hempty, h.symm, ExtTreeMap.getElem?_insert]
  · rfl

theorem cell_foldl_remove (ks : ExtTreeSet String) (k : String) :
    (ks.toList.foldl remove s).cell k = if k ∈ ks then (s.cell k).remove else s.cell k := by
  have hnodup : (ks.toList.map id).Nodup := by
    rw [List.map_id]
    exact distinct_toList.imp ReflCmp.ne_of_cmp_ne_eq
  obtain ⟨hin, hout⟩ := foldl_view id (fun _ => Cell.remove) cell_remove cell_remove_of_ne hnodup s
  split
  · next h => exact hin k (mem_toList.mpr h)
  · next h => exact hout k (by rwa [List.map_id, mem_toList])

/-- The loop over the entries of a map acts on each key by its entry. -/
theorem cell_foldl_entries {α : Type} {step} {f : α → Cell → Cell}
    (hkey : ∀ s p, (step s p).cell p.1 = f p.2 (s.cell p.1))
    (hother : ∀ (s : Staging) (p : String × α) k, k ≠ p.1 → (step s p).cell k = s.cell k)
    (m : ExtTreeMap String α) (k : String) :
    (m.toList.foldl step s).cell k = (m[k]?).elim (s.cell k) fun a => f a (s.cell k) := by
  have hnodup : (m.toList.map Prod.fst).Nodup := by
    rw [map_fst_toList_eq_keys]
    exact nodup_keys
  obtain ⟨hin, hout⟩ := foldl_view Prod.fst (fun p => f p.2) hkey hother hnodup s
  cases hk : m[k]? with
  | some a => exact hin (k, a) (mem_toList_iff_getElem?_eq_some.mpr hk)
  | none =>
    refine hout k ?_
    rw [map_fst_toList_eq_keys, mem_keys, mem_iff_isSome_getElem?, hk]
    exact Bool.false_ne_true

end Staging

/-! ### The staged state -/

variable {s : SemanticState} {d : SemanticDelta} {k : String} {h : SemanticHost} {p : PreparedDelta}

def SemanticState.cell (s : SemanticState) (k : String) : Cell :=
  ⟨s.ground[k]?, s.dependencies.inputs[k]?, false⟩

theorem stage_cell (k : String) :
    (s.stage d).cell k = (d.dependencies[k]?).elim id Cell.declare
      ((d.upserts[k]?).elim id Cell.upsert
        (if k ∈ d.removals then (s.cell k).remove else s.cell k)) := by
  rw [stage, Staging.cell_foldl_entries _ Staging.cell_declare Staging.cell_declare_of_ne,
    Staging.cell_foldl_entries _ Staging.cell_upsert Staging.cell_upsert_of_ne,
    Staging.cell_foldl_remove]
  cases d.dependencies[k]? <;> cases d.upserts[k]? <;> rfl

theorem stage_revision : (s.stage d).next.revision = s.revision := by
  have hfold : ∀ {β : Type} {step : Staging → β → Staging},
      (∀ s b, (step s b).next.revision = s.next.revision) →
      ∀ (bs : List β) s, (bs.foldl step s).next.revision = s.next.revision := by
    intro β step hstep bs
    induction bs with
    | nil => exact fun _ => rfl
    | cons b bs ih => exact fun s => (ih (step s b)).trans (hstep s b)
  rw [stage, hfold, hfold, hfold]
  · intro s k
    rfl
  · intro s p
    rw [Staging.upsert]
    split <;> rfl
  · intro s p
    rw [Staging.declare]
    split <;> rfl

theorem mem_changed_iff_cell : k ∈ (s.stage d).changed ↔ ((s.stage d).cell k).changed = true :=
  ExtTreeSet.mem_iff_contains

/-- A key that is not reported as changed is as it was. -/
theorem stage_unchanged (h : k ∉ (s.stage d).changed) : (s.stage d).cell k = s.cell k := by
  have hfalse : ((s.stage d).cell k).changed = false := by
    rwa [mem_changed_iff_cell, Bool.not_eq_true] at h
  rw [stage_cell] at hfalse ⊢
  -- undo the three operations from the last one on
  have hdeclare : ∀ c, ((d.dependencies[k]?).elim id Cell.declare c).changed = false →
      (d.dependencies[k]?).elim id Cell.declare c = c := by
    intro c
    cases d.dependencies[k]? with
    | none => exact fun _ => rfl
    | some ins => exact Cell.eq_of_not_changed.2.2 ins
  have hupsert : ∀ c, ((d.upserts[k]?).elim id Cell.upsert c).changed = false →
      (d.upserts[k]?).elim id Cell.upsert c = c := by
    intro c
    cases d.upserts[k]? with
    | none => exact fun _ => rfl
    | some v => exact Cell.eq_of_not_changed.2.1 v
  have hlast := hdeclare _ hfalse
  rw [hlast] at hfalse ⊢
  have hmiddle := hupsert _ hfalse
  rw [hmiddle] at hfalse ⊢
  split at hfalse
  · next hk =>
    rw [if_pos hk]
    exact Cell.eq_of_not_changed.1 hfalse
  · next hk => rw [if_neg hk]

/-- The delta removes what is there, stores another value or declares another
input set under `k`. -/
def SemanticState.Changes (s : SemanticState) (d : SemanticDelta) (k : String) : Prop :=
  (k ∈ d.removals ∧ (k ∈ s.ground ∨ k ∈ s.dependencies.inputs)) ∨
    (∃ v, d.upserts[k]? = some v ∧ s.ground[k]? ≠ some v) ∨
    ∃ ins, d.dependencies[k]? = some ins ∧ s.dependencies.inputsOf k ≠ ins

theorem SemanticDelta.Valid.not_written (h : d.Valid) (hk : k ∈ d.removals) :
    d.upserts[k]? = none ∧ d.dependencies[k]? = none := by
  have hnone := List.any_eq_false.mp h.disjoint k (ExtTreeSet.mem_toList.mpr hk)
  simp only [Bool.or_eq_true, not_or] at hnone
  exact ⟨ExtTreeMap.getElem?_eq_none hnone.1, ExtTreeMap.getElem?_eq_none hnone.2⟩

/-- The keys reported as changed are those that the delta changes. -/
theorem mem_changed (h : d.Valid) : k ∈ (s.stage d).changed ↔ s.Changes d k := by
  rw [mem_changed_iff_cell, stage_cell, Changes]
  by_cases hk : k ∈ d.removals
  · obtain ⟨hu, hd⟩ := h.not_written hk
    rw [hu, hd]
    simp [hk, Cell.remove, cell]
  · have hinputs : s.dependencies.inputsOf k = (s.cell k).inputs.getD ∅ := getD_eq_getD_getElem?
    simp only [hk]
    cases d.dependencies[k]? with
    | none =>
      cases d.upserts[k]? with
      | none => simp [cell]
      | some => simp [Cell.changed_upsert, cell]
    | some =>
      cases d.upserts[k]? with
      | none => simp [Cell.changed_declare, hinputs, cell]
      | some => simp [Cell.changed_declare, Cell.changed_upsert, Cell.inputs_upsert, hinputs, cell]

/-- Evicted are the affected keys that the delta does not store. -/
theorem evict_ground (affected : ExtTreeSet String) (k : String) :
    (s.evict d affected).ground[k]? = if k ∈ affected ∧ k ∉ d.upserts then
      none else s.ground[k]? := by
  have hfold : ∀ (ks : List String) (ground : ExtTreeMap String SemanticValue),
      (ks.foldl (fun ground k => if k ∈ d.upserts then ground else ground.erase k) ground)[k]? =
        if k ∈ ks ∧ k ∉ d.upserts then none else ground[k]? := by
    intro ks
    induction ks with
    | nil => simp
    | cons j ks ih =>
      intro ground
      rw [List.foldl_cons, ih]
      by_cases hj : j = k
      · subst hj
        by_cases hu : j ∈ d.upserts <;> simp [hu]
      · by_cases hu : j ∈ d.upserts
        · simp [hu, Ne.symm hj]
        · simp [hu, hj, Ne.symm, getElem?_erase]
  rw [evict, hfold]
  simp

/-! ### Paths of dependents -/

theorem stage_feeds {j} (h : k ∉ (s.stage d).changed) :
    (s.stage d).next.dependencies.Feeds j k ↔ s.dependencies.Feeds j k := by
  have hinputs : (s.stage d).next.dependencies.inputs[k]? = s.dependencies.inputs[k]? :=
    congrArg Cell.inputs (stage_unchanged h)
  rw [Feeds, Feeds, inputsOf, inputsOf,
    getD_eq_getD_getElem?, getD_eq_getD_getElem?, hinputs]

/-- Behind its last changed key, a path of the old graph is one of the new graph. -/
theorem reaches_staged {c} (hc : c ∈ (s.stage d).changed)
    (h : ReflTransGen s.dependencies.Feeds c k) :
    ∃ c' ∈ (s.stage d).changed, ReflTransGen (s.stage d).next.dependencies.Feeds c' k := by
  induction h with
  | refl => exact ⟨c, hc, .refl⟩
  | @tail j k _ hjk ih =>
    by_cases hk : k ∈ (s.stage d).changed
    · exact ⟨k, hk, .refl⟩
    · obtain ⟨c', hc', hpath⟩ := ih
      exact ⟨c', hc', hpath.tail ((stage_feeds hk).mpr hjk)⟩

theorem mem_affected : k ∈ s.affected (s.stage d) ↔ ∃ c ∈ (s.stage d).changed,
    (ReflTransGen s.dependencies.Feeds c k ∨
      ReflTransGen (s.stage d).next.dependencies.Feeds c k) := by
  rw [affected, ExtTreeSet.mem_union_iff, mem_affectedBy,
    mem_affectedBy, ← exists_or]
  simp [and_or_left]

/-- What the new graph derives from an affected key is affected. -/
theorem affected_of_feeds {j} (hj : j ∈ s.affected (s.stage d))
    (hjk : (s.stage d).next.dependencies.Feeds j k) : k ∈ s.affected (s.stage d) := by
  obtain ⟨c, hc, hold | hnew⟩ := mem_affected.mp hj
  · obtain ⟨c', hc', hpath⟩ := reaches_staged hc hold
    exact mem_affected.mpr ⟨c', hc', .inr (hpath.tail hjk)⟩
  · exact mem_affected.mpr ⟨c, hc, .inr (hnew.tail hjk)⟩

theorem not_changed_of_not_affected (h : k ∉ s.affected (s.stage d)) : k ∉ (s.stage d).changed :=
  fun hk => h (mem_affected.mpr ⟨k, hk, .inl .refl⟩)

/-! ### The state after a delta -/

def SemanticState.evolved (s : SemanticState) (d : SemanticDelta) : SemanticState :=
  (s.stage d).next.evict d (s.affected (s.stage d))

theorem mem_congr {α : Type} {m m' : ExtTreeMap String α} (h : m[k]? = m'[k]?) :
    k ∈ m ↔ k ∈ m' := by
  rw [mem_iff_isSome_getElem?, mem_iff_isSome_getElem?, h]

theorem evolved_unaffected (h : k ∉ s.affected (s.stage d)) : (s.evolved d).cell k = s.cell k := by
  have hcell := stage_unchanged (not_changed_of_not_affected h)
  rw [cell, evolved, evict_ground, if_neg (fun hk => h hk.1)]
  exact congrArg (fun c => (⟨c.value, c.inputs, false⟩ : Cell)) hcell

/-- A key that is held and not stored by the delta was not affected. -/
theorem not_affected_of_held (hk : k ∈ (s.evolved d).ground) (hu : k ∉ d.upserts) :
    k ∉ s.affected (s.stage d) := by
  intro haff
  rw [mem_iff_isSome_getElem?, evolved, evict_ground, if_pos ⟨haff, hu⟩] at hk
  cases hk

/-- No stored key misses an input. -/
theorem held_of_missing_eq_none (h : s.missing d = none) {j} (hk : k ∈ d.upserts)
    (hjk : s.dependencies.Feeds j k) : j ∈ s.ground := by
  have hkey := List.findSome?_eq_none_iff.mp h k (mem_keys.mpr hk)
  rw [Option.map_eq_none_iff, List.find?_eq_none] at hkey
  simpa using hkey j (mem_toList.mpr hjk)

structure SemanticState.WellFormed (s : SemanticState) : Prop where
  acyclic : s.dependencies.Acyclic
  nonempty : ∀ (k : String) (ins : ExtTreeSet String), s.dependencies.inputs[k]? = some ins →
    ins ≠ ∅
  held : ∀ k ∈ s.ground, ∀ j, s.dependencies.Feeds j k → j ∈ s.ground

theorem SemanticState.WellFormed.held_of_path (hs : s.WellFormed) {j} (hk : k ∈ s.ground)
    (hjk : TransGen s.dependencies.Feeds j k) : j ∈ s.ground := by
  induction hjk using TransGen.head_induction_on with
  | single hjk => exact hs.held k hk _ hjk
  | head hjm _ ih => exact hs.held _ ih _ hjm

theorem stage_nonempty
    (h : ∀ (k : String) (ins : ExtTreeSet String), s.dependencies.inputs[k]? = some ins → ins ≠ ∅)
    (k : String) (ins : ExtTreeSet String)
    (hk : (s.stage d).next.dependencies.inputs[k]? = some ins) : ins ≠ ∅ := by
  have hcell : ((s.stage d).cell k).NonEmpty := by
    rw [stage_cell]
    have hremove : Cell.NonEmpty (if k ∈ d.removals then (s.cell k).remove else s.cell k) := by
      split
      · exact fun _ h => by cases h
      · exact h k
    have hupsert : Cell.NonEmpty ((d.upserts[k]?).elim id Cell.upsert
        (if k ∈ d.removals then (s.cell k).remove else s.cell k)) := by
      cases d.upserts[k]? with
      | none => exact hremove
      | some v => exact hremove.upsert v
    cases d.dependencies[k]? with
    | none => exact hupsert
    | some ins => exact hupsert.declare ins
  exact hcell ins hk

theorem SemanticState.WellFormed.evolved (hs : s.WellFormed)
    (hacyclic : (s.stage d).next.dependencies.Acyclic) (hmissing : (s.evolved d).missing d = none) :
    (s.evolved d).WellFormed where
  acyclic := hacyclic
  nonempty := stage_nonempty hs.nonempty
  held := by
    intro k hk j hjk
    by_cases hu : k ∈ d.upserts
    · exact held_of_missing_eq_none hmissing hu hjk
    -- the key and its inputs are as before, and an input that changed would have evicted it
    have hkaff := not_affected_of_held hk hu
    have hjaff : j ∉ s.affected (s.stage d) := fun hj => hkaff (affected_of_feeds hj hjk)
    have hkold : k ∈ s.ground := (mem_congr (congrArg Cell.value (evolved_unaffected hkaff))).mp hk
    have hjold : j ∈ s.ground :=
      hs.held k hkold j ((stage_feeds (not_changed_of_not_affected hkaff)).mp hjk)
    exact (mem_congr (congrArg Cell.value (evolved_unaffected hjaff))).mpr hjold

/-! ### Prepared and applied deltas -/

theorem evolved_revision : (s.evolved d).revision = s.revision := stage_revision

structure Succeeds (s next : SemanticState) : Prop where
  changed : next.ground ≠ s.ground ∨ next.dependencies ≠ s.dependencies →
    next.revision.val = s.revision.val + 1
  same : next.ground = s.ground → next.dependencies = s.dependencies → next = s

theorem nextRevision_eq_ok {next next'} (hrev : next.revision = s.revision)
    (h : s.nextRevision next = .ok next') :
    next'.ground = next.ground ∧ next'.dependencies = next.dependencies ∧ Succeeds s next' := by
  have hsame : next.ground = s.ground → next.dependencies = s.dependencies → next = s := by
    intro hground hdeps
    obtain ⟨revision, ground, dependencies⟩ := next
    dsimp only at hrev hground hdeps
    rw [hrev, hground, hdeps]
  rw [nextRevision] at h
  split at h
  · next hne =>
    cases hadd : U64.checkedAdd s.revision 1 with
    | none =>
      rw [hadd] at h
      cases h
    | some =>
      rw [hadd] at h
      obtain rfl := Except.ok.inj h
      have hsucc := U64.checkedAdd_eq_some hadd
      exact ⟨rfl, rfl, fun _ => hsucc, fun hg hd => absurd (hsame hg hd) hne⟩
  · next heq =>
    obtain rfl := Except.ok.inj h
    obtain rfl := not_not.mp heq
    exact ⟨rfl, rfl, fun hne => absurd rfl (hne.elim id fun hd => absurd rfl hd), fun _ _ => rfl⟩

structure Prepares (h : SemanticHost) (d : SemanticDelta) (p : PreparedDelta) : Prop where
  valid : d.Valid
  acyclic : (h.state.stage d).next.dependencies.Acyclic
  missing : (h.state.evolved d).missing d = none
  owner : p.owner = h.owner
  base : p.base = h.state.revision
  delta : p.delta = d
  ground : p.next.ground = (h.state.evolved d).ground
  dependencies : p.next.dependencies = (h.state.stage d).next.dependencies
  revision : Succeeds h.state p.next
  affected : p.affected = h.state.affected (h.state.stage d)

theorem prepareDelta_eq_ok (hok : h.prepareDelta d = .ok p) :
    Prepares h d p := by
  obtain ⟨bs, hencode, hok⟩ := bind_eq_ok.mp hok
  simp only [refuse_eq_ok, Bool.not_eq_true', Bool.not_eq_false] at hok
  obtain ⟨hacyclic, hok⟩ := hok
  cases hmissing : (h.state.evolved d).missing d with
  | some =>
    rw [evolved] at hmissing
    rw [hmissing] at hok
    cases hok
  | none =>
    have hmissing' := hmissing
    rw [evolved] at hmissing'
    rw [hmissing'] at hok
    obtain ⟨next, hnext, hok⟩ := bind_eq_ok.mp hok
    obtain rfl := Except.ok.inj hok
    obtain ⟨hground, hdeps, hrev⟩ := nextRevision_eq_ok evolved_revision hnext
    exact ⟨(SemanticDelta.encode_eq_ok.mp hencode).1, acyclic_iff.mp hacyclic, hmissing, rfl, rfl,
      rfl, hground, hdeps, hrev, rfl⟩

theorem applyDelta_eq_ok {h' rev aff} (hok : h.applyDelta d = (.ok (rev, aff), h')) :
    ∃ p, h.prepareDelta d = .ok p ∧ h' = ⟨p.next, h.owner⟩ ∧ rev = p.next.revision ∧
      aff = p.affected := by
  rw [applyDelta] at hok
  cases hp : h.prepareDelta d with
  | error =>
    rw [hp] at hok
    cases (Prod.mk.inj hok).1
  | ok p =>
    rw [hp] at hok
    dsimp only at hok
    rw [applyPrepared] at hok
    split at hok
    · cases (Prod.mk.inj hok).1
    · obtain ⟨hres, rfl⟩ := Prod.mk.inj hok
      obtain ⟨rfl, rfl⟩ := Prod.mk.inj (Except.ok.inj hres)
      exact ⟨p, rfl, rfl, rfl, rfl⟩

theorem Prepares.wellFormed (hp : Prepares h d p) (hs : h.state.WellFormed) :
    p.next.WellFormed := by
  obtain ⟨hacyclic, hnonempty, hheld⟩ := hs.evolved hp.acyclic hp.missing
  refine ⟨?_, ?_, ?_⟩
  · rw [hp.dependencies]
    exact hacyclic
  · rw [hp.dependencies]
    exact hnonempty
  · rw [hp.dependencies, hp.ground]
    exact hheld

theorem Prepares.unaffected (hp : Prepares h d p) (hk : k ∉ p.affected) :
    p.next.ground[k]? = h.state.ground[k]? ∧
      p.next.dependencies.inputs[k]? = h.state.dependencies.inputs[k]? := by
  rw [hp.affected] at hk
  rw [hp.ground, hp.dependencies]
  have hcell := evolved_unaffected hk
  exact ⟨congrArg Cell.value hcell, congrArg Cell.inputs hcell⟩

/-- What feeds an unaffected key, at any distance, is unaffected. -/
theorem Prepares.not_affected_of_feeds (hp : Prepares h d p) {j} (hk : k ∉ p.affected)
    (hjk : TransGen p.next.dependencies.Feeds j k) : j ∉ p.affected := by
  rw [hp.affected] at hk ⊢
  rw [hp.dependencies] at hjk
  induction hjk using TransGen.head_induction_on with
  | single hjk => exact fun hj => hk (affected_of_feeds hj hjk)
  | head hjm _ ih => exact fun hj => ih (affected_of_feeds hj hjm)

/-- Removing and evicting leaves only derivations whose inputs are as they were. -/
theorem no_stale_derivation {h h' : SemanticHost} {d : SemanticDelta} {rev : Revision}
    {aff : ExtTreeSet String} (hs : h.state.WellFormed)
    (hok : h.applyDelta d = (.ok (rev, aff), h')) :
    (∀ k, k ∉ aff → h'.state.ground[k]? = h.state.ground[k]? ∧
        h'.state.dependencies.inputs[k]? = h.state.dependencies.inputs[k]?) ∧
      (∀ k, k ∈ aff ↔ ∃ c, h.state.Changes d c ∧ (ReflTransGen h.state.dependencies.Feeds c k ∨
        ReflTransGen h'.state.dependencies.Feeds c k)) ∧
      ∀ k v, h'.state.ground[k]? = some v → k ∉ d.upserts →
        h.state.ground[k]? = some v ∧ h'.state.dependencies.inputs[k]? =
          h.state.dependencies.inputs[k]? ∧
          ∀ j, TransGen h'.state.dependencies.Feeds j k → j ∉ d.removals ∧
            h'.state.ground[j]? = h.state.ground[j]? ∧
            h'.state.dependencies.inputs[j]? = h.state.dependencies.inputs[j]? := by
  obtain ⟨p, hprepare, rfl, rfl, rfl⟩ := applyDelta_eq_ok hok
  have hp := prepareDelta_eq_ok hprepare
  refine ⟨fun k => hp.unaffected, fun k => ?_, fun k v hv hu => ?_⟩
  · rw [hp.affected, mem_affected, hp.dependencies]
    simp [mem_changed hp.valid]
  have hk : k ∉ p.affected := by
    rw [hp.affected]
    refine not_affected_of_held ?_ hu
    rw [← hp.ground, mem_iff_isSome_getElem?, hv]
    rfl
  refine ⟨(hp.unaffected hk).1 ▸ hv, (hp.unaffected hk).2, fun j hjk => ?_⟩
  have hj := hp.not_affected_of_feeds hk hjk
  refine ⟨fun hrem => ?_, hp.unaffected hj⟩
  -- the input is held, so removing it would have been a change
  have hheld : k ∈ p.next.ground := by
    rw [mem_iff_isSome_getElem?, hv]
    rfl
  have hjheld := (hp.wellFormed hs).held_of_path hheld hjk
  rw [mem_congr (hp.unaffected hj).1] at hjheld
  have hchange : h.state.Changes d j := .inl ⟨hrem, .inl hjheld⟩
  rw [hp.affected] at hj
  exact not_changed_of_not_affected hj ((mem_changed hp.valid).mpr hchange)

theorem SemanticState.wellFormed_empty : empty.WellFormed := by
  refine ⟨?_, ?_, ?_⟩
  · intro k hk
    obtain ⟨j, -, hjk⟩ := TransGen.tail'_iff.mp hk
    exact ExtTreeSet.not_mem_empty hjk
  · intro k ins hk
    cases hk
  · intro k hk
    exact absurd hk ExtTreeMap.not_mem_empty

theorem applyDelta_wellFormed (hs : h.state.WellFormed) (d : SemanticDelta) :
    (h.applyDelta d).2.state.WellFormed := by
  rw [applyDelta]
  cases hp : h.prepareDelta d with
  | error => exact hs
  | ok =>
    dsimp only
    rw [applyPrepared]
    split
    · exact hs
    · exact (prepareDelta_eq_ok hp).wellFormed hs

theorem applyDelta_of_isOk (hok : (h.applyDelta d).1.isOk = true) :
    ∃ rev aff, h.applyDelta d = (.ok (rev, aff), (h.applyDelta d).2) := by
  cases hres : h.applyDelta d with
  | mk res =>
    rw [hres] at hok
    cases res with
    | error => cases hok
    | ok r => exact ⟨r.1, r.2, rfl⟩

/-- A source, a derivation of it and a value apart. -/
def chain : SemanticDelta where
  upserts :=
    (((∅ : ExtTreeMap String SemanticValue).insert "source" (.text "a")).insert "derived"
    (.text "b")).insert "apart" (.text "c")
  dependencies := (∅ : ExtTreeMap String (ExtTreeSet String)).insert "derived"
    ((∅ : ExtTreeSet String).insert "source")

def chained : SemanticHost := ((new 0).applyDelta chain).2

def newSource : SemanticDelta where
  upserts := (∅ : ExtTreeMap String SemanticValue).insert "source" (.text "z")

/-- A new value of the source evicts the derivation and not the value apart. -/
theorem no_stale_derivation_newSource :
    ∃ rev aff h', chained.applyDelta newSource = (.ok (rev, aff), h') ∧
      h'.state.ground["derived"]? = none ∧ h'.state.ground["apart"]? = some (.text "c") ∧
      h'.state.dependencies.inputs["apart"]? = chained.state.dependencies.inputs["apart"]? := by
  have hformed : chained.state.WellFormed := applyDelta_wellFormed wellFormed_empty chain
  have happlied : (chained.applyDelta newSource).1.isOk = true := by decide +kernel
  obtain ⟨rev, aff, hok⟩ := applyDelta_of_isOk happlied
  have hapart : (chained.applyDelta newSource).2.state.ground["apart"]? = some (.text "c") := by
    decide +kernel
  exact ⟨rev, aff, _, hok, by decide +kernel, hapart,
    ((no_stale_derivation hformed hok).2.2 "apart" _ hapart (by decide +kernel)).2.1⟩

end Ptr.Semdb
