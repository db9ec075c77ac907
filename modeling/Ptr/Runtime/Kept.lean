import Ptr.Runtime.Generations
import Ptr.Runtime.Mirrored

/-!
# What every runtime keeps

`Kept` collects what holds of every runtime, however it came to be (`lives_kept`):
what a snapshot asks for, and that the materialized state counts the records.  Each
part is kept by one more record; a restored runtime has the parts of the one that was
exported.

* `Lifecycle.PodTargets`: pod targets are live above generation 0 and under their own
  project, which is what `check_pod_targets` asks.
* `Kept.whole`: a runtime that keeps all of it can be exported and restored.
-/

namespace Ptr.Runtime

open Lib Ledger Semdb

variable {ρ τ : Type} {R : Rules ρ τ} {F : ExpertFormat ρ} {G : ExpertReader ρ}

/-! ### Pod targets -/

namespace Lifecycle

structure PodTargets (l : Lifecycle) : Prop where
  positive : ∀ (t : String) g, l.liveGenerations[t]? = some g →
    (podCapsuleProject t).isSome = true → g ≠ 0
  embedded : ∀ (t : String) project, l.capsuleProjects[t]? = some project →
    ∀ e ∈ podCapsuleProject t, e = project

variable {l : Lifecycle}

theorem PodTargets.check (h : l.PodTargets) : l.checkPodTargets = .ok () := by
  rw [checkPodTargets, if_neg, if_neg]
  · rw [List.any_eq_true]
    rintro ⟨⟨t, project⟩, hmem, hbad⟩
    rw [Std.ExtTreeMap.mem_toList_iff_getElem?_eq_some] at hmem
    obtain ⟨e, he, hne⟩ := (Option.any_eq_true _ _).mp hbad
    exact absurd (h.embedded t project hmem e he) (by simpa using hne)
  · rw [List.any_eq_true]
    rintro ⟨⟨t, g⟩, hmem, hbad⟩
    rw [Std.ExtTreeMap.mem_toList_iff_getElem?_eq_some] at hmem
    rw [Bool.and_eq_true, beq_iff_eq] at hbad
    exact h.positive t g hmem hbad.1 hbad.2

theorem podTargets_empty : PodTargets .empty where
  positive t g h := by simp [empty] at h
  embedded t project h := by simp [empty] at h

theorem PodTargets.setLiveGeneration (h : l.PodTargets) {target g}
    (hg : (podCapsuleProject target).isSome = true → g ≠ 0) :
    (l.setLiveGeneration target g).PodTargets := by
  refine ⟨?_, h.embedded⟩
  intro t g' hlive hpod
  have hlive : (l.setLiveGeneration target g).liveGeneration t = some g' := hlive
  rw [liveGeneration_set] at hlive
  split at hlive
  · next heq =>
    cases hlive
    exact hg (heq ▸ hpod)
  · exact h.positive t g' hlive hpod

theorem podCapsuleProject_constraint (key : String) :
    podCapsuleProject (constraintTarget key) = none := by
  simp [podCapsuleProject, constraintTarget]

theorem podCapsuleProject_procedure (id : String) :
    podCapsuleProject (procedureTarget id) = none := by
  simp [podCapsuleProject, procedureTarget]

/-- A capsule that is a pod target is committed by its project, above generation 0. -/
theorem checkPodCapsule_ok {project target g} (h : checkPodCapsule project target g = .ok ()) :
    ∀ e ∈ podCapsuleProject target, e = project ∧ g ≠ 0 := by
  intro e he
  rw [Option.mem_def] at he
  simp only [checkPodCapsule, he, refuse_eq_ok, not_not] at h
  exact ⟨h.1, h.2.1⟩

theorem PodTargets.apply (h : l.PodTargets) {e} (haccepts : l.Accepts e) :
    (l.apply e).PodTargets := by
  cases e with
  | capsuleCommitted project capsule g =>
    have hvalid : l.validateCapsule project capsule g = .ok () := haccepts
    rw [validateCapsule, refuse_eq_ok] at hvalid
    have hpod := checkPodCapsule_ok (bind_unit_eq_ok.mp hvalid.2).1
    have hcommitted :
        PodTargets { l with capsuleProjects := l.capsuleProjects.insert capsule project } := by
      refine ⟨h.positive, ?_⟩
      intro t p hp e he
      obtain ⟨rfl, rfl⟩ | ⟨-, hp⟩ := some_of_insert hp
      · exact (hpod e he).1
      · exact h.embedded t p hp e he
    refine hcommitted.setLiveGeneration ?_
    intro hsome
    obtain ⟨e, he⟩ := Option.isSome_iff_exists.mp hsome
    exact (hpod e he).2
  | capsuleSuperseded capsule old new =>
    have hvalid : l.validateSupersession capsule old new = .ok () := haccepts
    rw [validateSupersession, refuse_eq_ok, not_or, not_or, not_le] at hvalid
    refine h.setLiveGeneration ?_
    rintro - rfl
    exact absurd hvalid.1.2.2 (Nat.not_lt_zero _)
  | hardConstraintCommitted =>
    refine h.setLiveGeneration ?_
    rw [podCapsuleProject_constraint]
    rintro ⟨⟩
  | procedurePromoted =>
    refine h.setLiveGeneration ?_
    rw [podCapsuleProject_procedure]
    rintro ⟨⟩
  | inputInvalidated =>
    rw [Lifecycle.apply]
    split
    · exact ⟨h.positive, h.embedded⟩
    · exact h
  | _ => exact ⟨h.positive, h.embedded⟩

end Lifecycle

/-! ### Attempts -/

namespace Obligations

def Placed (o : Obligations) : Prop :=
  ∀ (i : CommitIndex) u, o.unsettled[i]? = some u → u.attempt = i

theorem placed_empty : Placed .empty := by
  intro i u h
  simp [empty] at h

theorem Placed.settle {o : Obligations} (h : o.Placed) (attempt : CommitIndex) (s : Settlement) :
    (o.settle attempt s).Placed := by
  rw [Obligations.settle]
  split
  · exact h
  intro i u hu
  exact h i u (some_of_erase hu).2

theorem Placed.apply {o : Obligations} (h : o.Placed) (c : CommittedEvent) :
    (o.apply c).Placed := by
  obtain ⟨index, e⟩ := c
  cases e with
  | effectAttempted =>
    intro i u hu
    obtain ⟨heq, rfl⟩ | ⟨-, hu⟩ := some_of_insert hu
    · exact heq
    · exact h i u hu
  | effectSettled | effectReconciled => exact h.settle _ _
  | _ => exact h

end Obligations

/-! ### Scopes -/

theorem lastRevision_applyCommitted {g g' : ScopeRegistry} {e} (h : g.applyCommitted e = .ok g') :
    g'.lastRevision = g.lastRevision ∨ g'.lastRevision = some e.revision := by
  rcases ScopeRegistry.applyCommitted_cases h with rfl | ⟨-, rfl⟩ | ⟨s, -, rfl⟩
  · exact .inl rfl
  · exact .inr rfl
  · exact .inr rfl

theorem ScopeRegistry.Formed.carried {g : ScopeRegistry} (h : g.Formed) : g.carried.Formed where
  ids := h.ids
  leased := h.leased
  shapes := h.shapes
  flags := h.flags
  ranked := h.ranked
  revision := h.revision
  spent e he := by cases he

theorem ScopesAccounted.carried {g} (h : ScopesAccounted g) : ScopesAccounted g.carried :=
  ⟨h.none, h.bytes, h.revision⟩

/-! ### The semantic state -/

theorem revision_le_of_succeeds {s next} (h : Succeeds s next) : s.revision ≤ next.revision := by
  by_cases hsame : next.ground = s.ground ∧ next.dependencies = s.dependencies
  · rw [h.same hsame.1 hsame.2]
  · have hnext := h.changed (not_and_or.mp hsame)
    exact Fin.le_def.mpr (by omega)

namespace PtrRuntime

variable {r r' : PtrRuntime ρ τ} {c : CommittedEvent} {log : List CommittedEvent}
  {semantic : Option PreparedDelta}
  {next : History ρ τ}

structure Sound (h : History ρ τ) : Prop where
  targets : h.lifecycle.PodTargets
  attempts : h.obligations.Placed
  formed : h.scopes.Formed
  accounted : ScopesAccounted h.scopes
  revision : ∀ revision ∈ h.scopes.lastRevision, revision ≤ h.semdb.state.revision
  semantic : h.semdb.state.WellFormed

structure Kept (r : PtrRuntime ρ τ) : Prop where
  synced : r.Synced
  mirrors : Mirrors r.history
  sound : Sound r.history

theorem Kept.whole (h : r.Kept) : r.Whole where
  merges := h.mirrors.merges
  targets := h.sound.targets.check
  attempts := h.sound.attempts
  formed := h.sound.formed
  accounted := h.sound.accounted
  revision := h.sound.revision
  semantic := h.sound.semantic
  heads := h.mirrors.heads
  taint := h.mirrors.taint
  room := h.mirrors.room

theorem kept_new (R : Rules ρ τ) (owner : Nat) (boundary : ActionBoundaryConfig) :
    (new R owner boundary).Kept where
  synced _ := rfl
  mirrors := mirrors_empty R owner
  sound := {
    targets := Lifecycle.podTargets_empty
    attempts := Obligations.placed_empty
    formed := ScopeRegistry.formed_empty
    accounted := scopesAccounted_empty
    revision := fun _ h => by cases h
    semantic := SemanticState.wellFormed_empty }

theorem Kept.untouched (h : r.Kept) (hsame : Untouched r r') : r'.Kept := by
  obtain ⟨hbase, hledger, hcertain, g, s, hhistory⟩ := hsame
  obtain ⟨hsynced, hmirrors, hsound⟩ := h
  refine ⟨?_, ?_, ?_⟩
  · intro hc
    rw [hhistory, hbase, hledger]
    exact hsynced (hcertain hc)
  · rw [hhistory]
    exact ⟨hmirrors.merges, hmirrors.heads, hmirrors.taint, hmirrors.room⟩
  · rw [hhistory]
    exact ⟨hsound.targets, hsound.attempts, hsound.formed, hsound.accounted, hsound.revision,
      hsound.semantic⟩

theorem semantic_applies (hreadied : r.Readied R c.event semantic)
    (happlies : Applies R r c semantic next) (h : r.history.semdb.state.WellFormed) :
    next.semdb.state.WellFormed ∧ r.revision ≤ next.semdb.state.revision := by
  rcases happlies.semdb with hsame | ⟨p, result, rfl, happly⟩
  · rw [hsame]
    exact ⟨h, le_refl _⟩
  generalize c.event = e at hreadied
  cases hreadied with
  | change decode prepared =>
    have hprepares := prepareDelta_eq_ok prepared
    rw [SemanticHost.applyPrepared] at happly
    split at happly
    · cases happly
    · obtain ⟨-, hnext⟩ := Prod.mk.inj happly
      rw [← hnext]
      exact ⟨hprepares.wellFormed h, revision_le_of_succeeds hprepares.revision⟩

theorem scopes_applies (happlies : Applies R r c semantic next)
    (hvalid : r.validateLifecycleEvent R c.event = .ok ()) (h : Sound r.history) :
    next.scopes.Formed ∧ ScopesAccounted next.scopes ∧
      ∀ revision ∈ next.scopes.lastRevision, revision ≤ r.revision := by
  rcases happlies.scopes with hsame | ⟨e, he, hok⟩
  · rw [hsame]
    exact ⟨h.formed, h.accounted, h.revision⟩
  refine ⟨h.formed.apply hok, scopesAccounted_apply h.accounted hok, ?_⟩
  rcases lastRevision_applyCommitted hok with hlast | hlast
  · rw [hlast]
    exact h.revision
  rw [he] at hvalid
  have hscope : r.validateScope e = .ok () := hvalid
  rw [validateScope, refuse_eq_ok, not_not] at hscope
  rw [hlast, hscope.1]
  rintro revision ⟨⟩
  exact le_refl _

theorem sound_applies (hreadied : r.Readied R c.event semantic)
    (happlies : Applies R r c semantic next) (hvalid : r.validateLifecycleEvent R c.event = .ok ())
    (h : Sound r.history) : Sound next := by
  obtain ⟨hwell, hle⟩ := semantic_applies hreadied happlies h.semantic
  obtain ⟨hformed, haccounted, hlast⟩ := scopes_applies happlies hvalid h
  refine ⟨?_, ?_, hformed, haccounted, fun revision hrevision =>
    le_trans (hlast revision hrevision) hle, hwell⟩
  · rcases happlies.lifecycle with hlife | hinvalid
    · rw [hlife]
      exact h.targets.apply (accepts_of_valid hvalid)
    · exact absurd hvalid hinvalid
  · rw [happlies.obligations]
    exact h.attempts.apply c

theorem Takes.kept (htakes : r.Takes R c r') (h : r.Kept) : r'.Kept := by
  obtain ⟨semantic, next, hreadied, happlies, hresult⟩ := htakes.applies h.synced
  have hnext := sound_applies hreadied happlies htakes.valid h.sound
  refine ⟨htakes.synced h.synced, htakes.mirrors h.synced h.mirrors, ?_⟩
  rcases hresult with ⟨-, -, hhistory⟩ | hhistory
  · rw [hhistory]
    exact hnext
  · rw [hhistory]
    exact ⟨hnext.targets, hnext.attempts, hnext.formed, hnext.accounted, hnext.revision,
      hnext.semantic⟩

theorem Kept.restored (h : r.Kept) (R : Rules ρ τ) (owner : Nat) (boundary : ActionBoundaryConfig)
    (experts : ρ) : (r.restored R owner boundary experts).Kept where
  synced _ := rfl
  mirrors := ⟨h.mirrors.merges, h.mirrors.heads, h.mirrors.taint, h.mirrors.room⟩
  sound :=
    ⟨h.sound.targets, h.sound.attempts, h.sound.formed.carried, h.sound.accounted.carried,
    h.sound.revision, h.sound.semantic⟩

theorem restored_of_export {s owner boundary} (h : r.Kept)
    (hexport : r.exportCompactedSnapshot R F = .ok s)
    (hok : restoredAt R G owner boundary s.bytes s.anchor = .ok r') :
    ∃ experts, r' = r.restored R owner boundary experts := by
  rw [restoredAt_export h.whole hexport] at hok
  obtain ⟨experts, -, rfl⟩ := map_eq_ok.mp hok
  exact ⟨experts, rfl⟩

theorem lives_kept (h : Lives R F G log r) : r.Kept := by
  refine lives_invariant (P := fun _ r => r.Kept) ?_ ?_ ?_ ?_ h
  · intro log r c r' hr htakes
    exact htakes.kept hr
  · exact fun owner boundary => kept_new R owner boundary
  · intro log r r' hr hsame
    exact hr.untouched hsame
  · intro log r s owner boundary r' hr hexport hok
    obtain ⟨experts, rfl⟩ := restored_of_export hr hexport hok
    exact hr.restored R owner boundary experts

end PtrRuntime

end Ptr.Runtime
