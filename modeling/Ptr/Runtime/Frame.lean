import Ptr.Runtime.Apply

/-!
# What applying a record changes

`apply_committed` works on the history and on the authority of the manifests.  The
ledger, the mark of an uncertain commit and the rest of the process stay as they
are, whether it succeeds or not (`SameProcess`).  Within the history, `Applies` says
what a record does to each projection, and that nothing but the materialized state
counts the records.
-/

namespace Ptr.Runtime

open Lib Ledger Semdb

variable {ρ τ : Type} {R : Rules ρ τ}

structure SameProcess (r r' : PtrRuntime ρ τ) : Prop where
  base : r'.base = r.base
  ledger : r'.ledger = r.ledger
  uncertain : r'.uncertain = r.uncertain
  detached : r'.detached = r.detached
  boundary : r'.boundary = r.boundary
  permissions : r'.permissions = r.permissions

theorem sameProcess_refl (r : PtrRuntime ρ τ) : SameProcess r r := ⟨rfl, rfl, rfl, rfl, rfl, rfl⟩

namespace PtrRuntime

variable (r : PtrRuntime ρ τ)

theorem sameProcess_applyEvent (c : CommittedEvent) (semantic : Option PreparedDelta) :
    SameProcess r (r.applyEvent R c semantic).2 := by
  rw [applyEvent]
  split
  case h_1 =>
    cases semantic with
    | none => exact sameProcess_refl r
    | some =>
      rw [applySemantic]
      split
      all_goals exact ⟨rfl, rfl, rfl, rfl, rfl, rfl⟩
  -- each record ends in the runtime of before, or with another history or authority
  all_goals
    simp only [applyScope, applyTier, applyExpert, applyHypothesis, applyAdmission,
      applyManifestRevocation, applyPolicyActivation, applyPolicyRevocation, applyProtectedState]
    repeat' split
    all_goals exact ⟨rfl, rfl, rfl, rfl, rfl, rfl⟩

theorem sameProcess_applyCommitted (c : CommittedEvent) (semantic : Option PreparedDelta) :
    SameProcess r (r.applyCommitted R c semantic).2 := by
  have h := sameProcess_applyEvent (R := R) r c semantic
  rw [applyCommitted]
  split
  · next hevent => rw [hevent] at h; exact h
  · next hevent =>
      rw [hevent] at h; exact ⟨h.base, h.ledger, h.uncertain, h.detached, h.boundary, h.permissions⟩

end PtrRuntime

/-! ### The projections -/

def Obligations.apply (o : Obligations) (c : CommittedEvent) : Obligations :=
  match c.event with
  | .effectAttempted a => o.recordAttempt (unsettledBy a c.index)
  | .effectSettled attempt response _ => o.settle attempt (.applied response)
  | .effectReconciled attempt applied _ => o.settle attempt (PtrRuntime.reconciled applied)
  | _ => o

def PodHeads.apply (heads : PodHeads) : LedgerEvent → PodHeads
  | .podHeadAdvanced a => heads.insert (a.project, a.identity) a.new
  | _ => heads

def Taint.applyEvent (t : Taint) : LedgerEvent → Taint
  | .kvTaintCommitted subjects change => t.apply subjects change
  | _ => t

/-- What a record does to a history, before its materialized values. -/
structure Applies (R : Rules ρ τ) (r : PtrRuntime ρ τ) (c : CommittedEvent)
    (semantic : Option PreparedDelta) (h : History ρ τ) : Prop where
  obligations : h.obligations = r.history.obligations.apply c
  scopes : h.scopes = r.history.scopes ∨
    ∃ e, c.event = .scopeLifecycle e ∧ r.history.scopes.applyCommitted e = .ok h.scopes
  lifecycle : h.lifecycle = r.history.lifecycle.apply c.event ∨
    r.validateLifecycleEvent R c.event ≠ .ok ()
  lastApplied : h.state.lastApplied = r.history.state.lastApplied
  semdb : h.semdb = r.history.semdb ∨
    ∃ p result, semantic = some p ∧ r.history.semdb.applyPrepared p = (.ok result, h.semdb)
  podHeads : h.podHeads = r.history.podHeads.apply c.event
  taint : h.taint = r.history.taint.applyEvent c.event
  values : h.state.values = r.history.state.values ∨
    ∃ plan, R.expertPlan r.history.lifecycle r.history.experts c.event = .ok plan ∧
      h.state = r.history.state.set plan.entries

namespace PtrRuntime

theorem applies_applyEvent (r : PtrRuntime ρ τ) (c : CommittedEvent)
    (semantic : Option PreparedDelta) :
    Applies R r c semantic (r.applyEvent R c semantic).2.history := by
  obtain ⟨index, e⟩ := c
  cases e with
  | semanticDeltaCommitted =>
    cases semantic with
    | none => exact ⟨rfl, .inl rfl, .inl rfl, rfl, .inl rfl, rfl, rfl, .inl rfl⟩
    | some p =>
      simp only [applyEvent, applySemantic]
      split
      · exact ⟨rfl, .inl rfl, .inl rfl, rfl, .inl rfl, rfl, rfl, .inl rfl⟩
      · next result semdb happly =>
        exact ⟨rfl, .inl rfl, .inl rfl, rfl, .inr ⟨p, result, rfl, happly⟩, rfl, rfl, .inl rfl⟩
  | scopeLifecycle e =>
    simp only [applyEvent, applyScope]
    split
    · exact ⟨rfl, .inl rfl, .inl rfl, rfl, .inl rfl, rfl, rfl, .inl rfl⟩
    next hscopes =>
    split
    all_goals exact ⟨rfl, .inr ⟨e, rfl, hscopes⟩, .inl rfl, rfl, .inl rfl, rfl, rfl, .inl rfl⟩
  | podHypothesisCommitted | executionManifestAdmitted | executionManifestRevoked
  | policyBundleActivated | policyBundleRevoked | protectedStateCommitted | tierBackendLifecycle
  | tierObjectCommitted | tierReplicaLifecycle =>
    -- the authority of the manifests or another projection changes
    simp only [applyEvent, applyHypothesis, applyAdmission, applyManifestRevocation,
      applyPolicyActivation, applyPolicyRevocation, applyProtectedState, applyTier]
    repeat' split
    all_goals exact ⟨rfl, .inl rfl, .inl rfl, rfl, .inl rfl, rfl, rfl, .inl rfl⟩
  | expertStructuralCommitted | expertFenceCommitted | inputInvalidated | expertAuthorityChanged =>
    simp only [applyEvent, applyExpert]
    split
    · next hplan =>
      exact ⟨rfl, .inl rfl, .inr (by simp [validateLifecycleEvent, validateExpert, hplan]), rfl,
        .inl rfl, rfl, rfl, .inl rfl⟩
    · next plan hplan =>
        exact ⟨rfl, .inl rfl, .inl rfl, rfl, .inl rfl, rfl, rfl, .inr ⟨plan, hplan, rfl⟩⟩
  | _ => exact ⟨rfl, .inl rfl, .inl rfl, rfl, .inl rfl, rfl, rfl, .inl rfl⟩

/-- A record that was applied is counted; one that failed is not. -/
theorem applies_applyCommitted (r : PtrRuntime ρ τ) (c : CommittedEvent)
    (semantic : Option PreparedDelta) :
    ∃ h, Applies R r c semantic h ∧
      ((∃ e, (r.applyCommitted R c semantic).1 = .error e) ∧
        (r.applyCommitted R c semantic).2.history = h ∨
        (r.applyCommitted R c semantic).2.history =
          { h with state := h.state.apply R.expertEntries c }) := by
  refine ⟨_, applies_applyEvent r c semantic, ?_⟩
  rw [applyCommitted]
  split
  · next e next hevent =>
    rw [hevent]
    exact .inl ⟨⟨e, rfl⟩, rfl⟩
  · next next hevent =>
    rw [hevent]
    exact .inr rfl

theorem lifecycle_applyCommitted {r : PtrRuntime ρ τ} {c} (semantic : Option PreparedDelta)
    (hvalid : r.validateLifecycleEvent R c.event = .ok ()) :
    (r.applyCommitted R c semantic).2.history.lifecycle = r.history.lifecycle.apply c.event := by
  obtain ⟨h, happlies, hresult⟩ := applies_applyCommitted r c semantic
  rcases happlies.lifecycle with hlife | hinvalid
  · rcases hresult with ⟨-, hhistory⟩ | hhistory
    · rw [hhistory, hlife]
    · rw [hhistory, ← hlife]
  · exact absurd hvalid hinvalid

theorem obligations_applyCommitted (r : PtrRuntime ρ τ) (c : CommittedEvent)
    (semantic : Option PreparedDelta) :
    (r.applyCommitted R c semantic).2.history.obligations = r.history.obligations.apply c := by
  obtain ⟨h, happlies, ⟨-, hhistory⟩ | hhistory⟩ := applies_applyCommitted r c semantic
  · rw [hhistory, happlies.obligations]
  · rw [hhistory, ← happlies.obligations]

/-- A record changes the scopes only as one of theirs. -/
theorem scopes_applyCommitted (r : PtrRuntime ρ τ) (c : CommittedEvent)
    (semantic : Option PreparedDelta) :
    (r.applyCommitted R c semantic).2.history.scopes = r.history.scopes ∨
      ∃ e, c.event = .scopeLifecycle e ∧
      r.history.scopes.applyCommitted e = .ok (r.applyCommitted R c semantic).2.history.scopes := by
  obtain ⟨h, happlies, ⟨-, hhistory⟩ | hhistory⟩ := applies_applyCommitted r c semantic
  · rw [hhistory]
    exact happlies.scopes
  · rw [hhistory]
    exact happlies.scopes

end PtrRuntime

end Ptr.Runtime
