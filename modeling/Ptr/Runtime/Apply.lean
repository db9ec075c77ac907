import Ptr.Runtime.History

/-!
# Validating and applying a record

A runtime holds its history, the authority of its manifests, which operations
outside the ledger can change too, and the state of this process.  A record is
validated against the runtime as it is, then appended, then applied.

`apply_committed` can fail after it changed something, so it returns the runtime it
leaves in either case.
-/

namespace Ptr.Runtime

open Lib Ledger Semdb

structure ActionBoundaryConfig where
  requireCapability : Bool
  requireLiveGeneration : Bool
  requireCurrentRevision : Bool

structure PermissionSet where
  capabilities : Std.ExtTreeSet CapabilityId
  allowMutation : Bool
  allowExternal : Bool
  allowIrreversible : Bool

structure PtrRuntime (ρ τ : Type) where
  history : History ρ τ
  manifestAuthority : ManifestAuthorityRegistry
  policyAuthorityReady : Bool
  base : CommitIndex
  ledger : List CommittedEvent
  /-- The outcome of the last append is not known. -/
  uncertain : Bool
  detached : Std.ExtTreeSet CommitIndex
  recoveryRequired : Std.ExtTreeSet ScopeId
  boundary : ActionBoundaryConfig
  permissions : PermissionSet

variable {ρ τ : Type}

namespace PtrRuntime

variable (R : Rules ρ τ)

def new (owner : Nat) (boundary : ActionBoundaryConfig) : PtrRuntime ρ τ where
  history := .empty R owner
  manifestAuthority := .empty
  policyAuthorityReady := false
  base := 0
  ledger := []
  uncertain := false
  detached := ∅
  recoveryRequired := ∅
  boundary := boundary
  permissions := ⟨∅, false, false, false⟩

variable (r : PtrRuntime ρ τ)

def revision : Revision := r.history.semdb.state.revision

def isFenced : Bool := r.uncertain || !r.history.obligations.unsettled.isEmpty

def committedEvents : List CommittedEvent := r.ledger

/-! ### Validation -/

def validatePolicyActivation (revision : Revision) (keyId : String) (bundleDigest : Digest)
    (bundle : Bytes) : Except RuntimeError Unit :=
  if revision = 0 ∨ keyId.isEmpty ∨ bundleDigest = Digest.zero then
    .error (.invalidConfig "invalid policy activation")
  else match SignedPolicyBundle.decodeForLedger bundle with
    | .error e => .error (.invalidPolicy "invalid policy bundle" e)
    | .ok decoded =>
      if decoded.revision ≠ revision ∨ decoded.keyId ≠ keyId ∨
          decoded.payloadDigest ≠ bundleDigest then
        .error (.invalidConfig "policy activation binding mismatch")
      else (r.manifestAuthority.activatePolicy revision bundleDigest).1.mapError
        (.invalidAuthority "policy revision conflict")

def validatePolicyRevocation (revision : Revision) (bundleDigest : Digest)
    (reason : String) : Except RuntimeError Unit :=
  if revision = 0 ∨ bundleDigest = Digest.zero ∨ reason.isEmpty then
    .error (.invalidConfig "invalid policy revocation")
  else if r.manifestAuthority.policyDigest revision ≠ some bundleDigest then
    .error (.invalidConfig "policy revocation binding mismatch")
  else .ok ()

def validateManifestRevocation (digest : Digest) (generation : Generation)
    (revision : Revision) : Except RuntimeError Unit :=
  if digest = Digest.zero ∨ generation = 0 then
    .error (.invalidConfig "invalid execution manifest revocation")
  else if revision ≠ r.revision then .error (.scopeRevisionMismatch r.revision revision)
  else .ok ()

def validateScope (e : ScopeLifecycleEvent) : Except RuntimeError Unit :=
  if e.revision ≠ r.revision then .error (.scopeRevisionMismatch r.revision e.revision)
  else (r.history.scopes.validateCommitted e).mapError .scope

def validateTier (r : PtrRuntime ρ τ) (e : LedgerEvent) : Except RuntimeError Unit :=
  match R.tierApply r.history.tierJournal e with
  | .ok _ => .ok ()
  | .error error => .error (.invalidTier "invalid tier journal event" error)

def validateExpert (r : PtrRuntime ρ τ) (e : LedgerEvent) : Except RuntimeError Unit :=
  match R.expertPlan r.history.lifecycle r.history.experts e with
  | .ok _ => R.expertCheck r.history.lifecycle r.history.experts e
  | .error error => .error error

def validateLifecycleEvent (r : PtrRuntime ρ τ) (e : LedgerEvent) : Except RuntimeError Unit :=
  match e with
  | .capsuleCommitted project capsule generation =>
    r.history.lifecycle.validateCapsule project capsule generation
  | .capsuleSuperseded capsule old new => r.history.lifecycle.validateSupersession capsule old new
  | .hardConstraintCommitted key generation =>
    r.history.lifecycle.validateActivation (constraintTarget key) generation
  | .procedurePromoted id generation =>
    r.history.lifecycle.validateActivation (procedureTarget id) generation
  | .snapshotCommitted _ covers =>
    if r.history.state.lastApplied < covers then
      .error (.snapshotBeyondHistory covers r.history.state.lastApplied)
    else .ok ()
  | .effectAttempted a => r.history.obligations.validateAttempt a
  | .effectSettled attempt response digest =>
    r.history.obligations.validateSettled R.sha attempt response digest
  | .effectReconciled attempt _ _ =>
    if !r.history.obligations.isUnsettled attempt then .error (.unknownEffectAttempt attempt)
    else .ok ()
  | .scopeLifecycle e => r.validateScope e
  | .protectedStateCommitted s => validateProtectedState s
  | .meshTunnelLifecycle e =>
    e.validate.mapError fun reason => .invalidConfig ("invalid mesh event: " ++ reason)
  | .executionManifestAdmitted a => validateAdmission R.sha a
  | .executionManifestRevoked digest generation revision =>
    r.validateManifestRevocation digest generation revision
  | .podEvidenceCommitted e => validateEvidence R e
  | .podOutputAdmitted o => validateOutput o
  | .podHypothesisCommitted h => validateHypothesis R.sha h
  | .policyBundleActivated revision keyId bundleDigest bundle =>
    r.validatePolicyActivation revision keyId bundleDigest bundle
  | .policyBundleRevoked revision bundleDigest reason =>
    r.validatePolicyRevocation revision bundleDigest reason
  | .sessionRevoked sessionId reason =>
    if sessionId.isEmpty ∨ reason.isEmpty then .error (.invalidConfig "invalid session revocation")
    else .ok ()
  | .tierBackendLifecycle _ | .tierObjectCommitted .. | .tierReplicaLifecycle _ =>
    r.validateTier R e
  | .expertStructuralCommitted _ | .expertFenceCommitted _ | .inputInvalidated _
  | .expertAuthorityChanged _ =>
    r.validateExpert R e
  | .kvTaintCommitted subjects change => r.history.taint.validate subjects change
  | .egressRefused _ => (checkEncodable e).mapError fun io => .ledger io.message
  | .podHeadAdvanced a => r.history.podHeads.validateAdvance r.history.lifecycle a
  -- A tombstone may come before the activation it stops.
  | .semanticDeltaCommitted .. | .revoked .. | .procedureRevoked .. | .verifierAttested .. => .ok ()

def prepareSemanticEvent (r : PtrRuntime ρ τ) (index : Option CommitIndex) :
    LedgerEvent → Except RuntimeError (Option PreparedDelta)
  | .semanticDeltaCommitted base revision encoded origin => do
    let prepared ← prepareSemanticRecord R.sha r.history.state.values r.history.semdb index base
      revision encoded origin
    .ok (some prepared)
  | _ => .ok none

/-! ### Application -/

abbrev Applied (ρ τ : Type) := Except RuntimeError Unit × PtrRuntime ρ τ

def update (f : History ρ τ → History ρ τ) : PtrRuntime ρ τ := { r with history := f r.history }

def applySemantic : Option PreparedDelta → Applied ρ τ
  | none => (.error (.semantic .invalidEncoding), r)
  | some p =>
    match r.history.semdb.applyPrepared p with
    | (.error e, _) => (.error (.semantic e), r)
    | (.ok _, semdb) => (.ok (), r.update fun h => { h with semdb := semdb })

def applyScope (e : ScopeLifecycleEvent) : Applied ρ τ :=
  match r.history.scopes.applyCommitted e with
  | .error error => (.error (.scope error), r)
  | .ok scopes =>
    -- Only a release ends a pending recovery; a record taken before changes nothing.
    let ends := stateFromKind e.kind = .released ∧ e ∉ r.history.scopes.committed
    let r := r.update fun h => { h with scopes := scopes }
    (.ok (), if ends then { r with recoveryRequired := r.recoveryRequired.erase e.scopeId } else r)

def applyTier (r : PtrRuntime ρ τ) (e : LedgerEvent) : Applied ρ τ :=
  match R.tierApply r.history.tierJournal e with
  | .error error => (.error (.invalidTier "invalid committed tier event" error), r)
  | .ok journal => (.ok (), r.update fun h => { h with tierJournal := journal })

/-- Everything fallible of an expert record happens before the first change. -/
def applyExpert (r : PtrRuntime ρ τ) (e : LedgerEvent) : Applied ρ τ :=
  match R.expertPlan r.history.lifecycle r.history.experts e with
  | .error error => (.error error, r)
  | .ok plan => (.ok (), r.update fun h => { h with
      experts := plan.registry
      lifecycle := h.lifecycle.apply e
      state := h.state.set plan.entries })

/-- The hypothesis is stored before the duplicate is refused. -/
def applyHypothesis (p : PodHypothesis) : Applied ρ τ :=
  if !isProbabilityBits p.confidenceBits then
    (.error (.podOutputAdmission "invalid hypothesis confidence"), r)
  else
    let next := r.update fun h =>
      { h with hypotheses := h.hypotheses.insert p.branchId (.ofRecord p) }
    if p.branchId ∈ r.history.hypotheses then
      (.error (.podOutputAdmission "duplicate hypothesis branch"), next)
    else (.ok (), next)

/-- The manifest is admitted before its authority is observed. -/
def applyAdmission (r : PtrRuntime ρ τ) (a : ManifestAdmission) : Applied ρ τ :=
  match ExecutionManifest.decodeCanonical R.sha a.manifest with
  | .error _ => (.error (.invalidConfig "invalid execution manifest"), r)
  | .ok m =>
    match r.history.executionManifests.admitReplayed R.sha m r.revision with
    | (.error _, _) => (.error (.invalidConfig "manifest registry conflict"), r)
    | (.ok (), g) =>
      let r := r.update fun h => { h with executionManifests := g }
      match r.manifestAuthority.observeManifest m with
      | (.error _, authority) =>
        (.error (.invalidConfig "manifest authority conflict"),
          { r with manifestAuthority := authority })
      | (.ok (), authority) => (.ok (), { r with manifestAuthority := authority })

def applyManifestRevocation (digest : Digest) : Applied ρ τ :=
  match r.history.executionManifests.revoke digest with
  | (.error _, _) => (.error (.invalidConfig "unknown manifest revocation"), r)
  | (.ok (), g) => (.ok (), r.update fun h => { h with executionManifests := g })

def applyPolicyActivation (revision : Revision) (bundleDigest : Digest) : Applied ρ τ :=
  match r.manifestAuthority.activatePolicy revision bundleDigest with
  | (.error e, _) => (.error (.invalidAuthority "policy activation conflict" e), r)
  | (.ok (), authority) =>
    (.ok (), { r with manifestAuthority := authority, policyAuthorityReady := true })

def applyPolicyRevocation (revision : Revision) : Applied ρ τ :=
  match r.manifestAuthority.revokePolicy revision with
  | (.error e, _) => (.error (.invalidAuthority "policy revocation conflict" e), r)
  | (.ok (), authority) => (.ok (), { r with
      manifestAuthority := authority
      policyAuthorityReady := authority.currentPolicyRevision ≠ 0 })

def applyProtectedState (s : ProtectedState) : Applied ρ τ :=
  if s.domain ≠ 3 then (.ok (), r)
  else match r.manifestAuthority.registerProtectedSnapshot s.revision s.plaintextDigest with
    | (.error e, _) => (.error (.invalidAuthority "protected snapshot authority conflict" e), r)
    | (.ok (), authority) => (.ok (), { r with manifestAuthority := authority })

def reconciled (applied : Bool) : Settlement := if applied then .applied none else .notApplied

def applyEvent (r : PtrRuntime ρ τ) (c : CommittedEvent) (semantic : Option PreparedDelta) :
    Applied ρ τ :=
  match c.event with
  | .semanticDeltaCommitted .. => r.applySemantic semantic
  | .capsuleCommitted .. | .capsuleSuperseded .. | .revoked .. | .hardConstraintCommitted ..
  | .procedurePromoted .. | .procedureRevoked .. =>
    (.ok (), r.update fun h => { h with lifecycle := h.lifecycle.apply c.event })
  | .verifierAttested .. | .snapshotCommitted .. | .meshTunnelLifecycle _ | .podEvidenceCommitted _
  | .podOutputAdmitted _ | .egressRefused _ => (.ok (), r)
  | .effectAttempted a =>
    (.ok (), r.update fun h =>
      { h with obligations := h.obligations.recordAttempt (unsettledBy a c.index) })
  | .effectSettled attempt response _ =>
    (.ok (), r.update fun h =>
      { h with obligations := h.obligations.settle attempt (.applied response) })
  | .effectReconciled attempt applied _ =>
    (.ok (), r.update fun h =>
      { h with obligations := h.obligations.settle attempt (reconciled applied) })
  | .scopeLifecycle e => r.applyScope e
  | .kvTaintCommitted subjects change =>
    (.ok (), r.update fun h => { h with taint := h.taint.apply subjects change })
  | .expertStructuralCommitted _ | .expertFenceCommitted _ | .inputInvalidated _
  | .expertAuthorityChanged _ =>
    r.applyExpert R c.event
  | .tierBackendLifecycle _ | .tierObjectCommitted .. | .tierReplicaLifecycle _ =>
    r.applyTier R c.event
  | .podHypothesisCommitted p => r.applyHypothesis p
  | .executionManifestAdmitted a => r.applyAdmission R a
  | .executionManifestRevoked digest _ _ => r.applyManifestRevocation digest
  | .policyBundleActivated revision _ bundleDigest _ =>
    r.applyPolicyActivation revision bundleDigest
  | .policyBundleRevoked revision _ _ => r.applyPolicyRevocation revision
  | .sessionRevoked sessionId _ =>
    (.ok (), r.update fun h => { h with revokedSessions := h.revokedSessions.insert sessionId })
  | .protectedStateCommitted s => r.applyProtectedState s
  | .podHeadAdvanced a =>
    (.ok (), r.update fun h =>
      { h with podHeads := h.podHeads.insert (a.project, a.identity) a.new })

def applyCommitted (r : PtrRuntime ρ τ) (c : CommittedEvent) (semantic : Option PreparedDelta) :
    Applied ρ τ :=
  match r.applyEvent R c semantic with
  | (.error e, r) => (.error e, r)
  | (.ok (), r) => (.ok (), r.update fun h => { h with state := h.state.apply R.expertEntries c })

end PtrRuntime

end Ptr.Runtime
