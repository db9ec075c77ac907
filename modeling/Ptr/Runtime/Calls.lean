import Ptr.Runtime.Effects

/-!
# The calls of a runtime

`Call` lists what a host can ask of a runtime, and `step` what the runtime is
afterwards, with the executor calls made on the way.  What a caller brings along
(the verdict of a verifier, the answer of an executor, the lineage that its stores
confirm, the signature of a policy bundle) is an argument of the call.

The operations on scopes, pod evidence, tiers, meshes and pod heads are checks in
front of `commit`; they are covered by `Call.commit`, which takes every event.
-/

namespace Ptr.Runtime

open Lib Ledger Semdb

variable {ρ τ : Type}

/-! ### The digest of a snapshot -/

def putLongBytes (bs : Bytes) : Bytes := leBytes 8 bs.length ++ bs

def snapshotValue : SemanticValue → Bytes
  | .text s => 0 :: putLongText s
  | .payload p => 1 :: (putLongText p.typeId ++ putLongText p.source ++ putLongBytes p.bytes)

def snapshotDigest (sha : Bytes → Digest) (s : SemanticState) : Digest :=
  sha (utf8 "PTR-SEMDB-SNAPSHOT-V1" ++ [0] ++ putU64 s.revision ++ leBytes 8 s.ground.size ++
    s.ground.toList.flatMap fun p => putLongText p.1 ++ snapshotValue p.2)

/-! ### Manifests, policies and sessions -/

/-- `validate_and_build`; the caller's stores answer with `lineage`, and so does the
authority of the strict variants. -/
def validateAndBuild (sha : Bytes → Digest) (m : ExecutionManifest)
    (lineage : Except RuntimeManifestError Unit) (revision : Revision) :
    Except RuntimeManifestError ValidatedExecutionManifest := do
  (m.validate sha).mapError fun _ => .invalidManifest
  if m.policyRevision = 0 then throw .policyRevisionMissing
  if m.snapshotRevision ≠ revision then
    throw (.snapshotRevisionMismatch revision m.snapshotRevision)
  lineage
  .ok (m.validatedAt revision)

namespace PtrRuntime

variable (R : Rules ρ τ) (r : PtrRuntime ρ τ)

/-- `admit_execution_manifest`: what the authority will be is computed before the
record and written over it afterwards. -/
def admitExecutionManifest (m : ExecutionManifest)
    (lineage : Except RuntimeManifestError Unit) :
    Except RuntimeManifestError ValidatedExecutionManifest × PtrRuntime ρ τ :=
  match validateAndBuild R.sha m lineage r.revision with
  | .error e => (.error e, r)
  | .ok validated =>
    match m.encodeCanonical R.sha with
    | .error _ => (.error .invalidManifest, r)
    | .ok bytes =>
      match r.manifestAuthority.observeManifest m with
      | (.error e, _) => (.error e, r)
      | (.ok (), projection) =>
        match r.commit R (.executionManifestAdmitted
          ⟨m.manifestDigest, m.generation, r.revision, m.policyRevision, bytes⟩) with
        | (.error _, r) => (.error .invalidManifest, r)
        | (.ok _, r) => (.ok validated, { r with manifestAuthority := projection })

def revokeExecutionManifest (digest : Digest) :
    Except RuntimeManifestError Unit × PtrRuntime ρ τ :=
  if r.history.executionManifests.isRevoked digest then (.ok (), r)
  else match r.history.executionManifests.resolve digest with
    | .error e => (.error e, r)
    | .ok current =>
      match r.commit R
          (.executionManifestRevoked digest current.manifest.generation r.revision) with
      | (.error _, r) => (.error (.unknownManifestDigest digest), r)
      | (.ok _, r) => (.ok (), r)

/-- `activate_policy_bundle`, with the answer of `verify` for the trusted keys. -/
def activatePolicyBundle (b : SignedPolicyBundle)
    (verified : Except PolicyError Unit) : Outcome ρ τ Unit :=
  match verified with
  | .error e => (.error (.invalidPolicy "policy verification failed" e), r)
  | .ok () =>
    match r.manifestAuthority.activatePolicy b.revision b.payloadDigest with
    | (.error e, _) => (.error (.invalidAuthority "policy activation failed" e), r)
    | (.ok (), projection) =>
      match r.commit R
          (.policyBundleActivated b.revision b.keyId b.payloadDigest b.encodeForLedger) with
      | (.error e, r) => (.error e, r)
      | (.ok _, r) =>
        (.ok (), { r with manifestAuthority := projection, policyAuthorityReady := true })

def revokePolicyRevision (revision : Revision) (reason : String) :
    Outcome ρ τ Unit :=
  if r.manifestAuthority.isPolicyRevoked revision then (.ok (), r)
  else match r.manifestAuthority.policyDigest revision with
    | none => (.error (.invalidConfig "unknown policy revision"), r)
    | some digest =>
      match r.manifestAuthority.revokePolicy revision with
      | (.error e, _) => (.error (.invalidAuthority "policy revocation failed" e), r)
      | (.ok (), projection) =>
        match r.commit R (.policyBundleRevoked revision digest reason) with
        | (.error e, r) => (.error e, r)
        | (.ok _, r) => (.ok (), { r with manifestAuthority := projection })

def revokeIdentitySession (session : SessionId) (reason : String) :
    Outcome ρ τ Unit :=
  if session.isEmpty then (.error (.invalidConfig "empty session id"), r)
  else if session ∈ r.history.revokedSessions then (.ok (), r)
  else if reason.isEmpty then (.error (.invalidConfig "empty session revoke reason"), r)
  else match r.commit R (.sessionRevoked session reason) with
    | (.error e, r) => (.error e, r)
    | (.ok _, r) =>
      (.ok (), r.update fun h => { h with revokedSessions := h.revokedSessions.insert session })

/-- `admit_identity_context`, with the answer of `is_valid_at`. -/
def admitIdentityContext (session : SessionId) (issuer subject : String) (valid : Bool) :
    Outcome ρ τ PrincipalId :=
  if session ∈ r.history.revokedSessions then
    (.error (.invalidConfig "identity session revoked"), r)
  else if !valid then
    (.error (.invalidAuthority "identity admission failed" (.principalNotAdmitted subject)), r)
  else
    let principal := issuer ++ ":" ++ subject
    match r.manifestAuthority.admitPrincipal principal with
    | (.error e, authority) =>
      (.error (.invalidAuthority "identity admission failed" e),
        { r with manifestAuthority := authority })
    | (.ok (), authority) => (.ok principal, { r with manifestAuthority := authority })

def refreshSnapshotAuthority : Outcome ρ τ (Revision × Digest) :=
  let digest := snapshotDigest R.sha r.history.semdb.state
  match r.manifestAuthority.registerSnapshot r.revision digest with
  | (.error e, authority) =>
    (.error (.invalidAuthority "snapshot authority failed" e),
      { r with manifestAuthority := authority })
  | (.ok (), authority) => (.ok (r.revision, digest), { r with manifestAuthority := authority })

def registerProtectedSnapshotAuthority (revision : Revision) (digest : Digest) :
    Except RuntimeManifestError Unit × PtrRuntime ρ τ :=
  match r.manifestAuthority.registerProtectedSnapshot revision digest with
  | (.error e, _) => (.error e, r)
  | (.ok (), authority) => (.ok (), { r with manifestAuthority := authority })

def markScopeRecoveryRequired (id : ScopeId) : Except ScopeError Unit × PtrRuntime ρ τ :=
  match r.history.scopes.scopes[id]? with
  | none => (.error (.unknown id), r)
  | some scope =>
    if scope.state.isTerminal then (.error (.terminal scope.state), r)
    else (.ok (), { r with recoveryRequired := r.recoveryRequired.insert id })

end PtrRuntime

/-! ### Calls -/

/-- A method of the authority registry, called through the handle that
`manifest_authority_registry` gives out. -/
inductive AuthorityCall
  | admitPrincipal (principal : PrincipalId)
  | setPolicyRevision (revision : Revision)
  | activatePolicy (revision : Revision) (digest : Digest)
  | revokePolicy (revision : Revision)
  | registerSnapshot (revision : Revision) (digest : Digest)
  | registerProtectedSnapshot (revision : Revision) (digest : Digest)
  | observeManifest (m : ExecutionManifest)

def AuthorityCall.run (a : ManifestAuthorityRegistry) : AuthorityCall → ManifestAuthorityRegistry
  | .admitPrincipal principal => (a.admitPrincipal principal).2
  | .setPolicyRevision revision => a.setPolicyRevision revision
  | .activatePolicy revision digest => (a.activatePolicy revision digest).2
  | .revokePolicy revision => (a.revokePolicy revision).2
  | .registerSnapshot revision digest => (a.registerSnapshot revision digest).2
  | .registerProtectedSnapshot revision digest => (a.registerProtectedSnapshot revision digest).2
  | .observeManifest m => (a.observeManifest m).2

/-- A method of the manifest registry, called through the handle that
`execution_manifest_registry` gives out. -/
inductive RegistryCall
  | admitCandidate (candidate : ValidatedExecutionManifest)
  | revoke (digest : Digest)
  | admitReplayed (m : ExecutionManifest) (revision : Revision)

def RegistryCall.run (sha : Bytes → Digest) (g : ExecutionManifestRegistry) :
    RegistryCall → ExecutionManifestRegistry
  | .admitCandidate candidate => (g.admitCandidate candidate).2
  | .revoke digest => (g.revoke digest).2
  | .admitReplayed m revision => (g.admitReplayed sha m revision).2

/-- What a host asks.  `cleanup_scope`, `recover_scope`, `recover_uncertain_request` and
`admit_pod_output` decide which records to commit and are no calls of their own here: a
run covers them as the sequence of their commits. -/
inductive Call
  | commit (e : LedgerEvent)
  | admitStructural (e : LedgerEvent) (own : hasOwnPath e = true)
  | flushEgress (e : LedgerEvent) (own : hasOwnPath e = true)
  | ingress (origin : SemanticOrigin) (raw : bySomeone origin = false) (d : SemanticDelta)
  | judged (verdict : Except RuntimeError Unit) (origin : SemanticOrigin)
    (signed : bySomeone origin = true)
      (d : SemanticDelta)
  | execute (q : EffectRequest) (answer : Except String Bytes)
  | dispatch (q : EffectRequest) (answer : Except String Unit)
  | settleDetached (attempt : CommitIndex) (response : Bytes)
  | reconcile (attempt : CommitIndex) (applied : Bool) (evidence : String)
  | admitManifest (m : ExecutionManifest) (lineage : Except RuntimeManifestError Unit)
  | revokeManifest (digest : Digest)
  | activatePolicy (b : SignedPolicyBundle) (verified : Except PolicyError Unit)
  | revokePolicy (revision : Revision) (reason : String)
  | revokeSession (session : SessionId) (reason : String)
  | admitIdentity (session : SessionId) (issuer subject : String) (valid : Bool)
  | refreshSnapshot
  | registerProtected (revision : Revision) (digest : Digest)
  | markRecovery (id : ScopeId)
  | setPermissions (p : PermissionSet)
  | authority (call : AuthorityCall)
  | registry (call : RegistryCall)

/-- Whether a call goes around the runtime, through a shared registry. -/
def Call.isShared : Call → Bool
  | .authority _ | .registry _ => true
  | _ => false

namespace PtrRuntime

def step (R : Rules ρ τ) (r : PtrRuntime ρ τ) : Call → PtrRuntime ρ τ × List Invocation
  | .commit e => ((r.commit R e).2, [])
  | .admitStructural e _ => ((r.commitValidated R e).2, [])
  | .flushEgress e _ => ((r.commitGated R e).2, [])
  | .ingress origin _ d => ((r.applyIngress R origin d).2, [])
  | .judged verdict origin _ d => ((r.applyJudged R verdict origin d).2, [])
  | .execute q answer => (r.executePrepared R q answer).2
  | .dispatch q answer => (r.dispatchDetached R q answer).2
  | .settleDetached attempt response => ((r.settleDetached R attempt response).2, [])
  | .reconcile attempt applied evidence => ((r.reconcileEffect R attempt applied evidence).2, [])
  | .admitManifest m lineage => ((r.admitExecutionManifest R m lineage).2, [])
  | .revokeManifest digest => ((r.revokeExecutionManifest R digest).2, [])
  | .activatePolicy b verified => ((r.activatePolicyBundle R b verified).2, [])
  | .revokePolicy revision reason => ((r.revokePolicyRevision R revision reason).2, [])
  | .revokeSession session reason => ((r.revokeIdentitySession R session reason).2, [])
  | .admitIdentity session issuer subject valid =>
    ((r.admitIdentityContext session issuer subject valid).2, [])
  | .refreshSnapshot => ((r.refreshSnapshotAuthority R).2, [])
  | .registerProtected revision digest =>
    ((r.registerProtectedSnapshotAuthority revision digest).2, [])
  | .markRecovery id => ((r.markScopeRecoveryRequired id).2, [])
  | .setPermissions p => ({ r with permissions := p }, [])
  | .authority call => ({ r with manifestAuthority := call.run r.manifestAuthority }, [])
  | .registry call =>
    (r.update fun h => { h with executionManifests := call.run R.sha h.executionManifests }, [])

end PtrRuntime

end Ptr.Runtime
