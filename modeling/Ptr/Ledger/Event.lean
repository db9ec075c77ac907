import Ptr.Types

/-!
# Ledger events

The records of the journal.  A variant of the source with more than four fields
carries a structure of the same name, so that a function that reads one field
names it.
-/

namespace Ptr.Ledger

open Lib

/-! ### Semantic origins -/

/-- What admitted an attributed write: the level required, the weakest level the
verifiers reported, their names in grant order and their soft finding codes. -/
structure Attestation where
  required : VerificationLevel
  level : VerificationLevel
  verifiers : List String
  findings : List String
  deriving DecidableEq

inductive MergeAuthorityRecord
  | triage (policyVersion : String) (scoreBits : U32)
  | reviewed (reviewer : String)
  deriving DecidableEq

structure MergeRecord where
  branch : String
  author : String
  «seal» : Digest
  plan : Digest
  dependencies : Digest
  rebased : Std.ExtTreeSet String
  verification : Attestation
  authority : MergeAuthorityRecord
  deriving DecidableEq

inductive SemanticOrigin
  | legacy
  | request (request : String)
  | podOutput (request pod : String) (level : VerificationLevel)
  | podCandidate (request pod : String) (outputDigest : Digest) (level : VerificationLevel)
  | host (principal : String) (verification : Attestation)
  | merge (merge : MergeRecord)
  deriving DecidableEq

/-! ### Expert records -/

inductive ExpertOpKind
  | birth | merge | split | freeze | reactivate | prune | retire
  deriving DecidableEq

inductive ExpertFenceAction
  | fence | readmit | escalate | retire
  deriving DecidableEq

inductive ExpertFenceCause
  | inputRevoked | authorityQuarantine
  deriving DecidableEq

inductive ExpertFenceResume
  | serving | frozen
  deriving DecidableEq

structure ExpertFenceRevocation where
  subject : String
  generation : Generation
  deriving DecidableEq

structure ExpertFenceEvidence where
  gateEpoch : U64
  requiredGateConfigDigest : Digest
  report : Bytes
  deriving DecidableEq

structure ExpertStructural where
  project : ProjectId
  opKind : ExpertOpKind
  proposalId : Digest
  operationId : Digest
  evidenceDigest : Digest
  record : Bytes
  deriving DecidableEq

structure ExpertFence where
  project : ProjectId
  pod : PodId
  action : ExpertFenceAction
  cause : ExpertFenceCause
  resume : ExpertFenceResume
  generation : Generation
  expectedStateVersion : U64
  epoch : U64
  revocation : Option ExpertFenceRevocation
  evidence : Option ExpertFenceEvidence
  deriving DecidableEq

inductive KvTaintSubjectKind
  | action | derivation | content | podOutput | request
  deriving DecidableEq

inductive KvTaintChange
  | record (reportDigest recipeDigest : Digest)
  | clear (recipeDigest recomputeDigest : Digest)
  deriving DecidableEq

inductive InputInvalidationKind
  | revoked
  | superseded (oldGeneration newGeneration : Generation) (newDigest replacementRef : Digest)
  deriving DecidableEq

structure InputInvalidation where
  input : String
  generation : Generation
  bindingDigest : Digest
  kind : InputInvalidationKind
  fenceCount : U32
  fenceDigest : Digest
  deriving DecidableEq

inductive ExpertAuthorityKind
  | gateConfig | evaluator
  deriving DecidableEq

inductive ExpertAuthorityClass
  | revoke | tighteningRotation | nonTightening
  deriving DecidableEq

def ExpertAuthorityClass.fencesEarlierEvidence : ExpertAuthorityClass → Bool
  | .revoke | .tighteningRotation => true
  | .nonTightening => false

structure ExpertAuthorityChange where
  kind : ExpertAuthorityKind
  idDigest : Digest
  epoch : U64
  «class» : ExpertAuthorityClass
  fenceCount : U32
  fenceDigest : Digest
  deriving DecidableEq

/-! ### Effects, pods and the rest -/

structure EffectAttempt where
  key : Option String
  project : ProjectId
  principal : String
  target : String
  operation : String
  capability : CapabilityId
  effect : Effect
  generation : Generation
  revision : Revision
  verification : VerificationLevel
  actionDigest : Digest
  deriving DecidableEq

structure ProtectedState where
  domain : UInt8
  logicalId : String
  generation : Generation
  revision : Revision
  plaintextDigest : Digest
  ciphertextDigest : Digest
  anchorDigest : Digest
  deriving DecidableEq

structure ManifestAdmission where
  manifestDigest : Digest
  generation : Generation
  revision : Revision
  policyRevision : Revision
  manifest : Bytes
  deriving DecidableEq

structure TierBackend where
  backendId : String
  tier : UInt8
  state : UInt8
  revision : Revision
  eventDigest : Digest
  deriving DecidableEq

structure TierReplica where
  rootDigest : Digest
  backendId : String
  tier : UInt8
  state : UInt8
  generation : Generation
  revision : Revision
  eventDigest : Digest
  deriving DecidableEq

structure PodEvidence where
  sessionId : SessionId
  traceId : TraceId
  manifestDigest : Digest
  artifactDigest : Digest
  generation : Generation
  revision : Revision
  bundleDigest : Digest
  bundle : Bytes
  deriving DecidableEq

structure PodOutput where
  requestId : RequestId
  sessionId : SessionId
  scopeId : ScopeId
  podId : PodId
  manifestDigest : Digest
  artifactDigest : Digest
  generation : Generation
  revision : Revision
  outputKind : UInt8
  outputType : TypeId
  outputDigest : Digest
  verification : Attestation
  deriving DecidableEq

structure PodHypothesis where
  requestId : RequestId
  sessionId : SessionId
  scopeId : ScopeId
  branchId : String
  podId : PodId
  manifestDigest : Digest
  artifactDigest : Digest
  generation : Generation
  revision : Revision
  outputType : TypeId
  outputDigest : Digest
  payload : Bytes
  provenance : List (String × Option String)
  dependencies : List Digest
  confidenceBits : U32
  latencyMillis : U64
  verification : Attestation
  deriving DecidableEq

inductive EgressRefusalSource
  | pod (source : PodRevisionAddress)
  | overflow
  deriving DecidableEq

structure EgressRefusal where
  traceId : TraceId
  source : EgressRefusalSource
  target : String
  count : U32
  saturated : Bool
  reason : EgressRefusalReason
  deriving DecidableEq

structure PodHeadAdvance where
  project : ProjectId
  identity : PodIdentity
  old : Option PodRevisionAddress
  new : PodRevisionAddress
  deriving DecidableEq

inductive LedgerEvent
  | semanticDeltaCommitted (baseRevision revision : Revision) (encodedDelta : Bytes)
      (origin : SemanticOrigin)
  | capsuleCommitted (project : ProjectId) (capsule : CapsuleId) (generation : Generation)
  | capsuleSuperseded (capsule : CapsuleId) (old new : Generation)
  | revoked (subject : String) (generation : Generation)
  | hardConstraintCommitted (key : String) (generation : Generation)
  | verifierAttested (subject : String) (passed : Bool)
  | procedurePromoted (id : String) (generation : Generation)
  | procedureRevoked (id : String) (generation : Generation)
  | snapshotCommitted (revision : U64) (covers : CommitIndex)
  | effectAttempted (attempt : EffectAttempt)
  | effectSettled (attempt : CommitIndex) (response : Option Bytes) (responseDigest : Digest)
  | effectReconciled (attempt : CommitIndex) (applied : Bool) (evidence : String)
  | scopeLifecycle (event : ScopeLifecycleEvent)
  | protectedStateCommitted (state : ProtectedState)
  | meshTunnelLifecycle (event : MeshTunnelLifecycleEvent)
  | executionManifestAdmitted (admission : ManifestAdmission)
  | executionManifestRevoked (manifestDigest : Digest) (generation : Generation)
      (revision : Revision)
  | policyBundleActivated (revision : Revision) (keyId : String) (bundleDigest : Digest)
      (bundle : Bytes)
  | policyBundleRevoked (revision : Revision) (bundleDigest : Digest) (reason : String)
  | sessionRevoked (sessionId : SessionId) (reason : String)
  | tierBackendLifecycle (backend : TierBackend)
  | tierObjectCommitted (rootDigest : Digest) (generation : Generation) (revision : Revision)
      (manifest : Bytes)
  | tierReplicaLifecycle (replica : TierReplica)
  | podEvidenceCommitted (evidence : PodEvidence)
  | podOutputAdmitted (output : PodOutput)
  | podHypothesisCommitted (hypothesis : PodHypothesis)
  | expertStructuralCommitted (structural : ExpertStructural)
  | expertFenceCommitted (fence : ExpertFence)
  | kvTaintCommitted (subjects : List (KvTaintSubjectKind × Digest)) (change : KvTaintChange)
  | inputInvalidated (invalidation : InputInvalidation)
  | expertAuthorityChanged (change : ExpertAuthorityChange)
  | egressRefused (refusal : EgressRefusal)
  | podHeadAdvanced (advance : PodHeadAdvance)
  deriving DecidableEq

structure CommittedEvent where
  index : CommitIndex
  event : LedgerEvent
  deriving DecidableEq

end Ptr.Ledger
