import Ptr.Ledger.Bounds

/-!
# The event codec

`encodeEvent` writes the payload of a record and `decodeEvent` reads it back.
Each kind of record has a writer and a reader of its fields, in the order of the
source.
-/

namespace Ptr.Ledger

open Lib Reader

/-! ### The cursor -/

abbrev Cursor := Reader IoError

namespace Cursor

abbrev u8 : Cursor UInt8 := Reader.u8 truncated
abbrev u32 : Cursor U32 := Reader.u32 truncated
abbrev u64 : Cursor U64 := Reader.u64 truncated
abbrev u128 : Cursor U128 := Reader.u128 truncated
abbrev bytes : Cursor Bytes := Reader.bytes truncated
abbrev string : Cursor String := Reader.string truncated (invalid "invalid UTF-8 string")
abbrev digest : Cursor Digest := Digest.read truncated
abbrev option {α : Type} (r : Cursor α) : Cursor (Option α) :=
  Reader.option truncated presenceByte r

end Cursor

open Cursor

def effectFromCode : Cursor Effect :=
  effectCodes.read truncated fun c => invalid s!"unknown effect code {c}"

def verificationFromCode : Cursor VerificationLevel :=
  verificationCodes.read truncated fun c => invalid s!"unknown verification level code {c}"

def scopeKindFromCode : Cursor ScopeLifecycleKind :=
  scopeKindCodes.read truncated fun c => invalid s!"unknown scope lifecycle code {c}"

/-! ### Attestations and semantic origins -/

/-- The counts are bytes; `checkAttestation` bounds both lists before any
append. -/
def putAttestation (a : Attestation) : Bytes :=
  verificationCodes.code a.required :: verificationCodes.code a.level ::
    UInt8.ofNat a.verifiers.length :: (a.verifiers.flatMap putString ++
      UInt8.ofNat a.findings.length :: a.findings.flatMap putString)

def readAttestation : Cursor Attestation := do
  let required ← verificationFromCode
  check (checkAttestationRequirement required)
  let level ← verificationFromCode
  let count ← u8
  check (checkAttestationVerifierCount count.toNat)
  let verifiers ← replicate count.toNat string
  let count ← u8
  check (checkAttestationFindingCount count.toNat)
  let findings ← replicate count.toNat string
  pure ⟨required, level, verifiers, findings⟩

def putMergeAuthority : MergeAuthorityRecord → Bytes
  | .triage policyVersion scoreBits => 1 :: (putString policyVersion ++ putU32 scoreBits)
  | .reviewed reviewer => 2 :: putString reviewer

def readMergeAuthority : Cursor MergeAuthorityRecord := do
  let kind ← u8
  if kind = 1 then do
    let policyVersion ← string
    let scoreBits ← u32
    pure (.triage policyVersion scoreBits)
  else if kind = 2 then do
    let reviewer ← string
    pure (.reviewed reviewer)
  else fail (invalid s!"unknown merge authority {kind}")

/-- Strictly ascending keys, so that one set has one encoding. -/
def readRebased : Nat → Option String → Cursor (List String)
  | 0, _ => pure []
  | n + 1, previous => do
    let key ← string
    if previous.any (fun p => key ≤ p) then
      fail (invalid "PTR_LEDGER_REBASED_KEY_ORDER")
    else do
      let rest ← readRebased n (some key)
      pure (key :: rest)

def putMerge (m : MergeRecord) : Bytes :=
  putString m.branch ++ putString m.author ++ m.seal.bytes ++ m.plan.bytes ++
    m.dependencies.bytes ++ putCounted putString m.rebased.toList ++
    putAttestation m.verification ++
    putMergeAuthority m.authority

def readMerge : Cursor MergeRecord := do
  let branch ← string
  let author ← string
  let seal' ← digest
  let plan ← digest
  let dependencies ← digest
  let count ← u32
  check (checkRebasedKeyCount count.val)
  let rebased ← readRebased count.val none
  let verification ← readAttestation
  let authority ← readMergeAuthority
  pure ⟨branch, author, seal', plan, dependencies, Std.ExtTreeSet.ofList rebased, verification,
    authority⟩

/-- A legacy origin has nothing after the delta. -/
def putOrigin : SemanticOrigin → Bytes
  | .legacy => []
  | .request request => 1 :: putString request
  | .podOutput request pod level =>
    2 :: (putString request ++ putString pod ++ [verificationCodes.code level])
  | .podCandidate request pod outputDigest level =>
    5 :: (putString request ++ putString pod ++ outputDigest.bytes ++
      [verificationCodes.code level])
  | .host principal verification => 3 :: (putString principal ++ putAttestation verification)
  | .merge merge => 4 :: putMerge merge

def attributedOrigin : Cursor SemanticOrigin := do
  let kind ← u8
  if kind = 1 then do
    let request ← string
    pure (.request request)
  else if kind = 2 then do
    let request ← string
    let pod ← string
    let level ← verificationFromCode
    pure (.podOutput request pod level)
  else if kind = 5 then do
    let request ← string
    let pod ← string
    let outputDigest ← digest
    let level ← verificationFromCode
    pure (.podCandidate request pod outputDigest level)
  else if kind = 3 then do
    let principal ← string
    let verification ← readAttestation
    pure (.host principal verification)
  else if kind = 4 then do
    let merge ← readMerge
    pure (.merge merge)
  else fail (invalid s!"unknown semantic origin {kind}")

/-! ### Records with several fields -/

def putEffectAttempt (a : EffectAttempt) : Bytes :=
  putOption putString a.key ++ putString a.project ++ putString a.principal ++
    putString a.target ++ putString a.operation ++ putString a.capability ++
    effectCodes.code a.effect :: (putU64 a.generation ++ putU64 a.revision ++
      verificationCodes.code a.verification :: a.actionDigest.bytes)

def readEffectAttempt : Cursor EffectAttempt := do
  let key ← option string
  let project ← string
  let principal ← string
  let target ← string
  let operation ← string
  let capability ← string
  let effect ← effectFromCode
  let generation ← u64
  let revision ← u64
  let verification ← verificationFromCode
  let actionDigest ← digest
  pure ⟨key, project, principal, target, operation, capability, effect, generation, revision,
    verification, actionDigest⟩

def putLease (l : ScopeLeaseBinding) : Bytes :=
  putOption putString l.stateId ++ putOption putString l.podId ++
    putOption putU64 l.placementEpoch ++ putOption putU128 l.fencingToken ++
    putOption putU64 l.generation ++ putOption putString l.resourceLeaseId

def readLease : Cursor ScopeLeaseBinding := do
  let stateId ← option string
  let podId ← option string
  let placementEpoch ← option u64
  let fencingToken ← option u128
  let generation ← option u64
  let resourceLeaseId ← option string
  pure ⟨stateId, podId, placementEpoch, fencingToken, generation, resourceLeaseId⟩

def putScopeLifecycle (e : ScopeLifecycleEvent) : Bytes :=
  putString e.scopeId ++ putOption putString e.parentId ++ putString e.sessionId ++
    putString e.projectId ++ putU64 e.createdAt ++ putOption putU64 e.deadline ++
    scopeKindCodes.code e.kind :: (putOption (fun k => [scopeKindCodes.code k]) e.previousKind ++
      putLease e.lease ++ putU64 e.revision ++ putOption putString e.reason)

def readScopeLifecycle : Cursor ScopeLifecycleEvent := do
  let scopeId ← string
  let parentId ← option string
  let sessionId ← string
  let projectId ← string
  let createdAt ← u64
  let deadline ← option u64
  let kind ← scopeKindFromCode
  let previousKind ← option scopeKindFromCode
  let lease ← readLease
  let revision ← u64
  let reason ← option string
  pure ⟨scopeId, parentId, sessionId, projectId, createdAt, deadline, kind, previousKind, lease,
    revision, reason⟩

def putMeshEndpoint (e : MeshEndpointBinding) : Bytes :=
  putString e.networkId ++ putString e.peerId ++ meshRouteCodes.code e.route ::
    (putOption putString e.relayId ++ putU64 e.membershipGeneration ++
      putU64 e.membershipRevision)

def readMeshEndpoint : Cursor MeshEndpointBinding := do
  let networkId ← string
  let peerId ← string
  let route ← meshRouteCodes.read truncated fun c => invalid s!"invalid mesh route {c}"
  let relayId ← option string
  let membershipGeneration ← u64
  let membershipRevision ← u64
  let endpoint := ⟨networkId, peerId, route, relayId, membershipGeneration, membershipRevision⟩
  check (checkMeshEndpoint endpoint)
  pure endpoint

def putMeshTunnel (e : MeshTunnelLifecycleEvent) : Bytes :=
  putString e.networkId ++ putString e.peerId ++ putOption putString e.invitationId ++
    putOption putString e.tunnelId ++ putU64 e.generation ++ putU64 e.revision ++
    meshEventKindCodes.code e.kind :: (putOption putMeshEndpoint e.endpoint ++
      putU64 e.placementEpoch ++ putU128 e.fencingToken ++ e.eventDigest.bytes)

def readMeshTunnel : Cursor MeshTunnelLifecycleEvent := do
  let networkId ← string
  let peerId ← string
  let invitationId ← option string
  let tunnelId ← option string
  let generation ← u64
  let revision ← u64
  let kind ← meshEventKindCodes.read truncated fun c => invalid s!"invalid mesh event {c}"
  let endpoint ← option readMeshEndpoint
  let placementEpoch ← u64
  let fencingToken ← u128
  let eventDigest ← digest
  pure ⟨networkId, peerId, invitationId, tunnelId, generation, revision, kind, endpoint,
    placementEpoch, fencingToken, eventDigest⟩

def putProtectedState (s : ProtectedState) : Bytes :=
  s.domain :: (putString s.logicalId ++ putU64 s.generation ++ putU64 s.revision ++
    s.plaintextDigest.bytes ++ s.ciphertextDigest.bytes ++ s.anchorDigest.bytes)

def readProtectedState : Cursor ProtectedState := do
  let domain ← u8
  let logicalId ← string
  let generation ← u64
  let revision ← u64
  let plaintextDigest ← digest
  let ciphertextDigest ← digest
  let anchorDigest ← digest
  pure ⟨domain, logicalId, generation, revision, plaintextDigest, ciphertextDigest, anchorDigest⟩

def putManifestAdmission (m : ManifestAdmission) : Bytes :=
  m.manifestDigest.bytes ++ putU64 m.generation ++ putU64 m.revision ++
    putU64 m.policyRevision ++ putBytes m.manifest

def readManifestAdmission : Cursor ManifestAdmission := do
  let manifestDigest ← digest
  let generation ← u64
  let revision ← u64
  let policyRevision ← u64
  let manifest ← bytes
  pure ⟨manifestDigest, generation, revision, policyRevision, manifest⟩

def putTierBackend (b : TierBackend) : Bytes :=
  putString b.backendId ++ b.tier :: b.state :: (putU64 b.revision ++ b.eventDigest.bytes)

def readTierBackend : Cursor TierBackend := do
  let backendId ← string
  let tier ← u8
  let state ← u8
  let revision ← u64
  let eventDigest ← digest
  pure ⟨backendId, tier, state, revision, eventDigest⟩

def putTierReplica (r : TierReplica) : Bytes :=
  r.rootDigest.bytes ++ putString r.backendId ++ r.tier :: r.state ::
    (putU64 r.generation ++ putU64 r.revision ++ r.eventDigest.bytes)

def readTierReplica : Cursor TierReplica := do
  let rootDigest ← digest
  let backendId ← string
  let tier ← u8
  let state ← u8
  let generation ← u64
  let revision ← u64
  let eventDigest ← digest
  pure ⟨rootDigest, backendId, tier, state, generation, revision, eventDigest⟩

def putPodEvidence (e : PodEvidence) : Bytes :=
  putString e.sessionId ++ putString e.traceId ++ e.manifestDigest.bytes ++
    e.artifactDigest.bytes ++ putU64 e.generation ++ putU64 e.revision ++ e.bundleDigest.bytes ++
    putBytes e.bundle

def readPodEvidence : Cursor PodEvidence := do
  let sessionId ← string
  let traceId ← string
  let manifestDigest ← digest
  let artifactDigest ← digest
  let generation ← u64
  let revision ← u64
  let bundleDigest ← digest
  let bundle ← bytes
  pure ⟨sessionId, traceId, manifestDigest, artifactDigest, generation, revision, bundleDigest,
    bundle⟩

def putPodOutput (o : PodOutput) : Bytes :=
  putString o.requestId ++ putString o.sessionId ++ putString o.scopeId ++ putString o.podId ++
    o.manifestDigest.bytes ++ o.artifactDigest.bytes ++ putU64 o.generation ++
    putU64 o.revision ++ o.outputKind :: (putString o.outputType ++ o.outputDigest.bytes ++
      putAttestation o.verification)

def readPodOutput : Cursor PodOutput := do
  let requestId ← string
  let sessionId ← string
  let scopeId ← string
  let podId ← string
  let manifestDigest ← digest
  let artifactDigest ← digest
  let generation ← u64
  let revision ← u64
  let outputKind ← u8
  let outputType ← string
  let outputDigest ← digest
  let verification ← readAttestation
  pure ⟨requestId, sessionId, scopeId, podId, manifestDigest, artifactDigest, generation,
    revision, outputKind, outputType, outputDigest, verification⟩

def putProvenance (p : String × Option String) : Bytes := putString p.1 ++ putOption putString p.2

def readProvenance : Cursor (String × Option String) := do
  let source ← string
  let note ← option string
  pure (source, note)

def putPodHypothesis (h : PodHypothesis) : Bytes :=
  putString h.requestId ++ putString h.sessionId ++ putString h.scopeId ++ putString h.branchId ++
    putString h.podId ++ h.manifestDigest.bytes ++ h.artifactDigest.bytes ++
    (putU64 h.generation ++ putU64 h.revision ++ putString h.outputType ++ h.outputDigest.bytes ++
      putBytes h.payload ++ putCounted putProvenance h.provenance ++
      putCounted Digest.bytes h.dependencies ++
      (putU32 h.confidenceBits ++ putU64 h.latencyMillis ++ putAttestation h.verification))

def readPodHypothesis : Cursor PodHypothesis := do
  let requestId ← string
  let sessionId ← string
  let scopeId ← string
  let branchId ← string
  let podId ← string
  let manifestDigest ← digest
  let artifactDigest ← digest
  let generation ← u64
  let revision ← u64
  let outputType ← string
  let outputDigest ← digest
  let payload ← bytes
  let count ← u32
  check (checkHypothesisProvenanceCount count.val)
  let provenance ← replicate count.val readProvenance
  let dependencyCount ← u32
  check (checkHypothesisDependencyCount dependencyCount.val)
  let dependencies ← replicate dependencyCount.val digest
  let confidenceBits ← u32
  let latencyMillis ← u64
  let verification ← readAttestation
  pure ⟨requestId, sessionId, scopeId, branchId, podId, manifestDigest, artifactDigest, generation,
    revision, outputType, outputDigest, payload, provenance, dependencies, confidenceBits,
    latencyMillis, verification⟩

def putExpertStructural (s : ExpertStructural) : Bytes :=
  putString s.project ++ expertOpCodes.code s.opKind :: (s.proposalId.bytes ++
    s.operationId.bytes ++ s.evidenceDigest.bytes ++ putBytes s.record)

def readExpertStructural : Cursor ExpertStructural := do
  let project ← string
  let opKind ← expertOpCodes.read truncated fun c => invalid s!"unknown expert operation code {c}"
  let proposalId ← digest
  let operationId ← digest
  let evidenceDigest ← digest
  let record ← bytes
  check (checkExpertRecord record)
  pure ⟨project, opKind, proposalId, operationId, evidenceDigest, record⟩

def putFenceRevocation (r : ExpertFenceRevocation) : Bytes :=
  putString r.subject ++ putU64 r.generation

def readFenceRevocation : Cursor ExpertFenceRevocation := do
  let subject ← string
  let generation ← u64
  pure ⟨subject, generation⟩

def putFenceEvidence (e : ExpertFenceEvidence) : Bytes :=
  putU64 e.gateEpoch ++ e.requiredGateConfigDigest.bytes ++ putBytes e.report

def readFenceEvidence : Cursor ExpertFenceEvidence := do
  let gateEpoch ← u64
  let requiredGateConfigDigest ← digest
  let report ← bytes
  pure ⟨gateEpoch, requiredGateConfigDigest, report⟩

def putExpertFence (f : ExpertFence) : Bytes :=
  putString f.project ++ putString f.pod ++ expertFenceActionCodes.code f.action ::
    expertFenceCauseCodes.code f.cause :: expertFenceResumeCodes.code f.resume ::
    (putU64 f.generation ++ putU64 f.expectedStateVersion ++ putU64 f.epoch ++
      putOption putFenceRevocation f.revocation ++ putOption putFenceEvidence f.evidence)

def readExpertFence : Cursor ExpertFence := do
  let project ← string
  let pod ← string
  let action ← expertFenceActionCodes.read truncated fun c =>
    invalid s!"unknown expert fence action code {c}"
  let cause ← expertFenceCauseCodes.read truncated fun c =>
    invalid s!"unknown expert fence cause code {c}"
  let resume ← expertFenceResumeCodes.read truncated fun c =>
    invalid s!"unknown expert fence resume code {c}"
  let generation ← u64
  let expectedStateVersion ← u64
  let epoch ← u64
  let revocation ← option truncated
    (fun c => invalid s!"unknown expert fence revocation flag {c}") readFenceRevocation
  let evidence ← option truncated
    (fun c => invalid s!"unknown expert fence evidence flag {c}") readFenceEvidence
  let fence := ⟨project, pod, action, cause, resume, generation, expectedStateVersion, epoch,
    revocation, evidence⟩
  check (checkExpertFence fence)
  pure fence

def putTaintSubject (s : KvTaintSubjectKind × Digest) : Bytes :=
  kvTaintSubjectCodes.code s.1 :: s.2.bytes

def readTaintSubject : Cursor (KvTaintSubjectKind × Digest) := do
  let kind ← kvTaintSubjectCodes.read truncated fun c =>
    invalid s!"unknown kv taint subject code {c}"
  let digest ← digest
  pure (kind, digest)

def putTaintChange : KvTaintChange → Bytes
  | .record report recipe => 0 :: (report.bytes ++ recipe.bytes)
  | .clear recipe recompute => 1 :: (recipe.bytes ++ recompute.bytes)

def readTaintChange : Cursor KvTaintChange := do
  let code ← u8
  if code = 0 then do
    let report ← digest
    let recipe ← digest
    pure (.record report recipe)
  else if code = 1 then do
    let recipe ← digest
    let recompute ← digest
    pure (.clear recipe recompute)
  else fail (invalid s!"unknown kv taint change code {code}")

/-- The count saturates at one byte; `checkKvTaint` bounds it far below. -/
def putKvTaint (subjects : List (KvTaintSubjectKind × Digest)) (change : KvTaintChange) : Bytes :=
  UInt8.ofNat (min subjects.length 255) :: (subjects.flatMap putTaintSubject ++
    putTaintChange change)

def readKvTaint : Cursor LedgerEvent := do
  let count ← u8
  if count.toNat = 0 ∨ count.toNat > maxKvTaintSubjects then
    fail (invalid "PTR_LEDGER_KV_TAINT_SUBJECT_LIMIT")
  else do
    let subjects ← replicate count.toNat readTaintSubject
    let change ← readTaintChange
    check (checkKvTaint subjects change)
    pure (.kvTaintCommitted subjects change)

def putInvalidationKind : InputInvalidationKind → Bytes
  | .revoked => [0]
  | .superseded old new digest replacement =>
    1 :: (putU64 old ++ putU64 new ++ digest.bytes ++ replacement.bytes)

def readInvalidationKind : Cursor InputInvalidationKind := do
  let code ← u8
  if code = 0 then pure .revoked
  else if code = 1 then do
    let old ← u64
    let new ← u64
    let digest ← digest
    let replacement ← Cursor.digest
    pure (.superseded old new digest replacement)
  else fail (invalid s!"unknown input invalidation kind {code}")

def putInputInvalidation (i : InputInvalidation) : Bytes :=
  putString i.input ++ putU64 i.generation ++ i.bindingDigest.bytes ++
    putInvalidationKind i.kind ++ putU32 i.fenceCount ++ i.fenceDigest.bytes

def readInputInvalidation : Cursor InputInvalidation := do
  let input ← string
  let generation ← u64
  let bindingDigest ← digest
  let kind ← readInvalidationKind
  let fenceCount ← u32
  let fenceDigest ← digest
  let invalidation := ⟨input, generation, bindingDigest, kind, fenceCount, fenceDigest⟩
  check (checkInputInvalidated invalidation)
  pure invalidation

def putAuthorityChange (c : ExpertAuthorityChange) : Bytes :=
  expertAuthorityKindCodes.code c.kind :: (c.idDigest.bytes ++ putU64 c.epoch ++
    expertAuthorityClassCodes.code c.class :: (putU32 c.fenceCount ++ c.fenceDigest.bytes))

def readAuthorityChange : Cursor ExpertAuthorityChange := do
  let kind ← expertAuthorityKindCodes.read truncated fun c =>
    invalid s!"unknown expert authority kind {c}"
  let idDigest ← digest
  let epoch ← u64
  let class' ← expertAuthorityClassCodes.read truncated fun c =>
    invalid s!"unknown expert authority class {c}"
  let fenceCount ← u32
  let fenceDigest ← digest
  let change := ⟨kind, idDigest, epoch, class', fenceCount, fenceDigest⟩
  check (checkExpertAuthorityChanged change)
  pure change

def putRevisionAddress (a : PodRevisionAddress) : Bytes :=
  putString a.address.project ++ putString a.address.namespace ++ putString a.address.podId ++
    a.semanticRevision.bytes ++ putU64 a.generation

def readPodAddress : Cursor PodAddress := do
  let project ← string
  let namespace' ← string
  let podId ← string
  pure ⟨project, namespace', podId⟩

def readRevisionAddress : Cursor PodRevisionAddress := do
  let address ← readPodAddress
  check (checkPodAddress address)
  let semanticRevision ← digest
  let generation ← u64
  let revision := ⟨address, semanticRevision, generation⟩
  check (checkRevisionAddress revision)
  pure revision

def putEgressSource : EgressRefusalSource → Bytes
  | .pod source => 0 :: putRevisionAddress source
  | .overflow => [1]

def readEgressSource : Cursor EgressRefusalSource := do
  let tag ← u8
  if tag = 0 then do
    let address ← readPodAddress
    let semanticRevision ← digest
    let generation ← u64
    pure (.pod ⟨address, semanticRevision, generation⟩)
  else if tag = 1 then pure .overflow
  else fail (invalid s!"unknown egress refusal source tag {tag}")

def putEgressRefusal (r : EgressRefusal) : Bytes :=
  putString r.traceId ++ putEgressSource r.source ++ putString r.target ++ putU32 r.count ++
    putBool r.saturated ++ [egressReasonCodes.code r.reason]

def readEgressRefusal : Cursor EgressRefusal := do
  let traceId ← string
  let source ← readEgressSource
  let target ← string
  let count ← u32
  let saturated ← bool truncated fun c =>
    invalid s!"unknown egress refusal saturation flag {c}"
  let reason ← egressReasonCodes.read truncated fun c =>
    invalid s!"unknown egress refusal reason code {c}"
  let refusal := ⟨traceId, source, target, count, saturated, reason⟩
  check (checkEgressRefused refusal)
  pure refusal

def putPodHeadAdvance (a : PodHeadAdvance) : Bytes :=
  putString a.project ++ putString a.identity ++ putOption putRevisionAddress a.old ++
    putRevisionAddress a.new

def readPodHeadAdvance : Cursor PodHeadAdvance := do
  let project ← string
  let identity ← string
  let old ← option readRevisionAddress
  let new ← readRevisionAddress
  let advance := ⟨project, identity, old, new⟩
  check (checkPodHeadAdvanced advance)
  pure advance

/-! ### Events -/

def encodeEvent : LedgerEvent → Bytes
  | .semanticDeltaCommitted base revision delta origin =>
    -- a legacy origin keeps the tag and the bytes it had before origins existed
    (if origin = .legacy then 8 else 12) :: (putU64 base ++ putU64 revision ++ putBytes delta ++
      putOrigin origin)
  | .capsuleCommitted project capsule generation =>
    0 :: (putString project ++ putString capsule ++ putU64 generation)
  | .capsuleSuperseded capsule old new => 1 :: (putString capsule ++ putU64 old ++ putU64 new)
  | .revoked subject generation => 2 :: (putString subject ++ putU64 generation)
  | .hardConstraintCommitted key generation => 3 :: (putString key ++ putU64 generation)
  | .verifierAttested subject passed => 4 :: (putString subject ++ putBool passed)
  | .procedurePromoted id generation => 5 :: (putString id ++ putU64 generation)
  | .procedureRevoked id generation => 6 :: (putString id ++ putU64 generation)
  | .snapshotCommitted revision covers => 7 :: (putU64 revision ++ putU64 covers)
  | .effectAttempted attempt => 9 :: putEffectAttempt attempt
  | .effectSettled attempt response responseDigest =>
    10 :: (putU64 attempt ++ putOption putBytes response ++ responseDigest.bytes)
  | .effectReconciled attempt applied evidence =>
    11 :: (putU64 attempt ++ putBool applied ++ putString evidence)
  | .scopeLifecycle event => 13 :: putScopeLifecycle event
  | .protectedStateCommitted state => 14 :: putProtectedState state
  | .meshTunnelLifecycle event => 15 :: putMeshTunnel event
  | .executionManifestAdmitted admission => 16 :: putManifestAdmission admission
  | .executionManifestRevoked manifestDigest generation revision =>
    17 :: (manifestDigest.bytes ++ putU64 generation ++ putU64 revision)
  | .podEvidenceCommitted evidence => 18 :: putPodEvidence evidence
  | .podOutputAdmitted output => 19 :: putPodOutput output
  | .podHypothesisCommitted hypothesis => 20 :: putPodHypothesis hypothesis
  | .policyBundleActivated revision keyId bundleDigest bundle =>
    21 :: (putU64 revision ++ putString keyId ++ bundleDigest.bytes ++ putBytes bundle)
  | .policyBundleRevoked revision bundleDigest reason =>
    22 :: (putU64 revision ++ bundleDigest.bytes ++ putString reason)
  | .sessionRevoked sessionId reason => 23 :: (putString sessionId ++ putString reason)
  | .tierBackendLifecycle backend => 24 :: putTierBackend backend
  | .tierObjectCommitted rootDigest generation revision manifest =>
    25 :: (rootDigest.bytes ++ putU64 generation ++ putU64 revision ++ putBytes manifest)
  | .tierReplicaLifecycle replica => 26 :: putTierReplica replica
  | .expertStructuralCommitted structural => 27 :: putExpertStructural structural
  | .expertFenceCommitted fence => 28 :: putExpertFence fence
  | .kvTaintCommitted subjects change => 29 :: putKvTaint subjects change
  | .inputInvalidated invalidation => 30 :: putInputInvalidation invalidation
  | .expertAuthorityChanged change => 31 :: putAuthorityChange change
  | .egressRefused refusal => 37 :: putEgressRefusal refusal
  | .podHeadAdvanced advance => 38 :: putPodHeadAdvance advance

def readLegacyDelta : Cursor LedgerEvent := do
  let base ← u64
  let revision ← u64
  let delta ← bytes
  pure (.semanticDeltaCommitted base revision delta .legacy)

def readAttributedDelta : Cursor LedgerEvent := do
  let base ← u64
  let revision ← u64
  let delta ← bytes
  let origin ← attributedOrigin
  pure (.semanticDeltaCommitted base revision delta origin)

def readCapsuleCommitted : Cursor LedgerEvent := do
  let project ← string
  let capsule ← string
  let generation ← u64
  pure (.capsuleCommitted project capsule generation)

def readCapsuleSuperseded : Cursor LedgerEvent := do
  let capsule ← string
  let old ← u64
  let new ← u64
  pure (.capsuleSuperseded capsule old new)

def readNamed (event : String → Generation → LedgerEvent) : Cursor LedgerEvent := do
  let name ← string
  let generation ← u64
  pure (event name generation)

def readVerifierAttested : Cursor LedgerEvent := do
  let subject ← string
  let passed ← bool truncated fun b => invalid s!"invalid bool byte {b}"
  pure (.verifierAttested subject passed)

def readSnapshotCommitted : Cursor LedgerEvent := do
  let revision ← u64
  let covers ← u64
  pure (.snapshotCommitted revision covers)

def readEffectSettled : Cursor LedgerEvent := do
  let attempt ← u64
  let response ← option bytes
  let responseDigest ← digest
  pure (.effectSettled attempt response responseDigest)

def readEffectReconciled : Cursor LedgerEvent := do
  let attempt ← u64
  let applied ← bool truncated presenceByte
  let evidence ← string
  pure (.effectReconciled attempt applied evidence)

def readManifestRevoked : Cursor LedgerEvent := do
  let manifestDigest ← digest
  let generation ← u64
  let revision ← u64
  pure (.executionManifestRevoked manifestDigest generation revision)

def readPolicyActivated : Cursor LedgerEvent := do
  let revision ← u64
  let keyId ← string
  let bundleDigest ← digest
  let bundle ← bytes
  pure (.policyBundleActivated revision keyId bundleDigest bundle)

def readPolicyRevoked : Cursor LedgerEvent := do
  let revision ← u64
  let bundleDigest ← digest
  let reason ← string
  pure (.policyBundleRevoked revision bundleDigest reason)

def readSessionRevoked : Cursor LedgerEvent := do
  let sessionId ← string
  let reason ← string
  pure (.sessionRevoked sessionId reason)

def readTierObject : Cursor LedgerEvent := do
  let rootDigest ← digest
  let generation ← u64
  let revision ← u64
  let manifest ← bytes
  pure (.tierObjectCommitted rootDigest generation revision manifest)

def readFields : Nat → Cursor LedgerEvent
  | 8 => readLegacyDelta
  | 12 => readAttributedDelta
  | 0 => readCapsuleCommitted
  | 1 => readCapsuleSuperseded
  | 2 => readNamed .revoked
  | 3 => readNamed .hardConstraintCommitted
  | 4 => readVerifierAttested
  | 5 => readNamed .procedurePromoted
  | 6 => readNamed .procedureRevoked
  | 7 => readSnapshotCommitted
  | 9 => return .effectAttempted (← readEffectAttempt)
  | 10 => readEffectSettled
  | 11 => readEffectReconciled
  | 13 => return .scopeLifecycle (← readScopeLifecycle)
  | 14 => return .protectedStateCommitted (← readProtectedState)
  | 15 => return .meshTunnelLifecycle (← readMeshTunnel)
  | 16 => return .executionManifestAdmitted (← readManifestAdmission)
  | 17 => readManifestRevoked
  | 18 => return .podEvidenceCommitted (← readPodEvidence)
  | 19 => return .podOutputAdmitted (← readPodOutput)
  | 20 => return .podHypothesisCommitted (← readPodHypothesis)
  | 21 => readPolicyActivated
  | 22 => readPolicyRevoked
  | 23 => readSessionRevoked
  | 24 => return .tierBackendLifecycle (← readTierBackend)
  | 25 => readTierObject
  | 26 => return .tierReplicaLifecycle (← readTierReplica)
  | 27 => return .expertStructuralCommitted (← readExpertStructural)
  | 28 => return .expertFenceCommitted (← readExpertFence)
  | 29 => readKvTaint
  | 30 => return .inputInvalidated (← readInputInvalidation)
  | 31 => return .expertAuthorityChanged (← readAuthorityChange)
  | 37 => return .egressRefused (← readEgressRefusal)
  | 38 => return .podHeadAdvanced (← readPodHeadAdvance)
  | tag => fail (invalid s!"unknown ledger event tag {tag}")

def readEvent : Cursor LedgerEvent := do
  let tag ← u8
  readFields tag.toNat

def decodeEvent (payload : Bytes) : Except IoError LedgerEvent :=
  match readEvent payload with
  | .ok (event, []) => .ok event
  | .ok (_, _ :: _) => .error (invalid "ledger event contains trailing bytes")
  | .error e => .error e

end Ptr.Ledger
