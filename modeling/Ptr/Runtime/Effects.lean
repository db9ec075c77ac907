import Ptr.Runtime.Commit

/-!
# Executing effects

An effect is admitted, attempted on the ledger, handed to an executor and settled
with its response; a detached effect is settled later.  An attempt that nobody can
settle is reconciled by an operator.  What depends on this process alone, the
session, the clock and the permit, is an argument of a request: its checks may come
out either way at any time.
-/

namespace Ptr.Runtime

open Lib Ledger

variable {ρ τ : Type}

/-! ### Authorization -/

structure ActionAuthorization where
  target : String
  capability : CapabilityId
  effect : Effect
  actionRevision : Revision
  currentRevision : Revision
  actionGeneration : Generation
  currentGeneration : Option Generation
  generationRevoked : Bool
  requireCapability : Bool
  requireCurrentRevision : Bool
  requireLiveGeneration : Bool

inductive AuthorizationDenial
  | staleRevision (action current : Revision)
  | unknownGeneration (target : String)
  | staleGeneration (target : String) (action : Generation) (current : Option Generation)
  | missingCapability (capability : CapabilityId)
  | effectNotPermitted (effect : Effect)
  deriving DecidableEq

structure AuthorizationReceipt where
  target : String
  revision : Revision
  generation : Generation
  capability : CapabilityId
  effect : Effect
  deriving DecidableEq

inductive AuthorizationDecision
  | allow (receipt : AuthorizationReceipt)
  | deny (denial : AuthorizationDenial)
  deriving DecidableEq

def hardBoundary : Effect → Bool
  | .mutation | .external | .irreversible => true
  | .pure | .read => false

namespace PermissionSet

def allowsEffect (p : PermissionSet) : Effect → Bool
  | .pure | .read => true
  | .mutation => p.allowMutation
  | .external => p.allowExternal
  | .irreversible => p.allowIrreversible

def generationDenial (q : ActionAuthorization) : Option AuthorizationDenial :=
  if hardBoundary q.effect || q.requireLiveGeneration then
    if q.generationRevoked || q.currentGeneration.any fun g => g ≠ q.actionGeneration then
      some (.staleGeneration q.target q.actionGeneration q.currentGeneration)
    else if q.currentGeneration.isNone then some (.unknownGeneration q.target)
    else none
  else none

def authorize (p : PermissionSet) (q : ActionAuthorization) : AuthorizationDecision :=
  if (hardBoundary q.effect || q.requireCurrentRevision) &&
      q.actionRevision ≠ q.currentRevision then
    .deny (.staleRevision q.actionRevision q.currentRevision)
  else match generationDenial q with
    | some denial => .deny denial
    | none =>
      if (hardBoundary q.effect || q.requireCapability) &&
          !p.capabilities.contains q.capability then
        .deny (.missingCapability q.capability)
      else if !p.allowsEffect q.effect then .deny (.effectNotPermitted q.effect)
      else .allow ⟨q.target, q.actionRevision, q.actionGeneration, q.capability, q.effect⟩

end PermissionSet

def taintIdentity (sha : Bytes → Digest) (a : ActionIr) : Digest :=
  sha (utf8 "ptr.kv.taint.action-identity.v1" ++ [0] ++ putLongText a.target ++
    putLongText a.operation ++ putLongText a.capability ++ putLongText a.inputType ++
    leBytes 8 a.payload.length ++ a.payload ++ [effectTag a.effect])

inductive VerificationStatus
  | pass | fail | disputed | unknown
  deriving DecidableEq

inductive ExecutionError
  | foreignRuntime
  | sessionClosed
  | sessionMismatch
  | expired
  | stalePermit
  | scopeDenied
  | peerNotAdmitted (peer : String)
  | projectMismatch
  | runtimeFenced
  | ambiguousOutcome (attempt : CommitIndex)
  | responseNotRetained (attempt : CommitIndex)
  | keyBoundToAnotherAction (attempt : CommitIndex)
  | unknownAttempt (attempt : CommitIndex)
  | invalidEvidence
  | dispatchMismatch (detached : Bool)
  | notDetached (attempt : CommitIndex)
  | audit (error : RuntimeError)
  | settlementNotRecorded (attempt : CommitIndex) (error : RuntimeError)
  | authorizationDenied (denial : AuthorizationDenial)
  | verificationRejected (status : VerificationStatus) (level : VerificationLevel)
  | hardFinding
  | executor (reason : String)
  deriving DecidableEq

namespace PtrRuntime

/-- The question that an action asks, under the given switches. -/
def authorizationOf (r : PtrRuntime ρ τ) (a : ActionIr) (b : ActionBoundaryConfig) :
    ActionAuthorization where
  target := a.target
  capability := a.capability
  effect := a.effect
  actionRevision := a.revision
  currentRevision := r.revision
  actionGeneration := a.generation
  currentGeneration := r.history.lifecycle.liveGeneration a.target
  generationRevoked := r.history.lifecycle.isRevoked a.target a.generation
  requireCapability := b.requireCapability
  requireCurrentRevision := b.requireCurrentRevision
  requireLiveGeneration := b.requireLiveGeneration

def authorizationDecision (r : PtrRuntime ρ τ) (a : ActionIr) : AuthorizationDecision :=
  r.permissions.authorize (r.authorizationOf a r.boundary)

/-- `check_kv_taint` of an action that its caller holds to be exact. -/
def checkKvTaint (R : Rules ρ τ) (r : PtrRuntime ρ τ) (a : ActionIr) : Except RuntimeError Unit :=
  match r.history.taint[((.action, taintIdentity R.sha a) : TaintSubject)]? with
  | some entry => .error (.approximateStateAtEffectBoundary entry.reportDigest)
  | none => .ok ()

def denialError : AuthorizationDenial → RuntimeError
  | .staleRevision action current => .staleRevision action current
  | .unknownGeneration target => .unknownGeneration target
  | .staleGeneration target action current => .staleGeneration target action current
  | .missingCapability _ | .effectNotPermitted _ => .permissionDenied

def authorizeAction (R : Rules ρ τ) (r : PtrRuntime ρ τ) (a : ActionIr) :
    Except RuntimeError Unit := do
  r.checkKvTaint R a
  match r.authorizationDecision a with
  | .allow _ => .ok ()
  | .deny denial => .error (denialError denial)

/-- `check_execution_action`: at an effect every switch is on. -/
def checkExecutionAction (R : Rules ρ τ) (r : PtrRuntime ρ τ) (project : ProjectId) (a : ActionIr) :
    Except ExecutionError Unit :=
  if r.history.lifecycle.capsuleProjects[a.target]? ≠ some project then .error .projectMismatch
  else do
    (r.checkKvTaint R a).mapError .audit
    match r.permissions.authorize (r.authorizationOf a ⟨true, true, true⟩) with
    | .allow _ => .ok ()
    | .deny denial => .error (.authorizationDenied denial)

end PtrRuntime

/-! ### Requests -/

inductive RequiredVerification
  | fullSemantic | deterministic

def RequiredVerification.accepts : RequiredVerification → VerificationLevel → Bool
  | _, .deterministic => true
  | .fullSemantic, .fullSemantic => true
  | _, _ => false

/-- A permit that is presented with its session: what it was prepared for, what the
session, the permit and the clock say before and after the verification, and what
the grant's verifier reports. -/
structure EffectRequest where
  project : ProjectId
  principal : String
  action : ActionIr
  key : Option String
  detached : Bool
  handle : Except ExecutionError Unit
  permit : Except ExecutionError Unit
  stillValid : Except ExecutionError Unit
  required : RequiredVerification
  status : VerificationStatus
  level : VerificationLevel
  hardFinding : Bool

def EffectRequest.attempt (sha : Bytes → Digest) (q : EffectRequest) : EffectAttempt where
  key := q.key
  project := q.project
  principal := q.principal
  target := q.action.target
  operation := q.action.operation
  capability := q.action.capability
  effect := q.action.effect
  generation := q.action.generation
  revision := q.action.revision
  verification := q.level
  actionDigest := actionDigest sha q.action

def EffectRequest.checkReport (q : EffectRequest) : Except ExecutionError Unit :=
  if q.status ≠ .pass ∨ !q.required.accepts q.level then
    .error (.verificationRejected q.status q.level)
  else if q.hardFinding then .error .hardFinding
  else .ok ()

def EffectRequest.checkDispatch (q : EffectRequest) (wantDetached : Bool) :
    Except ExecutionError Unit :=
  if q.detached ≠ wantDetached then .error (.dispatchMismatch q.detached) else .ok ()

/-- One call of an executor: the action, the principal and the project that it is
handed, with the attempt and the key that the call was recorded under. -/
structure Invocation where
  attempt : CommitIndex
  project : ProjectId
  principal : String
  action : ActionIr
  key : Option String
  deriving DecidableEq

def EffectRequest.invocation (q : EffectRequest) (attempt : CommitIndex) : Invocation :=
  ⟨attempt, q.project, q.principal, q.action, q.key⟩

structure DetachedEffect where
  attempt : CommitIndex
  alreadyApplied : Bool

inductive Admission
  | replayed (attempt : CommitIndex) (response : Bytes)
  | attempted (attempt : CommitIndex)

namespace PtrRuntime

variable (R : Rules ρ τ) (r : PtrRuntime ρ τ)

def checkFence : Except ExecutionError Unit :=
  if r.uncertain then .error .runtimeFenced
  else match r.history.obligations.oldestUnsettled with
    | some attempt => .error (.ambiguousOutcome attempt)
    | none => .ok ()

variable (q : EffectRequest)

/-- What the memory of the keys says about a request: nothing, the recorded
response, or a refusal. -/
def recallKey : Except ExecutionError (Option Admission) :=
  match q.key.bind fun key => r.history.obligations.settled[key]? with
  | some (.applied attempt identity response) =>
    if identity.isRetry R.sha q.project q.principal q.action then
      .ok (some (.replayed attempt response))
    else .error (.keyBoundToAnotherAction attempt)
  | some (.appliedWithoutResponse attempt identity) =>
    if identity.isRetry R.sha q.project q.principal q.action then
      .error (.responseNotRetained attempt)
    else .error (.keyBoundToAnotherAction attempt)
  | some .notApplied | none => .ok none

def admissionChecks (wantDetached : Bool) :
    Except ExecutionError (Option Admission) := do
  q.handle
  r.checkFence
  q.permit
  q.checkDispatch wantDetached
  r.checkExecutionAction R q.project q.action
  q.checkReport
  -- The verification may take long, so the session is looked at again.
  r.checkFence
  q.stillValid
  r.recallKey R q

/-- `admit_effect`: the attempt is recorded before anything runs. -/
def admitEffect (wantDetached : Bool) :
    Except ExecutionError Admission × PtrRuntime ρ τ :=
  match r.admissionChecks R q wantDetached with
  | .error e => (.error e, r)
  | .ok (some admission) => (.ok admission, r)
  | .ok none =>
    match r.commit R (.effectAttempted (q.attempt R.sha)) with
    | (.error e, r) => (.error (.audit e), r)
    | (.ok index, r) => (.ok (.attempted index), r)

/-- `record_settlement`: the response is kept within its bounds, its digest
always. -/
def recordSettlement (attempt : CommitIndex) (output : Bytes) :
    Outcome ρ τ CommitIndex :=
  let retain := output.length ≤ maxRetainedResponse ∧
    settlementRetainsResponse r.history.obligations r.history.scopes attempt output.length
  r.commitSettlement R
    (.effectSettled attempt (if retain then some output else none) (R.sha output))

/-- `execute_prepared`, with the answer of the executor and the calls it got. -/
def executePrepared (answer : Except String Bytes) :
    Except ExecutionError Bytes × PtrRuntime ρ τ × List Invocation :=
  match r.admitEffect R q false with
  | (.error e, r) => (.error e, r, [])
  | (.ok (.replayed _ response), r) => (.ok response, r, [])
  | (.ok (.attempted attempt), r) =>
    match answer with
    | .error reason => (.error (.executor reason), r, [q.invocation attempt])
    | .ok output =>
      match r.recordSettlement R attempt output with
      | (.error e, r) => (.error (.settlementNotRecorded attempt e), r, [q.invocation attempt])
      | (.ok _, r) => (.ok output, r, [q.invocation attempt])

/-- `dispatch_detached`: the effect is handed out and stays unsettled. -/
def dispatchDetached (answer : Except String Unit) :
    Except ExecutionError DetachedEffect × PtrRuntime ρ τ × List Invocation :=
  match r.admitEffect R q true with
  | (.error e, r) => (.error e, r, [])
  | (.ok (.replayed attempt _), r) => (.ok ⟨attempt, true⟩, r, [])
  | (.ok (.attempted attempt), r) =>
    match answer with
    | .error reason => (.error (.executor reason), r, [q.invocation attempt])
    | .ok () =>
      (.ok ⟨attempt, false⟩, { r with detached := r.detached.insert attempt },
        [q.invocation attempt])

def settleDetached (attempt : CommitIndex) (response : Bytes) :
    Except ExecutionError CommitIndex × PtrRuntime ρ τ :=
  if attempt ∉ r.detached ∨ !r.history.obligations.isUnsettled attempt then
    (.error (.notDetached attempt), r)
  else match r.recordSettlement R attempt response with
    | (.error e, r) => (.error (.settlementNotRecorded attempt e), r)
    | (.ok index, r) => (.ok index, { r with detached := r.detached.erase attempt })

def reconcileEffect (attempt : CommitIndex) (applied : Bool)
    (evidence : String) : Except ExecutionError CommitIndex × PtrRuntime ρ τ :=
  if !validIdentifier evidence then (.error .invalidEvidence, r)
  else if !r.history.obligations.isUnsettled attempt then (.error (.unknownAttempt attempt), r)
  else match r.commitSettlement R (.effectReconciled attempt applied evidence) with
    | (.error e, r) => (.error (.audit e), r)
    | (.ok index, r) => (.ok index, { r with detached := r.detached.erase attempt })

end PtrRuntime

end Ptr.Runtime
