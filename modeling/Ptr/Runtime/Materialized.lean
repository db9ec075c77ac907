import Ptr.Ledger.Event
import Ptr.Runtime.PodUri

/-!
# Materialized values

The projection of `ptr-state`: every committed record sets a few named values, and
a record is applied only at the position right above the last one.  What an expert
record sets depends on the format of that record, so it is a parameter here.
-/

namespace Ptr.Runtime

open Lib Ledger

/-! ### Names of values -/

def attestedMarker : String := "semdb:attested"

def mergedBranchKey (branch : String) : String :=
  "branch-merge:" ++ toString branch.utf8ByteSize ++ ":" ++ branch

def mergedBranchEntry (index : CommitIndex) (plan : Digest) : String :=
  decimal index ++ ":" ++ hexDigest plan

def expertKey (project pod : String) : String := "expert:" ++ project ++ "/" ++ pod

inductive ExpertState
  | candidate | gated | serving | frozen | fenced | superseded
  | retiredPruned | retiredSuperseded | retiredGateFailed | retiredInputRevoked

def ExpertState.name : ExpertState → String
  | .candidate => "candidate"
  | .gated => "gated"
  | .serving => "serving"
  | .frozen => "frozen"
  | .fenced => "fenced"
  | .superseded => "superseded"
  | .retiredPruned => "retired-pruned"
  | .retiredSuperseded => "retired-superseded"
  | .retiredGateFailed => "retired-gate-failed"
  | .retiredInputRevoked => "retired-input-revoked"

def expertEntry (generation : Generation) (state : ExpertState) (version : U64) : String :=
  decimal generation ++ ":" ++ state.name ++ ":" ++ decimal version

def fenceState : ExpertFenceAction → ExpertFenceResume → ExpertState
  | .fence, _ | .escalate, _ => .fenced
  | .retire, _ => .retiredInputRevoked
  | ExpertFenceAction.readmit, .serving => .serving
  | ExpertFenceAction.readmit, .frozen => .frozen

def expertInputKey (identity : String) (generation : Generation) : String :=
  "expert-input:" ++ toString identity.utf8ByteSize ++ ":" ++ identity ++ ":" ++ decimal generation

def authorityKindName : ExpertAuthorityKind → String
  | .gateConfig => "gate-config"
  | .evaluator => "evaluator"

def authorityClassName : ExpertAuthorityClass → String
  | .revoke => "revoke"
  | .tighteningRotation => "tightening"
  | .nonTightening => "non-tightening"

def taintKindName : KvTaintSubjectKind → String
  | .action => "action"
  | .derivation => "derivation"
  | .content => "content"
  | .podOutput => "pod-output"
  | .request => "request"

def taintKey (subject : KvTaintSubjectKind × Digest) : String :=
  "kv-taint:" ++ taintKindName subject.1 ++ ":" ++ hexDigest subject.2

def taintEntry : KvTaintChange → String
  | .record report recipe => "approx:" ++ hexDigest report ++ ":" ++ hexDigest recipe
  | .clear _ recompute => "cleared:" ++ hexDigest recompute

def refusalName : EgressRefusalReason → String
  | .hostNotAllowed => "host-not-allowed"
  | .portNotAllowed => "port-not-allowed"
  | .topicNotAllowed => "topic-not-allowed"
  | .invalidTopic => "invalid-topic"
  | .rateLimited => "rate-limited"
  | .topicRequired => "topic-required"
  | .topicUnverifiable => "topic-unverifiable"

def refusalKey : EgressRefusalSource → String
  | .pod source =>
    "egress-refused:" ++ source.address.project ++ "/" ++ source.address.namespace ++ "/" ++
      source.address.podId
  | .overflow => "egress-refusal-overflow"

def meshKindName : MeshTunnelEventKind → String
  | .invitationCreated => "InvitationCreated"
  | .invitationAccepted => "InvitationAccepted"
  | .membershipActivated => "MembershipActivated"
  | .membershipRevoked => "MembershipRevoked"
  | .routeChanged => "RouteChanged"
  | .tunnelEstablished => "TunnelEstablished"
  | .tunnelRevoked => "TunnelRevoked"
  | .tunnelReleased => "TunnelReleased"

def podHeadKey (project identity : String) : String := "pod-head:" ++ project ++ "/" ++ identity

/-- The canonical address of a revision, or a value that no reader takes. -/
def podHeadEntry (a : PodRevisionAddress) : String :=
  match a.canonicalUri with
  | .ok uri => uri
  | .error _ => "unrenderable"

/-! ### What a record sets -/

def semanticEntries (index : CommitIndex) (revision : Revision) (origin : SemanticOrigin) :
    List (String × String) :=
  ("semdb:revision", decimal revision) ::
    (if origin = .legacy then [] else [(attestedMarker, "1")]) ++
    match origin with
    | .merge m => [(mergedBranchKey m.branch, mergedBranchEntry index m.plan)]
    | _ => []

def invalidationEntries (i : InputInvalidation) : List (String × String) :=
  match i.kind with
  | .revoked => [("revoked:" ++ i.input, decimal i.generation),
      (expertInputKey i.input i.generation,
        "revoked:" ++ toString i.fenceCount.val ++ ":" ++ hexDigest i.fenceDigest)]
  | .superseded _ new newDigest _ => [(expertInputKey i.input i.generation,
      "superseded:" ++ decimal new ++ ":" ++ hexDigest newDigest ++ ":" ++
      toString i.fenceCount.val ++ ":" ++ hexDigest i.fenceDigest)]

def projectionEntries (expertEntries : ProjectId → Bytes → List (String × String))
    (c : CommittedEvent) : List (String × String) :=
  match c.event with
  | .semanticDeltaCommitted _ revision _ origin => semanticEntries c.index revision origin
  | .capsuleCommitted project capsule generation =>
    [("capsule:" ++ capsule ++ ":generation", decimal generation),
      ("capsule:" ++ capsule ++ ":project", project)]
  | .capsuleSuperseded capsule _ new => [("capsule:" ++ capsule ++ ":generation", decimal new)]
  | .revoked subject generation => [("revoked:" ++ subject, decimal generation)]
  | .hardConstraintCommitted key generation => [("constraint:" ++ key, decimal generation)]
  | .verifierAttested subject passed =>
    [("verifier:" ++ subject, if passed then "pass" else "fail")]
  | .procedurePromoted id generation => [("procedure:" ++ id ++ ":generation", decimal generation)]
  | .procedureRevoked id generation => [("revoked:procedure:" ++ id, decimal generation)]
  | .snapshotCommitted revision covers =>
    [("snapshot:last_revision", decimal revision), ("snapshot:covers_commit", decimal covers)]
  | .effectAttempted a =>
    [("effect:" ++ decimal c.index ++ ":state", "attempted"),
      ("effect:" ++ decimal c.index ++ ":target", a.target),
      ("effect:" ++ decimal c.index ++ ":operation", a.operation)]
  | .effectSettled attempt _ _ => [("effect:" ++ decimal attempt ++ ":state", "settled")]
  | .effectReconciled attempt applied _ =>
    [("effect:" ++ decimal attempt ++ ":state", "reconciled"),
      ("effect:" ++ decimal attempt ++ ":applied", if applied then "true" else "false")]
  | .scopeLifecycle _ => []
  | .protectedStateCommitted s =>
    let name := "protected:" ++ toString s.domain.toNat ++ ":" ++ s.logicalId
    [(name ++ ":generation", decimal s.generation), (name ++ ":revision", decimal s.revision),
      (name ++ ":ciphertext", hexDigest s.ciphertextDigest)]
  | .meshTunnelLifecycle e =>
    let name := "mesh:" ++ e.networkId ++ ":" ++ e.peerId
    [(name ++ ":revision", decimal e.revision), (name ++ ":state", meshKindName e.kind)]
  | .executionManifestAdmitted a =>
    [("execution-manifest:" ++ hexDigest a.manifestDigest ++ ":state", "admitted")]
  | .executionManifestRevoked digest _ _ =>
    [("execution-manifest:" ++ hexDigest digest ++ ":state", "revoked")]
  | .expertStructuralCommitted s => expertEntries s.project s.record
  | .expertFenceCommitted f =>
    [(expertKey f.project f.pod, expertEntry f.generation (fenceState f.action f.resume) f.epoch)]
  | .inputInvalidated i => invalidationEntries i
  | .expertAuthorityChanged a =>
    [("expert-authority:" ++ authorityKindName a.kind,
      decimal a.epoch ++ ":" ++ hexDigest a.idDigest ++ ":" ++ authorityClassName a.class ++ ":" ++
        toString a.fenceCount.val ++ ":" ++ hexDigest a.fenceDigest)]
  | .kvTaintCommitted subjects change => subjects.map fun s => (taintKey s, taintEntry change)
  | .egressRefused r =>
    [(refusalKey r.source, decimal c.index ++ ":" ++ refusalName r.reason ++ ":" ++
        toString r.count.val ++ (if r.saturated then "+" else "") ++ ":" ++ r.target)]
  | .podHeadAdvanced a => [(podHeadKey a.project a.identity, podHeadEntry a.new)]
  | .podEvidenceCommitted _ | .podOutputAdmitted _ | .podHypothesisCommitted _
  | .policyBundleActivated .. | .policyBundleRevoked .. | .sessionRevoked ..
  | .tierBackendLifecycle _ | .tierObjectCommitted .. | .tierReplicaLifecycle _ => []

/-! ### The state -/

structure MaterializedState where
  values : Std.ExtTreeMap String String
  lastApplied : U64

namespace MaterializedState

def empty : MaterializedState := ⟨∅, 0⟩

def set (s : MaterializedState) (entries : List (String × String)) : MaterializedState :=
  { s with values := entries.foldl (fun m p => m.insert p.1 p.2) s.values }

/-- `apply`: a record is taken only right above the last one. -/
def apply (expertEntries : ProjectId → Bytes → List (String × String)) (s : MaterializedState)
    (c : CommittedEvent) : MaterializedState :=
  if s.lastApplied < c.index ∧ c.index = U64.saturatingAdd s.lastApplied 1 then
    { s.set (projectionEntries expertEntries c) with lastApplied := c.index }
  else s

end MaterializedState

end Ptr.Runtime
