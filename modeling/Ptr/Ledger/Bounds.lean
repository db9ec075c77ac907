import Ptr.Ledger.Event
import Ptr.Lib.Checks

/-!
# The bounds of a record

`checkOriginBounds` is what every append checks before it encodes a record: the
rules the decoder applies to it.  Most kinds of record have none; the others
bound their lists, refuse zero digests and fix the one canonical form of what
could be written in several ways.
-/

namespace Ptr.Ledger

open Lib

/-! ### Errors -/

inductive IoErrorKind
  | invalidData | unexpectedEof | notFound | alreadyExists | other
  deriving DecidableEq

structure IoError where
  kind : IoErrorKind
  message : String
  deriving DecidableEq

def invalid (message : String) : IoError := ⟨.invalidData, message⟩

def truncated : IoError := ⟨.unexpectedEof, "truncated ledger record"⟩

def presenceByte (b : UInt8) : IoError := invalid s!"invalid presence byte {b}"

/-! ### Bounds -/

def maxRecordBytes : Nat := 8 * 1024 * 1024
def maxExpertRecordBytes : Nat := 1048576
def maxKvTaintSubjects : Nat := 16
def maxInputIdentityBytes : Nat := 256
def maxEgressTargetBytes : Nat := 256
def maxPodHeadIdentityBytes : Nat := 256
def maxAttestationVerifiers : Nat := 16
def maxAttestationFindings : Nat := 32
def maxRebasedKeys : Nat := 16384
def maxHypothesisProvenance : Nat := 1024
def maxHypothesisDependencies : Nat := 1024
def maxRetainedResponse : Nat := 1024 * 1024

/-! ### Codes -/

def effectCodes : CodeTable Effect where
  members := [.pure, .read, .mutation, .external, .irreversible]
  complete a := by cases a <;> decide
  small := by decide

def verificationCodes : CodeTable VerificationLevel where
  members := [.unverified, .latentAgreement, .sampleVerified, .fullSemantic, .deterministic]
  complete a := by cases a <;> decide
  small := by decide

def scopeKindCodes : CodeTable ScopeLifecycleKind where
  members := [.created, .admitted, .started, .completed, .failed, .cancelled, .timedOut,
    .revoked, .released]
  complete a := by cases a <;> decide
  small := by decide

def meshEventKindCodes : CodeTable MeshTunnelEventKind where
  members := [.invitationCreated, .invitationAccepted, .membershipActivated, .membershipRevoked,
    .routeChanged, .tunnelEstablished, .tunnelRevoked, .tunnelReleased]
  complete a := by cases a <;> decide
  small := by decide

def meshRouteCodes : CodeTable MeshRouteKind where
  members := [.direct, .relay]
  complete a := by cases a <;> decide
  small := by decide

def expertOpCodes : CodeTable ExpertOpKind where
  members := [.birth, .merge, .split, .freeze, .reactivate, .prune, .retire]
  complete a := by cases a <;> decide
  small := by decide

def expertFenceActionCodes : CodeTable ExpertFenceAction where
  members := [.fence, ExpertFenceAction.readmit, .escalate, .retire]
  complete a := by cases a <;> decide
  small := by decide

def expertFenceCauseCodes : CodeTable ExpertFenceCause where
  members := [.inputRevoked, .authorityQuarantine]
  complete a := by cases a <;> decide
  small := by decide

def expertFenceResumeCodes : CodeTable ExpertFenceResume where
  members := [.serving, .frozen]
  complete a := by cases a <;> decide
  small := by decide

def kvTaintSubjectCodes : CodeTable KvTaintSubjectKind where
  members := [.action, .derivation, .content, .podOutput, .request]
  complete a := by cases a <;> decide
  small := by decide

def expertAuthorityKindCodes : CodeTable ExpertAuthorityKind where
  members := [.gateConfig, .evaluator]
  complete a := by cases a <;> decide
  small := by decide

def expertAuthorityClassCodes : CodeTable ExpertAuthorityClass where
  members := [.revoke, .tighteningRotation, .nonTightening]
  complete a := by cases a <;> decide
  small := by decide

def egressReasonCodes : CodeTable EgressRefusalReason where
  members := [.hostNotAllowed, .portNotAllowed, .topicNotAllowed, .invalidTopic, .rateLimited,
    .topicRequired, .topicUnverifiable]
  complete a := by cases a <;> decide
  small := by decide

/-! ### The rules of the decoder -/

/-- `char::is_control`: the Unicode category Cc. -/
def isControl (c : Char) : Bool := c.toNat < 0x20 || (0x7f ≤ c.toNat && c.toNat ≤ 0x9f)

def checkAttestationRequirement (required : VerificationLevel) : Except IoError Unit :=
  match required with
  | .fullSemantic | .deterministic => .ok ()
  | _ => .error (invalid "PTR_LEDGER_ATTESTATION_REQUIREMENT")

def checkAttestationVerifierCount (count : Nat) : Except IoError Unit :=
  if count = 0 ∨ count > maxAttestationVerifiers then
    .error (invalid "PTR_LEDGER_ATTESTATION_LIMIT")
  else .ok ()

def checkAttestationFindingCount (count : Nat) : Except IoError Unit :=
  if count > maxAttestationFindings then .error (invalid "PTR_LEDGER_ATTESTATION_LIMIT")
  else .ok ()

def checkAttestation (a : Attestation) : Except IoError Unit := do
  checkAttestationRequirement a.required
  checkAttestationVerifierCount a.verifiers.length
  checkAttestationFindingCount a.findings.length

def checkRebasedKeyCount (count : Nat) : Except IoError Unit :=
  if count > maxRebasedKeys then .error (invalid "PTR_LEDGER_REBASED_KEY_LIMIT") else .ok ()

def checkHypothesisProvenanceCount (count : Nat) : Except IoError Unit :=
  if count > maxHypothesisProvenance then .error (invalid "PTR_LEDGER_HYPOTHESIS_LIMIT")
  else .ok ()

def checkHypothesisDependencyCount (count : Nat) : Except IoError Unit :=
  if count > maxHypothesisDependencies then .error (invalid "PTR_LEDGER_HYPOTHESIS_LIMIT")
  else .ok ()

def checkExpertRecord (record : Bytes) : Except IoError Unit :=
  if record = [] ∨ record.length > maxExpertRecordBytes then
    .error (invalid "PTR_LEDGER_EXPERT_RECORD_LIMIT")
  else .ok ()

def ExpertFence.revocationOk (f : ExpertFence) : Bool :=
  match f.action, f.cause, f.revocation with
  | .fence, .inputRevoked, some r => !r.subject.isEmpty
  | .escalate, .inputRevoked, some r => !r.subject.isEmpty
  | .retire, .inputRevoked, some r => !r.subject.isEmpty
  | .fence, .authorityQuarantine, none => true
  | ExpertFenceAction.readmit, _, none => true
  | _, _, _ => false

def ExpertFence.evidenceOk (f : ExpertFence) : Bool :=
  match f.action, f.evidence with
  | ExpertFenceAction.readmit, some e => !e.report.isEmpty && e.report.length ≤ maxExpertRecordBytes
  | ExpertFenceAction.readmit, none => false
  | _, none => true
  | _, some _ => false

def checkExpertFence (f : ExpertFence) : Except IoError Unit :=
  if !f.evidenceOk ∨ !f.revocationOk ∨ f.pod.isEmpty ∨ f.generation = 0 ∨
      U64.checkedAdd f.expectedStateVersion 1 ≠ some f.epoch then
    .error (invalid "PTR_LEDGER_EXPERT_FENCE")
  else .ok ()

/-- Subjects are ordered by kind code, then by digest. -/
def subjectLt (a b : KvTaintSubjectKind × Digest) : Bool :=
  let ca := kvTaintSubjectCodes.code a.1
  let cb := kvTaintSubjectCodes.code b.1
  ca < cb || (ca == cb && compare a.2 b.2 == .lt)

def windowsAll {α : Type} (lt : α → α → Bool) : List α → Bool
  | a :: b :: rest => lt a b && windowsAll lt (b :: rest)
  | _ => true

def KvTaintChange.digestsOk : KvTaintChange → Bool
  | .record report recipe => report ≠ .zero && recipe ≠ .zero
  | .clear recipe recompute => recipe ≠ .zero && recompute ≠ .zero

def checkKvTaint (subjects : List (KvTaintSubjectKind × Digest)) (change : KvTaintChange) :
    Except IoError Unit :=
  if subjects = [] ∨ subjects.length > maxKvTaintSubjects then
    .error (invalid "PTR_LEDGER_KV_TAINT_SUBJECT_LIMIT")
  else if !windowsAll subjectLt subjects then .error (invalid "PTR_LEDGER_KV_TAINT_ORDER")
  else if !(subjects.all (fun s => s.2 ≠ .zero) && change.digestsOk) then
    .error (invalid "PTR_LEDGER_KV_TAINT_ZERO_DIGEST")
  else .ok ()

def InputInvalidation.kindOk (i : InputInvalidation) : Bool :=
  match i.kind with
  | .revoked => true
  | .superseded old new digest replacement =>
    old = i.generation && new > old && digest ≠ .zero && replacement ≠ .zero

def checkInputInvalidated (i : InputInvalidation) : Except IoError Unit :=
  if i.input.isEmpty ∨ i.input.utf8ByteSize > maxInputIdentityBytes ∨
      i.input.toList.any isControl ∨ i.generation = 0 then
    .error (invalid "PTR_LEDGER_INPUT_INVALIDATED")
  else if !i.kindOk then .error (invalid "PTR_LEDGER_INPUT_INVALIDATED")
  else if i.bindingDigest = .zero ∨ i.fenceDigest = .zero then
    .error (invalid "PTR_LEDGER_INPUT_INVALIDATED_ZERO_DIGEST")
  else .ok ()

def checkExpertAuthorityChanged (c : ExpertAuthorityChange) : Except IoError Unit :=
  if c.epoch = 0 ∨ c.idDigest = .zero ∨ c.fenceDigest = .zero then
    .error (invalid "PTR_LEDGER_EXPERT_AUTHORITY_CHANGED")
  else if !c.class.fencesEarlierEvidence ∧ c.fenceCount ≠ 0 then
    .error (invalid "PTR_LEDGER_EXPERT_AUTHORITY_CHANGED_FENCES")
  else .ok ()

def isDigit (c : Char) : Bool := '0' ≤ c && c ≤ '9'

def hex16 (part : List Char) : Bool :=
  part.length = 16 && part.all fun c => isDigit c || ('a' ≤ c && c ≤ 'f')

def isNumber (bound : Nat) (part : List Char) : Bool :=
  !part.isEmpty && part.all isDigit && (part = ['0'] || part.head? ≠ some '0') &&
    part.foldl (fun n c => 10 * n + (c.toNat - '0'.toNat)) 0 < bound

/-- The one shape a recorded refusal target may have: `*`, a hashed host with
its port, or a hashed topic. -/
def egressTargetIsRedacted (target : String) : Bool :=
  target = "*" || match target.toList.splitOn ':' with
    | [kind, digest, len, port] =>
      kind = "host".toList && hex16 digest && isNumber (2 ^ 32) len && isNumber (2 ^ 16) port
    | [kind, digest, len] => kind = "topic".toList && hex16 digest && isNumber (2 ^ 32) len
    | _ => false

def EgressRefusal.sourceOk (r : EgressRefusal) : Bool :=
  match r.source with
  | .pod source => source.validate.toOption.isSome
  | .overflow => r.target = "*"

def checkEgressRefused (r : EgressRefusal) : Except IoError Unit :=
  if r.traceId.isEmpty ∨ r.traceId.utf8ByteSize > maxEgressTargetBytes ∨ r.count = 0 ∨
      (r.saturated ∧ r.count.val ≠ 2 ^ 32 - 1) ∨ (r.traceId = "*" ∧ r.count < 2) ∨
      !egressTargetIsRedacted r.target ∨ !r.sourceOk then
    .error (invalid "PTR_LEDGER_EGRESS_REFUSED")
  else .ok ()

def checkPodAddress (a : PodAddress) : Except IoError Unit :=
  match a.validate with
  | .ok () => .ok ()
  | .error _ => .error (invalid "PTR_LEDGER_POD_HEAD_ADDRESS")

def checkRevisionAddress (a : PodRevisionAddress) : Except IoError Unit :=
  match a.validate with
  | .ok () => .ok ()
  | .error _ => .error (invalid "PTR_LEDGER_POD_HEAD_ADDRESS")

def checkPodHeadAdvanced (a : PodHeadAdvance) : Except IoError Unit :=
  if a.identity.isEmpty ∨ a.identity.utf8ByteSize > maxPodHeadIdentityBytes ∨
      a.identity.toList.any isControl then
    .error (invalid "PTR_LEDGER_POD_HEAD_IDENTITY")
  else if a.project.isEmpty ∨ a.project.toList.contains '/' ∨ a.new.address.project ≠ a.project then
    .error (invalid "PTR_LEDGER_POD_HEAD_PROJECT")
  else do
    checkRevisionAddress a.new
    match a.old with
    | none => .ok ()
    | some old =>
      if old.address.project ≠ a.project then .error (invalid "PTR_LEDGER_POD_HEAD_PROJECT")
      else do
        checkRevisionAddress old
        if a.new.generation ≤ old.generation then
          .error (invalid "PTR_LEDGER_POD_HEAD_GENERATION")
        else .ok ()

def resolveErrorText : ResolveError → String
  | .invalidScheme => "InvalidScheme"
  | .invalidAddress field => "InvalidAddress \x7b field: \"" ++ field ++ "\" \x7d"
  | .missingBinding field => "MissingBinding \x7b field: \"" ++ field ++ "\" \x7d"
  | .staleRoute => "StaleRoute"
  | .conflictingEndpoint => "ConflictingEndpoint"

def checkMeshEndpoint (e : MeshEndpointBinding) : Except IoError Unit :=
  match e.validate with
  | .ok () => .ok ()
  | .error r => .error (invalid (resolveErrorText r))

/-- `check_origin_bounds`: what the decoder would refuse, before any encoding. -/
def checkOriginBounds : LedgerEvent → Except IoError Unit
  | .semanticDeltaCommitted _ _ _ (.host _ v) => checkAttestation v
  | .semanticDeltaCommitted _ _ _ (.merge m) => do
    checkRebasedKeyCount m.rebased.size
    checkAttestation m.verification
  | .podOutputAdmitted o => checkAttestation o.verification
  | .podHypothesisCommitted h => do
    checkHypothesisProvenanceCount h.provenance.length
    checkHypothesisDependencyCount h.dependencies.length
    checkAttestation h.verification
  | .expertStructuralCommitted s => checkExpertRecord s.record
  | .expertFenceCommitted f => checkExpertFence f
  | .kvTaintCommitted subjects change => checkKvTaint subjects change
  | .inputInvalidated i => checkInputInvalidated i
  | .expertAuthorityChanged c => checkExpertAuthorityChanged c
  | .egressRefused r => checkEgressRefused r
  | .meshTunnelLifecycle { endpoint := some e, .. } => checkMeshEndpoint e
  | .podHeadAdvanced a => checkPodHeadAdvanced a
  | _ => .ok ()

end Ptr.Ledger
