import Ptr.Runtime.Error
import Ptr.Runtime.Materialized
import Ptr.Runtime.Obligations
import Ptr.Ledger.Canonical
import Ptr.Semdb.Host

/-!
# Origins of semantic records

Every semantic record names why its write was allowed.  The rules here are the ones
a record is replayed under, and a writer checks the same rules before it appends:
a request or a pod writes exactly its own key, and a host write or a merge writes
none of these keys and carries a well-formed attestation.
-/

namespace Ptr.Runtime

open Lib Ledger Semdb Std

/-! ### Keys that only ingress writes -/

def hasPrefix (pre text : String) : Bool := pre.toList.isPrefixOf text.toList

theorem hasPrefix_append (pre text : String) : hasPrefix pre (pre ++ text) = true := by
  rw [hasPrefix, String.toList_append, List.isPrefixOf_iff_prefix]
  exact List.prefix_append _ _

def isIngressKey (key : String) : Bool :=
  hasPrefix "request:" key || hasPrefix "pod-output:" key || hasPrefix "pod-candidate:" key

def requestRawKey (request : RequestId) : String := "request:" ++ request ++ ":raw"

def lengthDelimited (request : RequestId) (pod : PodId) : String :=
  toString request.utf8ByteSize ++ ":" ++ request ++ ":" ++ toString pod.utf8ByteSize ++ ":" ++ pod

def podOutputKey (request : RequestId) (pod : PodId) : String :=
  "pod-output:" ++ lengthDelimited request pod

def podCandidateKey (request : RequestId) (pod : PodId) (output : Digest) : String :=
  "pod-candidate:" ++ lengthDelimited request pod ++ ":" ++ hexDigest output

def writtenIngressKey (d : SemanticDelta) : Option String :=
  (d.upserts.keys ++ d.removals.toList ++ d.dependencies.keys).find? isIngressKey

def evictedIngressKey (p : PreparedDelta) : Option String := p.affected.toList.find? isIngressKey

/-! ### Attestations -/

def maxProvenanceText : Nat := 256

def validProvenance (text : String) : Bool :=
  validIdentifier text && text.utf8ByteSize ≤ maxProvenanceText

def validVerifierName (name : String) : Bool :=
  validIdentifier name && name.utf8ByteSize ≤ 64 && !name.toList.contains '/'

def validFindingCode (code : String) : Bool := validIdentifier code && code.utf8ByteSize ≤ 64

def requirementAccepts : VerificationLevel → VerificationLevel → Option Bool
  | .fullSemantic, level => some (level = .deterministic || level = .fullSemantic)
  | .deterministic, level => some (level = .deterministic)
  | _, _ => none

/-- `split_once('/')`. -/
def splitOnceSlash (text : String) : Option (String × String) :=
  let name := text.toList.takeWhile (· ≠ '/')
  match text.toList.drop name.length with
  | _ :: code => some (String.ofList name, String.ofList code)
  | [] => none

def recordedFinding (names : List String) (finding : String) : Bool :=
  (splitOnceSlash finding).any fun p => names.contains p.1 && validFindingCode p.2

/-- The findings are sorted and distinct, and each is a code of a named verifier;
the first one that is not decides the reason. -/
def checkFindings (names : List String) : Option String → List String → Except String Unit
  | _, [] => .ok ()
  | previous, finding :: rest =>
    if previous.any fun p => finding ≤ p then
      .error "an attestation's findings are not sorted and distinct"
    else if !recordedFinding names finding then
      .error "an attestation finding is not a recorded verifier's valid code"
    else checkFindings names (some finding) rest

def checkAttestationRules (a : Attestation) : Except String Unit :=
  match requirementAccepts a.required a.level with
  | none => .error "an attestation requires a level no grant requires"
  | some false => .error "an attestation's weakest level does not meet its requirement"
  | some true =>
    if a.verifiers = [] ∨ 16 < a.verifiers.length then
      .error "an attestation names no verifier, or more than a grant installs"
    else if 32 < a.findings.length then
      .error "an attestation carries more soft findings than a record holds"
    else if !a.verifiers.all validVerifierName ∨ ¬ a.verifiers.Nodup then
      .error "an attestation names an invalid or repeated verifier"
    else checkFindings a.verifiers none a.findings

/-! ### The rules of an origin -/

/-- A finite `f32` in `[0, 1]`, by its bits; the sign of zero is free. -/
def isProbabilityBits (bits : U32) : Bool := bits.val ≤ 0x3f800000 || bits.val == 0x80000000

variable (sha : Bytes → Digest)

def mergePlanDigest (branch : String) (base : Revision) (encoded : Bytes)
    (dependencies : Digest) (rebased : ExtTreeSet String) : Digest :=
  sha (utf8 "ptr-branch/merge-plan/v3" ++ putLongText branch ++ putU64 base ++
    leBytes 8 encoded.length ++ encoded ++ dependencies.bytes ++ leBytes 8 rebased.size ++
    rebased.toList.flatMap putLongText)

/-- One payload of the pod under its own key, derived from the raw request. -/
def podShaped (d : SemanticDelta) (request : RequestId) (pod : PodId) (key : String) : Bool :=
  d.removals.isEmpty && d.upserts.size == 1 &&
    (match d.upserts[key]? with
      | some (.payload p) => p.source == pod
      | _ => false) &&
    d.dependencies.size == 1 && d.dependencies[key]? == some ({requestRawKey request} :
      ExtTreeSet String)

def authorityRule : MergeAuthorityRecord → Except String Unit
  | .triage policyVersion scoreBits =>
    if !validProvenance policyVersion then
      .error "a merge's policy version is not valid provenance text"
    else if !isProbabilityBits scoreBits then .error "a merge's triage score is not a probability"
    else .ok ()
  | .reviewed reviewer =>
    if !validProvenance reviewer then .error "a merge's reviewer is not valid provenance text"
    else .ok ()

def mergeRule (values : ExtTreeMap String String) (base : Revision) (encoded : Bytes)
    (d : SemanticDelta) (m : MergeRecord) : Except String Unit := do
  if (writtenIngressKey d).isSome then throw "a merge writes, removes or derives an ingress key"
  if !validProvenance m.branch ∨ !validProvenance m.author then
    throw "a merge's branch or author is not valid provenance text"
  authorityRule m.authority
  checkAttestationRules m.verification
  if !d.dependencies.isEmpty then throw "a merge carries a dependency entry"
  if m.rebased.toList.any fun key => d.removals.contains key || isIngressKey key then
    throw "a merge's rebased key is removed or reserved to ingress"
  if mergePlanDigest sha m.branch base encoded m.dependencies m.rebased ≠ m.plan then
    throw "a merge's plan digest is not the digest of its branch, base, delta, dependencies and rebased keys"
  if mergedBranchKey m.branch ∈ values then throw "a merge of a branch that is already merged"

def originRule (values : ExtTreeMap String String) (base : Revision) (encoded : Bytes)
    (d : SemanticDelta) : SemanticOrigin → Except String Unit
  | .legacy => .error "a writer never records a legacy origin"
  | .request request =>
    if d.removals.isEmpty && d.dependencies.isEmpty && d.upserts.size == 1 &&
        (match d.upserts[requestRawKey request]? with
          | some (.text _) => true
          | _ => false) then .ok ()
    else .error "a request record writes exactly its own raw text"
  | .podOutput request pod _ =>
    if podShaped d request pod (podOutputKey request pod) then .ok ()
    else .error "a Pod output record writes exactly the Pod's output for its request"
  | .podCandidate request pod output _ =>
    if podShaped d request pod (podCandidateKey request pod output) then .ok ()
    else .error "a Pod candidate record writes exactly the candidate for its request"
  | .host principal verification => do
    if (writtenIngressKey d).isSome then
      throw "a host write writes, removes or derives an ingress key"
    if !validProvenance principal then throw "a host write's principal is not valid provenance text"
    checkAttestationRules verification
  | .merge m => mergeRule sha values base encoded d m

/-- `validate_semantic_origin`.  `index` is the position of a record that is
replayed; a record about to be written has none. -/
def validateSemanticOrigin (values : ExtTreeMap String String) (index : Option CommitIndex)
    (base : Revision) (encoded : Bytes) (d : SemanticDelta) (origin : SemanticOrigin) :
    Except RuntimeError Unit :=
  match origin, index with
  | .legacy, some i => if attestedMarker ∈ values then .error (.legacySemanticRecord i) else .ok ()
  | _, _ => (originRule sha values base encoded d origin).mapError (.invalidSemanticOrigin index)

/-- A host write or a merge, which must not evict an ingress key. -/
def bySomeone : SemanticOrigin → Bool
  | .host _ _ | .merge _ => true
  | _ => false

def ofReadFault : ReadFault → RuntimeError
  | .refused e => .semantic e
  | .panicked => .semantic .invalidEncoding

def prepareSemanticRecord (values : ExtTreeMap String String) (semdb : SemanticHost)
    (index : Option CommitIndex) (base revision : Revision) (encoded : Bytes)
    (origin : SemanticOrigin) : Except RuntimeError PreparedDelta := do
  if base ≠ semdb.state.revision then
    throw (.semantic (.revisionMismatch semdb.state.revision base))
  let d ← (SemanticDelta.decode encoded).mapError ofReadFault
  validateSemanticOrigin sha values index base encoded d origin
  if !(checkEncodable (.semanticDeltaCommitted base revision encoded origin)).isOk then
    throw (.invalidSemanticOrigin index "a record the ledger cannot frame")
  let prepared ← (semdb.prepareDelta d).mapError .semantic
  if bySomeone origin ∧ (evictedIngressKey prepared).isSome then
    throw (.invalidSemanticOrigin index "a host write or merge evicts an ingress key")
  if prepared.next.revision = semdb.state.revision then throw (.semantic .noChangeRecord)
  if prepared.next.revision ≠ revision then
    throw (.semantic (.revisionMismatch prepared.next.revision revision))
  .ok prepared

end Ptr.Runtime
