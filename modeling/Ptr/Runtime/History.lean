import Ptr.Runtime.Lifecycle
import Ptr.Runtime.Section

/-!
# The history of a runtime

`History` is what the committed records determine: every projection that a replay
rebuilds.  `validateLifecycleEvent` is the check that a record passes before it is
appended and again when it is replayed, and `applyCommitted` brings a committed
record into the projections.

`Rules` are the parts of the runtime that are used here and developed elsewhere:
the expert registry, which plans a record before it changes anything, the tier
journal, and the decoder of evidence bundles.  Every result holds for all of them.
-/

namespace Ptr.Runtime

open Lib Ledger Semdb Std

/-! ### Approximate content and pod heads -/

structure TaintEntry where
  reportDigest : Digest
  recipeDigest : Digest
  deriving DecidableEq

abbrev TaintSubject := KvTaintSubjectKind × Digest

def taintCode : KvTaintSubjectKind → Nat
  | .action => 0
  | .derivation => 1
  | .content => 2
  | .podOutput => 3
  | .request => 4

instance : Ord KvTaintSubjectKind := ⟨fun a b => compare (taintCode a) (taintCode b)⟩

instance : TransOrd KvTaintSubjectKind where
  eq_swap {a b} := @OrientedCmp.eq_swap Nat compare _ (taintCode a) (taintCode b)
  isLE_trans {a b c} := @TransCmp.isLE_trans Nat compare _ (taintCode a) (taintCode b) (taintCode c)

instance : LawfulEqOrd KvTaintSubjectKind where
  compare_self {a} := @ReflCmp.compare_self Nat compare _ (taintCode a)
  eq_of_compare {a b} h := by
    have hcode : taintCode a = taintCode b := @LawfulEqCmp.eq_of_compare Nat compare _ _ _ h
    cases a <;> cases b <;> first | rfl | exact absurd hcode (by decide)

abbrev Taint := ExtTreeMap TaintSubject TaintEntry

def maxLiveTaintSubjects : Nat := 65536

namespace Taint

def checkClear (t : Taint) (recipe : Digest) (subject : TaintSubject) : Except RuntimeError Unit :=
  match t[subject]? with
  | none => .error (.kvTaint .clearSubjectNotLive)
  | some entry =>
    if entry.recipeDigest ≠ recipe then .error (.kvTaint .clearRecipeMismatch) else .ok ()

def validate (t : Taint) (subjects : List TaintSubject) (change : KvTaintChange) :
    Except RuntimeError Unit :=
  if !(checkEncodable (.kvTaintCommitted subjects change)).isOk then .error (.kvTaint .unencodable)
  else match change with
    | .record _ _ =>
      if subjects.any (t.contains ·) then .error (.kvTaint .recordSubjectAlreadyLive)
      else if maxLiveTaintSubjects < t.size + subjects.length then
        .error (.kvTaintRegistryFull maxLiveTaintSubjects)
      else .ok ()
    | .clear recipe _ => subjects.forM (t.checkClear recipe)

/-- A subject already live keeps its first entry. -/
def apply (t : Taint) (subjects : List TaintSubject) (change : KvTaintChange) : Taint :=
  subjects.foldl (fun t s => match change with
    | .record report recipe => t.insertIfNew s ⟨report, recipe⟩
    | .clear _ _ => t.erase s) t

end Taint

abbrev PodHeads := ExtTreeMap (ProjectId × PodIdentity) PodRevisionAddress

/-- `validate_pod_head_advance`. -/
def PodHeads.validateAdvance (heads : PodHeads) (l : Lifecycle) (a : PodHeadAdvance) :
    Except RuntimeError Unit :=
  let refuse := RuntimeError.podHead a.project a.identity
  let target := podLifecycleTarget a.new
  if !a.new.validate.isOk ∨ a.new.generation = 0 then .error (refuse .invalidAddress)
  else match (a.new :: a.old.toList).find? fun x => x.address.project ≠ a.project with
    | some other => .error (refuse (.projectMismatch other.address.project))
    | none =>
      if heads[(a.project, a.identity)]? ≠ a.old then
        .error (refuse (.conflict a.old heads[(a.project, a.identity)]?))
      else match a.old.filter fun old => a.new.generation ≤ old.generation with
        | some old => .error (refuse (.notAdvancing old.generation a.new.generation))
        | none =>
          match (l.liveGeneration target).filter fun live => a.new.generation < live with
          | some live => .error (refuse (.belowLiveGeneration live a.new.generation))
          | none =>
            if l.isRevoked target a.new.generation then
              .error (refuse (.revokedGeneration target a.new.generation))
            else .ok ()

/-! ### Hypotheses -/

structure Hypothesis where
  branchId : String
  podId : PodId
  generation : Generation
  evidence : List (String × Option String)
  outputType : TypeId
  payload : Bytes
  confidenceBits : U32
  latencyMillis : U64
  level : VerificationLevel
  findings : List String

def Hypothesis.ofRecord (h : PodHypothesis) : Hypothesis :=
  ⟨h.branchId, h.podId, h.generation, h.provenance, h.outputType, h.payload, h.confidenceBits,
    h.latencyMillis, h.verification.level, h.verification.findings⟩

def compareNote : Option String → Option String → Ordering
  | none, none => .eq
  | none, some _ => .lt
  | some _, none => .gt
  | some a, some b => compare a b

def compareProvenance (a b : String × Option String) : Ordering :=
  (compare a.1 b.1).then (compareNote a.2 b.2)

/-- `encode_fields` of the output that a hypothesis record describes; version 2
counts its lists. -/
def hypothesisFields (h : PodHypothesis) (counted : Bool) : Bytes :=
  let dependencies := h.dependencies.mergeSort fun a b => (compare a b).isLE
  let provenance := h.provenance.mergeSort fun a b => (compareProvenance a b).isLE
  2 :: (putLongText h.outputType ++ leBytes 8 h.payload.length ++ h.payload ++
    putU64 h.generation ++ h.manifestDigest.bytes ++ h.artifactDigest.bytes ++ putU64 h.revision ++
    [0] ++ (if counted then leBytes 8 dependencies.length else []) ++
    dependencies.flatMap Digest.bytes ++ (if counted then leBytes 8 provenance.length else []) ++
    provenance.flatMap fun p => putLongText p.1 ++ putOption putLongText p.2)

def hypothesisDigest (sha : Bytes → Digest) (h : PodHypothesis) : Digest :=
  sha (utf8 "ptr.pods.output.v2" ++ hypothesisFields h true)

def legacyHypothesisDigest (sha : Bytes → Digest) (h : PodHypothesis) : Digest :=
  sha (hypothesisFields h false)

def validateHypothesis (sha : Bytes → Digest) (h : PodHypothesis) : Except RuntimeError Unit :=
  if h.requestId.isEmpty ∨ h.sessionId.isEmpty ∨ h.scopeId.isEmpty ∨ h.branchId.isEmpty ∨
      h.podId.isEmpty ∨
      h.outputType.isEmpty ∨ h.generation = 0 ∨ h.manifestDigest = Digest.zero ∨
      h.artifactDigest = Digest.zero ∨ h.outputDigest = Digest.zero ∨
      h.provenance.any (fun p => p.1.isEmpty) ∨ Digest.zero ∈ h.dependencies ∨
      !isProbabilityBits h.confidenceBits ∨ h.verification.verifiers = [] then
    .error (.podOutputAdmission "invalid Pod hypothesis event")
  else if hypothesisDigest sha h ≠ h.outputDigest ∧
      legacyHypothesisDigest sha h ≠ h.outputDigest then
    .error (.podOutputAdmission "hypothesis output digest mismatch")
  else .ok ()

/-! ### The projections -/

/-- What the rules of the expert registry give for a record: the registry it
leaves and the values it sets. -/
structure ExpertPlan (ρ : Type) where
  registry : ρ
  entries : List (String × String)

/-- The parts that are used here and developed elsewhere, over the registry of
experts `ρ` and the tier journal `τ`. -/
structure Rules (ρ τ : Type) where
  sha : Bytes → Digest
  decodeEvidence : Bytes → Except String PodEvidence
  tierNew : τ
  tierApply : τ → LedgerEvent → Except String τ
  expertsNew : ρ
  /-- What the validation of an expert record asks beyond its plan. -/
  expertCheck : Lifecycle → ρ → LedgerEvent → Except RuntimeError Unit
  expertPlan : Lifecycle → ρ → LedgerEvent → Except RuntimeError (ExpertPlan ρ)
  expertEntries : ProjectId → Bytes → List (String × String)
  /-- The registry sets values under its own names only. -/
  expertPlan_named : ∀ l experts e plan, expertPlan l experts e = .ok plan →
    ∀ p ∈ plan.entries, hasPrefix "expert" p.1 = true
  expertEntries_named : ∀ project record, ∀ p ∈ expertEntries project record,
    hasPrefix "expert" p.1 = true

structure History (ρ τ : Type) where
  semdb : SemanticHost
  state : MaterializedState
  lifecycle : Lifecycle
  obligations : Obligations
  scopes : ScopeRegistry
  executionManifests : ExecutionManifestRegistry
  revokedSessions : ExtTreeSet SessionId
  hypotheses : ExtTreeMap String Hypothesis
  tierJournal : τ
  experts : ρ
  taint : Taint
  podHeads : PodHeads

variable {ρ τ : Type}

def History.empty (R : Rules ρ τ) (owner : Nat) : History ρ τ where
  semdb := .new owner
  state := .empty
  lifecycle := .empty
  obligations := .empty
  scopes := .empty
  executionManifests := .empty
  revokedSessions := ∅
  hypotheses := ∅
  tierJournal := R.tierNew
  experts := R.expertsNew
  taint := ∅
  podHeads := ∅

/-! ### Records that read one projection -/

def validateEvidence (R : Rules ρ τ) (e : PodEvidence) : Except RuntimeError Unit := do
  let decoded ← (R.decodeEvidence e.bundle).mapError .podEvidence
  if decoded.sessionId ≠ e.sessionId ∨ decoded.traceId ≠ e.traceId ∨
      decoded.manifestDigest ≠ e.manifestDigest ∨ decoded.artifactDigest ≠ e.artifactDigest ∨
      decoded.generation ≠ e.generation ∨ decoded.revision ≠ e.revision ∨
      decoded.bundleDigest ≠ e.bundleDigest then .error (.podEvidence "DigestMismatch")
  else .ok ()

def validateOutput (o : PodOutput) : Except RuntimeError Unit :=
  if o.requestId.isEmpty ∨ o.sessionId.isEmpty ∨ o.scopeId.isEmpty ∨ o.podId.isEmpty ∨
      o.outputType.isEmpty ∨
      o.generation = 0 ∨ 7 < o.outputKind ∨ o.manifestDigest = Digest.zero ∨
        o.artifactDigest = Digest.zero ∨
      o.outputDigest = Digest.zero ∨ o.verification.verifiers = [] then
    .error (.podOutputAdmission "invalid Pod output admission event")
  else .ok ()

def validateProtectedState (s : ProtectedState) : Except RuntimeError Unit :=
  if 4 < s.domain ∨ s.logicalId.isEmpty ∨ s.revision = 0 ∨ s.plaintextDigest = Digest.zero ∨
      s.ciphertextDigest = Digest.zero ∨ s.anchorDigest = Digest.zero then
    .error (.invalidConfig "invalid protected-state ledger reference")
  else .ok ()

/-- A manifest record carries the manifest that it names; nothing here asks what
the registries hold. -/
def validateAdmission (sha : Bytes → Digest) (a : ManifestAdmission) : Except RuntimeError Unit :=
  match ExecutionManifest.decodeCanonical sha a.manifest with
  | .error _ => .error (.invalidConfig "invalid execution manifest")
  | .ok m =>
    if m.manifestDigest ≠ a.manifestDigest ∨ m.generation ≠ a.generation ∨
        m.snapshotRevision ≠ a.revision ∨
        m.policyRevision ≠ a.policyRevision then
      .error (.invalidConfig "execution manifest event binding mismatch")
    else .ok ()

namespace Obligations

def validateAttempt (o : Obligations) (a : EffectAttempt) : Except RuntimeError Unit :=
  match a.key with
  | none => .ok ()
  | some key =>
    if !validIdentifier key then .error (.invalidEffectKey key)
    else if o.keyInFlight key then .error (.effectKeyInFlight key)
    else .ok ()

def validateSettled (sha : Bytes → Digest) (o : Obligations) (attempt : CommitIndex)
    (response : Option Bytes) (digest : Digest) : Except RuntimeError Unit :=
  if !o.isUnsettled attempt then .error (.unknownEffectAttempt attempt)
  else match response with
    | some bytes =>
      if maxRetainedResponse < bytes.length ∨ sha bytes ≠ digest then
        .error (.inconsistentEffectResponse attempt)
      else .ok ()
    | none => .ok ()

end Obligations

end Ptr.Runtime
