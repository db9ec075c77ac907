import Ptr.Runtime.Apply

/-!
# Appending records

Every record goes through `append_checked`.  A caller reaches it by one of four
ways: `commit`, which takes any event and refuses the kinds that have a path of
their own; `commit_settlement`, which passes the fence of an unsettled effect;
`commit_gated` and the admission paths of experts and taint, which write what they
validated; and the semantic writers, which prepare a delta first.

A replay runs the same validation and the same application over a list of records.
-/

namespace Ptr.Runtime

open Lib Ledger Semdb

variable {ρ τ : Type}

/-! ### Rules for new records only -/

def hasOwnPath : LedgerEvent → Bool
  | .expertStructuralCommitted _ | .expertFenceCommitted _ | .inputInvalidated _
  | .expertAuthorityChanged _
  | .kvTaintCommitted .. | .egressRefused _ => true
  | _ => false

def isSemantic : LedgerEvent → Bool
  | .semanticDeltaCommitted .. => true
  | _ => false

def isSettlement : LedgerEvent → Bool
  | .effectSettled .. | .effectReconciled .. => true
  | _ => false

def validateNewAttempt (a : EffectAttempt) : Except RuntimeError Unit :=
  match a.key.filter fun key => !validKey key with
  | some key => .error (.invalidEffectKey key)
  | none =>
    if !validAttemptField a.target then
      .error (.invalidEffectAttemptField .target a.target.utf8ByteSize)
    else if !validAttemptField a.operation then
      .error (.invalidEffectAttemptField .operation a.operation.utf8ByteSize)
    else .ok ()

def validateNewRecord (sha : Bytes → Digest) (e : LedgerEvent) : Except RuntimeError Unit :=
  if hasOwnPath e then .error .structuralRecordOutsideAdmissionPath
  else if isSemantic e then .error .semanticRecordOutsideSemanticPath
  else match e with
    | .podHypothesisCommitted h =>
      if hypothesisDigest sha h ≠ h.outputDigest then
        .error (.podOutputAdmission "hypothesis output digest mismatch")
      else .ok ()
    | .effectAttempted a => validateNewAttempt a
    | _ => .ok ()

namespace PtrRuntime

abbrev Outcome (ρ τ α : Type) := Except RuntimeError α × PtrRuntime ρ τ

/-! ### The paths to the ledger -/

def nextIndex (r : PtrRuntime ρ τ) : Option CommitIndex :=
  if h : r.base.val + r.ledger.length + 1 < 2 ^ 64 then some ⟨r.base.val + r.ledger.length + 1, h⟩
  else none

def begun (r : PtrRuntime ρ τ) (c : CommittedEvent) : PtrRuntime ρ τ :=
  { r with uncertain := true, ledger := r.ledger ++ [c] }

variable (R : Rules ρ τ)

/-- `append_checked`: from the append to the end of the application the outcome is
uncertain, and a failed application leaves it so. -/
def appendChecked (r : PtrRuntime ρ τ) (e : LedgerEvent) (semantic : Option PreparedDelta) :
    Outcome ρ τ CommitIndex :=
  match checkEncodable e with
  | .error io => (.error (.ledger io.message), r)
  | .ok () =>
    match r.nextIndex with
    | none => (.error (.ledger "PTR_LEDGER_INDEX_EXHAUSTED"), { r with uncertain := true })
    | some index =>
      match (r.begun ⟨index, e⟩).applyCommitted R ⟨index, e⟩ semantic with
      | (.error error, r) => (.error error, r)
      | (.ok (), r) => (.ok index, { r with uncertain := false })

def appendPrepared (r : PtrRuntime ρ τ) (e : LedgerEvent) (semantic : Option PreparedDelta) :
    Outcome ρ τ CommitIndex :=
  if r.isFenced then (.error .executionFenced, r) else r.appendChecked R e semantic

def checkScopeCapacity (r : PtrRuntime ρ τ) : LedgerEvent → Except RuntimeError Unit
  | .scopeLifecycle s => (r.history.scopes.checkCapacity s).mapError .scope
  | _ => .ok ()

def commitChecks (r : PtrRuntime ρ τ) (e : LedgerEvent) :
    Except RuntimeError (Option PreparedDelta) :=
  if isSettlement e then .error .settlementOutsideExecutionPath
  else if r.isFenced then .error .executionFenced
  else do
    validateNewRecord R.sha e
    r.checkScopeCapacity e
    checkExecutionSectionGrowth r.history.obligations r.history.scopes e
    r.validateLifecycleEvent R e
    r.prepareSemanticEvent R none e

def commit (r : PtrRuntime ρ τ) (e : LedgerEvent) : Outcome ρ τ CommitIndex :=
  match r.commitChecks R e with
  | .error error => (.error error, r)
  | .ok semantic => r.appendPrepared R e semantic

/-- `commit_settlement`: an unsettled effect does not stop its own settlement. -/
def commitSettlement (r : PtrRuntime ρ τ) (e : LedgerEvent) : Outcome ρ τ CommitIndex :=
  if r.uncertain then (.error .executionFenced, r)
  else match r.validateLifecycleEvent R e with
    | .error error => (.error error, r)
    | .ok () =>
      match checkExecutionSectionGrowth r.history.obligations r.history.scopes e with
      | .error error => (.error error, r)
      | .ok () => r.appendChecked R e none

/-- The admission paths of experts and taint: validated, then appended behind the
fence. -/
def commitValidated (r : PtrRuntime ρ τ) (e : LedgerEvent) : Outcome ρ τ CommitIndex :=
  match r.validateLifecycleEvent R e with
  | .error error => (.error error, r)
  | .ok () => r.appendPrepared R e none

/-- `commit_gated`, which the refusals of egress go through: the fence comes first. -/
def commitGated (r : PtrRuntime ρ τ) (e : LedgerEvent) : Outcome ρ τ CommitIndex :=
  if r.isFenced then (.error .executionFenced, r) else r.commitValidated R e

/-- The end of a semantic write: a change of the revision is recorded with the
encoded delta and its origin. -/
def appendSemantic (r : PtrRuntime ρ τ) (origin : SemanticOrigin) (encoded : Bytes)
    (prepared : PreparedDelta) : Outcome ρ τ (Option CommitIndex) :=
  match r.appendPrepared R
    (.semanticDeltaCommitted r.revision prepared.next.revision encoded origin)
    (some prepared) with
  | (.error e, r) => (.error e, r)
  | (.ok index, r) => (.ok (some index), r)

/-- `apply_ingress`: raw input, in the shape its origin fixes, with no verifier. -/
def applyIngress (r : PtrRuntime ρ τ) (origin : SemanticOrigin) (d : SemanticDelta) :
    Outcome ρ τ (Option CommitIndex) :=
  if r.isFenced then (.error .executionFenced, r)
  else match d.encode with
    | .error e => (.error (.semantic e), r)
    | .ok encoded =>
      match validateSemanticOrigin R.sha r.history.state.values none r.revision encoded d
          origin with
      | .error e => (.error e, r)
      | .ok () =>
        match r.history.semdb.prepareDelta d with
        | .error e => (.error (.semantic e), r)
        | .ok prepared =>
          if prepared.next.revision = r.revision then (.ok none, r)
          else r.appendSemantic R origin encoded prepared

/-- A host write or a merge, once the verifiers gave their verdict: the change must
not evict an ingress key, and its origin is checked before the record exists. -/
def applyJudged (r : PtrRuntime ρ τ) (verdict : Except RuntimeError Unit) (origin : SemanticOrigin)
    (d : SemanticDelta) : Outcome ρ τ (Option CommitIndex) :=
  if r.isFenced then (.error .executionFenced, r)
  else match d.encode with
    | .error e => (.error (.semantic e), r)
    | .ok encoded =>
      match r.history.semdb.prepareDelta d with
      | .error e => (.error (.semantic e), r)
      | .ok prepared =>
        match evictedIngressKey prepared with
        | some key => (.error (.reservedSemanticNamespace key), r)
        | none =>
          match verdict with
          | .error e => (.error e, r)
          | .ok () =>
            if prepared.next.revision = r.revision then (.ok none, r)
            else match validateSemanticOrigin R.sha r.history.state.values none r.revision
              encoded d origin with
              | .error e => (.error e, r)
              | .ok () => r.appendSemantic R origin encoded prepared

/-! ### Replay -/

def replayRecord (r : PtrRuntime ρ τ) (c : CommittedEvent) :
    Except RuntimeError (PtrRuntime ρ τ) := do
  r.validateLifecycleEvent R c.event
  let semantic ← r.prepareSemanticEvent R (some c.index) c.event
  match r.nextIndex with
  | none => .error (.ledger "PTR_LEDGER_INDEX_EXHAUSTED")
  | some actual =>
    if actual ≠ c.index then .error (.replayIndexMismatch c.index actual)
    else match { r with ledger := r.ledger ++ [c] }.applyCommitted R c semantic with
      | (.error e, _) => .error e
      | (.ok (), r) => .ok r

def markRecoveryRequired (r : PtrRuntime ρ τ) : PtrRuntime ρ τ :=
  let unreleased := r.history.scopes.scopes.toList.filter fun p => p.2.state ≠ .released
  { r with recoveryRequired := .ofList (unreleased.map fun p => p.2.id) }

/-- `replay_with_attestors`. -/
def replay (owner : Nat) (boundary : ActionBoundaryConfig) (events : List CommittedEvent) :
    Except RuntimeError (PtrRuntime ρ τ) := do
  let r ← events.foldlM (replayRecord R) (new R owner boundary)
  .ok r.markRecoveryRequired

end PtrRuntime

end Ptr.Runtime
