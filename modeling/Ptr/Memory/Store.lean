import Mathlib.Data.List.Sort
import Ptr.Lib.Keyed
import Ptr.Lib.Levels
import Ptr.Types

/-!
# The memory store

Typed records with a lifecycle, and derivations between them.  Every operation is
computed completely first: what it changes is one `MemoryDelta`, the new value of
every changed record with the new horizon and clock, and only then is the delta
written and applied.  An operation here therefore gives its delta, none if there is
nothing to change, together with its result.
-/

namespace Ptr.Memory

open Lib

abbrev MemoryRecordId := String

inductive MemoryClass
  | semantic | episodic | procedural | epistemic
  deriving DecidableEq

inductive RecordState
  | provisional | authoritative | needsRevalidation | retired | revoked
  deriving DecidableEq

def RecordState.canTransitionTo : RecordState → RecordState → Bool
  | .provisional, .authoritative | .provisional, .retired | .provisional, .revoked => true
  | .authoritative, .needsRevalidation | .authoritative, .retired | .authoritative, .revoked => true
  | .needsRevalidation, .authoritative | .needsRevalidation, .provisional
  | .needsRevalidation, .retired
  | .needsRevalidation, .revoked => true
  | .retired, .revoked => true
  | _, _ => false

def RecordState.isLive : RecordState → Bool
  | .provisional | .authoritative | .needsRevalidation => true
  | .retired | .revoked => false

inductive SupportKind
  | observation (revision : Revision)
  | derived
  | searchHit
  deriving DecidableEq

structure Support where
  source : String
  kind : SupportKind
  deriving DecidableEq

def Support.isCommitted (s : Support) (horizon : Revision) : Bool :=
  match s.kind with
  | .observation revision => revision ≤ horizon
  | .derived | .searchHit => false

def Support.isObservation (s : Support) : Bool :=
  match s.kind with
  | .observation _ => true
  | .derived | .searchHit => false

structure MemoryRecord where
  id : MemoryRecordId
  «class» : MemoryClass
  body : String
  sensitive : Bool
  pinned : Bool
  state : RecordState
  supports : List Support
  derivedFrom : List MemoryRecordId
  revokedAncestors : List MemoryRecordId
  createdAt : U64
  updatedAt : U64
  deriving DecidableEq

namespace MemoryRecord

def independentCommittedSources (r : MemoryRecord) (horizon : Revision) : Nat :=
  ((r.supports.filter (·.isCommitted horizon)).map (·.source)).eraseDups.length

def hasCommittedSupport (r : MemoryRecord) (horizon : Revision) : Bool :=
  r.supports.any (·.isCommitted horizon)

def onlyDerivedOrSearchSupport (r : MemoryRecord) : Bool :=
  !r.supports.isEmpty && r.supports.all fun s => !s.isObservation

end MemoryRecord

/-! ### Consolidation and retention -/

structure Contradiction where
  record : MemoryRecordId
  verifier : String
  detail : String

inductive DeferReason
  | insufficientIndependentSources (have' need : Nat)
  | noCommittedObservation
  | noSupport
  deriving DecidableEq

inductive RejectReason
  | verifierContradiction | onlyDerivedOrSearchSupport | notEpisodic | terminalState
  deriving DecidableEq

inductive PromotionDecision
  | promote
  | defer (reason : DeferReason)
  | reject (reason : RejectReason)
  deriving DecidableEq

inductive RetentionVerdict
  | keep | demote | forget

structure ConsolidationPolicy where
  minIndependentSources : Nat := 2
  episodicTtl : Nat := 1000

namespace ConsolidationPolicy

/-- `decide_promotion`: a contradiction is looked at before any support. -/
def decidePromotion (p : ConsolidationPolicy) (r : MemoryRecord) (horizon : Revision)
    (contradictions : List Contradiction) : PromotionDecision :=
  let need := max p.minIndependentSources 1
  let sources := r.independentCommittedSources horizon
  if !r.state.isLive then .reject .terminalState
  else if r.class ≠ .episodic then .reject .notEpisodic
  else if contradictions.any (·.record = r.id) then .reject .verifierContradiction
  else if r.onlyDerivedOrSearchSupport then .reject .onlyDerivedOrSearchSupport
  else if r.supports.isEmpty then .defer .noSupport
  else if !r.hasCommittedSupport horizon then .defer .noCommittedObservation
  else if sources < need then .defer (.insufficientIndependentSources sources need)
  else .promote

/-- `decide_retention`: a contradiction outranks a pin, which only prevents
forgetting. -/
def decideRetention (p : ConsolidationPolicy) (r : MemoryRecord) (now : U64)
    (contradictions : List Contradiction) : RetentionVerdict :=
  let contradicted := contradictions.any (·.record = r.id)
  if r.pinned && !(r.state = .authoritative && contradicted) then .keep
  else match r.state with
    | .retired | .revoked => .keep
    | .authoritative => if contradicted then .demote else .keep
    | .provisional | .needsRevalidation =>
      if r.class = .episodic && p.episodicTtl ≤ now.val - r.updatedAt.val then .forget else .keep

end ConsolidationPolicy

/-! ### Limits and errors -/

structure MemoryLimits where
  maxRecordsPerClass : Nat := 10000
  maxIdBytes : Nat := 256
  maxBodyBytes : Nat := 64 * 1024
  maxSupports : Nat := 64
  maxDerivedFrom : Nat := 64
  maxRevocationDepth : Nat := 64
  maxRevocationVisited : Nat := 10000

structure NewMemoryRecord where
  id : MemoryRecordId
  «class» : MemoryClass
  body : String
  sensitive : Bool
  pinned : Bool
  supports : List Support
  derivedFrom : List MemoryRecordId

inductive RecordViolation
  | emptyId | idTooLong | bodyTooLarge | tooManySupports | tooManyDerivations | emptySupportSource

inductive TraversalLimit
  | depth (limit : Nat)
  | visited (limit : Nat)

/-- What an operation on the records refuses; a class is named by itself. -/
inductive MemoryStoreError
  | duplicateRecord (id : MemoryRecordId)
  | unknownRecord (id : MemoryRecordId)
  | invalidRecord (violation : RecordViolation)
  | capacityExceeded («class» : MemoryClass) (limit : Nat)
  | invalidTransition (id : MemoryRecordId) (src dst : RecordState)
  | noCommittedSupport (id : MemoryRecordId)
  | revokedAncestor (id ancestor : MemoryRecordId)
  | terminalRecord (id : MemoryRecordId)
  | selfDerivation (id : MemoryRecordId)
  | traversalBoundExceeded (limit : TraversalLimit)
  | horizonRegression (current requested : Revision)
  | recoveredRecordInvalid (id : MemoryRecordId) (violation : RecordViolation)
  | recoveredCapacityExceeded («class» : MemoryClass) (count limit : Nat)

structure RevocationReport where
  revoked : MemoryRecordId
  markedForRevalidation : List MemoryRecordId
  visited : Nat

structure AppliedRetention where
  id : MemoryRecordId
  verdict : RetentionVerdict

/-! ### States and deltas -/

structure MemoryState where
  records : Std.ExtTreeMap MemoryRecordId MemoryRecord
  horizon : Revision
  clock : U64

structure MemoryDelta where
  horizon : Revision
  clock : U64
  records : List MemoryRecord

namespace MemoryState

abbrev Checked := Except MemoryStoreError

def empty : MemoryState := ⟨∅, 0, 0⟩

variable (s : MemoryState)

def apply (d : MemoryDelta) : MemoryState :=
  ⟨insertAll MemoryRecord.id s.records d.records, d.horizon, d.clock⟩

/-- The frame of `commit`: every changed record carries the new clock. -/
def delta (changed : List MemoryRecord) (horizon : Revision) : MemoryDelta :=
  ⟨horizon, s.clock + 1, changed.map fun r => { r with updatedAt := s.clock + 1 }⟩

def require (id : MemoryRecordId) : Checked MemoryRecord :=
  match s.records[id]? with
  | some r => .ok r
  | none => .error (.unknownRecord id)

def requireMutable (id : MemoryRecordId) : Checked MemoryRecord := do
  let r ← s.require id
  if !r.state.isLive then .error (.terminalRecord id) else .ok r

def classCount (c : MemoryClass) : Nat := (s.records.toList.filter (·.2.class = c)).length

def checkSupport (support : Support) : Checked Unit :=
  if support.source.isEmpty then .error (.invalidRecord .emptySupportSource) else .ok ()

def mergeMarkers (markers extra : List MemoryRecordId) : List MemoryRecordId :=
  (extra.foldl (fun l m => if m ∈ l then l else l ++ [m]) markers).insertionSort (· ≤ ·)

/-! ### Operations -/

abbrev Planned (α : Type) := Option MemoryDelta × α

def checkParent (id parent : MemoryRecordId) : Checked MemoryRecord :=
  if parent = id then .error (.selfDerivation id)
  else do
    let r ← s.require parent
    if r.state = .revoked then .error (.revokedAncestor id parent) else .ok r

def inherit (id : MemoryRecordId) (parents : List MemoryRecordId) :
    Checked (List MemoryRecordId × List MemoryRecordId) :=
  parents.foldlM (fun acc parent => do
    let r ← s.checkParent id parent
    .ok (if parent ∈ acc.1 then acc.1 else acc.1 ++ [parent],
      mergeMarkers acc.2 r.revokedAncestors)) ([], [])

/-- The record that `insert` adds.  One derived from a flagged record is flagged. -/
def newRecord (new : NewMemoryRecord) (derivedFrom revokedAncestors : List MemoryRecordId) :
    MemoryRecord where
  id := new.id
  «class» := new.class
  body := new.body
  sensitive := new.sensitive
  pinned := new.pinned
  state := if revokedAncestors.isEmpty then .provisional else .needsRevalidation
  supports := new.supports
  derivedFrom := derivedFrom
  revokedAncestors := revokedAncestors
  createdAt := s.clock + 1
  updatedAt := s.clock + 1

variable (limits : MemoryLimits)

def insert (s : MemoryState) (new : NewMemoryRecord) : Checked (Planned Unit) :=
  if new.id.isEmpty then .error (.invalidRecord .emptyId)
  else if limits.maxIdBytes < new.id.utf8ByteSize then .error (.invalidRecord .idTooLong)
  else if limits.maxBodyBytes < new.body.utf8ByteSize then .error (.invalidRecord .bodyTooLarge)
  else if limits.maxSupports < new.supports.length then .error (.invalidRecord .tooManySupports)
  else if limits.maxDerivedFrom < new.derivedFrom.length then
    .error (.invalidRecord .tooManyDerivations)
  else do
    new.supports.forM checkSupport
    if new.id ∈ s.records then .error (.duplicateRecord new.id)
    else if limits.maxRecordsPerClass ≤ s.classCount new.class then
      .error (.capacityExceeded new.class limits.maxRecordsPerClass)
    else do
      let inherited ← s.inherit new.id new.derivedFrom
      .ok (some (s.delta [s.newRecord new inherited.1 inherited.2] s.horizon), ())

def addSupport (s : MemoryState) (id : MemoryRecordId) (support : Support) :
    Checked (Planned Unit) := do
  checkSupport support
  let r ← s.requireMutable id
  if limits.maxSupports ≤ r.supports.length then .error (.invalidRecord .tooManySupports)
  else .ok (some (s.delta [{ r with supports := r.supports ++ [support] }] s.horizon), ())

def children (node : MemoryRecordId) : List MemoryRecordId :=
  s.records.toList.flatMap fun p => (p.2.derivedFrom.filter (· = node)).map fun _ => p.2.id

def dependentsClosure (s : MemoryState) (root : MemoryRecordId) :
    Checked (List MemoryRecordId) :=
  match bounded limits.maxRevocationVisited limits.maxRevocationDepth s.children root with
  | .ok order => .ok order
  | .error .visited => .error (.traversalBoundExceeded (.visited limits.maxRevocationVisited))
  | .error .depth => .error (.traversalBoundExceeded (.depth limits.maxRevocationDepth))

def flagInheriting (markers : List MemoryRecordId) (r : MemoryRecord) : MemoryRecord :=
  if r.state.isLive then
    { r with
      state := .needsRevalidation, revokedAncestors := mergeMarkers r.revokedAncestors markers }
  else r

def markRevoked (id : MemoryRecordId) (r : MemoryRecord) : MemoryRecord :=
  if r.state.isLive then
    { r with
      state := .needsRevalidation
      revokedAncestors :=
        if id ∈ r.revokedAncestors then r.revokedAncestors
        else (r.revokedAncestors ++ [id]).insertionSort (· ≤ ·) }
  else r

def changes (f : MemoryRecord → MemoryRecord) (ids : List MemoryRecordId) :
    Checked (List MemoryRecord) := do
  let rs ← ids.mapM s.require
  .ok ((rs.filter fun r => f r ≠ r).map f)

def addDerivation (s : MemoryState) (id parent : MemoryRecordId) : Checked (Planned Unit) :=
  if id = parent then .error (.selfDerivation id)
  else do
    let r ← s.requireMutable id
    let p ← s.require parent
    if p.state = .revoked then .error (.revokedAncestor id parent)
    else if parent ∈ r.derivedFrom then .ok (none, ())
    else if limits.maxDerivedFrom ≤ r.derivedFrom.length then
      .error (.invalidRecord .tooManyDerivations)
    else
      let r := { r with derivedFrom := r.derivedFrom ++ [parent] }
      if p.revokedAncestors.isEmpty then .ok (some (s.delta [r] s.horizon), ())
      else do
        -- the new edge brings revoked ancestry to the record and to all that derive from it
        let dependents ← s.dependentsClosure limits id
        let changed ← s.changes (flagInheriting p.revokedAncestors) dependents
        .ok (some (s.delta (flagInheriting p.revokedAncestors r :: changed) s.horizon), ())

def advanceCommittedRevision (revision : Revision) : Checked (Planned Unit) :=
  if revision < s.horizon then .error (.horizonRegression s.horizon revision)
  else if revision = s.horizon then .ok (none, ())
  else .ok (some (s.delta [] revision), ())

def authorityGate (r : MemoryRecord) : Checked Unit :=
  if !r.hasCommittedSupport s.horizon then .error (.noCommittedSupport r.id)
  else (r.derivedFrom ++ r.revokedAncestors).forM fun ancestor => do
    let a ← s.require ancestor
    if a.state = .revoked then .error (.revokedAncestor r.id ancestor) else .ok ()

/-- A revoked record stays as it is. -/
def revoke (s : MemoryState) (id : MemoryRecordId) : Checked (Planned RevocationReport) := do
  let root ← s.require id
  if root.state = .revoked then .ok (none, ⟨id, [], 0⟩)
  else do
    let dependents ← s.dependentsClosure limits id
    let changed ← s.changes (markRevoked id) dependents
    let marked := dependents.filter fun d =>
      (s.records[d]?).any fun r => r.state = .provisional || r.state = .authoritative
    .ok (some (s.delta ({ root with state := .revoked } :: changed) s.horizon),
      ⟨id, marked.insertionSort (· ≤ ·), dependents.length⟩)

def authorized (r : MemoryRecord) : MemoryRecord :=
  { r with state := .authoritative, revokedAncestors := [] }

def transition (s : MemoryState) (id : MemoryRecordId) (dst : RecordState) :
    Checked (Planned Unit) := do
  let r ← s.require id
  if !r.state.canTransitionTo dst then .error (.invalidTransition id r.state dst)
  else match dst with
    | .revoked => (s.revoke limits id).map fun p => (p.1, ())
    | .authoritative => do
      s.authorityGate r
      .ok (some (s.delta [authorized r] s.horizon), ())
    | .provisional | .needsRevalidation | .retired =>
      .ok (some (s.delta [{ r with state := dst }] s.horizon), ())

/-- A record that is promoted passes the gate, unless it has authority already. -/
def gated (r : MemoryRecord) : Checked MemoryRecord :=
  if r.state ≠ .authoritative then do
    s.authorityGate r
    .ok (authorized r)
  else .ok r

def promote (s : MemoryState) (id : MemoryRecordId) (policy : ConsolidationPolicy)
    (contradictions : List Contradiction) : Checked (Planned PromotionDecision) := do
  let r ← s.require id
  let decision := policy.decidePromotion r s.horizon contradictions
  if decision ≠ .promote then .ok (none, decision)
  else do
    let r ← s.gated r
    if limits.maxRecordsPerClass ≤ s.classCount .semantic then
      .error (.capacityExceeded .semantic limits.maxRecordsPerClass)
    else .ok (some (s.delta [{ r with «class» := .semantic }] s.horizon), decision)

def retained (policy : ConsolidationPolicy) (contradictions : List Contradiction) (now : U64)
    (r : MemoryRecord) : Option (RetentionVerdict × RecordState) :=
  let verdict := policy.decideRetention r now contradictions
  let dst : Option RecordState :=
    match verdict with
    | .keep => none
    | .demote => some .needsRevalidation
    | .forget => some .retired
  (dst.filter fun d => r.state.canTransitionTo d).map fun d => (verdict, d)

def applyRetention (policy : ConsolidationPolicy) (contradictions : List Contradiction) :
    Checked (Planned (List AppliedRetention)) :=
  let moved := s.records.toList.filterMap fun p =>
    (retained policy contradictions s.clock p.2).map fun m => (p.2, m)
  let changed := moved.map fun q => { q.1 with state := q.2.2 }
  .ok (if changed.isEmpty then none else some (s.delta changed s.horizon), moved.map fun q =>
    ⟨q.1.id, q.2.1⟩)

end MemoryState

inductive MemoryOp
  | insert (new : NewMemoryRecord)
  | addSupport (id : MemoryRecordId) (support : Support)
  | addDerivation (id parent : MemoryRecordId)
  | advanceCommittedRevision (revision : Revision)
  | transition (id : MemoryRecordId) (dst : RecordState)
  | revoke (id : MemoryRecordId)
  | promote (id : MemoryRecordId) (policy : ConsolidationPolicy)
    (contradictions : List Contradiction)
  | applyRetention (policy : ConsolidationPolicy) (contradictions : List Contradiction)

namespace MemoryState

def plan (limits : MemoryLimits) (s : MemoryState) : MemoryOp → Checked (Option MemoryDelta)
  | .insert new => (s.insert limits new).map Prod.fst
  | .addSupport id support => (s.addSupport limits id support).map Prod.fst
  | .addDerivation id parent => (s.addDerivation limits id parent).map Prod.fst
  | .advanceCommittedRevision revision => (s.advanceCommittedRevision revision).map Prod.fst
  | .transition id dst => (s.transition limits id dst).map Prod.fst
  | .revoke id => (s.revoke limits id).map Prod.fst
  | .promote id policy contradictions => (s.promote limits id policy contradictions).map Prod.fst
  | .applyRetention policy contradictions => (s.applyRetention policy contradictions).map Prod.fst

/-! ### Reopening -/

def replay (frames : List MemoryDelta) : MemoryState := frames.foldl apply empty

def snapshot (s : MemoryState) : List MemoryDelta :=
  ⟨s.horizon, s.clock, []⟩ :: s.records.toList.map fun p => ⟨s.horizon, s.clock, [p.2]⟩

def violation (limits : MemoryLimits) (r : MemoryRecord) : Option RecordViolation :=
  if limits.maxIdBytes < r.id.utf8ByteSize then some .idTooLong
  else if limits.maxBodyBytes < r.body.utf8ByteSize then some .bodyTooLarge
  else if limits.maxSupports < r.supports.length then some .tooManySupports
  else if limits.maxDerivedFrom < r.derivedFrom.length then some .tooManyDerivations
  else none

def classes : List MemoryClass := [.episodic, .epistemic, .procedural, .semantic]

def validateRecovered (limits : MemoryLimits) (s : MemoryState) : Checked Unit := do
  s.records.toList.forM fun p =>
    match violation limits p.2 with
    | some v => .error (.recoveredRecordInvalid p.2.id v)
    | none => .ok ()
  classes.forM fun c =>
    if limits.maxRecordsPerClass < s.classCount c then
      .error (.recoveredCapacityExceeded c (s.classCount c) limits.maxRecordsPerClass)
    else .ok ()

end MemoryState

structure MemoryLog where
  state : MemoryState
  frames : List MemoryDelta

/-- One thing that happens to a store: an operation under the limits it was opened
with, a compaction, or a reopening. -/
inductive MemoryStep
  | call (limits : MemoryLimits) (op : MemoryOp)
  | compact
  | reopen (limits : MemoryLimits)

namespace MemoryLog

def new : MemoryLog := ⟨.empty, []⟩

/-- A frame is written, then applied.  A reopening that refuses the records leaves the
journal as it is. -/
def step (m : MemoryLog) : MemoryStep → MemoryLog
  | .call limits op =>
    match m.state.plan limits op with
    | .ok (some d) => ⟨m.state.apply d, m.frames ++ [d]⟩
    | .ok none | .error _ => m
  | .compact => { m with frames := m.state.snapshot }
  | .reopen limits =>
    match (MemoryState.replay m.frames).validateRecovered limits with
    | .ok () => { m with state := .replay m.frames }
    | .error _ => m

def run (m : MemoryLog) (steps : List MemoryStep) : MemoryLog := steps.foldl step m

end MemoryLog

end Ptr.Memory
