import Ptr.Lib.Ascending
import Ptr.Runtime.Compacted
import Ptr.Runtime.Rebuild

/-!
# Restoring from a compacted snapshot

`restore_compacted` takes a snapshot apart into its three sections, decodes each one
strictly (ascending keys, known tags, nothing left over), builds a runtime at the
snapshot's floor and replays the records above it.  What no section carries starts
empty.

The block of the experts is read by the expert registry, so its reader and its check
against the rest of the section are parameters, as its writer is.
-/

namespace Ptr.Runtime

open Lib Ledger Semdb Std Reader

variable {ρ τ : Type}

/-! ### The reader of a section -/

def lengthMismatch : RuntimeError := .compacted .lengthMismatch
def noncanonical : RuntimeError := .compacted .noncanonicalSection
def unsupportedVersion : RuntimeError := .compacted .unsupportedVersion
def unknownTag : RuntimeError := .compacted .unknownTag

namespace SectionReader

/-- A count is checked against the bytes that remain. -/
def count : Reader RuntimeError Nat := do
  let n ← u32 lengthMismatch
  fun rest => if maxSectionItems < n.val ∨ rest.length < n.val then .error sectionLimit
    else .ok (n.val, rest)

def text : Reader RuntimeError String := do
  let n ← u32 lengthMismatch
  if n.val = 0 ∨ maxStringBytes < n.val then fail sectionLimit
  else do
    let bs ← take lengthMismatch n.val
    match ofUtf8 bs with
    | some s => pure s
    | none => fail noncanonical

def blob : Reader RuntimeError Bytes := do
  let n ← u32 lengthMismatch
  fun rest =>
    if maxRetainedResponse < n.val ∨ rest.length < n.val then .error sectionLimit
    else take lengthMismatch n.val rest

def number : Reader RuntimeError U64 := u64 lengthMismatch

def field : Reader RuntimeError String := string lengthMismatch noncanonical

def identity : Reader RuntimeError ActionIdentity := do
  let project ← field
  let principal ← field
  let revision ← number
  let generation ← number
  let digest ← Digest.read lengthMismatch
  pure ⟨project, principal, revision, generation, digest⟩

def expectMagic (m : Bytes) : Reader RuntimeError Unit := do
  let bs ← take lengthMismatch 8
  if bs ≠ m then fail unsupportedVersion else pure ()

/-- `check_ascending`. -/
def ascending {κ : Type} [Ord κ] (previous : Option κ) (k : κ) : Reader RuntimeError Unit :=
  if previous.any fun last => compare last k ≠ .lt then fail noncanonical else pure ()

def mapOf {κ β : Type} [Ord κ] [TransOrd κ] (item : Option κ → Reader RuntimeError (κ × β)) :
    Reader RuntimeError (ExtTreeMap κ β) := do
  let n ← count
  entries item store n none ∅

def flagged {α : Type} (bad : RuntimeError) (read : Reader RuntimeError α) :
    Reader RuntimeError (Option α) := do
  let flag ← number
  if flag = 0 then pure none
  else if flag = 1 then do
    let a ← read
    pure (some a)
  else fail bad

/-- `take_optional`. -/
def optional {α : Type} (read : Reader RuntimeError α) : Reader RuntimeError (Option α) :=
  flagged noncanonical read

end SectionReader

open SectionReader

/-! ### The lifecycle section -/

/-- `Layout`. -/
inductive SnapshotLayout
  | authority | dependency | fenceCause | evidence | registry | attested | preAttestation
  deriving DecidableEq

namespace SnapshotLayout

def lifecycleMagic : SnapshotLayout → Bytes
  | .authority => utf8 "PTRLC007"
  | .dependency => utf8 "PTRLC006"
  | .fenceCause => utf8 "PTRLC005"
  | .evidence => utf8 "PTRLC004"
  | .registry => utf8 "PTRLC003"
  | .attested => utf8 "PTRLC002"
  | .preAttestation => utf8 "PTRLC001"

def hasRegistry : SnapshotLayout → Bool
  | .attested | .preAttestation => false
  | _ => true

end SnapshotLayout

def ExpertLayout.snapshotLayout : ExpertLayout → SnapshotLayout
  | .evidence => .evidence
  | .fenceCause => .fenceCause
  | .dependency => .dependency
  | .authority => .authority

structure LifecycleState (ρ : Type) where
  materialized : ExtTreeMap String String
  lifecycle : Lifecycle
  experts : ρ

structure ExpertReader (ρ : Type) where
  read : SnapshotLayout → Reader RuntimeError ρ
  /-- `check_experts`. -/
  check : SnapshotLayout → LifecycleState ρ → Except RuntimeError Unit

def mergedBranchPrefix : String := "branch-merge:"

def mergedBranchOf (key : String) : Option String := do
  let rest ← stripPrefix mergedBranchPrefix.toList key.toList
  let (length, branch) ← splitOnce [':'] rest
  let n ← parseNumber length
  if n.val = (String.ofList branch).utf8ByteSize then some (String.ofList branch) else none

def parseMergedBranchEntry (entry : String) : Option (CommitIndex × Digest) := do
  let (index, hex) ← splitOnce [':'] entry.toList
  let index ← parseNumber index
  let plan ← parseHexDigest hex
  some (index, plan)

def readMaterialized (layout : SnapshotLayout) (previous : Option String) :
    Reader RuntimeError (String × String) := do
  let key ← text
  let value ← text
  ascending previous key
  if layout = .preAttestation ∧ (key = attestedMarker ∨ hasPrefix mergedBranchPrefix key) then
    fail unsupportedVersion
  else if hasPrefix mergedBranchPrefix key ∧
      ((mergedBranchOf key).isNone ∨ (parseMergedBranchEntry value).isNone) then fail noncanonical
  else pure (key, value)

def readGeneration (previous : Option String) : Reader RuntimeError (String × Generation) := do
  let key ← text
  let generation ← number
  ascending previous key
  pure (key, generation)

def readProject (previous : Option String) : Reader RuntimeError (String × String) := do
  let key ← text
  let value ← text
  ascending previous key
  pure (key, value)

def readTombstone (previous : Option (String × Generation)) :
    Reader RuntimeError ((String × Generation) × Unit) := do
  let subject ← text
  let generation ← number
  ascending previous (subject, generation)
  pure ((subject, generation), ())

def Lifecycle.checkPodTargets (l : Lifecycle) : Except RuntimeError Unit :=
  if l.liveGenerations.toList.any fun p => (podCapsuleProject p.1).isSome && p.2 == 0 then
    .error (.compacted .invalidPodTarget)
  else if l.capsuleProjects.toList.any fun p => (podCapsuleProject p.1).any fun embedded =>
      embedded ≠ p.2 then
    .error (.compacted .invalidPodTarget)
  else .ok ()

def insertPair (s : ExtTreeSet (String × Generation)) (p : (String × Generation) × Unit) :
    ExtTreeSet (String × Generation) := s.insert p.1

def readTombstones : Reader RuntimeError (ExtTreeSet (String × Generation)) := do
  let n ← count
  entries readTombstone insertPair n none ∅

def readExperts (R : Rules ρ τ) (G : ExpertReader ρ) (layout : SnapshotLayout) :
    Reader RuntimeError ρ :=
  if layout.hasRegistry then do
    expectMagic (utf8 "PTREG001")
    G.read layout
  else pure R.expertsNew

def readProjections (layout : SnapshotLayout) :
    Reader RuntimeError (ExtTreeMap String String × Lifecycle) := do
  expectMagic layout.lifecycleMagic
  let materialized ← mapOf (readMaterialized layout)
  let live ← mapOf readGeneration
  let projects ← mapOf readProject
  check (Lifecycle.checkPodTargets ⟨live, projects, ∅⟩)
  let revoked ← readTombstones
  pure (materialized, ⟨live, projects, revoked⟩)

def readLifecycle (R : Rules ρ τ) (G : ExpertReader ρ) (layout : SnapshotLayout) :
    Reader RuntimeError (LifecycleState ρ) := do
  let p ← readProjections layout
  let experts ← readExperts R G layout
  pure ⟨p.1, p.2, experts⟩

/-- `LifecycleState::decode`. -/
def decodeLifecycle (R : Rules ρ τ) (G : ExpertReader ρ) (layout : SnapshotLayout) (bytes : Bytes) :
    Except RuntimeError (LifecycleState ρ) :=
  if maxSectionBytes < bytes.length then .error (.compacted .sizeLimit)
  else match readLifecycle R G layout bytes with
    | .error e => .error e
    | .ok (state, rest) =>
      if rest ≠ [] then .error lengthMismatch
      else do
        G.check layout state
        .ok state

/-! ### The execution section -/

abbrev CompactedScopes := ExtTreeMap ScopeId (ExecutionScope × ScopeLeaseBinding)

structure ExecutionObligations where
  obligations : Obligations
  scopes : CompactedScopes
  scopeRevision : Option Revision

/-- `effect_from_tag`. -/
def readEffect : Reader RuntimeError Effect := do
  let tag ← number
  match tag.val with
  | 0 => pure .pure
  | 1 => pure .read
  | 2 => pure .mutation
  | 3 => pure .external
  | 4 => pure .irreversible
  | _ => fail unknownTag

/-- `scope_state_from_tag`. -/
def readScopeState : Reader RuntimeError ScopeState := do
  let tag ← number
  match tag.val with
  | 0 => pure .created
  | 1 => pure .admitted
  | 2 => pure .started
  | 3 => pure .completed
  | 4 => pure .failed
  | 5 => pure .cancelled
  | 6 => pure .timedOut
  | 7 => pure .revoked
  | 8 => pure .released
  | _ => fail unknownTag

/-- The attempt is written twice, as the key and in the entry. -/
def readUnsettled (previous : Option CommitIndex) :
    Reader RuntimeError (CommitIndex × UnsettledEffect) := do
  let attempt ← number
  ascending previous attempt
  let recorded ← number
  if recorded ≠ attempt then fail noncanonical
  else do
    let key ← flagged unknownTag text
    let target ← text
    let operation ← text
    let effect ← readEffect
    let i ← identity
    pure (attempt, ⟨attempt, key, target, operation, effect, i⟩)

def readOutcome : Reader RuntimeError SettledOutcome := do
  let tag ← number
  match tag.val with
  | 0 => do
    let attempt ← number
    let i ← identity
    let response ← blob
    pure (.applied attempt i response)
  | 1 => do
    let attempt ← number
    let i ← identity
    pure (.appliedWithoutResponse attempt i)
  | 2 => pure .notApplied
  | _ => fail unknownTag

def readSettled (previous : Option String) : Reader RuntimeError (String × SettledOutcome) := do
  let key ← text
  ascending previous key
  let outcome ← readOutcome
  pure (key, outcome)

def readCancellation : Reader RuntimeError Bool := do
  let flag ← number
  match flag.val with
  | 0 => pure false
  | 1 => pure true
  | _ => fail noncanonical

def readLease : Reader RuntimeError ScopeLeaseBinding := do
  let stateId ← optional field
  let podId ← optional field
  let placementEpoch ← optional number
  let fencingToken ← optional (u128 lengthMismatch)
  let generation ← optional number
  let resourceLeaseId ← optional field
  pure ⟨stateId, podId, placementEpoch, fencingToken, generation, resourceLeaseId⟩

def readScope (previous : Option ScopeId) :
    Reader RuntimeError (ScopeId × (ExecutionScope × ScopeLeaseBinding)) := do
  let id ← field
  ascending previous id
  let parent ← optional field
  let session ← field
  let project ← field
  let createdAt ← number
  let deadline ← optional number
  let state ← readScopeState
  let cancellation ← readCancellation
  let lease ← readLease
  pure (id, ⟨id, parent, session, project, createdAt, deadline, state, cancellation⟩, lease)

/-- `decode_scope_block`: it is written only for a history with a scope, which has a
last revision. -/
def readScopeBlock : Reader RuntimeError (CompactedScopes × Option Revision) := do
  expectMagic (utf8 "PTRSC001")
  let n ← count
  if n = 0 then fail noncanonical
  else do
    let scopes ← entries readScope store n none ∅
    let revision ← optional number
    if revision.isNone then fail noncanonical else pure (scopes, revision)

def readExecution (hasScopes : Bool) : Reader RuntimeError ExecutionObligations := do
  expectMagic (if hasScopes then utf8 "PTREX003" else utf8 "PTREX002")
  let unsettled ← mapOf readUnsettled
  let settled ← mapOf readSettled
  if hasScopes then do
    let (scopes, revision) ← readScopeBlock
    pure ⟨⟨unsettled, settled⟩, scopes, revision⟩
  else pure ⟨⟨unsettled, settled⟩, ∅, none⟩

/-- `ExecutionObligations::decode`. -/
def decodeExecution (hasScopes : Bool) (bytes : Bytes) : Except RuntimeError ExecutionObligations :=
  if maxSectionBytes < bytes.length then .error (.compacted .sizeLimit)
  else match readExecution hasScopes bytes with
    | .error e => .error e
    | .ok (state, rest) => if rest ≠ [] then .error lengthMismatch else .ok state

/-! ### The registry of scopes -/

/-- Whether a scope of a state was asked to stop; a released one may be either. -/
def ScopeState.flagged : ScopeState → Option Bool
  | .cancelled | .timedOut | .revoked => some true
  | .released => none
  | .created | .admitted | .started | .completed | .failed => some false

namespace CompactedScopes

def checkScope (scopes : CompactedScopes) (id : ScopeId)
    (entry : ExecutionScope × ScopeLeaseBinding) : Except ScopeError Unit :=
  if entry.1.id ≠ id then .error .invalidCommittedEvent
  else do
    validateLeaseShape entry.2
    if entry.1.state.flagged.any fun expected => expected ≠ entry.1.cancellationRequested then
      .error .invalidCommittedEvent
    else match entry.1.parent with
      | none => .ok ()
      | some parentId =>
        match scopes[parentId]? with
        | none => .error .invalidCommittedEvent
        | some parent =>
          if parentId = id then .error .invalidCommittedEvent
          else if parent.1.session ≠ entry.1.session ∨ parent.1.project ≠ entry.1.project then
            .error .parentScopeMismatch
          else .ok ()

/-- The chain of parents from a scope, up to one that is known to end at a root.  A
chain that does not repeat is no longer than the scopes, which bounds the walk. -/
def walk (scopes : CompactedScopes) (rooted : ExtTreeSet ScopeId) :
    Nat → ExtTreeSet ScopeId → Option ScopeId → Except ScopeError (ExtTreeSet ScopeId)
  | _, path, none => .ok path
  | 0, _, some _ => .error .invalidCommittedEvent
  | fuel + 1, path, some id =>
    if id ∈ rooted then .ok path
    else if id ∈ path then .error .invalidCommittedEvent
    else walk scopes rooted fuel (path.insert id) ((scopes[id]?).bind fun e => e.1.parent)

def checkRooted (scopes : CompactedScopes) : Except ScopeError (ExtTreeSet ScopeId) :=
  scopes.keys.foldlM (fun rooted start => do
    let path ← walk scopes rooted (scopes.size + 1) ∅ (some start)
    .ok (rooted ∪ path)) ∅

end CompactedScopes

/-- A restored scope, with its bytes accounted for. -/
def ScopeRegistry.reinstate (g : ScopeRegistry)
    (p : ScopeId × (ExecutionScope × ScopeLeaseBinding)) :
    ScopeRegistry :=
  { g with
    scopes := g.scopes.insert p.1 p.2.1
    leases := g.leases.insert p.1 p.2.2
    snapshotBytes := max g.snapshotBytes scopeBlockOverhead +
      compactedScopeEntryBytes p.2.1.id p.2.1.parent p.2.1.session p.2.1.project
      p.2.1.deadline p.2.2 }

/-- `from_compacted_parts`, without the marks of recovery. -/
def ScopeRegistry.fromCompactedParts (scopes : CompactedScopes) (lastRevision : Option Revision) :
    Except ScopeError ScopeRegistry :=
  if scopes.isEmpty ≠ lastRevision.isNone then .error .invalidCommittedEvent
  else do
    scopes.toList.forM fun p => scopes.checkScope p.1 p.2
    let _ ← scopes.checkRooted
    .ok (scopes.toList.foldl ScopeRegistry.reinstate
      { ScopeRegistry.empty with lastRevision := lastRevision })

/-! ### The snapshot -/

structure CompactedAnchor where
  revision : Revision
  floor : LogAnchor
  digest : Digest

def CompactedSnapshot.anchor (s : CompactedSnapshot) : CompactedAnchor :=
  ⟨s.revision, s.floor, s.digest⟩

def snapshotHeader : Nat := 80

def maxCompactedBytes : Nat := snapshotHeader + 3 * maxSectionBytes + 32

/-- The layout that an outer magic names, and whether the snapshot has scopes.  With
scopes the lifecycle section names its own layout. -/
def outerLayout (magic : Bytes) : Option (SnapshotLayout × Bool) :=
  if magic = utf8 "PTRCS010" then some (.evidence, true)
  else if magic = utf8 "PTRCS009" then some (.authority, false)
  else if magic = utf8 "PTRCS008" then some (.dependency, false)
  else if magic = utf8 "PTRCS007" then some (.fenceCause, false)
  else if magic = utf8 "PTRCS006" then some (.evidence, false)
  else if magic = utf8 "PTRCS005" then some (.registry, false)
  else if magic = utf8 "PTRCS004" then some (.attested, false)
  else if magic = utf8 "PTRCS003" then some (.preAttestation, false)
  else none

def innerLayout (magic : Bytes) : Option SnapshotLayout :=
  [SnapshotLayout.authority, .dependency, .fenceCause, .evidence].find? fun layout =>
    layout.lifecycleMagic = magic

def slice (bs : Bytes) (start length : Nat) : Bytes := (bs.drop start).take length

def numberAt (bs : Bytes) (start : Nat) : Nat := ofLeBytes (slice bs start 8)

structure CompactedSections where
  layout : SnapshotLayout
  hasScopes : Bool
  semantic : Bytes
  lifecycle : Bytes
  execution : Bytes

/-- `compacted_sections`: framing, bounds, digest and trusted identity. -/
def compactedSections (sha : Bytes → Digest) (bytes : Bytes) (trusted : CompactedAnchor) :
    Except RuntimeError CompactedSections :=
  if bytes.length < snapshotHeader + 32 ∨ maxCompactedBytes < bytes.length then
    .error (.compacted .sizeLimit)
  else match outerLayout (bytes.take 8) with
    | none => .error unsupportedVersion
    | some (outer, hasScopes) =>
      let semanticLen := numberAt bytes 56
      let lifecycleLen := numberAt bytes 64
      let executionLen := numberAt bytes 72
      if maxSectionBytes < semanticLen ∨ maxSectionBytes < lifecycleLen ∨
          maxSectionBytes < executionLen then
        .error (.compacted .sizeLimit)
      else if semanticLen + lifecycleLen + executionLen ≠ bytes.length - snapshotHeader - 32 then
        .error lengthMismatch
      else
        let body := bytes.take (bytes.length - 32)
        if bytes.drop (bytes.length - 32) ≠ (sha body).bytes ∨ sha body ≠ trusted.digest ∨
            numberAt bytes 8 ≠ trusted.revision.val ∨ numberAt bytes 16 ≠ trusted.floor.index.val ∨
            slice bytes 24 32 ≠ trusted.floor.digest.bytes then .error (.compacted .anchorMismatch)
        else
          let semantic := slice bytes snapshotHeader semanticLen
          let lifecycle := slice bytes (snapshotHeader + semanticLen) lifecycleLen
          let execution := slice bytes (snapshotHeader + semanticLen + lifecycleLen) executionLen
          if hasScopes then
            match innerLayout (lifecycle.take 8) with
            | none => .error unsupportedVersion
            | some layout => .ok ⟨layout, hasScopes, semantic, lifecycle, execution⟩
          else .ok ⟨outer, hasScopes, semantic, lifecycle, execution⟩

/-! ### Restoring -/

namespace PtrRuntime

def stateMismatch : RuntimeError := .compacted .stateMismatch

/-- The runtime at the floor of a snapshot, before the records above it. -/
def restoredAt (R : Rules ρ τ) (G : ExpertReader ρ) (owner : Nat) (boundary : ActionBoundaryConfig)
    (bytes : Bytes) (trusted : CompactedAnchor) : Except RuntimeError (PtrRuntime ρ τ) := do
  let sections ← compactedSections R.sha bytes trusted
  let delta ← (SemanticDelta.decode sections.semantic).mapError ofReadFault
  let lifecycle ← decodeLifecycle R G sections.layout sections.lifecycle
  let semdb ← (SemanticHost.restore owner trusted.revision delta).mapError .semantic
  let execution ← decodeExecution sections.hasScopes sections.execution
  if execution.scopeRevision.any fun revision => trusted.revision < revision then
    .error stateMismatch
  else do
    let scopes
      ← (ScopeRegistry.fromCompactedParts execution.scopes execution.scopeRevision).mapError
      fun _ => stateMismatch
    let taint ← Taint.fromMaterialized lifecycle.materialized
    let podHeads ← PodHeads.fromMaterialized lifecycle.materialized
    .ok { new R owner boundary with
      history := { History.empty R owner with
        semdb := semdb
        obligations := execution.obligations
        scopes := scopes
        taint := taint
        podHeads := podHeads
        state := ⟨lifecycle.materialized, trusted.floor.index⟩
        lifecycle := lifecycle.lifecycle
        experts := lifecycle.experts }
      base := trusted.floor.index }

def restoreRecord (R : Rules ρ τ) (floor : CommitIndex) (r : PtrRuntime ρ τ) (c : CommittedEvent) :
    Except RuntimeError (PtrRuntime ρ τ) :=
  if c.index ≤ floor then .error (.compacted .journalNotAboveFloor) else replayRecord R r c

/-- `restore_compacted_with_attestors`. -/
def restoreCompacted (R : Rules ρ τ) (G : ExpertReader ρ) (owner : Nat)
    (boundary : ActionBoundaryConfig) (bytes : Bytes) (trusted : CompactedAnchor)
    (aboveFloor : List CommittedEvent) : Except RuntimeError (PtrRuntime ρ τ) := do
  let r ← restoredAt R G owner boundary bytes trusted
  let r ← aboveFloor.foldlM (restoreRecord R trusted.floor.index) r
  .ok r.markRecoveryRequired

end PtrRuntime

end Ptr.Runtime
