import Ptr.Lib.Checks
import Ptr.Types

/-!
# Execution scopes

The registry of scopes that the lifecycle records build.  `validate_committed` is
the check a record passes before it is appended and when it is replayed;
`apply_committed` runs it again before it changes anything.
-/

namespace Ptr.Runtime

open Lib

inductive ScopeState
  | created | admitted | started | completed | failed | cancelled | timedOut | revoked | released
  deriving DecidableEq

def ScopeState.isTerminal : ScopeState → Bool
  | .completed | .failed | .cancelled | .timedOut | .revoked | .released => true
  | .created | .admitted | .started => false

def stateFromKind : ScopeLifecycleKind → ScopeState
  | .created => .created
  | .admitted => .admitted
  | .started => .started
  | .completed => .completed
  | .failed => .failed
  | .cancelled => .cancelled
  | .timedOut => .timedOut
  | .revoked => .revoked
  | .released => .released

def validTransition : ScopeState → ScopeState → Bool
  | .created, .admitted | .admitted, .started
  | .started, .completed | .started, .failed | .started, .cancelled | .started, .timedOut
  | .started, .revoked | .admitted, .revoked | .created, .revoked
  | .admitted, .cancelled | .created, .cancelled
  | .completed, .released | .failed, .released | .cancelled, .released | .timedOut, .released
  | .revoked, .released => true
  | _, _ => false

structure ExecutionScope where
  id : ScopeId
  parent : Option ScopeId
  session : SessionId
  project : ProjectId
  createdAt : Timestamp
  deadline : Option Timestamp
  state : ScopeState
  cancellationRequested : Bool
  deriving DecidableEq

inductive ScopeError
  | duplicate (id : ScopeId)
  | unknown (id : ScopeId)
  | parentMissing (id : ScopeId)
  | parentScopeMismatch
  | invalidTransition (source target : ScopeState)
  | terminal (state : ScopeState)
  | invalidCommittedEvent
  | invalidLeaseBinding
  | invalidRevision
  | capacityExceeded (scopes : Nat)
  deriving DecidableEq

def maxScopes : Nat := 16384

def scopeBlockOverhead : Nat := 8 + 4 + 8 + 8

def compactedScopeEntryBytes (id : ScopeId) (parent : Option ScopeId) (session : SessionId)
    (project : ProjectId) (deadline : Option Timestamp) (lease : ScopeLeaseBinding) : Nat :=
  let field := fun (text : String) => 4 + text.utf8ByteSize
  let optional := fun (inner : Option Nat) => 8 + inner.getD 0
  field id + optional (parent.map field) + field session + field project + 8 +
    optional (deadline.map fun _ => 8) + 8 + 8 + optional (lease.stateId.map field) +
    optional (lease.podId.map field) + optional (lease.placementEpoch.map fun _ => 8) +
    optional (lease.fencingToken.map fun _ => 16) + optional (lease.generation.map fun _ => 8) +
    optional (lease.resourceLeaseId.map field)

/-- `ScopeRegistry`; the marks of pending recovery are kept beside it. -/
structure ScopeRegistry where
  scopes : Std.ExtTreeMap ScopeId ExecutionScope
  committed : List ScopeLifecycleEvent
  leases : Std.ExtTreeMap ScopeId ScopeLeaseBinding
  lastRevision : Option Revision
  snapshotBytes : Nat

def validateLeaseShape (l : ScopeLeaseBinding) : Except ScopeError Unit :=
  if (l.placementEpoch.isSome ≠ l.fencingToken.isSome) ∨
      (l.fencingToken.isSome ∧ (l.stateId.isNone ∨ l.podId.isNone ∨ l.generation.isNone)) then
    .error .invalidLeaseBinding
  else .ok ()

namespace ScopeRegistry

def empty : ScopeRegistry := ⟨∅, [], ∅, none, 0⟩

variable (g : ScopeRegistry)

def checkParent (parent : Option ScopeId) (session : SessionId) (project : ProjectId) :
    Except ScopeError Unit :=
  match parent with
  | none => .ok ()
  | some id =>
    match g.scopes[id]? with
    | none => .error (.parentMissing id)
    | some p =>
      if p.session ≠ session ∨ p.project ≠ project then .error .parentScopeMismatch else .ok ()

variable (e : ScopeLifecycleEvent)

def behind : Bool := g.lastRevision.any fun r => e.revision < r

def otherLease : Bool :=
  g.leases[e.scopeId]?.any fun l => l ≠ e.lease

def validateCommitted : Except ScopeError Unit := do
  validateLeaseShape e.lease
  let next := stateFromKind e.kind
  if next = .created then
    if e.scopeId ∈ g.scopes then .error (.duplicate e.scopeId)
    else if e.previousKind.isSome then .error .invalidCommittedEvent
    else if g.behind e then .error .invalidRevision
    else g.checkParent e.parentId e.sessionId e.projectId
  else match g.scopes[e.scopeId]? with
    | none => .error (.unknown e.scopeId)
    | some scope =>
      if scope.parent ≠ e.parentId ∨ scope.session ≠ e.sessionId ∨ scope.project ≠ e.projectId ∨
          scope.createdAt ≠ e.createdAt ∨ scope.deadline ≠ e.deadline then
          .error .invalidCommittedEvent
      else if g.behind e then .error .invalidRevision
      else if e.previousKind.map stateFromKind ≠ some scope.state then .error .invalidCommittedEvent
      else if scope.state.isTerminal ∧ next ≠ .released then .error (.terminal scope.state)
      else if !validTransition scope.state next then .error (.invalidTransition scope.state next)
      else if g.otherLease e then .error .invalidLeaseBinding
      else .ok ()

def account : Nat :=
  max g.snapshotBytes scopeBlockOverhead +
    compactedScopeEntryBytes e.scopeId e.parentId e.sessionId e.projectId e.deadline e.lease

def create : ScopeRegistry :=
  { g with
    scopes := g.scopes.insert e.scopeId
      ⟨e.scopeId, e.parentId, e.sessionId, e.projectId, e.createdAt, e.deadline, .created, false⟩
    leases := g.leases.insert e.scopeId e.lease
    snapshotBytes := g.account e }

def cancels : ScopeState → Bool
  | .cancelled | .timedOut | .revoked => true
  | _ => false

def move (id : ScopeId) (scope : ExecutionScope) (next : ScopeState) : ScopeRegistry :=
  let moved :=
    { scope with
    state := next, cancellationRequested := scope.cancellationRequested || cancels next }
  { g with scopes := g.scopes.insert id moved }

def record : ScopeRegistry :=
  { g with committed := g.committed ++ [e], lastRevision := some e.revision }

/-- `apply_committed`, without the marks of recovery.  A record applied before is
taken again without effect; the checks behind the validation are the source's
second copy of it. -/
def applyCommitted : Except ScopeError ScopeRegistry :=
  if e ∈ g.committed then .ok g
  else do
    g.validateCommitted e
    let next := stateFromKind e.kind
    if next = .created then
      if e.scopeId ∈ g.scopes then .error (.duplicate e.scopeId)
      else do
        g.checkParent e.parentId e.sessionId e.projectId
        .ok ((g.create e).record e)
    else if g.otherLease e then .error .invalidLeaseBinding
    else match g.scopes[e.scopeId]? with
      | none => .error (.unknown e.scopeId)
      | some scope =>
        if e.previousKind.map stateFromKind ≠ some scope.state then .error .invalidCommittedEvent
        else if scope.state.isTerminal ∧ next ≠ .released then .error (.terminal scope.state)
        else if !validTransition scope.state next then .error (.invalidTransition scope.state next)
        else .ok ((g.move e.scopeId scope next).record e)

/-- A new scope must fit a compacted snapshot; replay does not ask this. -/
def checkCapacity : Except ScopeError Unit :=
  if stateFromKind e.kind = .created ∧ maxScopes < g.scopes.size + 1 then
    .error (.capacityExceeded (g.scopes.size + 1))
  else .ok ()

def growthBytes : Nat :=
  if stateFromKind e.kind ≠ .created then 0
  else (if g.snapshotBytes = 0 then scopeBlockOverhead else 0) +
    compactedScopeEntryBytes e.scopeId e.parentId e.sessionId e.projectId e.deadline e.lease

variable {g e} {g' : ScopeRegistry}

structure Transits (g : ScopeRegistry) (e : ScopeLifecycleEvent) (s : ExecutionScope) : Prop where
  scope : g.scopes[e.scopeId]? = some s
  transition : validTransition s.state (stateFromKind e.kind) = true

structure Creates (g : ScopeRegistry) (e : ScopeLifecycleEvent) : Prop where
  kind : stateFromKind e.kind = .created
  fresh : e.scopeId ∉ g.scopes
  lease : validateLeaseShape e.lease = .ok ()
  parent : g.checkParent e.parentId e.sessionId e.projectId = .ok ()

/-- What an applied record does: nothing if it was applied before, else it creates or
moves its scope. -/
theorem applyCommitted_cases (h : g.applyCommitted e = .ok g') :
    g' = g ∨ g.Creates e ∧ g' = (g.create e).record e ∨
      ∃ s, g.Transits e s ∧ g' = (g.move e.scopeId s (stateFromKind e.kind)).record e := by
  rw [applyCommitted] at h
  split at h
  · cases h
    exact .inl rfl
  · obtain ⟨hvalid, h⟩ := bind_unit_eq_ok.mp h
    obtain ⟨hlease, hvalid⟩ := bind_unit_eq_ok.mp hvalid
    refine .inr ?_
    dsimp only at h
    split at h
    · next hkind =>
      rw [refuse_eq_ok] at h
      obtain ⟨hnew, h⟩ := h
      obtain ⟨hparent, h⟩ := bind_unit_eq_ok.mp h
      cases h
      exact .inl ⟨⟨hkind, hnew, hlease, hparent⟩, rfl⟩
    · rw [refuse_eq_ok] at h
      obtain ⟨_, h⟩ := h
      split at h
      · cases h
      next s hs =>
      simp only [refuse_eq_ok, Bool.not_eq_true', Bool.not_eq_false] at h
      obtain ⟨_, _, htransition, h⟩ := h
      cases h
      exact .inr ⟨s, ⟨hs, htransition⟩, rfl⟩

end ScopeRegistry

end Ptr.Runtime
