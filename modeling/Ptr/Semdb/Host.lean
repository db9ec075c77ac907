import Ptr.Semdb.Graph
import Ptr.Semdb.Codec

/-!
# The semantic host

A `SemanticHost` holds one published state.  `prepare_delta` stages a delta on a
copy of it: it removes, stores and declares what the delta says, collects the keys
this changed, evicts what depends on them and checks what was stored; nothing is
published before `apply_prepared`, which takes a prepared change only if it was
made by this host at its current revision.  The identity that `Arc::ptr_eq`
compares is a number, and every new host has a new one.
-/

namespace Ptr.Semdb

open Lib Std

structure SemanticState where
  revision : Revision
  ground : ExtTreeMap String SemanticValue
  dependencies : DependencyGraph
  deriving DecidableEq

def SemanticState.empty : SemanticState := ⟨0, ∅, .empty⟩

structure SemanticHost where
  state : SemanticState
  owner : Nat
  deriving DecidableEq

structure PreparedDelta where
  owner : Nat
  base : Revision
  delta : SemanticDelta
  next : SemanticState
  affected : ExtTreeSet String

/-! ### Staging -/

structure Staging where
  next : SemanticState
  changed : ExtTreeSet String

namespace Staging

def remove (s : Staging) (k : String) : Staging where
  next := { s.next with
    ground := s.next.ground.erase k
    dependencies := ⟨s.next.dependencies.inputs.erase k⟩ }
  changed := if k ∈ s.next.ground ∨ k ∈ s.next.dependencies.inputs then s.changed.insert k
    else s.changed

def upsert (s : Staging) (p : String × SemanticValue) : Staging :=
  if s.next.ground[p.1]? = some p.2 then s
  else ⟨{ s.next with ground := s.next.ground.insert p.1 p.2 }, s.changed.insert p.1⟩

def declare (s : Staging) (p : String × ExtTreeSet String) : Staging :=
  let old := s.next.dependencies.inputs[p.1]?
  if old ≠ some p.2 ∧ ¬ (old = none ∧ p.2.isEmpty) then
    let inputs := if p.2.isEmpty then s.next.dependencies.inputs.erase p.1
      else s.next.dependencies.inputs.insert p.1 p.2
    ⟨{ s.next with dependencies := ⟨inputs⟩ }, s.changed.insert p.1⟩
  else s

end Staging

variable (s : SemanticState)

/-- The first three loops of `prepare_delta`. -/
def SemanticState.stage (d : SemanticDelta) : Staging :=
  d.dependencies.toList.foldl Staging.declare
    (d.upserts.toList.foldl Staging.upsert (d.removals.toList.foldl Staging.remove ⟨s, ∅⟩))

/-- What depends on a change, in the state before and in the state staged. -/
def SemanticState.affected (staged : Staging) : ExtTreeSet String :=
  s.dependencies.affectedBy staged.changed ∪ staged.next.dependencies.affectedBy staged.changed

/-- A derivation is not kept once an input of it changed; its declaration is. -/
def SemanticState.evict (d : SemanticDelta) (affected : ExtTreeSet String) : SemanticState :=
  { s with
    ground := affected.toList.foldl
      (fun ground k => if k ∈ d.upserts then ground else ground.erase k) s.ground }

def SemanticState.missing (d : SemanticDelta) : Option (String × String) :=
  d.upserts.keys.findSome? fun k =>
    ((s.dependencies.inputsOf k).toList.find? fun input => input ∉ s.ground).map
      fun input => (k, input)

/-- The revision of the next state: one more if anything differs. -/
def SemanticState.nextRevision (s next : SemanticState) : Except SemanticError SemanticState :=
  if next ≠ s then
    match U64.checkedAdd s.revision 1 with
    | some revision => .ok { next with revision := revision }
    | none => .error .revisionExhausted
  else .ok next

def SemanticHost.prepareDelta (h : SemanticHost) (d : SemanticDelta) :
    Except SemanticError PreparedDelta := do
  let _ ← d.encode
  let staged := h.state.stage d
  if !staged.next.dependencies.acyclic then .error .cyclicDependency
  else do
    let affected := h.state.affected staged
    let next := staged.next.evict d affected
    match next.missing d with
    | some (derived, input) => .error (.missingDependency derived input)
    | none => do
      let next ← h.state.nextRevision next
      .ok ⟨h.owner, h.state.revision, d, next, affected⟩

/-! ### The calls of a host

A call that takes `&mut self` returns its result and the host it leaves. -/

abbrev CallResult := Except SemanticError (Revision × ExtTreeSet String)

namespace SemanticHost

def applyPrepared (h : SemanticHost) (p : PreparedDelta) : CallResult × SemanticHost :=
  if h.owner ≠ p.owner ∨ h.state.revision ≠ p.base then (.error .stalePreparation, h)
  else (.ok (p.next.revision, p.affected), { h with state := p.next })

def applyDelta (h : SemanticHost) (d : SemanticDelta) : CallResult × SemanticHost :=
  match h.prepareDelta d with
  | .error e => (.error e, h)
  | .ok p => h.applyPrepared p

def new (owner : Nat) : SemanticHost := ⟨.empty, owner⟩

def exportState (h : SemanticHost) : SemanticDelta :=
  ⟨h.state.ground, ∅, h.state.dependencies.inputs⟩

def restore (owner : Nat) (revision : Revision) (d : SemanticDelta) :
    Except SemanticError SemanticHost :=
  if !d.removals.isEmpty then .error .conflictingOperation
  else match (new owner).applyDelta d with
    | (.error e, _) => .error e
    | (.ok _, h) => .ok { h with state := { h.state with revision := revision } }

end SemanticHost

/-! ### Snapshots -/

structure SemanticSnapshot where
  revision : Revision
  state : SemanticState
  owner : Nat

def SemanticHost.snapshot (h : SemanticHost) : SemanticSnapshot :=
  ⟨h.state.revision, h.state, h.owner⟩

def putSnapshotBytes (bs : Bytes) : Bytes := leBytes 8 bs.length ++ bs

def snapshotValue : SemanticValue → Bytes
  | .text text => 0 :: putSnapshotBytes (utf8 text)
  | .payload p => 1 :: (putSnapshotBytes (utf8 p.typeId) ++ putSnapshotBytes (utf8 p.source) ++
      putSnapshotBytes p.bytes)

/-- `b"PTR-SEMDB-SNAPSHOT-V1\0"`. -/
def snapshotMagic : Bytes := utf8 "PTR-SEMDB-SNAPSHOT-V1" ++ [0]

def SemanticSnapshot.canonicalDigest (sha : Bytes → Digest) (s : SemanticSnapshot) : Digest :=
  sha (snapshotMagic ++ putU64 s.revision ++ leBytes 8 s.state.ground.size ++
    s.state.ground.toList.flatMap fun p => putSnapshotBytes (utf8 p.1) ++ snapshotValue p.2)

end Ptr.Semdb
