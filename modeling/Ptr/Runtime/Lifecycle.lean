import Ptr.Runtime.Origin

/-!
# Generations and their revocation

What is live: the current generation of every target, the project a capsule was
committed under, and the tombstones of revoked generations.  A target is the name
of a capsule, or the name of a constraint or a procedure behind its own prefix.
-/

namespace Ptr.Runtime

open Lib Ledger

structure Lifecycle where
  liveGenerations : Std.ExtTreeMap String Generation
  capsuleProjects : Std.ExtTreeMap String String
  revokedGenerations : Std.ExtTreeSet (String × Generation)

def constraintTarget (key : String) : String := "constraint:" ++ key

def procedureTarget (id : String) : String := "procedure:" ++ id

def podCapsuleProject (target : String) : Option String :=
  match target.toList with
  | 'p' :: 'o' :: 'd' :: ':' :: rest =>
    match rest.splitOn '/' with
    | [project, ns, pod] =>
      if project = [] ∨ ns = [] ∨ pod = [] then none else some (String.ofList project)
    | _ => none
  | _ => none

def podLifecycleTarget (a : PodRevisionAddress) : String :=
  "pod:" ++ a.address.project ++ "/" ++ a.address.namespace ++ "/" ++ a.address.podId

namespace Lifecycle

def empty : Lifecycle := ⟨∅, ∅, ∅⟩

variable (l : Lifecycle)

def liveGeneration (target : String) : Option Generation := l.liveGenerations[target]?

def isRevoked (target : String) (generation : Generation) : Bool :=
  l.revokedGenerations.contains (target, generation)

def revokedList : List (String × Generation) := l.revokedGenerations.toList

def generationValidity (target : String) (generation : Generation) : Option Validity :=
  if l.isRevoked target generation then some .revoked
  else match l.liveGeneration target with
    | some live =>
      if live = generation then some .live
      else if generation < live then some .superseded
      else none
    | none => none

def validateActivation (target : String) (requested : Generation) : Except RuntimeError Unit :=
  if (l.liveGeneration target).any (fun live => requested < live) ∨
      l.isRevoked target requested then
    .error (.invalidLifecycleTransition target (l.liveGeneration target) requested)
  else .ok ()

/-- A pod target may be committed by its own project only, above generation 0. -/
def checkPodCapsule (project : ProjectId) (target : String) (generation : Generation) :
    Except RuntimeError Unit :=
  match podCapsuleProject target with
  | some embedded =>
    if embedded ≠ project then .error (.podCapsuleProjectMismatch target embedded project)
    else if generation = 0 then .error (.podCapsuleGenerationZero target)
    else .ok ()
  | none => .ok ()

def checkCapsuleProject (project : ProjectId) (target : String) : Except RuntimeError Unit :=
  match l.capsuleProjects[target]? with
  | some current =>
    if current ≠ project then .error (.capsuleProjectMismatch target current project) else .ok ()
  | none => .ok ()

def validateCapsule (project : ProjectId) (target : CapsuleId) (generation : Generation) :
    Except RuntimeError Unit := do
  if hasPrefix "constraint:" target ∨ hasPrefix "procedure:" target then
    .error (.reservedTargetNamespace target)
  else do
    checkPodCapsule project target generation
    l.checkCapsuleProject project target
    l.validateActivation target generation

def validateSupersession (target : CapsuleId) (old new : Generation) : Except RuntimeError Unit :=
  if target ∉ l.capsuleProjects ∨ l.liveGeneration target ≠ some old ∨ new ≤ old then
    .error (.invalidLifecycleTransition target (l.liveGeneration target) new)
  else l.validateActivation target new

def setLiveGeneration (target : String) (generation : Generation) : Lifecycle :=
  { l with liveGenerations := l.liveGenerations.insert target generation }

def revoke (target : String) (generation : Generation) : Lifecycle :=
  { l with revokedGenerations := l.revokedGenerations.insert (target, generation) }

def apply : LedgerEvent → Lifecycle
  | .capsuleCommitted project capsule generation =>
    { l with capsuleProjects := l.capsuleProjects.insert capsule project }.setLiveGeneration
      capsule generation
  | .capsuleSuperseded capsule _ new => l.setLiveGeneration capsule new
  | .revoked subject generation => l.revoke subject generation
  | .hardConstraintCommitted key generation => l.setLiveGeneration (constraintTarget key) generation
  | .procedurePromoted id generation => l.setLiveGeneration (procedureTarget id) generation
  | .procedureRevoked id generation => l.revoke (procedureTarget id) generation
  | .inputInvalidated i => if i.kind = .revoked then l.revoke i.input i.generation else l
  | _ => l

end Lifecycle

end Ptr.Runtime
