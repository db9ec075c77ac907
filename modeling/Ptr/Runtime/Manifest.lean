import Ptr.Memory.Knowledge

/-!
# Execution manifests and the authority they bind to

An execution manifest names the knowledge, the artifacts, the snapshot, the
principal and the policy revision of one execution, and is identified by the hash
of all of them.  The runtime keeps two registries.  `ExecutionManifestRegistry`
holds the manifests admitted and revoked; `ManifestAuthorityRegistry` holds what a
manifest may bind to: principals, policy revisions and snapshots.

A method that takes `&mut self` returns its result and the registry it leaves,
because a refusal can come after the first change.
-/

namespace Ptr.Runtime

open Lib Std

abbrev PrincipalId := String

structure LineageBinding where
  key : String
  generation : Generation
  digest : Digest
  deriving DecidableEq

structure ExecutionManifest where
  generation : Generation
  knowledge : List LineageBinding
  artifacts : List LineageBinding
  origins : List String
  reader : Option LineageBinding
  adapter : Option LineageBinding
  snapshotRevision : Revision
  snapshotDigest : Digest
  principal : PrincipalId
  policyRevision : Revision
  manifestDigest : Digest
  deriving DecidableEq

inductive ManifestError
  | missingLineage | missingProvenance | missingDigest | invalidBinding | duplicateBinding
  | readerGenerationMismatch | adapterGenerationMismatch | digestMismatch | invalidEncoding

/-! ### The structure and the digest of a manifest -/

/-- Bindings are sorted, so equal keys stand side by side. -/
def validateUniqueBindings : List LineageBinding → Except ManifestError Unit
  | a :: b :: rest =>
    if a.key = b.key then .error .duplicateBinding else validateUniqueBindings (b :: rest)
  | _ => .ok ()

def LineageBinding.valid (b : LineageBinding) : Bool :=
  !b.key.isEmpty && b.generation ≠ 0 && b.digest ≠ Digest.zero

namespace ExecutionManifest

/-- Every binding, in the order in which the checks and the digest read them. -/
def bindings (m : ExecutionManifest) : List LineageBinding :=
  m.knowledge ++ m.artifacts ++ m.reader.toList ++ m.adapter.toList

def validateStructure (m : ExecutionManifest) : Except ManifestError Unit := do
  if m.generation = 0 ∨ m.knowledge = [] ∨ m.artifacts = [] then throw .missingLineage
  if m.origins = [] ∨ m.principal.isEmpty then throw .missingProvenance
  if m.snapshotDigest = Digest.zero then throw .missingDigest
  validateUniqueBindings m.knowledge
  validateUniqueBindings m.artifacts
  if !m.bindings.all LineageBinding.valid then throw .invalidBinding
  if m.reader.any (·.generation ≠ m.generation) then throw .readerGenerationMismatch
  if m.adapter.any (·.generation ≠ m.generation) then throw .adapterGenerationMismatch

def putText (s : String) : Bytes := leBytes 8 s.utf8ByteSize ++ utf8 s

def putDecimal (n : U64) : Bytes := putText (toString n.val)

def calculateDigest (sha : Bytes → Digest) (m : ExecutionManifest) : Digest :=
  sha (putDecimal m.generation ++
    (m.bindings.flatMap fun b => putText b.key ++ putDecimal b.generation ++ b.digest.bytes) ++
    m.origins.flatMap putText ++
    putDecimal m.snapshotRevision ++ m.snapshotDigest.bytes ++ putText m.principal ++
    putDecimal m.policyRevision)

def validate (sha : Bytes → Digest) (m : ExecutionManifest) : Except ManifestError Unit := do
  m.validateStructure
  if m.manifestDigest = Digest.zero then throw .missingDigest
  if m.calculateDigest sha ≠ m.manifestDigest then throw .digestMismatch

/-! ### The encoding of a manifest -/

def putBinding (b : LineageBinding) : Bytes :=
  putString b.key ++ putU64 b.generation ++ b.digest.bytes

def encodeCanonical (sha : Bytes → Digest) (m : ExecutionManifest) :
    Except ManifestError Bytes := do
  m.validate sha
  .ok (2 ::
    (putU64 m.generation ++ putCounted putBinding m.knowledge ++
      putCounted putBinding m.artifacts ++ putCounted putString m.origins ++
      putOption putBinding m.reader ++ putOption putBinding m.adapter ++
      putU64 m.snapshotRevision ++ m.snapshotDigest.bytes ++ putString m.principal ++
      putU64 m.policyRevision ++ m.manifestDigest.bytes))

namespace Cursor

def u8 : Reader ManifestError UInt8 := Reader.u8 .invalidEncoding
def u64 : Reader ManifestError U64 := Reader.u64 .invalidEncoding
def digest : Reader ManifestError Digest := Digest.read .invalidEncoding
def string : Reader ManifestError String := Reader.string .invalidEncoding .invalidEncoding

def binding : Reader ManifestError LineageBinding := do
  let key ← string
  let generation ← u64
  let digest ← digest
  pure ⟨key, generation, digest⟩

def counted {α : Type} (item : Reader ManifestError α) : Reader ManifestError (List α) := do
  let count ← Reader.u32 .invalidEncoding
  if 4096 < count.val then Reader.fail .invalidEncoding else Reader.replicate count.val item

def optional : Reader ManifestError (Option LineageBinding) :=
  Reader.option .invalidEncoding (fun _ => .invalidEncoding) binding

/-- The fields behind the version byte; the adapter exists since version 2. -/
def manifest (version : UInt8) : Reader ManifestError ExecutionManifest := do
  let generation ← u64
  let knowledge ← counted binding
  let artifacts ← counted binding
  let origins ← counted string
  let reader ← optional
  let adapter ← if version < 2 then pure none else optional
  let snapshotRevision ← u64
  let snapshotDigest ← digest
  let principal ← string
  let policyRevision ← u64
  let manifestDigest ← digest
  pure ⟨generation, knowledge, artifacts, origins, reader, adapter, snapshotRevision,
    snapshotDigest,
    principal, policyRevision, manifestDigest⟩

end Cursor

def decodeCanonical (sha : Bytes → Digest) (bs : Bytes) :
    Except ManifestError ExecutionManifest := do
  let (version, rest) ← Cursor.u8 bs
  if version ≠ 1 ∧ version ≠ 2 then throw .invalidEncoding
  let (m, rest) ← Cursor.manifest version rest
  if rest ≠ [] then throw .invalidEncoding
  m.validate sha
  .ok m

end ExecutionManifest

/-! ### What a manifest may bind to -/

inductive RuntimeManifestError
  | invalidManifest
  | unknownManifestDigest (digest : Digest)
  | conflictingManifest (digest : Digest)
  | missingKnowledgeGeneration (key : Memory.KnowledgeKey)
  | revokedKnowledgeGeneration (key : Memory.KnowledgeKey)
  | expiredKnowledgeGeneration (key : Memory.KnowledgeKey) (now : Timestamp)
  | invalidKnowledgeDependency (key : Memory.KnowledgeKey)
  | snapshotRevisionMismatch (expected actual : Revision)
  | policyRevisionMissing
  | principalNotAdmitted (principal : PrincipalId)
  | policyRevisionMismatch (expected actual : Revision)
  | protectedSnapshotRevisionMismatch (revision : Revision) (expected actual : Digest)
  | snapshotDigestMismatch (revision : Revision) (expected actual : Digest)
  | lineage (reason : String)
  deriving DecidableEq

structure ManifestAuthorityRegistry where
  principals : ExtTreeSet PrincipalId
  policyRevisions : ExtTreeSet Revision
  policyDigests : ExtTreeMap Revision Digest
  revokedPolicyRevisions : ExtTreeSet Revision
  snapshots : ExtTreeMap Revision Digest
  protectedSnapshots : ExtTreeMap Revision Digest

namespace ManifestAuthorityRegistry

abbrev Outcome := Except RuntimeManifestError Unit × ManifestAuthorityRegistry

def empty : ManifestAuthorityRegistry := ⟨∅, ∅, ∅, ∅, ∅, ∅⟩

variable (a : ManifestAuthorityRegistry)

/-- The greatest policy revision that is not revoked, or 0. -/
def currentPolicyRevision : Revision :=
  (a.policyRevisions.toList.reverse.find? fun r => r ∉ a.revokedPolicyRevisions).getD 0

def policyDigest (revision : Revision) : Option Digest :=
  a.policyDigests[revision]?

def isPolicyRevoked (revision : Revision) : Bool :=
  a.revokedPolicyRevisions.contains revision

def admitPrincipal (principal : PrincipalId) : Outcome :=
  if principal.isEmpty then (.error (.principalNotAdmitted principal), a)
  else (.ok (), { a with principals := a.principals.insert principal })

def setPolicyRevision (revision : Revision) : ManifestAuthorityRegistry :=
  { a with policyRevisions := a.policyRevisions.insert revision }

def notAbove (revision : Revision) : Bool :=
  a.policyDigests.keys.getLast?.any fun last => revision ≤ last

/-- `Revision::next`, which saturates. -/
def nextRevision (revision : Revision) : Revision := U64.saturatingAdd revision 1

def activatePolicy (revision : Revision) (digest : Digest) : Outcome :=
  if revision = 0 ∨ digest = Digest.zero then (.error .policyRevisionMissing, a)
  else if revision ∈ a.revokedPolicyRevisions then
    (.error (.policyRevisionMismatch a.currentPolicyRevision revision), a)
  else match a.policyDigests[revision]? with
    | some existing =>
      if existing ≠ digest then (.error (.policyRevisionMismatch revision revision), a)
      else (.ok (), a)
    | none =>
      if a.notAbove revision then
        (.error (.policyRevisionMismatch (nextRevision a.currentPolicyRevision) revision), a)
      else (.ok (), { a with
        policyRevisions := a.policyRevisions.insert revision
        policyDigests := a.policyDigests.insert revision digest })

def revokePolicy (revision : Revision) : Outcome :=
  if revision ∉ a.policyRevisions then
    (.error (.policyRevisionMismatch a.currentPolicyRevision revision), a)
  else (.ok (), { a with revokedPolicyRevisions := a.revokedPolicyRevisions.insert revision })

/-- The digest held for a revision, if it is another one. -/
def contradicts (m : ExtTreeMap Revision Digest) (revision : Revision) (digest : Digest) :
    Option Digest :=
  m[revision]?.filter (· ≠ digest)

def registerSnapshot (revision : Revision) (digest : Digest) : Outcome :=
  match contradicts a.snapshots revision digest with
  | some existing => (.error (.snapshotDigestMismatch revision existing digest), a)
  | none =>
    match contradicts a.protectedSnapshots revision digest with
    | some existing => (.error (.protectedSnapshotRevisionMismatch revision existing digest), a)
    | none => (.ok (), { a with snapshots := a.snapshots.insert revision digest })

def registerProtectedSnapshot (revision : Revision) (digest : Digest) : Outcome :=
  if digest = Digest.zero then
    (.error (.protectedSnapshotRevisionMismatch revision digest digest), a)
  else match contradicts a.protectedSnapshots revision digest with
    | some existing => (.error (.protectedSnapshotRevisionMismatch revision existing digest), a)
    | none =>
      if revision ∈ a.protectedSnapshots then (.ok (), a)
      else match contradicts a.snapshots revision digest with
        | some live => (.error (.protectedSnapshotRevisionMismatch revision live digest), a)
        | none =>
          (.ok (), { a with protectedSnapshots := a.protectedSnapshots.insert revision digest })

/-- The principal and the policy revision stay admitted when the snapshot is
refused. -/
def observeManifest (m : ExecutionManifest) : Outcome :=
  match a.admitPrincipal m.principal with
  | (.error e, a) => (.error e, a)
  | (.ok (), a) =>
    (a.setPolicyRevision m.policyRevision).registerSnapshot m.snapshotRevision m.snapshotDigest

end ManifestAuthorityRegistry

/-! ### The manifests admitted -/

structure ValidatedExecutionManifest where
  manifest : ExecutionManifest
  knowledge : List Memory.KnowledgeKey
  artifacts : List LineageBinding
  runtimeRevision : Revision
  deriving DecidableEq

def ExecutionManifest.validatedAt (m : ExecutionManifest) (revision : Revision) :
    ValidatedExecutionManifest :=
  ⟨m, m.knowledge.map fun b => (b.key, b.generation), m.artifacts, revision⟩

structure ExecutionManifestRegistry where
  admitted : ExtTreeMap Digest ValidatedExecutionManifest
  revoked : ExtTreeSet Digest

namespace ExecutionManifestRegistry

abbrev Outcome := Except RuntimeManifestError Unit × ExecutionManifestRegistry

def empty : ExecutionManifestRegistry := ⟨∅, ∅⟩

variable (g : ExecutionManifestRegistry)

def isRevoked (digest : Digest) : Bool := g.revoked.contains digest

def admitCandidate (candidate : ValidatedExecutionManifest) : Outcome :=
  let digest := candidate.manifest.manifestDigest
  if digest ∈ g.revoked then (.error (.unknownManifestDigest digest), g)
  else match g.admitted[digest]? with
    | some existing =>
      if existing = candidate then (.ok (), g) else (.error (.conflictingManifest digest), g)
    | none => (.ok (), { g with admitted := g.admitted.insert digest candidate })

/-- The manifest leaves the admitted ones before the check, and nothing changes if
it was not there. -/
def revoke (digest : Digest) : Outcome :=
  if digest ∉ g.admitted ∧ digest ∉ g.revoked then (.error (.unknownManifestDigest digest), g)
  else (.ok (), ⟨g.admitted.erase digest, g.revoked.insert digest⟩)

def admitReplayed (sha : Bytes → Digest) (g : ExecutionManifestRegistry) (m : ExecutionManifest)
    (runtimeRevision : Revision) : Outcome :=
  match m.validate sha with
  | .error _ => (.error .invalidManifest, g)
  | .ok () => g.admitCandidate (m.validatedAt runtimeRevision)

def resolve (digest : Digest) :
    Except RuntimeManifestError ValidatedExecutionManifest :=
  if digest ∈ g.revoked then .error (.unknownManifestDigest digest)
  else match g.admitted[digest]? with
    | some m => .ok m
    | none => .error (.unknownManifestDigest digest)

end ExecutionManifestRegistry

end Ptr.Runtime
