import Ptr.Runtime.Manifest
import Ptr.Runtime.Policy
import Ptr.Runtime.Scopes
import Ptr.Semdb.Delta
import Ptr.Ledger.Event

/-!
# Refusals of the runtime

`RuntimeError`, as far as the modelled functions raise it.  Where the source prints
a nested error into the text of `InvalidConfig`, the constructor keeps the text in
front and the error itself.
-/

namespace Ptr.Runtime

open Lib Ledger

inductive CompactedError
  | sizeLimit | unsupportedVersion | lengthMismatch | anchorMismatch | stateMismatch
  | journalNotAboveFloor | noncanonicalSection | sectionLimit | unknownTag | invalidPodTarget
  deriving DecidableEq

inductive KvTaintError
  | unencodable | clearSubjectNotLive | clearRecipeMismatch | recordSubjectAlreadyLive
  | malformedStateEntry (reason : String)
  deriving DecidableEq

inductive PodHeadError
  | conflict (expected actual : Option PodRevisionAddress)
  | belowLiveGeneration (live requested : Generation)
  | notAdvancing (current requested : Generation)
  | revokedGeneration (target : String) (generation : Generation)
  | invalidAddress
  | projectMismatch (addressProject : ProjectId)
  deriving DecidableEq

inductive EffectAttemptField
  | target | operation
  deriving DecidableEq

inductive SnapshotError
  | sizeLimit | unsupportedVersion | lengthMismatch | anchorMismatch | stateMismatch
  | commitMismatch
  deriving DecidableEq

inductive RuntimeError
  | invalidConfig (reason : String)
  /-- `InvalidConfig` with the error of a manifest registry behind the text. -/
  | invalidAuthority (reason : String) (error : RuntimeManifestError)
  | invalidPolicy (reason : String) (error : PolicyError)
  | invalidTier (reason error : String)
  | ledger (message : String)
  | semantic (error : Semdb.SemanticError)
  | invalidSemanticOrigin (index : Option CommitIndex) (reason : String)
  | legacySemanticRecord (index : CommitIndex)
  | reservedSemanticNamespace (key : String)
  | scope (error : ScopeError)
  | scopeRevisionMismatch (expected actual : Revision)
  | reservedTargetNamespace (target : String)
  | podCapsuleProjectMismatch (capsule embedded project : String)
  | podCapsuleGenerationZero (capsule : String)
  | capsuleProjectMismatch (capsule current requested : String)
  | invalidLifecycleTransition (target : String) (current : Option Generation)
    (requested : Generation)
  | snapshotBeyondHistory (covers lastApplied : CommitIndex)
  | invalidEffectKey (key : String)
  | effectKeyInFlight (key : String)
  | invalidEffectAttemptField (field : EffectAttemptField) (bytes : Nat)
  | unknownEffectAttempt (attempt : CommitIndex)
  | inconsistentEffectResponse (attempt : CommitIndex)
  | podEvidence (reason : String)
  | podOutputAdmission (reason : String)
  | expert (reason : String)
  | kvTaint (error : KvTaintError)
  | kvTaintRegistryFull (limit : Nat)
  | podHead (project : ProjectId) (identity : PodIdentity) (error : PodHeadError)
  /-- `PodHead` with a `MalformedEntry`, which knows no project. -/
  | podHeadMalformed (key : String)
  | structuralRecordOutsideAdmissionPath
  | semanticRecordOutsideSemanticPath
  | settlementOutsideExecutionPath
  | executionFenced
  | staleRevision (action current : Revision)
  | unknownGeneration (target : String)
  | staleGeneration (target : String) (action : Generation) (current : Option Generation)
  | permissionDenied
  | approximateStateAtEffectBoundary (reportDigest : Digest)
  | executionSectionFull (bytes items : Nat)
  | compactionBlocked (bytes items : Nat)
  | compacted (error : CompactedError)
  | snapshot (error : SnapshotError)
  | replayIndexMismatch (expected actual : CommitIndex)
  deriving DecidableEq

end Ptr.Runtime
