import Ptr.Lib.Bytes
import Ptr.Lib.Pairs

/-!
# Foundational domain types

The types of `ptr-types` that the ledger and the runtime share.  A `u64` newtype
(`Revision`, `Generation`, `CommitIndex`, `Timestamp`) is `U64` and a string id
is `String`: neither carries an invariant in the source.  A digest is a byte
string of length 32, and the length is part of its type.
-/

namespace Ptr

open Lib Std

abbrev Revision := U64
abbrev Generation := U64
abbrev CommitIndex := U64
abbrev Timestamp := U64
abbrev FencingToken := U128

-- the fact that maps by an id and a generation need, by name
instance transOrdIdGeneration : TransOrd (String × Generation) := inferInstance

instance lawfulEqOrdIdGeneration : LawfulEqOrd (String × Generation) := inferInstance

abbrev ProjectId := String
abbrev CapsuleId := String
abbrev CapabilityId := String
abbrev TypeId := String
abbrev PodId := String
abbrev PodIdentity := String
abbrev RequestId := String
abbrev NamespaceId := String
abbrev StateId := String
abbrev ScopeId := String
abbrev SessionId := String
abbrev PeerId := String
abbrev TraceId := String
abbrev NetworkId := String
abbrev InvitationId := String

/-- `[u8; 32]`. -/
structure Digest where
  bytes : Bytes
  length_eq : bytes.length = 32
  deriving DecidableEq

namespace Digest

def fill (b : UInt8) : Digest := ⟨List.replicate 32 b, List.length_replicate⟩

/-- `[0; 32]`, which no record may carry as the digest of anything. -/
def zero : Digest := fill 0

@[ext] theorem ext {a b : Digest} (h : a.bytes = b.bytes) : a = b := by
  cases a; cases b; cases h; rfl

@[simp] theorem bytes_length (d : Digest) : d.bytes.length = 32 := d.length_eq

instance : Inhabited Digest := ⟨zero⟩

instance : Ord Digest := ⟨fun a b => compare a.bytes b.bytes⟩

instance : TransOrd Digest where
  eq_swap {a b} := @OrientedCmp.eq_swap Bytes compare _ a.bytes b.bytes
  isLE_trans {a b c} := @TransCmp.isLE_trans Bytes compare _ a.bytes b.bytes c.bytes

instance : LawfulEqOrd Digest where
  compare_self {a} := @ReflCmp.compare_self Bytes compare _ a.bytes
  eq_of_compare h := ext (@LawfulEqCmp.eq_of_compare Bytes compare _ _ _ h)

def read {ε : Type} (e : ε) : Reader ε Digest := fun bs =>
  if h : 32 ≤ bs.length then .ok (⟨bs.take 32, by simp [h]⟩, bs.drop 32) else .error e

theorem exact_read {ε : Type} (e : ε) : Reader.Exact (read e) bytes fun _ => True := by
  intro bs d rest
  rw [read]
  constructor
  · intro h
    split at h
    · cases h
      exact ⟨(List.take_append_drop 32 bs).symm, trivial⟩
    · cases h
  · rintro ⟨rfl, -⟩
    simp

@[simp] theorem read_put {ε : Type} (e : ε) (d : Digest) (rest : Bytes) :
    read e (d.bytes ++ rest) = .ok (d, rest) :=
  (exact_read e).of_put trivial

end Digest

def blankHash : Bytes → Digest := fun _ => .zero

inductive Effect
  | pure | read | mutation | external | irreversible
  deriving DecidableEq

inductive Validity
  | live | superseded | revoked | disputed
  deriving DecidableEq

inductive VerificationLevel
  | unverified | latentAgreement | sampleVerified | fullSemantic | deterministic
  deriving DecidableEq

/-! ### Scope lifecycle records -/

inductive ScopeLifecycleKind
  | created | admitted | started | completed | failed | cancelled | timedOut | revoked | released
  deriving DecidableEq

structure ScopeLeaseBinding where
  stateId : Option StateId := none
  podId : Option PodId := none
  placementEpoch : Option U64 := none
  fencingToken : Option U128 := none
  generation : Option Generation := none
  resourceLeaseId : Option String := none
  deriving DecidableEq

structure ScopeLifecycleEvent where
  scopeId : ScopeId
  parentId : Option ScopeId
  sessionId : SessionId
  projectId : ProjectId
  createdAt : Timestamp
  deadline : Option Timestamp
  kind : ScopeLifecycleKind
  previousKind : Option ScopeLifecycleKind
  lease : ScopeLeaseBinding
  revision : Revision
  reason : Option String
  deriving DecidableEq

/-! ### Pod addresses -/

inductive ResolveError
  | invalidScheme
  | invalidAddress (field : String)
  | missingBinding (field : String)
  | staleRoute
  | conflictingEndpoint

structure PodAddress where
  project : ProjectId
  «namespace» : NamespaceId
  podId : PodId
  deriving DecidableEq

def isSegmentByte (b : UInt8) : Bool :=
  (48 ≤ b ∧ b ≤ 57) || (65 ≤ b ∧ b ≤ 90) || (97 ≤ b ∧ b ≤ 122) ||
    b == 46 || b == 95 || b == 126 || b == 45

def isSegment (s : String) : Bool := !s.isEmpty && (utf8 s).all isSegmentByte

def PodAddress.validate (a : PodAddress) : Except ResolveError Unit :=
  if !isSegment a.project then .error (.invalidAddress "project")
  else if !isSegment a.namespace then .error (.invalidAddress "namespace")
  else if !isSegment a.podId then .error (.invalidAddress "pod_id")
  else .ok ()

structure PodRevisionAddress where
  address : PodAddress
  semanticRevision : Digest
  generation : Generation
  deriving DecidableEq

def PodRevisionAddress.validate (a : PodRevisionAddress) : Except ResolveError Unit := do
  a.address.validate
  if a.semanticRevision = Digest.zero then .error (.missingBinding "semantic_revision")
  else .ok ()

/-! ### Mesh tunnel records -/

inductive MeshRouteKind
  | direct | relay
  deriving DecidableEq

structure MeshEndpointBinding where
  networkId : NetworkId
  peerId : PeerId
  route : MeshRouteKind
  relayId : Option PeerId
  membershipGeneration : Generation
  membershipRevision : Revision
  deriving DecidableEq

def MeshEndpointBinding.validate (e : MeshEndpointBinding) : Except ResolveError Unit :=
  if e.networkId.isEmpty || e.peerId.isEmpty then .error (.missingBinding "mesh_identity")
  else if e.membershipGeneration = 0 ∨ e.membershipRevision = 0 then .error .staleRoute
  else match e.route, e.relayId with
    | .direct, none => .ok ()
    | .direct, some _ => .error .conflictingEndpoint
    | .relay, some relay =>
      if relay.isEmpty then .error (.missingBinding "relay_id") else .ok ()
    | .relay, none => .error (.missingBinding "relay_id")

inductive MeshTunnelEventKind
  | invitationCreated | invitationAccepted | membershipActivated | membershipRevoked
  | routeChanged | tunnelEstablished | tunnelRevoked | tunnelReleased
  deriving DecidableEq

structure MeshTunnelLifecycleEvent where
  networkId : NetworkId
  peerId : PeerId
  invitationId : Option InvitationId
  tunnelId : Option String
  generation : Generation
  revision : Revision
  kind : MeshTunnelEventKind
  endpoint : Option MeshEndpointBinding
  placementEpoch : U64
  fencingToken : FencingToken
  eventDigest : Digest
  deriving DecidableEq

def MeshTunnelLifecycleEvent.validate (e : MeshTunnelLifecycleEvent) : Except String Unit := do
  if e.networkId.isEmpty || e.peerId.isEmpty then throw "mesh identity"
  if e.generation = 0 ∨ e.revision = 0 ∨ e.placementEpoch = 0 then throw "mesh revision"
  if (e.kind = .tunnelEstablished ∨ e.kind = .routeChanged) ∧ e.endpoint.isNone then
    throw "mesh endpoint"
  if let some endpoint := e.endpoint then
    if let .error _ := endpoint.validate then throw "mesh endpoint"
    if endpoint.networkId ≠ e.networkId ∨ endpoint.peerId ≠ e.peerId then
      throw "mesh endpoint identity"
  if e.eventDigest = Digest.zero then throw "event digest"

/-! ### Egress refusals -/

inductive EgressRefusalReason
  | hostNotAllowed | portNotAllowed | topicNotAllowed | invalidTopic | rateLimited
  | topicRequired | topicUnverifiable
  deriving DecidableEq

end Ptr
