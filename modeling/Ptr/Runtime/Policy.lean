import Ptr.Types

/-!
# Signed policy bundles

What a policy activation record carries, and how it is read back from the ledger.
The decoder bounds every list, string and field; the signature is checked when a
bundle is activated, not when a record is replayed.
-/

namespace Ptr.Runtime

open Lib Reader

structure CapabilityPolicy where
  project : ProjectId
  capability : CapabilityId
  deriving DecidableEq, Ord

structure PodPolicyBinding where
  project : ProjectId
  pod : PodId
  capability : CapabilityId
  inputType : TypeId
  deriving DecidableEq, Ord

structure PolicyBundlePayload where
  projects : List ProjectId
  capabilities : List CapabilityPolicy
  inputTypes : List TypeId
  podBindings : List PodPolicyBinding
  validFrom : Timestamp
  validUntil : Option Timestamp

structure SignedPolicyBundle where
  revision : Revision
  keyId : String
  payload : PolicyBundlePayload
  payloadDigest : Digest
  signature : Bytes

inductive PolicyError
  | invalidEncoding
  | notVerified (reason : String)
  deriving DecidableEq

def payloadMagic : Bytes := utf8 "PTR-POLICY-PAYLOAD-V1" ++ [0]

def bundleMagic : Bytes := utf8 "PTR-SIGNED-POLICY-V1" ++ [0]

/-! ### Writing a bundle -/

def canonicalItems {α : Type} [Ord α] [BEq α] (items : List α) : List α :=
  (items.mergeSort fun a b => (compare a b).isLE).eraseReps

def PolicyBundlePayload.canonicalBytes (p : PolicyBundlePayload) : Bytes :=
  payloadMagic ++ putU64 p.validFrom ++ putOption putU64 p.validUntil ++
    putCounted putString (canonicalItems p.projects) ++
    putCounted (fun c => putString c.project ++ putString c.capability)
      (canonicalItems p.capabilities) ++
    putCounted putString (canonicalItems p.inputTypes) ++
    putCounted (fun b => putString b.project ++ putString b.pod ++ putString b.capability ++
      putString b.inputType) (canonicalItems p.podBindings)

def SignedPolicyBundle.encodeForLedger (b : SignedPolicyBundle) : Bytes :=
  bundleMagic ++ putU64 b.revision ++ putString b.keyId ++ b.payloadDigest.bytes ++
    putBytes b.payload.canonicalBytes ++ putBytes b.signature

/-! ### Reading a bundle -/

namespace PolicyReader

def maxItems : Nat := 4096

def maxStringBytes : Nat := 4096

def maxSignatureBytes : Nat := 4096

def maxPayloadBytes : Nat := 4 * 1024 * 1024

def take (n : Nat) : Reader PolicyError Bytes := Reader.take .invalidEncoding n
def u64 : Reader PolicyError U64 := Reader.u64 .invalidEncoding
def digest : Reader PolicyError Digest := Digest.read .invalidEncoding

def length (limit : Nat) : Reader PolicyError Nat := do
  let n ← u32 .invalidEncoding
  if limit < n.val then fail .invalidEncoding else pure n.val

def bytes (limit : Nat) : Reader PolicyError Bytes := do
  let n ← length limit
  take n

def string : Reader PolicyError String := do
  let bs ← bytes maxStringBytes
  match ofUtf8 bs with
  | some s => pure s
  | none => fail .invalidEncoding

def counted {α : Type} (item : Reader PolicyError α) : Reader PolicyError (List α) := do
  let n ← length maxItems
  replicate n item

def magic (expected : Bytes) : Reader PolicyError Unit := do
  let found ← take expected.length
  if found ≠ expected then fail .invalidEncoding else pure ()

def capability : Reader PolicyError CapabilityPolicy := do
  let project ← string
  let capability ← string
  pure ⟨project, capability⟩

def podBinding : Reader PolicyError PodPolicyBinding := do
  let project ← string
  let pod ← string
  let capability ← string
  let inputType ← string
  pure ⟨project, pod, capability, inputType⟩

def payload : Reader PolicyError PolicyBundlePayload := do
  magic payloadMagic
  let validFrom ← u64
  let validUntil ← option .invalidEncoding (fun _ => .invalidEncoding) u64
  let projects ← counted string
  let capabilities ← counted capability
  let inputTypes ← counted string
  let podBindings ← counted podBinding
  pure ⟨projects, capabilities, inputTypes, podBindings, validFrom, validUntil⟩

def whole {α : Type} (r : Reader PolicyError α) (bs : Bytes) : Except PolicyError α := do
  let (a, rest) ← r bs
  if rest ≠ [] then .error .invalidEncoding else .ok a

/-- The fields of a bundle; the payload is decoded once the bundle is read whole. -/
def fields : Reader PolicyError (Revision × String × Digest × Bytes × Bytes) := do
  magic bundleMagic
  let revision ← u64
  let keyId ← string
  let payloadDigest ← digest
  let payload ← bytes maxPayloadBytes
  let signature ← bytes maxSignatureBytes
  pure (revision, keyId, payloadDigest, payload, signature)

end PolicyReader

def SignedPolicyBundle.decodeForLedger (bs : Bytes) : Except PolicyError SignedPolicyBundle := do
  let (revision, keyId, payloadDigest, payloadBytes, signature) ← PolicyReader.whole
    PolicyReader.fields bs
  let payload ← PolicyReader.whole PolicyReader.payload payloadBytes
  .ok ⟨revision, keyId, payload, payloadDigest, signature⟩

end Ptr.Runtime
