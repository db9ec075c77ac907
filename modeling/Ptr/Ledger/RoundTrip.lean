import Ptr.Ledger.Codec

/-!
# The codec reads what it writes

For each writer of the codec the reader takes its bytes from in front of any rest,
and no others (`Reader.Exact`).  The side conditions are the two an append checks:
the rules of the decoder, and strings that a length prefix can hold, as those of a
short payload are.

`decodeEvent_encodeEvent`: an event within its bounds whose payload is not too
large is decoded as itself.
-/

namespace Ptr.Ledger

open Lib Std Reader Cursor List ExtTreeSet

variable {rest : Bytes}

/-! ### Fields -/

def Short (s : String) : Prop := (putString s).length < 2 ^ 32 + 4

def ShortBytes (bs : Bytes) : Prop := (putBytes bs).length < 2 ^ 32 + 4

def ShortOption (x : Option String) : Prop := (putOption putString x).length < 2 ^ 32 + 5

theorem exact_str : Exact string putString Short := by
  intro bs s rest
  rw [exact_string, Short, putString_length, add_comm, Nat.add_lt_add_iff_right]

theorem exact_raw : Exact bytes putBytes ShortBytes := by
  intro bs x rest
  rw [exact_bytes, ShortBytes, putBytes_length, add_comm, Nat.add_lt_add_iff_right]

theorem exact_optStr : Exact (option string) (putOption putString) ShortOption := by
  rintro bs (_ | s) rest
  · simp [exact_option exact_str, ShortOption, putOption]
  · rw [exact_option exact_str, ShortOption, putOption, length_cons, Nat.add_lt_add_iff_right]
    simp [Short]

theorem exact_optU64 : Exact (option u64) (putOption putU64) fun _ => True := by
  simpa using exact_option exact_u64

theorem exact_digest : Exact digest Digest.bytes fun _ => True := Digest.exact_read _

theorem exact_effect : Exact effectFromCode (fun a => [effectCodes.code a]) fun _ => True :=
  exact_code (by decide)

theorem exact_verification :
    Exact verificationFromCode (fun a => [verificationCodes.code a]) fun _ => True :=
  exact_code (by decide)

theorem exact_scopeKind :
    Exact scopeKindFromCode (fun a => [scopeKindCodes.code a]) fun _ => True :=
  exact_code (by decide)

attribute [local simp] bind_iff check_iff ite_iff fail_iff exact_u8 exact_u32 exact_u64
  exact_u128 exact_bool
  exact_str exact_raw exact_optStr exact_optU64 exact_digest exact_effect exact_verification
    exact_scopeKind and_assoc

theorem length_le_flatMap {α : Type} (put : α → Bytes) {a} {as : List α} (h : a ∈ as) :
    (put a).length ≤ (as.flatMap put).length :=
  (sublist_flatten_of_mem (mem_map_of_mem h)).length_le

theorem length_le_option {α : Type} (put : α → Bytes) {a x} (h : x = some a) :
    (put a).length ≤ (putOption put x).length := by
  rw [h]
  exact Nat.le_succ _

/-! ### Attestations and origins -/

theorem checkAttestation_iff {a} : checkAttestation a = .ok () ↔
    checkAttestationRequirement a.required = .ok () ∧
      checkAttestationVerifierCount a.verifiers.length = .ok () ∧
      checkAttestationFindingCount a.findings.length = .ok () := by
  rw [checkAttestation, bind_unit_eq_ok, bind_unit_eq_ok]

theorem toNat_ofNat_of_lt {n} (h : n < 256) : (UInt8.ofNat n).toNat = n := by
  rw [UInt8.toNat_ofNat']
  omega

def Attestation.Readable (a : Attestation) : Prop :=
  checkAttestation a = .ok () ∧ (∀ s ∈ a.verifiers, Short s) ∧ ∀ s ∈ a.findings, Short s

theorem exact_attestation : Exact readAttestation putAttestation Attestation.Readable := by
  rintro bs ⟨required, level, verifiers, findings⟩ rest
  simp only [readAttestation, bind_iff, check_iff, exact_verification, exact_u8,
    exact_replicate exact_str, Attestation.Readable, checkAttestation_iff]
  constructor
  · rintro ⟨_, _, ⟨rfl, -⟩, -, _, ⟨hr, rfl⟩, _, _, ⟨rfl, -⟩, n, _, ⟨rfl, -⟩, -, _, ⟨hv, rfl⟩, _, _,
      ⟨rfl, hn, hvs⟩, m, _, ⟨rfl, -⟩, -, _, ⟨hf, rfl⟩, _, _, ⟨rfl, hm, hfs⟩, ⟨⟩⟩
    rw [← hn] at hv
    rw [← hm] at hf
    exact ⟨by simp [putAttestation, hn, hm], ⟨hr, hv, hf⟩, hvs, hfs⟩
  · rintro ⟨rfl, ⟨hr, hv, hf⟩, hvs, hfs⟩
    have hn : verifiers.length < 256 := by
      have := (refuse_eq_ok.mp hv).1
      unfold maxAttestationVerifiers at this
      omega
    have hm : findings.length < 256 := by
      have := (refuse_eq_ok.mp hf).1
      unfold maxAttestationFindings at this
      omega
    simp [putAttestation, toNat_ofNat_of_lt hn, toNat_ofNat_of_lt hm, hr, hv, hf]
    exact ⟨hvs, hfs⟩

def MergeAuthorityRecord.Readable : MergeAuthorityRecord → Prop
  | .triage policyVersion _ => Short policyVersion
  | .reviewed reviewer => Short reviewer

theorem exact_mergeAuthority :
    Exact readMergeAuthority putMergeAuthority MergeAuthorityRecord.Readable := by
  rintro bs (_ | _) rest <;>
    simp [readMergeAuthority, putMergeAuthority, MergeAuthorityRecord.Readable]

def Ascends (ks : List String) : Prop := ks.Pairwise (· < ·)

theorem exact_rebased (n : Nat) (previous : Option String) :
    Exact (readRebased n previous) (fun ks => ks.flatMap putString) fun ks =>
      ks.length = n ∧ Ascends ks ∧ (∀ p ∈ previous, ∀ k ∈ ks, p < k) ∧ ∀ k ∈ ks, Short k := by
  induction n generalizing previous with
  | zero =>
    rintro bs ks rest
    constructor
    · rintro ⟨⟩
      exact ⟨rfl, rfl, .nil, fun _ _ => nofun, nofun⟩
    · rintro ⟨rfl, hlength, -⟩
      obtain rfl := length_eq_zero_iff.mp hlength
      rfl
  | succ n ih =>
    intro bs ks rest
    simp only [readRebased, bind_iff, exact_str, ite_iff, fail_iff, and_false, false_or, ih,
      Option.any_eq_true, decide_eq_true_eq, not_exists, not_and, String.not_le]
    constructor
    · rintro ⟨k, _, ⟨rfl, hk⟩, hp, ks, _, ⟨rfl, rfl, hks, hall, hshort⟩, ⟨⟩⟩
      refine ⟨by simp, rfl, pairwise_cons.mpr ⟨hall k rfl, hks⟩, fun p hprevious => ?_,
        forall_mem_cons.mpr ⟨hk, hshort⟩⟩
      exact forall_mem_cons.mpr
        ⟨hp p hprevious, fun q hq => String.lt_trans (hp p hprevious) (hall k rfl q hq)⟩
    · rintro ⟨rfl, hlength, hks, hall, hshort⟩
      obtain ⟨k, ks, rfl⟩ := exists_cons_of_length_eq_add_one hlength
      obtain ⟨hhead, htail⟩ := pairwise_cons.mp hks
      rw [forall_mem_cons] at hshort
      refine ⟨k, _, ⟨by simp, hshort.1⟩, fun p hp => hall p hp k mem_cons_self, ks, _,
        ⟨rfl, ?_, htail, ?_, hshort.2⟩, rfl⟩
      · exact Nat.succ.inj hlength
      · rintro _ ⟨⟩
        exact hhead

theorem rebased_ascends (s : ExtTreeSet String) : Ascends s.toList :=
  (ordered_toList (t := s)).imp fun h => compareOfLessAndEq_eq_lt.mp h

theorem ofList_toList (s : ExtTreeSet String) : ofList s.toList = s :=
  ext_mem fun k => by simp

theorem toList_ofList {ks} (h : Ascends ks) : (ofList ks).toList = ks := by
  have hperm : (ofList ks).toList.Perm ks := by
    refine (perm_ext_iff_of_nodup ?_ (h.imp String.ne_of_lt)).mpr fun k => by simp
    exact (rebased_ascends _).imp String.ne_of_lt
  exact hperm.eq_of_pairwise (fun a b _ _ hab hba => absurd hba (String.lt_asymm hab))
    (rebased_ascends _) h

def MergeRecord.Readable (m : MergeRecord) : Prop :=
  Short m.branch ∧ Short m.author ∧ checkRebasedKeyCount m.rebased.size = .ok () ∧
    (∀ k ∈ m.rebased.toList, Short k) ∧ m.verification.Readable ∧ m.authority.Readable

theorem exact_merge : Exact readMerge putMerge MergeRecord.Readable := by
  rintro bs ⟨_, _, _, _, _, rebased, _, _⟩ rest
  simp [readMerge, putMerge, putCounted, MergeRecord.Readable, exact_attestation,
    exact_mergeAuthority, exact_rebased]
  constructor
  · rintro ⟨n, ks, rfl, hb, ha, hc, hn, hks, hshort, hv, hm, rfl⟩
    rw [← length_toList]
    simp [toList_ofList hks, hn, putU32, hb, ha, hc, hv, hm]
    exact fun k hk => hshort k hk
  · rintro ⟨rfl, hb, ha, hc, hshort, hv, hm⟩
    have hn : rebased.toList.length < 2 ^ 32 := by
      have := (refuse_eq_ok.mp hc).1
      rw [length_toList]
      unfold maxRebasedKeys at this
      omega
    rw [← length_toList] at hc
    exact ⟨⟨_, hn⟩, rebased.toList, by simp [putU32], hb, ha, hc, rfl, rebased_ascends _, by
      simpa using hshort, hv, hm, ofList_toList _⟩

def SemanticOrigin.Readable : SemanticOrigin → Prop
  | .legacy => False
  | .request r => Short r
  | .podOutput r pod _ | .podCandidate r pod _ _ => Short r ∧ Short pod
  | .host principal verification => Short principal ∧ verification.Readable
  | .merge m => m.Readable

theorem exact_attributedOrigin : Exact attributedOrigin putOrigin SemanticOrigin.Readable := by
  rintro bs (_ | _) rest <;>
    simp [attributedOrigin, putOrigin, SemanticOrigin.Readable, exact_attestation, exact_merge]

/-! ### Records with several fields -/

theorem exact_effectAttempt :
    Exact readEffectAttempt putEffectAttempt fun a => ShortOption a.key ∧ Short a.project ∧
      Short a.principal ∧ Short a.target ∧ Short a.operation ∧ Short a.capability := by
  rintro bs ⟨⟩ rest
  simp [readEffectAttempt, putEffectAttempt]

theorem exact_lease : Exact readLease putLease fun l =>
    ShortOption l.stateId ∧ ShortOption l.podId ∧ ShortOption l.resourceLeaseId := by
  rintro bs ⟨⟩ rest
  simp [readLease, putLease, exact_option exact_u128]

theorem exact_scopeLifecycle : Exact readScopeLifecycle putScopeLifecycle fun e => Short e.scopeId ∧
    ShortOption e.parentId ∧ Short e.sessionId ∧ Short e.projectId ∧ ShortOption e.lease.stateId ∧
    ShortOption e.lease.podId ∧ ShortOption e.lease.resourceLeaseId ∧ ShortOption e.reason := by
  rintro bs ⟨⟩ rest
  simp [readScopeLifecycle, putScopeLifecycle, exact_lease, exact_option exact_scopeKind]

theorem exact_meshEndpoint : Exact readMeshEndpoint putMeshEndpoint fun e =>
    (Short e.networkId ∧ Short e.peerId ∧ ShortOption e.relayId) ∧
      checkMeshEndpoint e = .ok () := by
  rintro bs ⟨⟩ rest
  simp [readMeshEndpoint, putMeshEndpoint, exact_code (t := meshRouteCodes) (by decide) _ _ _]

theorem exact_meshTunnel : Exact readMeshTunnel putMeshTunnel fun e =>
    (Short e.networkId ∧ Short e.peerId ∧ ShortOption e.invitationId ∧ ShortOption e.tunnelId) ∧
    ∀ a ∈ e.endpoint, (Short a.networkId ∧ Short a.peerId ∧ ShortOption a.relayId) ∧
      checkMeshEndpoint a = .ok () := by
  rintro bs ⟨⟩ rest
  simp [readMeshTunnel, putMeshTunnel, exact_code (t := meshEventKindCodes) (by decide) _ _ _,
    exact_option exact_meshEndpoint]

theorem exact_protectedState :
    Exact readProtectedState putProtectedState fun s => Short s.logicalId := by
  rintro bs ⟨⟩ rest
  simp [readProtectedState, putProtectedState]

theorem exact_manifestAdmission :
    Exact readManifestAdmission putManifestAdmission fun m => ShortBytes m.manifest := by
  rintro bs ⟨⟩ rest
  simp [readManifestAdmission, putManifestAdmission]

theorem exact_tierBackend : Exact readTierBackend putTierBackend fun b => Short b.backendId := by
  rintro bs ⟨⟩ rest
  simp [readTierBackend, putTierBackend]

theorem exact_tierReplica : Exact readTierReplica putTierReplica fun r => Short r.backendId := by
  rintro bs ⟨⟩ rest
  simp [readTierReplica, putTierReplica]

theorem exact_podEvidence : Exact readPodEvidence putPodEvidence fun e =>
    Short e.sessionId ∧ Short e.traceId ∧ ShortBytes e.bundle := by
  rintro bs ⟨⟩ rest
  simp [readPodEvidence, putPodEvidence]

theorem exact_podOutput :
    Exact readPodOutput putPodOutput fun o => (Short o.requestId ∧ Short o.sessionId ∧
      Short o.scopeId ∧ Short o.podId ∧ Short o.outputType) ∧ o.verification.Readable := by
  rintro bs ⟨⟩ rest
  simp [readPodOutput, putPodOutput, exact_attestation]

theorem exact_provenance :
    Exact readProvenance putProvenance fun p => Short p.1 ∧ ShortOption p.2 := by
  rintro bs ⟨⟩ rest
  simp [readProvenance, putProvenance]

theorem exact_podHypothesis :
    Exact readPodHypothesis putPodHypothesis fun h => (Short h.requestId ∧ Short h.sessionId ∧
      Short h.scopeId ∧ Short h.branchId ∧ Short h.podId ∧ Short h.outputType ∧
      ShortBytes h.payload) ∧
      (checkHypothesisProvenanceCount h.provenance.length = .ok () ∧ ∀ p ∈ h.provenance, Short p.1 ∧
        ShortOption p.2) ∧
      checkHypothesisDependencyCount h.dependencies.length = .ok () ∧ h.verification.Readable := by
  rintro bs ⟨⟩ rest
  simp [readPodHypothesis, putPodHypothesis, putCounted, exact_attestation,
    exact_replicate exact_provenance, exact_replicate exact_digest]
  constructor
  · rintro ⟨n, m, rfl, h1, h2, h3, h4, h5, h6, h7, hp, hn, hps, hd, hm, hv⟩
    rw [hn, hm]
    exact ⟨rfl, h1, h2, h3, h4, h5, h6, h7, hp, hps, hd, hv⟩
  · rintro ⟨rfl, h1, h2, h3, h4, h5, h6, h7, hp, hps, hd, hv⟩
    have hn := (refuse_eq_ok.mp hp).1
    have hm := (refuse_eq_ok.mp hd).1
    unfold maxHypothesisProvenance at hn
    unfold maxHypothesisDependencies at hm
    exact ⟨⟨_, by omega⟩, ⟨_, by omega⟩, rfl, h1, h2, h3, h4, h5, h6, h7, hp, rfl, hps, hd, rfl, hv⟩

theorem exact_expertStructural : Exact readExpertStructural putExpertStructural fun s =>
    (Short s.project ∧ ShortBytes s.record) ∧ checkExpertRecord s.record = .ok () := by
  rintro bs ⟨⟩ rest
  simp [readExpertStructural, putExpertStructural,
    exact_code (t := expertOpCodes) (by decide) _ _ _]

theorem exact_fenceRevocation :
    Exact readFenceRevocation putFenceRevocation fun r => Short r.subject := by
  rintro bs ⟨⟩ rest
  simp [readFenceRevocation, putFenceRevocation]

theorem exact_fenceEvidence :
    Exact readFenceEvidence putFenceEvidence fun e => ShortBytes e.report := by
  rintro bs ⟨⟩ rest
  simp [readFenceEvidence, putFenceEvidence]

theorem exact_expertFence :
    Exact readExpertFence putExpertFence fun f => (Short f.project ∧ Short f.pod) ∧
      (∀ r ∈ f.revocation, Short r.subject) ∧ (∀ e ∈ f.evidence, ShortBytes e.report) ∧
      checkExpertFence f = .ok () := by
  rintro bs ⟨⟩ rest
  simp [readExpertFence, putExpertFence, exact_code (t := expertFenceActionCodes) (by decide) _ _ _,
    exact_code (t := expertFenceCauseCodes) (by decide) _ _ _,
    exact_code (t := expertFenceResumeCodes) (by decide) _ _ _, exact_option exact_fenceRevocation,
    exact_option exact_fenceEvidence]

theorem exact_taintSubject : Exact readTaintSubject putTaintSubject fun _ => True := by
  rintro bs ⟨⟩ rest
  simp [readTaintSubject, putTaintSubject, exact_code (t := kvTaintSubjectCodes) (by decide) _ _ _]

theorem exact_taintChange : Exact readTaintChange putTaintChange fun _ => True := by
  rintro bs (_ | _) rest <;> simp [readTaintChange, putTaintChange]

theorem exact_invalidationKind : Exact readInvalidationKind putInvalidationKind fun _ => True := by
  rintro bs (_ | _) rest <;> simp [readInvalidationKind, putInvalidationKind]

theorem exact_inputInvalidation : Exact readInputInvalidation putInputInvalidation fun i =>
    Short i.input ∧ checkInputInvalidated i = .ok () := by
  rintro bs ⟨⟩ rest
  simp [readInputInvalidation, putInputInvalidation, exact_invalidationKind]

theorem exact_authorityChange : Exact readAuthorityChange putAuthorityChange fun c =>
    checkExpertAuthorityChanged c = .ok () := by
  rintro bs ⟨⟩ rest
  simp [readAuthorityChange, putAuthorityChange, exact_code (t := expertAuthorityKindCodes)
    (by decide) _ _ _, exact_code (t := expertAuthorityClassCodes) (by decide) _ _ _]

def ShortAddress (a : PodAddress) : Prop := Short a.project ∧ Short a.namespace ∧ Short a.podId

theorem exact_podAddress : Exact readPodAddress
    (fun a => putString a.project ++ putString a.namespace ++ putString a.podId) ShortAddress := by
  rintro bs ⟨⟩ rest
  simp [readPodAddress, ShortAddress]

theorem checkPodAddress_of_revision {a} (h : checkRevisionAddress a = .ok ()) :
    checkPodAddress a.address = .ok () := by
  unfold checkRevisionAddress PodRevisionAddress.validate at h
  unfold checkPodAddress
  cases hv : a.address.validate <;> rw [hv] at h
  cases h

theorem exact_revisionAddress : Exact readRevisionAddress putRevisionAddress fun a =>
    ShortAddress a.address ∧ checkRevisionAddress a = .ok () := by
  rintro bs ⟨⟩ rest
  simp [readRevisionAddress, putRevisionAddress, exact_podAddress]
  exact fun _ _ => checkPodAddress_of_revision

theorem exact_egressSource : Exact readEgressSource putEgressSource fun
    | .pod source => ShortAddress source.address
    | .overflow => True := by
  rintro bs (⟨⟨⟩⟩ | _) rest <;>
    simp [readEgressSource, putEgressSource, putRevisionAddress, exact_podAddress]

theorem exact_egressRefusal : Exact readEgressRefusal putEgressRefusal fun r => Short r.traceId ∧
    (∀ source, r.source = .pod source → ShortAddress source.address) ∧ Short r.target ∧
      checkEgressRefused r = .ok () := by
  rintro bs ⟨_, _ | _, _, _, _ | _, _⟩ rest <;>
    simp [readEgressRefusal, putEgressRefusal, exact_egressSource,
      exact_code (t := egressReasonCodes) (by decide) _ _ _]

theorem exact_podHeadAdvance :
    Exact readPodHeadAdvance putPodHeadAdvance fun a => (Short a.project ∧ Short a.identity) ∧
      (∀ old ∈ a.old, ShortAddress old.address ∧ checkRevisionAddress old = .ok ()) ∧
      (ShortAddress a.new.address ∧ checkRevisionAddress a.new = .ok ()) ∧
      checkPodHeadAdvanced a = .ok () := by
  rintro bs ⟨⟩ rest
  simp [readPodHeadAdvance, putPodHeadAdvance, exact_option exact_revisionAddress,
    exact_revisionAddress]

/-! ### Sizes -/

attribute [local simp] Short ShortBytes ShortOption ShortAddress

theorem short_of_mem {ss : List String} (h : (ss.flatMap putString).length < 2 ^ 32) {s}
    (hs : s ∈ ss) : Short s := by
  have := length_le_flatMap putString hs
  rw [Short]
  omega

theorem attestation_readable {a : Attestation} (hc : checkAttestation a = .ok ())
    (hl : (putAttestation a).length < 2 ^ 32) : a.Readable := by
  simp only [putAttestation, length_append, length_cons] at hl
  exact ⟨hc, fun _ => short_of_mem (by omega), fun _ => short_of_mem (by omega)⟩

theorem origin_readable {b r : Revision} {d} {o : SemanticOrigin}
    (hc : checkOriginBounds (.semanticDeltaCommitted b r d o) = .ok ()) (ho : o ≠ .legacy)
    (hl : (putOrigin o).length < 2 ^ 32) : o.Readable := by
  cases o with
  | legacy => exact absurd rfl ho
  | merge m =>
    rw [checkOriginBounds, bind_unit_eq_ok] at hc
    simp only [putOrigin, putMerge, putCounted, length_cons, length_append] at hl
    refine ⟨?_, ?_, hc.1, fun _ => short_of_mem (by omega),
      attestation_readable hc.2 (by omega), ?_⟩
    · simp at hl ⊢
      omega
    · simp at hl ⊢
      omega
    · cases ha : m.authority <;> simp [ha, putMergeAuthority, MergeAuthorityRecord.Readable]
        at hl ⊢ <;> omega
  | host =>
    simp only [putOrigin, length_cons, length_append] at hl
    refine ⟨?_, attestation_readable hc (by omega)⟩
    simp at hl ⊢
    omega
  | _ =>
    simp [putOrigin, SemanticOrigin.Readable] at hl ⊢
    omega

theorem readPodHypothesis_put {h} (hc : checkOriginBounds (.podHypothesisCommitted h) = .ok ())
    (hl : (putPodHypothesis h).length < 2 ^ 32) :
    readPodHypothesis (putPodHypothesis h ++ rest) = .ok (h, rest) := by
  rw [checkOriginBounds, bind_unit_eq_ok, bind_unit_eq_ok] at hc
  refine exact_podHypothesis.of_put ?_
  simp [putPodHypothesis, putCounted, -and_assoc, -length_flatMap] at hl ⊢
  refine ⟨by omega, ⟨hc.1, fun s o hp => ?_⟩, hc.2.1,
    attestation_readable hc.2.2 (lt_of_not_ge fun _ => by omega)⟩
  have := length_le_flatMap putProvenance hp
  simp [putProvenance, -length_flatMap] at this
  omega

theorem readExpertFence_put {f} (hc : checkExpertFence f = .ok ())
    (hl : (putExpertFence f).length < 2 ^ 32) :
    readExpertFence (putExpertFence f ++ rest) = .ok (f, rest) := by
  refine exact_expertFence.of_put ?_
  simp [putExpertFence, -and_assoc] at hl ⊢
  refine ⟨by omega, fun r h => ?_, fun e h => ?_, hc⟩
  · have := length_le_option putFenceRevocation h
    simp [putFenceRevocation] at this
    omega
  · have := length_le_option putFenceEvidence h
    simp [putFenceEvidence] at this
    omega

theorem readEgressRefusal_put {r} (hc : checkEgressRefused r = .ok ())
    (hl : (putEgressRefusal r).length < 2 ^ 32) :
    readEgressRefusal (putEgressRefusal r ++ rest) = .ok (r, rest) := by
  refine exact_egressRefusal.of_put ?_
  simp [putEgressRefusal] at hl ⊢
  refine ⟨by omega, fun source h => ?_, by omega, hc⟩
  simp [h, putEgressSource, putRevisionAddress] at hl
  omega

theorem checkPodHeadAdvanced_ok {a} (h : checkPodHeadAdvanced a = .ok ()) :
    checkRevisionAddress a.new = .ok () ∧ ∀ old, a.old = some old →
      checkRevisionAddress old = .ok () := by
  rw [checkPodHeadAdvanced, refuse_eq_ok, refuse_eq_ok, bind_unit_eq_ok] at h
  obtain ⟨-, -, hn, h⟩ := h
  refine ⟨hn, fun old ho => ?_⟩
  rw [ho] at h
  simp only [refuse_eq_ok, bind_unit_eq_ok] at h
  exact h.2.1

theorem readPodHeadAdvance_put {a} (hc : checkPodHeadAdvanced a = .ok ())
    (hl : (putPodHeadAdvance a).length < 2 ^ 32) :
    readPodHeadAdvance (putPodHeadAdvance a ++ rest) = .ok (a, rest) := by
  obtain ⟨hn, ho⟩ := checkPodHeadAdvanced_ok hc
  refine exact_podHeadAdvance.of_put ?_
  simp [putPodHeadAdvance, -and_assoc] at hl ⊢
  refine ⟨by omega, fun old h => ⟨?_, ho old h⟩, ⟨?_, hn⟩, hc⟩
  · have := length_le_option putRevisionAddress h
    simp [putRevisionAddress] at this
    omega
  · simp [putRevisionAddress] at hl
    omega

/-! ### Events -/

variable {e : LedgerEvent}

/-- A tag selects the reader of its fields. -/
theorem readEvent_cons (tag : UInt8) (bs : Bytes) :
    readEvent (tag :: bs) = readFields tag.toNat bs :=
  rfl

theorem readEvent_tagged {α : Type} {r} {f : α → LedgerEvent} {tag} {bs rest : Bytes} {a}
    (ht : readFields tag.toNat = r >>= fun a => pure (f a)) (h : r bs = .ok (a, rest)) :
    readEvent (tag :: bs) = .ok (f a, rest) := by
  rw [readEvent_cons, ht, bind_of_ok h]
  rfl

theorem readEvent_plain {tag r bs rest} (he : encodeEvent e = tag :: bs)
    (ht : readFields tag.toNat = r) (h : r (bs ++ rest) = .ok (e, rest)) :
    readEvent (encodeEvent e ++ rest) = .ok (e, rest) := by
  rw [he, cons_append, readEvent_cons, ht, h]

theorem readKvTaint_put {subjects change} (hc : checkKvTaint subjects change = .ok ()) :
    readKvTaint (putKvTaint subjects change ++ rest) =
      .ok (.kvTaintCommitted subjects change, rest) := by
  have hn : subjects.length ≠ 0 ∧ subjects.length ≤ maxKvTaintSubjects := by
    have h := (refuse_eq_ok.mp hc).1
    rw [← length_eq_zero_iff] at h
    omega
  have hm : (UInt8.ofNat (min subjects.length 255)).toNat = subjects.length := by
    rw [toNat_ofNat_of_lt] <;> unfold maxKvTaintSubjects at hn <;> omega
  simp [putKvTaint, readKvTaint, hm, hc, exact_replicate exact_taintSubject, exact_taintChange]
  simpa using hn

theorem readEvent_semanticDelta {b r d o}
    (hc : checkOriginBounds (.semanticDeltaCommitted b r d o) = .ok ())
    (hl : (encodeEvent (.semanticDeltaCommitted b r d o)).length < 2 ^ 32) :
    readEvent (encodeEvent (.semanticDeltaCommitted b r d o) ++ rest) =
      .ok (.semanticDeltaCommitted b r d o, rest) := by
  simp only [encodeEvent, length_append, length_cons, putBytes_length] at hl
  rw [encodeEvent, cons_append, readEvent_cons]
  by_cases ho : o = .legacy
  · subst ho
    change readLegacyDelta _ = _
    simp [readLegacyDelta, putOrigin]
    omega
  · rw [if_neg ho]
    change readAttributedDelta _ = _
    have hread := origin_readable hc ho (by omega)
    simp [readAttributedDelta, exact_attributedOrigin, hread]
    omega

theorem readEvent_encodeEvent (hc : checkOriginBounds e = .ok ())
    (hl : (encodeEvent e).length < 2 ^ 32) : readEvent (encodeEvent e ++ rest) = .ok (e, rest) := by
  cases e with
  | semanticDeltaCommitted => exact readEvent_semanticDelta hc hl
  | revoked | hardConstraintCommitted | procedurePromoted | procedureRevoked | capsuleCommitted
  | capsuleSuperseded
  | verifierAttested | snapshotCommitted | effectReconciled | executionManifestRevoked
  | policyBundleActivated
  | policyBundleRevoked | sessionRevoked | tierObjectCommitted | effectAttempted | scopeLifecycle
  | protectedStateCommitted | executionManifestAdmitted | tierBackendLifecycle
  | tierReplicaLifecycle
  | podEvidenceCommitted =>
    -- the readers of the fields are exact, and a payload of this length has only short strings
    simp [encodeEvent, readEvent_cons, readFields, readNamed, readCapsuleCommitted,
      readCapsuleSuperseded, readVerifierAttested, readSnapshotCommitted, readEffectReconciled,
      readManifestRevoked, readPolicyActivated, readPolicyRevoked, readSessionRevoked,
      readTierObject, exact_effectAttempt, putEffectAttempt, exact_scopeLifecycle,
      putScopeLifecycle, putLease, exact_protectedState, putProtectedState, exact_manifestAdmission,
      putManifestAdmission, exact_tierBackend, putTierBackend, exact_tierReplica, putTierReplica,
      exact_podEvidence, putPodEvidence, -Bool.exists_bool] at hl ⊢
    try omega
  | effectSettled a r =>
    refine readEvent_plain (r := readEffectSettled) rfl rfl ?_
    cases r <;> simp [encodeEvent, readEffectSettled, exact_option exact_raw, putOption] at hl ⊢
    omega
  | meshTunnelLifecycle a =>
    refine readEvent_tagged rfl (exact_meshTunnel.of_put ?_)
    obtain ⟨_, _, _, _, _, _, _, _ | _, _, _, _⟩ := a <;>
      simp [encodeEvent, putMeshTunnel, putOption, putMeshEndpoint, -and_assoc] at hc hl ⊢
    · omega
    · exact ⟨by omega, by omega, hc⟩
  | podOutputAdmitted =>
    refine readEvent_tagged rfl (exact_podOutput.of_put ?_)
    simp [encodeEvent, putPodOutput, -and_assoc] at hl ⊢
    exact ⟨by omega, attestation_readable hc (by omega)⟩
  | podHypothesisCommitted =>
    exact readEvent_tagged rfl (readPodHypothesis_put hc (Nat.lt_of_succ_lt hl))
  | expertStructuralCommitted =>
    refine readEvent_tagged rfl (exact_expertStructural.of_put ?_)
    simp [encodeEvent, putExpertStructural, -and_assoc] at hl ⊢
    exact ⟨by omega, hc⟩
  | expertFenceCommitted =>
    exact readEvent_tagged rfl (readExpertFence_put hc (Nat.lt_of_succ_lt hl))
  | kvTaintCommitted => exact readEvent_plain rfl rfl (readKvTaint_put hc)
  | inputInvalidated =>
    refine readEvent_tagged rfl (exact_inputInvalidation.of_put ?_)
    simp [encodeEvent, putInputInvalidation] at hl ⊢
    exact ⟨by omega, hc⟩
  | expertAuthorityChanged => exact readEvent_tagged rfl (exact_authorityChange.of_put hc)
  | egressRefused => exact readEvent_tagged rfl (readEgressRefusal_put hc (Nat.lt_of_succ_lt hl))
  | podHeadAdvanced => exact readEvent_tagged rfl (readPodHeadAdvance_put hc (Nat.lt_of_succ_lt hl))

/-- **An event that an append accepts is decoded as itself.** -/
theorem decodeEvent_encodeEvent (hc : checkOriginBounds e = .ok ())
    (hl : (encodeEvent e).length ≤ maxRecordBytes) : decodeEvent (encodeEvent e) = .ok e := by
  have hlt : (encodeEvent e).length < 2 ^ 32 := by
    unfold maxRecordBytes at hl
    omega
  have h : readEvent (encodeEvent e ++ []) = .ok (e, []) := readEvent_encodeEvent hc hlt
  rw [append_nil] at h
  rw [decodeEvent, h]

end Ptr.Ledger
