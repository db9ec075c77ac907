import Ptr.Ledger.RoundTrip

/-!
# One payload for each event

The decoder accepts only what the encoder writes: every reader of a field takes
exactly the bytes that the writer of that field puts for its value
(`Reader.Exact`), and it makes the checks that a writer makes before an append.

* `decodeEvent_spells`: an accepted payload is the encoding of its event, and the
  event meets the rules of the writer.
* `encodable_iff_decodes`: a writer accepts an event exactly if a reader takes it
  back.
-/

namespace Ptr.Ledger

open Lib Reader Cursor List

/-! ### Events -/

theorem checkOriginBounds_readable {b r d o} (ho : o.Readable) :
    checkOriginBounds (.semanticDeltaCommitted b r d o) = .ok () := by
  cases o with
  | host => exact ho.2.1
  | merge =>
    rw [checkOriginBounds, bind_unit_eq_ok]
    exact ⟨ho.2.2.1, ho.2.2.2.2.1.1⟩
  | _ => rfl

theorem checkOriginBounds_meshTunnel {e}
    (h : ∀ endpoint, e.endpoint = some endpoint → checkMeshEndpoint endpoint = .ok ()) :
    checkOriginBounds (.meshTunnelLifecycle e) = .ok () := by
  obtain ⟨_, _, _, _, _, _, _, endpoint, _, _, _⟩ := e
  cases endpoint with
  | none => rfl
  | some endpoint => exact h endpoint rfl

attribute [local simp] bind_iff check_iff ite_iff fail_iff exact_u8 exact_u64 exact_bool
  exact_str exact_raw
  exact_digest and_assoc

theorem readAttributedDelta_ok {bs e rest} (h : readAttributedDelta bs = .ok (e, rest)) :
    12 :: bs = encodeEvent e ++ rest ∧ checkOriginBounds e = .ok () := by
  simp [readAttributedDelta, exact_attributedOrigin] at h
  obtain ⟨_, _, _, o, rfl, -, ho, rfl⟩ := h
  refine ⟨?_, checkOriginBounds_readable ho⟩
  cases o with
  | legacy => cases ho
  | _ => simp [encodeEvent]

theorem readKvTaint_ok {bs e rest} (h : readKvTaint bs = .ok (e, rest)) :
    29 :: bs = encodeEvent e ++ rest ∧ checkOriginBounds e = .ok () := by
  simp [readKvTaint, exact_replicate exact_taintSubject, exact_taintChange] at h
  obtain ⟨n, subjects, change, rfl, -, -, hn, hcheck, rfl⟩ := h
  -- the count fits a byte, so it does not saturate
  have hcount : UInt8.ofNat (min subjects.length 255) = n := by
    rw [hn, min_eq_left (Nat.le_of_lt_succ n.toNat_lt), UInt8.ofNat_toNat]
  exact ⟨by simp [encodeEvent, putKvTaint, hcount], hcheck⟩

theorem readFields_ok {n bs e rest} (h : readFields n bs = .ok (e, rest)) :
    UInt8.ofNat n :: bs = encodeEvent e ++ rest ∧ checkOriginBounds e = .ok () := by
  unfold readFields at h
  split at h
  case h_2 => exact readAttributedDelta_ok h
  case h_30 => exact readKvTaint_ok h
  -- each other tag has exact readers for its fields, which say what `bs` and `e` are
  all_goals
    simp [readLegacyDelta, readCapsuleCommitted, readCapsuleSuperseded, readNamed,
      readVerifierAttested, readSnapshotCommitted, exact_effectAttempt, readEffectSettled,
      exact_option exact_raw, readEffectReconciled, exact_scopeLifecycle, exact_protectedState,
      exact_meshTunnel, exact_manifestAdmission, readManifestRevoked, exact_podEvidence,
      exact_podOutput, exact_podHypothesis, readPolicyActivated, readPolicyRevoked,
      readSessionRevoked, exact_tierBackend, readTierObject, exact_tierReplica,
      exact_expertStructural, exact_expertFence, exact_inputInvalidation, exact_authorityChange,
      exact_egressRefusal, exact_podHeadAdvance, -Bool.exists_bool] at h
  all_goals
    revert h
    simp only [forall_exists_index, and_imp]
    intros
    subst_vars
    refine ⟨by simp [encodeEvent, putOrigin], ?_⟩
    -- a tag either has no check, or its reader has made it
    first | rfl | assumption | skip
  case h_16 hendpoint => exact checkOriginBounds_meshTunnel fun e he => (hendpoint e he).2.2.2
  case h_20 hverification => exact hverification.1
  case h_21 hprovenance _ hdependencies hverification =>
    rw [checkOriginBounds, bind_unit_eq_ok, bind_unit_eq_ok]
    exact ⟨hprovenance, hdependencies, hverification.1⟩

/-- **An accepted payload is the encoding of its event**, and a writer accepts the
event as far as its fields go. -/
theorem decodeEvent_spells {b e} (h : decodeEvent b = .ok e) :
    encodeEvent e = b ∧ checkOriginBounds e = .ok () := by
  rw [decodeEvent] at h
  cases hread : readEvent b with
  | error => simp only [hread] at h; cases h
  | ok p =>
    obtain ⟨e', rest⟩ := p
    cases rest with
    | cons => simp only [hread] at h; cases h
    | nil =>
      simp only [hread] at h
      obtain rfl := Except.ok.inj h
      obtain ⟨tag, fields, htag, hfields⟩ := bind_iff.mp hread
      obtain ⟨rfl, -⟩ := (exact_u8 _ _ _).mp htag
      obtain ⟨hb, hcheck⟩ := readFields_ok hfields
      rw [UInt8.ofNat_toNat, append_nil] at hb
      exact ⟨hb.symm, hcheck⟩

def checkEncodable (e : LedgerEvent) : Except IoError Unit := do
  checkOriginBounds e
  if maxRecordBytes < (encodeEvent e).length then .error (invalid "PTR_LOG_PAYLOAD_LIMIT")
  else .ok ()

theorem checkEncodable_eq_ok {e} :
    checkEncodable e = .ok () ↔ checkOriginBounds e = .ok () ∧
      (encodeEvent e).length ≤ maxRecordBytes := by
  rw [checkEncodable, bind_unit_eq_ok]
  simp

/-- **The event codec.**  A writer accepts an event exactly if its payload fits a
record and a reader takes the event back; and an accepted payload that fits a
record is the payload of its event, which a writer accepts. -/
theorem encodable_iff_decodes :
    (∀ e, checkEncodable e = .ok () ↔
      (encodeEvent e).length ≤ maxRecordBytes ∧ decodeEvent (encodeEvent e) = .ok e) ∧
    ∀ b e, decodeEvent b = .ok e → encodeEvent e = b ∧ checkOriginBounds e = .ok () ∧
      (b.length ≤ maxRecordBytes → checkEncodable e = .ok ()) := by
  refine ⟨fun e => ⟨fun h => ?_, fun h => ?_⟩, fun b e h => ?_⟩
  · obtain ⟨hcheck, hlen⟩ := checkEncodable_eq_ok.mp h
    exact ⟨hlen, decodeEvent_encodeEvent hcheck hlen⟩
  · exact checkEncodable_eq_ok.mpr ⟨(decodeEvent_spells h.2).2, h.1⟩
  · obtain ⟨rfl, hcheck⟩ := decodeEvent_spells h
    exact ⟨rfl, hcheck, fun hlen => checkEncodable_eq_ok.mpr ⟨hcheck, hlen⟩⟩

theorem encodable_iff_decodes_snapshot :
    decodeEvent (encodeEvent (.snapshotCommitted 3 5)) = .ok (.snapshotCommitted 3 5) ∧
      checkEncodable (.snapshotCommitted 3 5) = .ok () := by
  have hcheck : checkEncodable (.snapshotCommitted 3 5) = .ok () := by decide
  have hdecode := ((encodable_iff_decodes.1 _).mp hcheck).2
  exact ⟨hdecode, (encodable_iff_decodes.2 _ _ hdecode).2.2 (by decide)⟩

theorem encodeEvent_legacy_length (base revision : Revision) (delta : Bytes) :
    (encodeEvent (.semanticDeltaCommitted base revision delta .legacy)).length =
      21 + delta.length := by
  simp only [encodeEvent, putOrigin, length_cons, length_append, putU64_length, putBytes_length,
    length_nil]
  omega

/-- **The decoder has no bound of its own**: the payload of a delta that alone fills the
bound of a record is accepted, and no writer writes it. -/
theorem overlong_payload_accepted :
    ∃ e, decodeEvent (encodeEvent e) = .ok e ∧
      checkEncodable e = .error (invalid "PTR_LOG_PAYLOAD_LIMIT") := by
  have hlen : ∃ delta : Bytes, delta.length = maxRecordBytes := ⟨replicate _ 0, length_replicate⟩
  obtain ⟨delta, hdelta⟩ := hlen
  have hlong := encodeEvent_legacy_length 0 1 delta
  rw [hdelta] at hlong
  refine ⟨.semanticDeltaCommitted 0 1 delta .legacy, ?_, ?_⟩
  · have hread := @readEvent_encodeEvent [] (.semanticDeltaCommitted 0 1 delta .legacy) rfl
      (by rw [hlong]; decide)
    rw [append_nil] at hread
    simp [decodeEvent, hread]
  · show (if maxRecordBytes < (encodeEvent (.semanticDeltaCommitted 0 1 delta .legacy)).length then
      _ else _) = _
    rw [if_pos (by omega)]

end Ptr.Ledger
