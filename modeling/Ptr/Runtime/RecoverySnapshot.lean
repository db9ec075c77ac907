import Ptr.Runtime.Reopened
import Ptr.Ledger.File

/-!
# Recovery snapshots

A recovery snapshot holds the whole journal, and restoring it is a replay.  The replay
trusts no attestor, so that it succeeds exactly if no record carries an attestation.  What
the records determine is then restored; exporter and restored runtime go on alike
(`Alike`) exactly if every snapshot of the live authority stands in a record.
-/

namespace Ptr.Runtime

open Lib Ledger PtrRuntime

variable {ρ τ κ : Type}

/-! ### Attestors -/

structure Attestation where
  attestor : String
  epoch : Generation
  keyId : Digest
  payload : Bytes
  signature : Bytes
  payloadDigest : Digest

/-- `ExpertAttestorRegistry`: the keys that the host trusts. -/
def ExpertAttestorRegistry (κ : Type) : Type := String → Generation → Option κ

def ExpertAttestorRegistry.new : ExpertAttestorRegistry κ := fun _ _ => none

/-- The rules of a runtime up to the keys it trusts. -/
structure Attesting (ρ τ κ : Type) where
  plain : Rules ρ τ
  attestation : ExpertStructural → Option Attestation
  /-- What the plan of a record checks in front of its attestation. -/
  screen : Lifecycle → ρ → LedgerEvent → Except RuntimeError Unit
  keyBytes : κ → Bytes
  verifyStrict : κ → Bytes → Bytes → Bool

namespace Attesting

variable (A : Attesting ρ τ κ) {g : ExpertAttestorRegistry κ}

def attested : LedgerEvent → Option Attestation
  | .expertStructuralCommitted s => A.attestation s
  | _ => none

/-- `check_record`, from the lookup of the key on. -/
def checkRecord (g : ExpertAttestorRegistry κ) (e : LedgerEvent) : Except RuntimeError Unit :=
  match A.attested e with
  | none => .ok ()
  | some a =>
    match g a.attestor a.epoch with
    | none => .error (.expert "AttestorUnknown")
    | some key =>
      if A.plain.sha (utf8 "ptr.runtime.expert-attestor-key.v1" ++ A.keyBytes key) ≠ a.keyId then
        .error (.expert "AttestorKeyMismatch")
      else if !A.verifyStrict key a.payload a.signature then
        .error (.expert "AttestationSignatureInvalid")
      else if A.plain.sha a.payload ≠ a.payloadDigest then .error (.expert "AttestationMalformed")
      else .ok ()

def rules (g : ExpertAttestorRegistry κ) : Rules ρ τ :=
  { A.plain with
    expertPlan := fun l experts e => do
      A.screen l experts e
      A.checkRecord g e
      A.plain.expertPlan l experts e
    expertPlan_named := fun l experts e plan h =>
      A.plain.expertPlan_named l experts e plan (bind_unit_eq_ok.mp (bind_unit_eq_ok.mp h).2).2 }

/-- A record without an attestation is taken alike whatever keys are trusted. -/
theorem replayRecord_rules {c} (h : A.attested c.event = none) (q : PtrRuntime ρ τ) :
    replayRecord (A.rules g) q c = replayRecord (A.rules .new) q c := by
  obtain ⟨index, e⟩ := c
  cases e with
  | expertStructuralCommitted s =>
    have hplan : ∀ l experts, (A.rules g).expertPlan l experts (.expertStructuralCommitted s) =
        (A.rules .new).expertPlan l experts (.expertStructuralCommitted s) := by
      intro l experts
      simp [rules, checkRecord, h]
    simp only [replayRecord, validateLifecycleEvent, validateExpert,
      applyCommitted, applyEvent, applyExpert, hplan]
    rfl
  | _ => rfl

theorem foldlM_rules {cs : List CommittedEvent} (h : ∀ c ∈ cs, A.attested c.event = none)
    (q : PtrRuntime ρ τ) :
    cs.foldlM (replayRecord (A.rules g)) q = cs.foldlM (replayRecord (A.rules .new)) q := by
  induction cs generalizing q with
  | nil => rfl
  | cons c cs ih =>
    rw [List.forall_mem_cons] at h
    rw [List.foldlM_cons, A.replayRecord_rules h.1]
    exact congrArg _ (funext fun q => ih h.2 q)

/-- A host that trusts no key takes records without attestations only. -/
theorem attested_of_foldlM {cs : List CommittedEvent} {q q' : PtrRuntime ρ τ}
    (h : cs.foldlM (replayRecord (A.rules .new)) q = .ok q') :
    ∀ c ∈ cs, A.attested c.event = none := by
  induction cs generalizing q with
  | nil => exact List.forall_mem_nil _
  | cons c cs ih =>
    obtain ⟨next, hnext, h⟩ := bind_eq_ok.mp h
    refine List.forall_mem_cons.mpr ⟨?_, ih h⟩
    obtain ⟨index, e⟩ := c
    cases e with
    | expertStructuralCommitted record =>
      have hvalid := (replayRecord_ok hnext).valid
      cases ha : A.attested (.expertStructuralCommitted record) with
      | none => rfl
      | some a =>
        simp only [validateLifecycleEvent, validateExpert] at hvalid
        split at hvalid
        · next hplan =>
          obtain ⟨-, hcheck, -⟩ := (bind_unit_eq_ok.mp hplan).imp id bind_unit_eq_ok.mp
          simp [checkRecord, ha, ExpertAttestorRegistry.new] at hcheck
        · cases hvalid
    | _ => rfl

end Attesting

/-! ### The snapshot -/

structure SnapshotAnchor where
  revision : Revision
  log : LogAnchor
  digest : Digest

structure RecoverySnapshot where
  bytes : Bytes
  anchor : SnapshotAnchor

def recoveryHeader : Nat := 64

def maxRecoveryBytes : Nat := maxLogBytes + recoveryHeader + 32

def recoveryMagic : Bytes := utf8 "PTRSN001"

def snapshotLog (sha : Bytes → Digest) (bytes : Bytes) (trusted : SnapshotAnchor) :
    Except RuntimeError Bytes :=
  if bytes.length < recoveryHeader + 32 ∨ maxRecoveryBytes < bytes.length then
    .error (.snapshot .sizeLimit)
  else if bytes.take 8 ≠ recoveryMagic then .error (.snapshot .unsupportedVersion)
  else
    let length := numberAt bytes 24
    if maxLogBytes < length ∨ length ≠ bytes.length - recoveryHeader - 32 then
      .error (.snapshot .lengthMismatch)
    else
      let body := bytes.take (bytes.length - 32)
      if bytes.drop (bytes.length - 32) ≠ (sha body).bytes ∨ sha body ≠ trusted.digest ∨
          numberAt bytes 8 ≠ trusted.revision.val ∨ numberAt bytes 16 ≠ trusted.log.index.val ∨
          slice bytes 32 32 ≠ trusted.log.digest.bytes then .error (.snapshot .anchorMismatch)
      else .ok (body.drop recoveryHeader)

theorem recoveryMagic_length : recoveryMagic.length = 8 := by decide +kernel

theorem snapshotLog_framed (sha : Bytes → Digest) {log} (revision : Revision) (anchor : LogAnchor)
    (hlog : log.length ≤ maxLogBytes) :
    let body := recoveryMagic ++ putU64 revision ++ putU64 anchor.index ++ leBytes 8 log.length ++
      anchor.digest.bytes ++ log
    snapshotLog sha (body ++ (sha body).bytes) ⟨revision, anchor, sha body⟩ = .ok log := by
  intro body
  have hlength : body.length = recoveryHeader + log.length := by
    simp [body, recoveryMagic_length, recoveryHeader]
    omega
  have htotal : (body ++ (sha body).bytes).length = recoveryHeader + log.length + 32 := by
    simp [hlength]
  have hdrop : body.drop recoveryHeader = log := by
    simp [body, recoveryHeader, List.drop_append, List.drop_of_length_le, recoveryMagic_length]
  have hmagic : (body ++ (sha body).bytes).take 8 = recoveryMagic := by
    simp [body, recoveryMagic_length]
  have hread : numberAt (body ++ (sha body).bytes) 8 = revision.val ∧
      numberAt (body ++ (sha body).bytes) 16 = anchor.index.val ∧
      numberAt (body ++ (sha body).bytes) 24 = log.length ∧
      slice (body ++ (sha body).bytes) 32 32 = anchor.digest.bytes := by
    have hnumber := ofLeBytes_number (lt_of_le_of_lt hlog (by decide : maxLogBytes < 2 ^ 64))
    generalize sha body = d
    simp [body, numberAt, slice_skip, slice_here, recoveryMagic_length, ofLeBytes_putU64, hnumber]
  obtain ⟨hrevision, hindex, hcount, hdigest⟩ := hread
  rw [snapshotLog, htotal, hmagic, hrevision, hindex, hcount, hdigest, Nat.add_sub_cancel,
    ← hlength, List.take_left, List.drop_left]
  simp only [hdrop, refuse_eq_ok]
  exact ⟨by rw [maxRecoveryBytes]; omega, not_not_intro rfl, by omega, by simp, trivial⟩

/-- Bytes that are accepted under an anchor end with its digest, which is the digest of
what stands in front of it. -/
theorem snapshotLog_ok {sha bs log trusted} (h : snapshotLog sha bs trusted = .ok log) :
    sha (bs.take (bs.length - 32)) = trusted.digest ∧
      bs = bs.take (bs.length - 32) ++ trusted.digest.bytes := by
  simp only [snapshotLog, refuse_eq_ok, not_or, not_not] at h
  obtain ⟨-, -, -, ⟨hend, hdigest, -⟩, -⟩ := h
  refine ⟨hdigest, ?_⟩
  rw [← hdigest, ← hend, List.take_append_drop]

def ofIo (io : IoError) : RuntimeError := .ledger io.message

namespace PtrRuntime

variable {R : Rules ρ τ} {q r q' r' : PtrRuntime ρ τ} {s : RecoverySnapshot}

def exportRecoverySnapshot (R : Rules ρ τ) (r : PtrRuntime ρ τ) :
    Except RuntimeError RecoverySnapshot := do
  let anchor ← r.journalAnchor R
  let log ← (encodeLogFrom R.sha r.committedEvents (.empty R.sha)).mapError ofIo
  let decoded ← (decodeLogFrom R.sha log (.empty R.sha)).mapError ofIo
  (decoded.requireAnchor anchor).mapError ofIo
  if r.history.state.lastApplied ≠ anchor.index then .error (.snapshot .commitMismatch)
  else
    let bytes :=
      recoveryMagic ++ putU64 r.revision ++ putU64 anchor.index ++ leBytes 8 log.length ++
      anchor.digest.bytes ++ log
    .ok ⟨bytes ++ (R.sha bytes).bytes, ⟨r.revision, anchor, R.sha bytes⟩⟩

/-- `restore_recovery_snapshot`, under the rules of a host that trusts no attestor. -/
def restoreRecoverySnapshot (R : Rules ρ τ) (owner : Nat) (boundary : ActionBoundaryConfig)
    (bytes : Bytes) (trusted : SnapshotAnchor) : Except RuntimeError (PtrRuntime ρ τ) := do
  let bytes ← snapshotLog R.sha bytes trusted
  let log ← (decodeLogFrom R.sha bytes (.empty R.sha)).mapError ofIo
  (log.requireAnchor trusted.log).mapError ofIo
  let restored ← replay R owner boundary log.events
  if restored.revision ≠ trusted.revision ∨
      restored.history.state.lastApplied ≠ trusted.log.index then
    .error (.snapshot .stateMismatch)
  else .ok restored

/-- `restore_durable_snapshot`: the restored runtime over the events of a new file. -/
def restoreDurableSnapshot (R : Rules ρ τ) (owner : Nat) (boundary : ActionBoundaryConfig)
    (bytes : Bytes) (trusted : SnapshotAnchor) :
    Prog Disk RuntimeError (PtrRuntime ρ τ × FileLedger) := do
  let restored ← Prog.ofExcept (restoreRecoverySnapshot R owner boundary bytes trusted)
  let bytes ← Prog.ofExcept (snapshotLog R.sha bytes trusted)
  let log ← (FileLedger.createFromLogAbove R.sha bytes (.empty R.sha) trusted.log).mapErr ofIo
  pure ({ restored with ledger := log.events }, log)

/-! ### Runtimes that go on alike -/

/-- Both hold the same records and what they determine. -/
structure Alike (q r : PtrRuntime ρ τ) : Prop where
  rebuilds : q.Rebuilds r
  rebuilt : r.Rebuilds q
  agrees : q.manifestAuthority.Agrees ∧ r.manifestAuthority.Agrees

theorem Alike.symm (h : q.Alike r) : r.Alike q := ⟨h.rebuilt, h.rebuilds, h.agrees.symm⟩

/-- **A record that one takes is taken by the other.** -/
theorem Alike.replayRecord {c} (h : q.Alike r) (hr : replayRecord R r c = .ok r') :
    ∃ q', replayRecord R q c = .ok q' ∧ q'.Alike r' := by
  obtain ⟨hagrees, q', hq, hrebuilds⟩ := h.rebuilds.replays h.agrees.2 (replayRecord_ok hr)
  obtain ⟨hagrees', r'', hr', hrebuilt⟩ := h.rebuilt.replays h.agrees.1 (replayRecord_ok hq)
  cases hr.symm.trans hr'
  exact ⟨q', hq, hrebuilds, hrebuilt, hagrees', hagrees⟩

theorem Alike.foldlM {cs : List CommittedEvent} (h : q.Alike r)
    (hr : cs.foldlM (PtrRuntime.replayRecord R) r = .ok r') :
    ∃ q', cs.foldlM (PtrRuntime.replayRecord R) q = .ok q' ∧ q'.Alike r' := by
  induction cs generalizing q r with
  | nil =>
    cases hr
    exact ⟨q, rfl, h⟩
  | cons c cs ih =>
    obtain ⟨next, hnext, hr⟩ := bind_eq_ok.mp hr
    obtain ⟨qnext, hqnext, halike⟩ := h.replayRecord hnext
    obtain ⟨q', hq, h⟩ := ih halike hr
    exact ⟨q', bind_eq_ok.mpr ⟨qnext, hqnext, hq⟩, h⟩

/-! ### The round trip -/

theorem exportRecoverySnapshot_ok (h : r.exportRecoverySnapshot R = .ok s) : r.isFenced = false ∧
    s.anchor.revision = r.revision ∧ r.history.state.lastApplied = s.anchor.log.index ∧
    ∃ log p, snapshotLog R.sha s.bytes s.anchor = .ok log ∧
      decodeLogFrom R.sha log (.empty R.sha) = .ok p ∧
      p.events = r.committedEvents ∧ p.anchor = s.anchor.log := by
  obtain ⟨anchor, hanchor, h⟩ := bind_eq_ok.mp h
  rw [journalAnchor, refuse_eq_ok, Bool.not_eq_true] at hanchor
  obtain ⟨log, hlog, h⟩ := bind_eq_ok.mp h
  obtain ⟨p, bs, hdecode, hevents, -, -, hlength⟩ :=
    decodeLogFrom_encodeLogFrom (mapError_eq_ok.mp hlog)
  rw [hdecode] at h
  obtain ⟨hrequire, h⟩ := bind_unit_eq_ok.mp h
  rw [mapError_eq_ok, Prefix.requireAnchor, refuse_eq_ok, not_not] at hrequire
  rw [refuse_eq_ok, not_not] at h
  obtain ⟨happlied, h⟩ := h
  cases h
  exact ⟨hanchor.1, rfl, happlied, log, p, snapshotLog_framed R.sha _ _ hlength, hdecode,
    hevents, hrequire.1⟩

def recordedSnapshot (sha : Bytes → Digest) : LedgerEvent → Option (Revision × Digest)
  | .executionManifestAdmitted a =>
    (ExecutionManifest.decodeCanonical sha a.manifest).toOption.map fun m =>
      (m.snapshotRevision, m.snapshotDigest)
  | .protectedStateCommitted s =>
    if s.domain = 3 then some (s.revision, s.plaintextDigest) else none
  | _ => none

def Recorded (sha : Bytes → Digest) (l : List CommittedEvent) (v : Revision) (d : Digest) : Prop :=
  ∃ c ∈ l, recordedSnapshot sha c.event = some (v, d)

open ManifestAuthorityRegistry

theorem held_observeManifest {a b : ManifestAuthorityRegistry} {m}
    (h : a.observeManifest m = (.ok (), b)) :
    (a.Agrees → b.Agrees) ∧
      ∀ v d, b.Held v d ↔ a.Held v d ∨ v = m.snapshotRevision ∧ d = m.snapshotDigest := by
  rw [observeManifest, admitPrincipal] at h
  split at h
  · next heq =>
    split at heq
    · cases heq
      cases h
    · cases heq
  next heq =>
  split at heq
  · cases heq
  cases heq
  have hregisters := registers_snapshot h
  exact ⟨fun hagrees => hregisters.grows.agrees hagrees, hregisters.held⟩

theorem snapshots_activatePolicy (a : ManifestAuthorityRegistry) (v : Revision) (d : Digest) :
    (a.activatePolicy v d).2.snapshots = a.snapshots ∧
      (a.activatePolicy v d).2.protectedSnapshots = a.protectedSnapshots := by
  rw [activatePolicy]
  repeat' split
  all_goals exact ⟨rfl, rfl⟩

theorem snapshots_revokePolicy (a : ManifestAuthorityRegistry) (v : Revision) :
    (a.revokePolicy v).2.snapshots = a.snapshots ∧
      (a.revokePolicy v).2.protectedSnapshots = a.protectedSnapshots := by
  rw [revokePolicy]
  split
  all_goals exact ⟨rfl, rfl⟩

theorem held_same {a b : ManifestAuthorityRegistry}
    (h : b.snapshots = a.snapshots ∧ b.protectedSnapshots = a.protectedSnapshots)
    (hagrees : a.Agrees) :
    b.Agrees ∧ ∀ v d, b.Held v d ↔
      a.Held v d ∨ (none : Option (Revision × Digest)) = some (v, d) := by
  have hheld : b.Held = a.Held := by
    funext v d
    rw [Held, Held, h.1, h.2]
  rw [Agrees, hheld]
  exact ⟨hagrees, by simp⟩

/-- A record that is applied adds its snapshot to the authority, and no other. -/
theorem held_applyEvent {c semantic next} (hagrees : r.manifestAuthority.Agrees)
    (h : r.applyEvent R c semantic = (.ok (), next)) : next.manifestAuthority.Agrees ∧ ∀ v d,
      next.manifestAuthority.Held v d ↔ r.manifestAuthority.Held v d ∨
      recordedSnapshot R.sha c.event = some (v, d) := by
  obtain ⟨index, e⟩ := c
  cases e with
  | executionManifestAdmitted a =>
    obtain ⟨m, hdecode, hobserve⟩ := applyAdmission_ok h
    obtain ⟨hagrees', hheld⟩ := held_observeManifest hobserve
    refine ⟨hagrees' hagrees, fun v d => ?_⟩
    rw [hheld]
    simp [recordedSnapshot, hdecode, Except.toOption, eq_comm]
  | protectedStateCommitted s =>
    simp only [applyEvent, applyProtectedState] at h
    split at h
    · next hdomain =>
      cases h
      exact ⟨hagrees, by simp [recordedSnapshot, hdomain]⟩
    next hdomain =>
    split at h
    · cases h
    next hregister =>
    cases h
    have hregisters := (registers_protectedSnapshot hagrees hregister).2
    refine ⟨hregisters.grows.agrees hagrees, fun v d => ?_⟩
    rw [not_not] at hdomain
    rw [hregisters.held]
    simp [recordedSnapshot, hdomain, eq_comm]
  | policyBundleActivated revision keyId digest =>
    have hsame := snapshots_activatePolicy r.manifestAuthority revision digest
    simp only [applyEvent, applyPolicyActivation] at h
    split at h
    · cases h
    next hactivate =>
    cases h
    rw [hactivate] at hsame
    exact held_same hsame hagrees
  | policyBundleRevoked revision =>
    have hsame := snapshots_revokePolicy r.manifestAuthority revision
    simp only [applyEvent, applyPolicyRevocation] at h
    split at h
    · cases h
    next hrevoke =>
    cases h
    rw [hrevoke] at hsame
    exact held_same hsame hagrees
  | semanticDeltaCommitted =>
    cases semantic with
    | none => cases h
    | some =>
      simp only [applyEvent, applySemantic] at h
      split at h
      all_goals cases h
      exact ⟨hagrees, by simp [recordedSnapshot, update]⟩
  | _ =>
    simp only [applyEvent, applyScope, applyHypothesis, applyManifestRevocation, applyTier,
      applyExpert] at h
    repeat' split at h
    all_goals cases h
    all_goals exact ⟨hagrees, by simp [recordedSnapshot, update]⟩

/-- The authority of a replay holds the snapshots of the records. -/
theorem held_replay {owner boundary events} (h : replay R owner boundary events = .ok q) :
    ∀ v d, q.manifestAuthority.Held v d ↔ Recorded R.sha q.ledger v d := by
  obtain ⟨next, hnext, h⟩ := bind_eq_ok.mp h
  cases h
  refine (foldlM_invariant (P := fun r => r.manifestAuthority.Agrees ∧
    ∀ v d, r.manifestAuthority.Held v d ↔ Recorded R.sha r.ledger v d) ?_ ?_ hnext).2
  · intro r c r' ⟨hagrees, hheld⟩ hreplays
    obtain ⟨semantic, -, happly⟩ := hreplays.applied
    obtain ⟨next, hevent, rfl⟩ := applyCommitted_ok happly
    obtain ⟨hagrees', hheld'⟩ :=
      held_applyEvent (r := { r with ledger := r.ledger ++ [c] }) hagrees hevent
    refine ⟨hagrees', fun v d => (hheld' v d).trans ?_⟩
    rw [hreplays.process.ledger]
    simp [Recorded, hheld v d]
  · simp [Agrees, Held, new, ManifestAuthorityRegistry.empty, Recorded]

/-- Every snapshot that the live authority holds stands in a record. -/
def SnapshotsRecorded (sha : Bytes → Digest) (r : PtrRuntime ρ τ) : Prop :=
  ∀ v d, r.manifestAuthority.Held v d → Recorded sha r.committedEvents v d

theorem Rebuilds.alike_iff {owner boundary} (h : q.Rebuilds r)
    (hagrees : r.manifestAuthority.Agrees)
    (hq : replay R owner boundary r.committedEvents = .ok q) :
    q.Alike r ↔ r.SnapshotsRecorded R.sha := by
  have hheld := held_replay hq
  rw [h.ledger] at hheld
  constructor
  · intro halike v d hd
    exact (hheld v d).mp (halike.rebuilt.authority.held hd)
  · intro hrecorded
    obtain ⟨owner', sessions, hhistory⟩ := h.history
    have hback : ∀ {v d}, r.manifestAuthority.Held v d → q.manifestAuthority.Held v d :=
      fun {v d} hd => (hheld v d).mpr (hrecorded v d hd)
    have hagrees' : q.manifestAuthority.Agrees :=
      fun v d d' hd hd' => hagrees v d d' (h.authority.held hd) (h.authority.held hd')
    refine ⟨h, ⟨h.base.symm, h.ledger.symm, ⟨r.history.semdb.owner, r.history.revokedSessions, ?_⟩,
      ⟨h.authority.policies.symm, hback, fun _ => hagrees'⟩⟩, hagrees', hagrees⟩
    rw [hhistory]

/-! ### A snapshot that no record holds -/

theorem replayRecord_protected {i s} (hindex : r.nextIndex = some i)
    (hvalid : validateProtectedState s = .ok ()) (hdomain : s.domain = 3) :
    (replayRecord R r ⟨i, .protectedStateCommitted s⟩).isOk =
      (r.manifestAuthority.registerProtectedSnapshot s.revision s.plaintextDigest).1.isOk := by
  simp only [replayRecord, validateLifecycleEvent, hvalid, prepareSemanticEvent, bind, Except.bind,
    hindex, ne_eq, not_true, if_false, applyCommitted, applyEvent, applyProtectedState, hdomain]
  cases r.manifestAuthority.registerProtectedSnapshot s.revision s.plaintextDigest with
  | mk result =>
    cases result with
    | error | ok => rfl

/-- **A record that contradicts a snapshot of one authority only** is taken by the other. -/
theorem rival_taken {v d} (h : q.Rebuilds r) (hagrees : r.manifestAuthority.Agrees)
    (hroom : r.nextIndex ≠ none) (hzero : v ≠ 0) (hd : r.manifestAuthority.Held v d)
    (hq : ∀ d', ¬ q.manifestAuthority.Held v d') :
    ∃ c s, c.event = .protectedStateCommitted s ∧ (replayRecord R q c).isOk = true ∧
      ∀ R' : Rules ρ τ, (replayRecord R' r c).isOk = false := by
  obtain ⟨i, hi⟩ := Option.ne_none_iff_exists'.mp hroom
  have hqi : q.nextIndex = some i := by rw [← hi, nextIndex, nextIndex, h.base, h.ledger]
  obtain ⟨d', hne, hd'⟩ : ∃ d' : Digest, d' ≠ d ∧ d' ≠ .zero := by
    by_cases heq : d = Digest.fill 1
    · exact ⟨.fill 2, by rw [heq]; decide, by decide⟩
    · exact ⟨.fill 1, Ne.symm heq, by decide⟩
  let s : ProtectedState := ⟨3, "s", 1, v, d', d', d'⟩
  have hvalid : validateProtectedState s = .ok () := by
    rw [validateProtectedState, refuse_eq_ok]
    exact ⟨by simp [s, hzero, hd'], rfl⟩
  refine ⟨⟨i, .protectedStateCommitted s⟩, s, rfl, ?_, fun R' => ?_⟩
  · rw [replayRecord_protected hqi hvalid rfl]
    obtain ⟨b, hb⟩ := registerProtectedSnapshot_free q.manifestAuthority hd' fun d'' hd'' =>
      absurd hd'' (hq d'')
    rw [hb]
    rfl
  · rw [replayRecord_protected hi hvalid rfl]
    obtain ⟨e, he⟩ | ⟨-, ⟨-, hheld⟩ | ⟨b, -, hregisters⟩⟩ :=
      registerProtectedSnapshot_cases r.manifestAuthority v d'
    · rw [he]
      rfl
    · exact absurd (hagrees v d d' hd hheld) hne
    · exact absurd (hregisters.free d hd).symm hne

/-! ### The round trip of a runtime -/

/-- What is restored is the replay of the records. -/
theorem restoreRecoverySnapshot_iff {R' : Rules ρ τ} {owner boundary} (hsha : R'.sha = R.sha)
    (hexport : r.exportRecoverySnapshot R = .ok s)
    (hagree : ∀ q, replay R' owner boundary r.committedEvents = .ok q →
      q.revision = r.revision ∧ q.history.state.lastApplied = r.history.state.lastApplied) :
    restoreRecoverySnapshot R' owner boundary s.bytes s.anchor = .ok q ↔
      replay R' owner boundary r.committedEvents = .ok q := by
  obtain ⟨-, hrevision, happlied, log, p, hlog, hdecode, hevents, hanchor⟩ :=
    exportRecoverySnapshot_ok hexport
  rw [← hsha] at hlog hdecode
  have hrequire : p.requireAnchor s.anchor.log = .ok () := by
    rw [Prefix.requireAnchor, refuse_eq_ok]
    exact ⟨not_not_intro hanchor, rfl⟩
  simp only [restoreRecoverySnapshot, hlog, hdecode, hrequire, hevents, bind, Except.bind,
    Except.mapError]
  cases hreplay : replay R' owner boundary r.committedEvents with
  | error => simp
  | ok restored =>
    obtain ⟨hsame, hcount⟩ := hagree restored hreplay
    dsimp only
    rw [if_neg (by rw [hsame, hcount, hrevision, happlied]; simp)]

theorem restoreDurableSnapshot_ok {R' : Rules ρ τ} {owner boundary} (hsha : R'.sha = R.sha)
    (hexport : r.exportRecoverySnapshot R = .ok s) (hledger : q.ledger = r.ledger)
    (hrestore : restoreRecoverySnapshot R' owner boundary s.bytes s.anchor = .ok q) {d : Disk}
    (hd : d.logs[(0 : CommitIndex)]? = none) :
    ∃ log, (restoreDurableSnapshot R' owner boundary s.bytes s.anchor d []).1 = .ok (q, log) ∧
      log.events = r.committedEvents := by
  obtain ⟨-, -, -, log, p, hlog, hdecode, hevents, hanchor⟩ := exportRecoverySnapshot_ok hexport
  rw [← hsha] at hlog hdecode
  obtain ⟨file, d', hrun, hends⟩ := (FileLedger.createFromLogAbove_succeeds hdecode hanchor hd).ends
  obtain ⟨p', hdecode', -, -, hfile⟩ := FileLedger.leads_createFromLogAbove.ok hends
  cases hdecode.symm.trans hdecode'
  have hsame : ({ q with ledger := file.events } : PtrRuntime ρ τ) = q := by
    rw [hfile, hevents, committedEvents, ← hledger]
  refine ⟨file, ?_, by rw [hfile, hevents]⟩
  simp only [restoreDurableSnapshot, bind, Prog.bind, Prog.ofExcept, hrestore, hlog, Prog.mapErr,
    Prog.pure, hrun]
  rw [hsame]
  rfl

theorem base_replay {owner boundary events} (h : replay R owner boundary events = .ok q) :
    q.base = 0 := by
  obtain ⟨next, hnext, h⟩ := bind_eq_ok.mp h
  cases h
  have hbase : next.base = 0 :=
    foldlM_invariant (P := fun r => r.base = 0)
      (fun _ _ _ h hreplays => hreplays.process.base.trans h) rfl hnext
  exact hbase

theorem nextIndex_of_export (hbase : r.base = 0) (hexport : r.exportRecoverySnapshot R = .ok s) :
    r.nextIndex ≠ none := by
  obtain ⟨anchor, -, h⟩ := bind_eq_ok.mp hexport
  obtain ⟨log, hlog, -⟩ := bind_eq_ok.mp h
  rw [mapError_eq_ok, encodeLogFrom, refuse_eq_ok] at hlog
  have hcount : r.ledger.length ≤ maxRecords := not_lt.mp hlog.1
  have hmax : maxRecords + 1 < 2 ^ 64 := by decide
  rw [nextIndex, dif_pos (by rw [hbase, Fin.val_zero]; omega)]
  exact Option.some_ne_none _

end PtrRuntime

/-! ### Snapshots that are not restored -/

/-- Every structural record carries an attestation, and every key verifies it. -/
def attestedRules : Attesting Unit Unit Unit where
  plain := plainRules
  attestation _ := some ⟨"a", 1, Digest.fill 1, [], [], Digest.fill 1⟩
  screen _ _ _ := .ok ()
  keyBytes _ := []
  verifyStrict _ _ _ := true

def runOf (g : ExpertAttestorRegistry Unit) (calls : List Call) : PtrRuntime Unit Unit :=
  (new (attestedRules.rules g) 0 ⟨true, true, true⟩).run (attestedRules.rules g) calls

def restoreOf (g : ExpertAttestorRegistry Unit) (r : PtrRuntime Unit Unit) :
    Except RuntimeError (PtrRuntime Unit Unit) := do
  let s ← r.exportRecoverySnapshot (attestedRules.rules g)
  restoreRecoverySnapshot (attestedRules.rules .new) 0 ⟨true, true, true⟩ s.bytes s.anchor

end Ptr.Runtime
