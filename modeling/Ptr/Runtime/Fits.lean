import Ptr.Runtime.Lives

/-!
# Records that can be applied

A record is validated, appended and then applied.  The application asks more than the
validation: that a hypothesis is a new one, that a revoked manifest is known, and that
an admitted manifest and a protected snapshot contradict nothing the registries hold.
`Fits` is the difference.  A valid record that fits is applied (`applyEvent_fits`), so a
call whose record fits never leaves a commit uncertain (`step_clean`).
-/

namespace Ptr.Runtime

open Lib Ledger Semdb

variable {ρ τ : Type} {R : Rules ρ τ}

theorem ScopeRegistry.applyCommitted_of_valid {g : ScopeRegistry} {e}
    (h : g.validateCommitted e = .ok ()) : ∃ g', g.applyCommitted e = .ok g' := by
  rw [applyCommitted]
  split
  · exact ⟨g, rfl⟩
  have hvalid := h
  rw [validateCommitted, bind_unit_eq_ok] at h
  obtain ⟨-, h⟩ := h
  simp only [hvalid]
  by_cases hcreated : stateFromKind e.kind = .created
  · rw [if_pos hcreated, refuse_eq_ok, refuse_eq_ok, refuse_eq_ok] at h
    rw [if_pos hcreated, if_neg h.1, h.2.2.2]
    exact ⟨_, rfl⟩
  · rw [if_neg hcreated] at h ⊢
    cases hscope : g.scopes[e.scopeId]? with
    | none => simp [hscope] at h
    | some =>
      simp only [hscope, refuse_eq_ok] at h
      obtain ⟨-, -, hprevious, hterminal, htransition, hlease, -⟩ := h
      dsimp only
      rw [if_neg hlease, if_neg hprevious, if_neg hterminal, if_neg htransition]
      exact ⟨_, rfl⟩

namespace PtrRuntime

variable {r r' : PtrRuntime ρ τ}

/-- What the application of a record asks and its validation does not. -/
def Fits (R : Rules ρ τ) (r : PtrRuntime ρ τ) : LedgerEvent → Prop
  | .podHypothesisCommitted p => p.branchId ∉ r.history.hypotheses
  | .executionManifestAdmitted a =>
    ∀ m, ExecutionManifest.decodeCanonical R.sha a.manifest = .ok m →
      (r.history.executionManifests.admitReplayed R.sha m r.revision).1 = .ok () ∧
        (r.manifestAuthority.observeManifest m).1 = .ok ()
  | .executionManifestRevoked digest _ _ =>
    digest ∈ r.history.executionManifests.admitted ∨ digest ∈ r.history.executionManifests.revoked
  | .protectedStateCommitted s => s.domain = 3 →
      (r.manifestAuthority.registerProtectedSnapshot s.revision s.plaintextDigest).1 = .ok ()
  | _ => True

def Holds (r : PtrRuntime ρ τ) : Prop :=
  ∀ (v : Revision) d, r.manifestAuthority.policyDigests[v]? = some d →
    v ∈ r.manifestAuthority.policyRevisions

theorem reachable_holds (h : Reachable R r) : r.Holds := by
  intro v d hd
  have hlog := reachable_policyLog h
  exact hlog.held v d ((hlog.digests v d).mp hd)

theorem applyPrepared_of_prepared {semdb : SemanticHost} {d} {p : PreparedDelta}
    (h : semdb.prepareDelta d = .ok p) :
    semdb.applyPrepared p =
      (.ok (p.next.revision, p.affected), { semdb with state := p.next }) := by
  have happly := applyDelta_of_prepared h
  rw [SemanticHost.applyDelta, h] at happly
  exact happly

/-- **A valid record that fits is applied.** -/
theorem applyEvent_fits {c : CommittedEvent} {semantic} (uncertain : Bool)
    (hvalid : r.validateLifecycleEvent R c.event = .ok ()) (hreadied : r.Readied R c.event semantic)
    (hfits : r.Fits R c.event) (hholds : r.Holds) :
    ∃ next, (r.holding c uncertain).applyEvent R c semantic = (.ok (), next) := by
  obtain ⟨index, e⟩ := c
  cases e with
  | semanticDeltaCommitted =>
    cases hreadied with
    | change decode prepared =>
      simp only [applyEvent, applySemantic, holding, applyPrepared_of_prepared prepared]
      exact ⟨_, rfl⟩
    | nothing other => cases other
  | scopeLifecycle e =>
    change r.validateScope e = .ok () at hvalid
    rw [validateScope, refuse_eq_ok, mapError_eq_ok] at hvalid
    obtain ⟨g, hg⟩ := ScopeRegistry.applyCommitted_of_valid hvalid.2
    simp only [applyEvent, applyScope, holding, hg]
    exact ⟨_, rfl⟩
  | podHypothesisCommitted p =>
    change validateHypothesis R.sha p = .ok () at hvalid
    change p.branchId ∉ r.history.hypotheses at hfits
    rw [validateHypothesis, refuse_eq_ok] at hvalid
    have hprobability : isProbabilityBits p.confidenceBits = true := by
      simp only [not_or] at hvalid
      simpa using hvalid.1.2.2.2.2.2.2.2.2.2.2.2.2.1
    simp only [applyEvent, applyHypothesis, holding, hprobability, hfits]
    exact ⟨_, rfl⟩
  | executionManifestAdmitted a =>
    obtain ⟨m, hdecode, -⟩ := validateAdmission_ok hvalid
    obtain ⟨hadmission, hobserve⟩ := hfits m hdecode
    cases hg : r.history.executionManifests.admitReplayed R.sha m r.revision with
    | mk =>
      cases ha : r.manifestAuthority.observeManifest m with
      | mk =>
        rw [hg] at hadmission
        rw [ha] at hobserve
        cases hadmission
        cases hobserve
        change ∃ next, (r.holding _ uncertain).applyAdmission R a = (.ok (), next)
        rw [applyAdmission, hdecode]
        dsimp only
        rw [show (r.holding _ uncertain).revision = r.revision from rfl,
          show (r.holding ⟨index, .executionManifestAdmitted a⟩ uncertain).history =
          r.history from rfl, hg]
        dsimp only [update, holding]
        rw [ha]
        exact ⟨_, rfl⟩
  | executionManifestRevoked digest =>
    change digest ∈ _ ∨ digest ∈ _ at hfits
    have hknown : ¬ (digest ∉ r.history.executionManifests.admitted ∧
          digest ∉ r.history.executionManifests.revoked) := by
      tauto
    simp only [applyEvent, applyManifestRevocation, holding,
      ExecutionManifestRegistry.revoke, hknown]
    exact ⟨_, rfl⟩
  | policyBundleActivated revision keyId digest bundle =>
    change r.validatePolicyActivation revision keyId digest bundle = .ok () at hvalid
    rw [validatePolicyActivation, refuse_eq_ok] at hvalid
    have hvalid := hvalid.2
    split at hvalid
    · cases hvalid
    rw [refuse_eq_ok, mapError_eq_ok] at hvalid
    cases ha : r.manifestAuthority.activatePolicy revision digest with
    | mk =>
      rw [ha] at hvalid
      cases hvalid.2
      simp only [applyEvent, applyPolicyActivation, holding, ha]
      exact ⟨_, rfl⟩
  | policyBundleRevoked revision digest reason =>
    change r.validatePolicyRevocation revision digest reason = .ok () at hvalid
    rw [validatePolicyRevocation, refuse_eq_ok, refuse_eq_ok, not_not] at hvalid
    have hheld := hholds revision digest hvalid.2.1
    simp only [applyEvent, applyPolicyRevocation, holding,
      ManifestAuthorityRegistry.revokePolicy, hheld]
    exact ⟨_, rfl⟩
  | protectedStateCommitted s =>
    simp only [applyEvent, applyProtectedState, holding]
    split
    · exact ⟨_, rfl⟩
    next hdomain =>
    have hfits := hfits (not_not.mp hdomain)
    cases ha : r.manifestAuthority.registerProtectedSnapshot s.revision s.plaintextDigest with
    | mk =>
      rw [ha] at hfits
      cases hfits
      exact ⟨_, rfl⟩
  | tierBackendLifecycle | tierObjectCommitted | tierReplicaLifecycle =>
    simp only [validateLifecycleEvent, validateTier] at hvalid
    simp only [applyEvent, applyTier, holding]
    split at hvalid
    · next htier => rw [htier]; exact ⟨_, rfl⟩
    · cases hvalid
  | expertStructuralCommitted | expertFenceCommitted | inputInvalidated | expertAuthorityChanged =>
    simp only [validateLifecycleEvent, validateExpert] at hvalid
    simp only [applyEvent, applyExpert, holding]
    split at hvalid
    · next hplan => rw [hplan]; exact ⟨_, rfl⟩
    · cases hvalid
  | _ => exact ⟨_, rfl⟩

/-! ### Calls that answer -/

def Room (n : Nat) (r : PtrRuntime ρ τ) : Prop := r.base.val + r.ledger.length + n < 2 ^ 64

theorem Room.one (h : r.Room 2) : r.Room 1 := by
  rw [Room] at h ⊢
  omega

/-- The outcome of the commit is known, and a refusal left the records as they were. -/
structure Clean {ε α : Type} (r : PtrRuntime ρ τ) (x : Except ε α × PtrRuntime ρ τ) : Prop where
  certain : x.2.uncertain = false
  refused : ∀ e, x.1 = .error e → x.2.ledger = r.ledger

/-- What is done after a call, with the records left as they are. -/
theorem Clean.after {ε α ε' β : Type} {x : Except ε α × PtrRuntime ρ τ} {y : Except ε' β} {next}
    (h : Clean r x) (hnext : next.ledger = x.2.ledger ∧ next.uncertain = x.2.uncertain)
    (hrefused : ∀ e, y = .error e → ∃ e', x.1 = .error e') : Clean r (y, next) := by
  refine ⟨hnext.2.trans h.certain, fun e he => ?_⟩
  obtain ⟨e', he'⟩ := hrefused e he
  exact hnext.1.trans (h.refused e' he')

theorem Clean.of_refused {ε α : Type} {x : Except ε α × PtrRuntime ρ τ} (h : Clean r x) :
    x.2.uncertain = false ∧ ((∃ error, x.1 = .error error) → x.2.ledger = r.ledger) := by
  refine ⟨h.certain, ?_⟩
  rintro ⟨error, herror⟩
  exact h.refused error herror

section Clean

variable {ε α : Type} {e : LedgerEvent} {semantic : Option PreparedDelta}
  (hcertain : r.uncertain = false)
  (hroom : r.Room 1)

include hcertain

theorem clean_same (x : Except ε α) : Clean r (x, r) := ⟨hcertain, fun _ _ => rfl⟩

include hroom

theorem clean_appendChecked (happly : checkEncodable e = .ok () → ∀ index, ∃ next,
      (r.holding ⟨index, e⟩ true).applyEvent R ⟨index, e⟩ semantic = (.ok (), next)) :
    Clean r (r.appendChecked R e semantic) := by
  rw [appendChecked]
  cases hencodable : checkEncodable e with
  | error => exact clean_same hcertain _
  | ok =>
    rw [Room] at hroom
    rw [nextIndex, dif_pos hroom]
    obtain ⟨next, hnext⟩ := happly hencodable ⟨_, hroom⟩
    have hbegun : (r.begun ⟨⟨_, hroom⟩, e⟩).applyEvent R ⟨⟨_, hroom⟩, e⟩ semantic =
        (.ok (), next) := hnext
    simp only [applyCommitted, hbegun]
    exact ⟨rfl, fun _ h => by cases h⟩

theorem clean_appendPrepared (happly : checkEncodable e = .ok () → ∀ index, ∃ next,
      (r.holding ⟨index, e⟩ true).applyEvent R ⟨index, e⟩ semantic = (.ok (), next)) :
    Clean r (r.appendPrepared R e semantic) := by
  rw [appendPrepared]
  split
  · exact clean_same hcertain _
  · exact clean_appendChecked hcertain hroom happly

theorem clean_commit (hholds : r.Holds) (hfits : checkEncodable e = .ok () → r.Fits R e) :
    Clean r (r.commit R e) := by
  rw [commit]
  cases hchecks : r.commitChecks R e with
  | error => exact clean_same hcertain _
  | ok =>
    exact clean_appendPrepared hcertain hroom fun hencodable index =>
      applyEvent_fits true (commitChecks_ok hchecks).2.2.1 (commitChecks_beside hchecks).readied
        (hfits hencodable) hholds

theorem clean_commitSettlement (he : isSettlement e = true) : Clean r (r.commitSettlement R e) := by
  rw [commitSettlement, hcertain, if_neg (by decide)]
  split
  · exact clean_same hcertain _
  split
  · exact clean_same hcertain _
  refine clean_appendChecked hcertain hroom fun _ index => ?_
  cases e with
  | effectSettled | effectReconciled => exact ⟨_, rfl⟩
  | _ => cases he

theorem clean_commitValidated (hholds : r.Holds) (he : hasOwnPath e = true) :
    Clean r (r.commitValidated R e) := by
  rw [commitValidated]
  cases hvalid : r.validateLifecycleEvent R e with
  | error => exact clean_same hcertain _
  | ok =>
    refine clean_appendPrepared hcertain hroom fun _ index =>
      applyEvent_fits true hvalid (.nothing (not_semantic_of_ownPath he)) ?_ hholds
    cases e with
    | podHypothesisCommitted | executionManifestAdmitted | executionManifestRevoked
    | protectedStateCommitted => cases he
    | _ => exact trivial

theorem clean_appendSemantic {origin : SemanticOrigin} {encoded : Bytes} {d} {p : PreparedDelta}
    (hprepared : r.history.semdb.prepareDelta d = .ok p) :
    Clean r (r.appendSemantic R origin encoded p) := by
  have hclean :
      Clean r
      (r.appendPrepared R (.semanticDeltaCommitted r.revision p.next.revision encoded origin)
        (some p)) := by
    refine clean_appendPrepared hcertain hroom fun _ index => ?_
    simp only [applyEvent, applySemantic, holding, applyPrepared_of_prepared hprepared]
    exact ⟨_, rfl⟩
  rw [appendSemantic]
  split <;> next h => exact hclean.after (by simp [h]) (by simp [h])

theorem clean_applyIngress (origin : SemanticOrigin) (d : SemanticDelta) :
    Clean r (r.applyIngress R origin d) := by
  rw [applyIngress]
  repeat' split
  all_goals first
    | exact clean_same hcertain _
    | exact clean_appendSemantic hcertain hroom ‹_›

theorem clean_applyJudged (verdict : Except RuntimeError Unit) (origin : SemanticOrigin)
    (d : SemanticDelta) : Clean r (r.applyJudged R verdict origin d) := by
  rw [applyJudged]
  repeat' split
  all_goals first
    | exact clean_same hcertain _
    | exact clean_appendSemantic hcertain hroom ‹_›

theorem clean_admitEffect (hholds : r.Holds) (q : EffectRequest) (wantDetached : Bool) :
    Clean r (r.admitEffect R q wantDetached) := by
  have hclean := clean_commit (R := R)
    (e := .effectAttempted (q.attempt R.sha)) hcertain hroom hholds fun _ => trivial
  rw [admitEffect]
  split
  · exact clean_same hcertain _
  · exact clean_same hcertain _
  · split <;> next h => exact hclean.after (by simp [h]) (by simp [h])

theorem clean_settleDetached (attempt : CommitIndex) (response : Bytes) :
    Clean r (r.settleDetached R attempt response) := by
  have hclean : Clean r (r.recordSettlement R attempt response) :=
    clean_commitSettlement hcertain hroom rfl
  rw [settleDetached]
  split
  · exact clean_same hcertain _
  · split <;> next h => exact hclean.after (by simp [h]) (by simp [h])

theorem clean_reconcileEffect (attempt : CommitIndex) (applied : Bool) (evidence : String) :
    Clean r (r.reconcileEffect R attempt applied evidence) := by
  have hclean := clean_commitSettlement (R := R)
    (e := .effectReconciled attempt applied evidence) hcertain hroom rfl
  rw [reconcileEffect]
  split
  · exact clean_same hcertain _
  · split
    · exact clean_same hcertain _
    · split <;> next h => exact hclean.after (by simp [h]) (by simp [h])

theorem clean_admitExecutionManifest (hholds : r.Holds) (m : ExecutionManifest)
    (lineage : Except RuntimeManifestError Unit)
    (hfits : (r.history.executionManifests.admitCandidate (m.validatedAt r.revision)).1 = .ok ()) :
    Clean r (r.admitExecutionManifest R m lineage) := by
  rw [admitExecutionManifest]
  split
  · exact clean_same hcertain _
  split
  · exact clean_same hcertain _
  next bytes hencode =>
  split
  · exact clean_same hcertain _
  next hprojection =>
  have hclean := clean_commit (R := R) (e := .executionManifestAdmitted
    ⟨m.manifestDigest, m.generation, r.revision, m.policyRevision, bytes⟩) hcertain hroom hholds ?_
  · split <;> next h => exact hclean.after (by simp [h]) (by simp [h])
  · intro hencodable m' hdecode
    -- The record carries the manifest that the call was given.
    obtain rfl :=
      ExecutionManifest.decode_of_encode hencode (length_of_encodable hencodable) hdecode
    have hvalid : m'.validate R.sha = .ok () := (bind_unit_eq_ok.mp hencode).1
    rw [ExecutionManifestRegistry.admitReplayed, hvalid, hprojection]
    exact ⟨hfits, rfl⟩

theorem clean_revokeExecutionManifest (hholds : r.Holds) (digest : Digest) :
    Clean r (r.revokeExecutionManifest R digest) := by
  rw [revokeExecutionManifest]
  split
  · exact clean_same hcertain _
  split
  · exact clean_same hcertain _
  next current hresolve =>
  have hadmitted : digest ∈ r.history.executionManifests.admitted := by
    rw [ExecutionManifestRegistry.resolve, refuse_eq_ok] at hresolve
    split at hresolve
    · next hm => exact mem_of_some hm
    · cases hresolve.2
  have hclean :=
    clean_commit (R := R)
    (e := .executionManifestRevoked digest current.manifest.generation r.revision) hcertain hroom
    hholds fun _ => .inl hadmitted
  split <;> next h => exact hclean.after (by simp [h]) (by simp [h])

theorem clean_activatePolicyBundle (hholds : r.Holds) (b : SignedPolicyBundle)
    (verified : Except PolicyError Unit) : Clean r (r.activatePolicyBundle R b verified) := by
  have hclean :=
    clean_commit (R := R)
    (e := .policyBundleActivated b.revision b.keyId b.payloadDigest b.encodeForLedger) hcertain
    hroom hholds fun _ => trivial
  cases verified with
  | error => exact clean_same hcertain _
  | ok =>
    rw [activatePolicyBundle]
    split
    · exact clean_same hcertain _
    · split <;> next h => exact hclean.after (by simp [h]) (by simp [h])

theorem clean_revokePolicyRevision (hholds : r.Holds) (revision : Revision) (reason : String) :
    Clean r (r.revokePolicyRevision R revision reason) := by
  rw [revokePolicyRevision]
  split
  · exact clean_same hcertain _
  split
  · exact clean_same hcertain _
  next digest _ =>
  have hclean := clean_commit (R := R)
    (e := .policyBundleRevoked revision digest reason) hcertain hroom hholds fun _ => trivial
  split
  · exact clean_same hcertain _
  · split <;> next h => exact hclean.after (by simp [h]) (by simp [h])

theorem clean_revokeIdentitySession (hholds : r.Holds) (session : SessionId) (reason : String) :
    Clean r (r.revokeIdentitySession R session reason) := by
  have hclean := clean_commit (R := R) (e := .sessionRevoked session reason) hcertain hroom hholds
    fun _ => trivial
  rw [revokeIdentitySession]
  split
  · exact clean_same hcertain _
  split
  · exact clean_same hcertain _
  split
  · exact clean_same hcertain _
  · split
    · next h => exact hclean.after (by simp [h]) (by simp [h])
    · next h => exact hclean.after (by simp [h, update]) (by simp)

end Clean

/-! ### Every call -/

/-- The record of a call fits; of the records that may not fit, only these two calls
write any that they did not check. -/
def CallFits (R : Rules ρ τ) (r : PtrRuntime ρ τ) : Call → Prop
  | .commit e => r.Fits R e
  | .admitManifest m _ =>
    (r.history.executionManifests.admitCandidate (m.validatedAt r.revision)).1 = .ok ()
  | _ => True

/-- A call returns an error.  An effect is refused at its admission; what comes behind
its attempt is the outcome of the effect. -/
def Refuses (R : Rules ρ τ) (r : PtrRuntime ρ τ) : Call → Prop
  | .commit e => ∃ error, (r.commit R e).1 = .error error
  | .admitStructural e _ => ∃ error, (r.commitValidated R e).1 = .error error
  | .flushEgress e _ => ∃ error, (r.commitGated R e).1 = .error error
  | .ingress origin _ d => ∃ error, (r.applyIngress R origin d).1 = .error error
  | .judged verdict origin _ d => ∃ error, (r.applyJudged R verdict origin d).1 = .error error
  | .execute q _ => ∃ error, (r.admitEffect R q false).1 = .error error
  | .dispatch q _ => ∃ error, (r.admitEffect R q true).1 = .error error
  | .settleDetached attempt response =>
    ∃ error, (r.settleDetached R attempt response).1 = .error error
  | .reconcile attempt applied evidence =>
    ∃ error, (r.reconcileEffect R attempt applied evidence).1 = .error error
  | .admitManifest m lineage => ∃ error, (r.admitExecutionManifest R m lineage).1 = .error error
  | .revokeManifest digest => ∃ error, (r.revokeExecutionManifest R digest).1 = .error error
  | .activatePolicy b verified => ∃ error, (r.activatePolicyBundle R b verified).1 = .error error
  | .revokePolicy revision reason =>
    ∃ error, (r.revokePolicyRevision R revision reason).1 = .error error
  | .revokeSession session reason =>
    ∃ error, (r.revokeIdentitySession R session reason).1 = .error error
  | .admitIdentity session issuer subject valid =>
    ∃ error, (r.admitIdentityContext session issuer subject valid).1 = .error error
  | .refreshSnapshot => ∃ error, (r.refreshSnapshotAuthority R).1 = .error error
  | .registerProtected revision digest =>
    ∃ error, (r.registerProtectedSnapshotAuthority revision digest).1 = .error error
  | .markRecovery id => ∃ error, (r.markScopeRecoveryRequired id).1 = .error error
  | .setPermissions _ | .authority _ | .registry _ => False

theorem room_commit {e index} (h : r.commit R e = (.ok index, r')) (hroom : r.Room 2) :
    r'.Room 1 := by
  obtain ⟨semantic, next, -, happly, rfl⟩ := commit_ok h
  obtain ⟨hbase, hledger⟩ := completed_appended (R := R) (r := r) ⟨index, e⟩ semantic
  rw [happly] at hbase hledger
  simp only [Room] at hroom ⊢
  simp only [completed] at hbase hledger
  rw [hledger, hbase, List.length_append]
  omega

theorem room_admitEffect {q wantDetached admission}
    (h : r.admitEffect R q wantDetached = (.ok admission, r')) (hroom : r.Room 2) : r'.Room 1 := by
  rw [admitEffect] at h
  split at h
  · cases h
  · cases h
    exact hroom.one
  split at h
  · cases h
  · next hcommit =>
    cases h
    exact room_commit hcommit hroom

section Effects

variable (hcertain : r.uncertain = false) (hroom : r.Room 2) (hholds : r.Holds) (q : EffectRequest)

include hcertain hroom hholds

theorem execute_clean (answer : Except String Bytes) :
    (r.executePrepared R q answer).2.1.uncertain = false ∧
      ((∃ error, (r.admitEffect R q false).1 = .error error) →
        (r.executePrepared R q answer).2.1.ledger = r.ledger) := by
  have hadmission := clean_admitEffect (R := R) hcertain hroom.one hholds q false
  rw [executePrepared]
  split
  · next h => rw [h] at hadmission ⊢; exact hadmission.of_refused
  · next h => rw [h] at hadmission ⊢; exact hadmission.of_refused
  next attempt next h =>
  have hroom' := room_admitEffect h hroom
  rw [h] at hadmission ⊢
  refine ⟨?_, by rintro ⟨_, he⟩; cases he⟩
  cases answer with
  | error => exact hadmission.certain
  | ok output =>
    have hsettle : Clean next (next.recordSettlement R attempt output) :=
      clean_commitSettlement hadmission.certain hroom' rfl
    dsimp only
    split <;> next hs => rw [hs] at hsettle; exact hsettle.certain

theorem dispatch_clean (answer : Except String Unit) :
    (r.dispatchDetached R q answer).2.1.uncertain = false ∧
      ((∃ error, (r.admitEffect R q true).1 = .error error) →
        (r.dispatchDetached R q answer).2.1.ledger = r.ledger) := by
  have hadmission := clean_admitEffect (R := R) hcertain hroom.one hholds q true
  rw [dispatchDetached]
  split
  · next h => rw [h] at hadmission ⊢; exact hadmission.of_refused
  · next h => rw [h] at hadmission ⊢; exact hadmission.of_refused
  next h =>
  rw [h] at hadmission ⊢
  refine ⟨?_, by rintro ⟨_, he⟩; cases he⟩
  split
  · exact hadmission.certain
  · exact hadmission.certain

end Effects

/-- **A call that fits leaves no commit uncertain**, and the records as they were if it
is refused. -/
theorem step_clean {call : Call} (hcertain : r.uncertain = false) (hroom : r.Room 2)
    (hholds : r.Holds) (hfits : r.CallFits R call) : (r.step R call).1.uncertain = false ∧
      (r.Refuses R call → (r.step R call).1.ledger = r.ledger) := by
  have hone := hroom.one
  cases call with
  | commit => exact (clean_commit hcertain hone hholds fun _ => hfits).of_refused
  | admitStructural e own => exact (clean_commitValidated hcertain hone hholds own).of_refused
  | flushEgress e own =>
    have hgated : Clean r (r.commitGated R e) := by
      rw [commitGated]
      split
      · exact clean_same hcertain _
      · exact clean_commitValidated hcertain hone hholds own
    exact hgated.of_refused
  | ingress origin raw d => exact (clean_applyIngress hcertain hone origin d).of_refused
  | judged verdict origin signed d =>
    exact (clean_applyJudged hcertain hone verdict origin d).of_refused
  | execute q answer => exact execute_clean hcertain hroom hholds q answer
  | dispatch q answer => exact dispatch_clean hcertain hroom hholds q answer
  | settleDetached attempt response =>
    exact (clean_settleDetached hcertain hone attempt response).of_refused
  | reconcile attempt applied evidence =>
    exact (clean_reconcileEffect hcertain hone attempt applied evidence).of_refused
  | admitManifest m lineage =>
    exact (clean_admitExecutionManifest hcertain hone hholds m lineage hfits).of_refused
  | revokeManifest digest =>
    exact (clean_revokeExecutionManifest hcertain hone hholds digest).of_refused
  | activatePolicy b verified =>
    exact (clean_activatePolicyBundle hcertain hone hholds b verified).of_refused
  | revokePolicy revision reason =>
    exact (clean_revokePolicyRevision hcertain hone hholds revision reason).of_refused
  | revokeSession session reason =>
    exact (clean_revokeIdentitySession hcertain hone hholds session reason).of_refused
  | admitIdentity | refreshSnapshot | registerProtected | markRecovery =>
    simp only [step, admitIdentityContext, refreshSnapshotAuthority,
      registerProtectedSnapshotAuthority, markScopeRecoveryRequired]
    repeat' split
    all_goals exact ⟨hcertain, fun _ => rfl⟩
  | _ => exact ⟨hcertain, fun _ => rfl⟩

end PtrRuntime

end Ptr.Runtime
