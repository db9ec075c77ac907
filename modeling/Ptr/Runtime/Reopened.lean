import Ptr.Runtime.Fits

/-!
# Reopening a runtime

A replay of the records of a runtime whose last commit is certain succeeds, and rebuilds
what the records determine (`Rebuilds`).  The live authority may know more snapshots than
the records do, so a record that contradicted none of them contradicts none in the replay.
-/

namespace Ptr.Runtime

open Lib Ledger Semdb Relation Std PtrRuntime ExtTreeMap

variable {ρ τ : Type} {R : Rules ρ τ}

/-! ### What the smaller authority accepts -/

namespace ManifestAuthorityRegistry

variable {a b b' : ManifestAuthorityRegistry} {v : Revision} {d : Digest}

theorem registers_of_grows {a'} (h : Grows a b) (hagrees : b.Agrees) (ha : Registers a v d a')
    (hb : Registers b v d b') : Grows a' b' ∧ b'.Agrees := by
  have hagrees' := hb.grows.agrees hagrees
  refine ⟨⟨ha.policies.symm.trans (h.policies.trans hb.policies), fun {w e} hw => ?_,
      fun _ => hagrees'⟩, hagrees'⟩
  exact (hb.held w e).mpr (((ha.held w e).mp hw).imp h.held id)

theorem registerSnapshot_of_grows (h : Grows a b) (hagrees : b.Agrees)
    (hb : b.registerSnapshot v d = (.ok (), b')) :
    ∃ a', a.registerSnapshot v d = (.ok (), a') ∧ Grows a' b' ∧ b'.Agrees := by
  have hregisters := registers_snapshot hb
  obtain ⟨a', ha⟩ := registerSnapshot_free a fun d' hd => hregisters.free d' (h.held hd)
  exact ⟨a', ha, registers_of_grows h hagrees (registers_snapshot ha) hregisters⟩

theorem observeManifest_of_grows {m} (h : Grows a b) (hagrees : b.Agrees)
    (hb : b.observeManifest m = (.ok (), b')) :
    ∃ a', a.observeManifest m = (.ok (), a') ∧ Grows a' b' ∧ b'.Agrees := by
  rw [observeManifest, admitPrincipal.eq_def] at hb ⊢
  split at hb
  · next hb' =>
    split at hb'
    · cases hb'
      cases hb
    · cases hb'
  next hb' =>
  split at hb'
  · cases hb'
  next hprincipal =>
  cases hb'
  rw [if_neg hprincipal]
  have hgrows :
      Grows (setPolicyRevision { a with principals := a.principals.insert m.principal }
    m.policyRevision)
    (setPolicyRevision { b with principals := b.principals.insert m.principal } m.policyRevision) :=
    ⟨⟨by simp [setPolicyRevision, h.policies.revisions], h.policies.digests, h.policies.revoked⟩,
      h.held, fun _ => hagrees⟩
  exact registerSnapshot_of_grows hgrows hagrees hb

theorem registerProtectedSnapshot_of_grows (h : Grows a b) (hagrees : b.Agrees)
    (hb : b.registerProtectedSnapshot v d = (.ok (), b')) :
    ∃ a', a.registerProtectedSnapshot v d = (.ok (), a') ∧ Grows a' b' ∧ b'.Agrees := by
  obtain ⟨hzero, hregisters⟩ := registers_protectedSnapshot hagrees hb
  obtain ⟨a', ha⟩ := registerProtectedSnapshot_free a hzero fun d' hd =>
    hregisters.free d' (h.held hd)
  have ha' : a.Agrees := fun w e e' he he' => hagrees w e e' (h.held he) (h.held he')
  exact ⟨a', ha, registers_of_grows h hagrees (registers_protectedSnapshot ha' ha).2 hregisters⟩

theorem activatePolicy_of_grows (h : Grows a b) (hb : b.activatePolicy v d = (.ok (), b')) :
    ∃ a', a.activatePolicy v d = (.ok (), a') ∧ Grows a' b' ∧ (b.Agrees → b'.Agrees) := by
  obtain ⟨⟨hrevisions, hdigests, hrevoked⟩, hheld, hagrees⟩ := h
  obtain ⟨principals, revisions, digests, revoked, snapshots, protectedSnapshots⟩ := a
  obtain ⟨principals', revisions', digests', revoked', snapshots', protectedSnapshots'⟩ := b
  cases hrevisions
  cases hdigests
  cases hrevoked
  simp only [activatePolicy, notAbove] at hb ⊢
  split at hb
  · cases hb
  next hzero =>
  split at hb
  · cases hb
  next hlive =>
  rw [if_neg hzero, if_neg hlive]
  split at hb
  · next existing hexisting =>
    split at hb
    · cases hb
    next hsame =>
    cases hb
    rw [if_neg hsame]
    exact ⟨_, rfl, ⟨⟨rfl, rfl, rfl⟩, hheld, hagrees⟩, id⟩
  · by_cases habove : (digests.keys.getLast?.any fun last => decide (v ≤ last)) = true
    · simp [habove] at hb
    · simp only [habove, Bool.false_eq_true, if_false, Prod.mk.injEq, true_and] at hb ⊢
      subst hb
      exact ⟨_, rfl, ⟨⟨rfl, rfl, rfl⟩, hheld, hagrees⟩, id⟩

theorem revokePolicy_of_grows (h : Grows a b) (hb : b.revokePolicy v = (.ok (), b')) :
    ∃ a', a.revokePolicy v = (.ok (), a') ∧ Grows a' b' ∧ (b.Agrees → b'.Agrees) := by
  rw [revokePolicy] at hb ⊢
  split at hb
  · cases hb
  next hheld =>
  cases hb
  rw [h.policies.revisions] at hheld
  rw [if_neg hheld]
  exact ⟨_, rfl, ⟨⟨h.policies.revisions, h.policies.digests, by rw [h.policies.revoked]⟩, h.held,
      h.agrees⟩, id⟩

end ManifestAuthorityRegistry

/-! ### One record -/

namespace PtrRuntime

open ManifestAuthorityRegistry

variable {q r r' : PtrRuntime ρ τ} {c : CommittedEvent} {semantic : Option PreparedDelta}

/-- `q` holds the records of `r` and what they determine; sessions and identities are its
own, and it may know fewer snapshots. -/
structure Rebuilds (q r : PtrRuntime ρ τ) : Prop where
  base : q.base = r.base
  ledger : q.ledger = r.ledger
  history : ∃ owner sessions,
    q.history =
    { r.history with semdb := ⟨r.history.semdb.state, owner⟩, revokedSessions := sessions }
  authority : Grows q.manifestAuthority r.manifestAuthority

/-- What a replay does with a record, up to its materialized values. -/
structure Retakes (R : Rules ρ τ) (q : PtrRuntime ρ τ) (c : CommittedEvent)
    (next qnext : PtrRuntime ρ τ) : Prop where
  valid : q.validateLifecycleEvent R c.event = .ok ()
  applied : ∃ semantic, q.prepareSemanticEvent R (some c.index) c.event = .ok semantic ∧
    (q.holding c q.uncertain).applyEvent R c semantic = (.ok (), qnext)
  history : ∃ owner sessions,
    qnext.history =
    { next.history with semdb := ⟨next.history.semdb.state, owner⟩, revokedSessions := sessions }
  authority : Grows qnext.manifestAuthority next.manifestAuthority
  agrees : next.manifestAuthority.Agrees

theorem validateSemanticOrigin_replayed {sha values index base encoded d origin} (i : CommitIndex)
    (h : validateSemanticOrigin sha values index base encoded d origin = .ok ()) :
    validateSemanticOrigin sha values (some i) base encoded d origin = .ok () := by
  cases origin with
  | legacy =>
    cases index with
    | none => cases h
    | some =>
      rw [validateSemanticOrigin, refuse_eq_ok] at h ⊢
      exact h
  | _ =>
    rw [validateSemanticOrigin, mapError_eq_ok] at h ⊢
    · exact h
    all_goals nofun

/-- **A record that was applied is applied again by the replay.** -/
theorem Rebuilds.retakes {uncertain next} (h : q.Rebuilds r) (hagrees : r.manifestAuthority.Agrees)
    (hvalid : r.validateLifecycleEvent R c.event = .ok ()) (hreadied : r.Readied R c.event semantic)
    (hencodable : isSemantic c.event = true → checkEncodable c.event = .ok ())
    (happly : (r.holding c uncertain).applyEvent R c semantic = (.ok (), next)) :
    ∃ qnext, Retakes R q c next qnext := by
  obtain ⟨qhistory, qauthority, ready, base, ledger, quncertain, detached, recovery, boundary,
    permissions⟩ := q
  obtain ⟨-, -, ⟨owner, sessions, hhistory⟩, hgrows⟩ := h
  subst hhistory
  obtain ⟨index, e⟩ := c
  cases e with
  | semanticDeltaCommitted base revision encoded origin =>
    cases hreadied with
    | nothing other => cases other
    | @change _ d _ p i decode prepared changes allowed kept =>
      simp only [applyEvent, applySemantic, holding, applyPrepared_of_prepared prepared] at happly
      cases happly
      have hprepared : SemanticHost.prepareDelta ⟨r.history.semdb.state, owner⟩ d =
          .ok { p with owner := owner } := by
        rw [prepareDelta_owner]
        exact congrArg (Except.map _) prepared
      have hrecord : prepareSemanticRecord R.sha r.history.state.values
          ⟨r.history.semdb.state, owner⟩ (some index) r.revision p.next.revision encoded origin =
          .ok { p with owner := owner } :=
        prepareSemanticRecord_eq_ok.mpr ⟨rfl, rfl, changes, kept, hencodable rfl, d, decode,
          hprepared, validateSemanticOrigin_replayed index allowed⟩
      exact ⟨_, rfl, ⟨_, bind_eq_ok.mpr ⟨_, hrecord, rfl⟩, by
        simp only [applyEvent, applySemantic, holding, applyPrepared_of_prepared hprepared]; rfl⟩,
        ⟨owner, sessions, by rfl⟩, by exact hgrows, hagrees⟩
  | scopeLifecycle e =>
    simp only [applyEvent, applyScope, holding] at happly
    split at happly
    · cases happly
    next g hg =>
    by_cases hends : stateFromKind e.kind = .released ∧ e ∉ r.history.scopes.committed
    all_goals
      simp only [hends, Prod.mk.injEq, true_and] at happly
      subst happly
      exact ⟨_, hvalid, ⟨none, rfl, by simp only [applyEvent, applyScope, holding, hg, hends]; rfl⟩,
        ⟨owner, sessions, by rfl⟩, by exact hgrows, hagrees⟩
  | podHypothesisCommitted p =>
    by_cases hprobability : (!isProbabilityBits p.confidenceBits) = true
    · simp [applyEvent, applyHypothesis, hprobability] at happly
    by_cases hnew : p.branchId ∈ r.history.hypotheses
    · simp [applyEvent, applyHypothesis, holding, hprobability, hnew] at happly
    simp only [applyEvent, applyHypothesis, holding, hprobability, hnew, if_false,
      Bool.false_eq_true, Prod.mk.injEq, true_and] at happly
    subst happly
    exact ⟨_, hvalid, ⟨none, rfl, by
      simp only [applyEvent, applyHypothesis, holding, hprobability, hnew]; rfl⟩,
      ⟨owner, sessions, by rfl⟩, by exact hgrows, hagrees⟩
  | executionManifestAdmitted a =>
    change (r.holding _ uncertain).applyAdmission R a = _ at happly
    rw [applyAdmission] at happly
    split at happly
    · cases happly
    next m hdecode =>
    split at happly
    · cases happly
    next g hg =>
    change r.history.executionManifests.admitReplayed R.sha m r.history.semdb.state.revision = _
      at hg
    dsimp only at happly
    split at happly
    · cases happly
    next authority hobserve =>
    cases happly
    obtain ⟨authority', hobserve', hgrows', hagrees'⟩ :=
      observeManifest_of_grows hgrows hagrees hobserve
    exact ⟨_, hvalid, ⟨none, rfl, by
      simp only [applyEvent, applyAdmission, holding, hdecode, revision, hg, update,
        hobserve']; rfl⟩,
      ⟨owner, sessions, by rfl⟩, by exact hgrows', hagrees'⟩
  | executionManifestRevoked =>
    simp only [applyEvent, applyManifestRevocation, holding] at happly
    split at happly
    · cases happly
    next g hg =>
    cases happly
    exact ⟨_, hvalid,
      ⟨none, rfl, by simp only [applyEvent, applyManifestRevocation, holding, hg]; rfl⟩,
      ⟨owner, sessions, by rfl⟩, by exact hgrows, hagrees⟩
  | policyBundleActivated revision keyId digest bundle =>
    simp only [applyEvent, applyPolicyActivation, holding] at happly
    split at happly
    · cases happly
    next authority hactivate =>
    cases happly
    obtain ⟨authority', hactivate', hgrows', hagrees'⟩ := activatePolicy_of_grows hgrows hactivate
    refine ⟨_, ?_,
      ⟨none, rfl, by simp only [applyEvent, applyPolicyActivation, holding, hactivate']; rfl⟩,
      ⟨owner, sessions, by rfl⟩, by exact hgrows', hagrees' hagrees⟩
    change validatePolicyActivation _ revision keyId digest bundle = .ok () at hvalid ⊢
    simp only [validatePolicyActivation, hactivate, hactivate'] at hvalid ⊢
    exact hvalid
  | policyBundleRevoked revision digest reason =>
    simp only [applyEvent, applyPolicyRevocation] at happly
    split at happly
    · cases happly
    next authority hrevoke =>
    cases happly
    obtain ⟨authority', hrevoke', hgrows', hagrees'⟩ := revokePolicy_of_grows hgrows hrevoke
    refine ⟨_, ?_,
      ⟨none, rfl, by simp only [applyEvent, applyPolicyRevocation, holding, hrevoke']; rfl⟩,
      ⟨owner, sessions, by rfl⟩, by exact hgrows', hagrees' hagrees⟩
    change validatePolicyRevocation _ revision digest reason = .ok () at hvalid ⊢
    rw [validatePolicyRevocation, policyDigest, hgrows.policies.digests] at hvalid
    exact hvalid
  | protectedStateCommitted s =>
    change (r.holding _ uncertain).applyProtectedState s = _ at happly
    rw [applyProtectedState] at happly
    split at happly
    · next hdomain =>
      cases happly
      exact ⟨_, hvalid,
        ⟨none, rfl, by simp only [applyEvent, applyProtectedState]; rw [if_pos hdomain]⟩,
        ⟨owner, sessions, by rfl⟩, by exact hgrows, hagrees⟩
    next hdomain =>
    split at happly
    · cases happly
    next authority hregister =>
    cases happly
    obtain ⟨authority', hregister', hgrows', hagrees'⟩ :=
      registerProtectedSnapshot_of_grows hgrows hagrees hregister
    exact ⟨_, hvalid, ⟨none, rfl, by
      simp only [applyEvent, applyProtectedState, holding, hdomain, hregister']; rfl⟩,
      ⟨owner, sessions, by rfl⟩, by exact hgrows', hagrees'⟩
  | tierBackendLifecycle | tierObjectCommitted | tierReplicaLifecycle =>
    simp only [applyEvent, applyTier, holding] at happly
    split at happly
    · cases happly
    next journal hjournal =>
    cases happly
    exact ⟨_, hvalid, ⟨none, rfl, by simp only [applyEvent, applyTier, holding, hjournal]; rfl⟩,
      ⟨owner, sessions, by rfl⟩, by exact hgrows, hagrees⟩
  | expertStructuralCommitted | expertFenceCommitted | inputInvalidated | expertAuthorityChanged =>
    simp only [applyEvent, applyExpert, holding] at happly
    split at happly
    · cases happly
    next plan hplan =>
    cases happly
    exact ⟨_, hvalid, ⟨none, rfl, by simp only [applyEvent, applyExpert, holding, hplan]; rfl⟩,
      ⟨owner, sessions, by rfl⟩, by exact hgrows, hagrees⟩
  | _ =>
    cases happly
    exact ⟨_, hvalid, ⟨_, rfl, rfl⟩, ⟨owner, _, rfl⟩, hgrows, hagrees⟩

theorem Rebuilds.replayRecord {uncertain next} (h : q.Rebuilds r)
    (hagrees : r.manifestAuthority.Agrees) (hvalid : r.validateLifecycleEvent R c.event = .ok ())
    (hreadied : r.Readied R c.event semantic)
    (hencodable : isSemantic c.event = true → checkEncodable c.event = .ok ())
    (hindex : r.nextIndex = some c.index)
    (happly : (r.holding c uncertain).applyEvent R c semantic = (.ok (), next))
    (hbase : r'.base = r.base) (hledger : r'.ledger = r.ledger ++ [c])
    (hhistory : r'.history =
      { next.history with state := next.history.state.apply R.expertEntries c })
    (hauthority : r'.manifestAuthority = next.manifestAuthority) :
    r'.manifestAuthority.Agrees ∧ ∃ q', PtrRuntime.replayRecord R q c = .ok q' ∧
      q'.Rebuilds r' := by
  obtain ⟨qnext, hretakes⟩ := h.retakes hagrees hvalid hreadied hencodable happly
  obtain ⟨semantic', hprepared, happlied⟩ := hretakes.applied
  obtain ⟨owner, sessions, hqhistory⟩ := hretakes.history
  have hprocess := sameProcess_applyEvent (R := R) (q.holding c q.uncertain) c semantic'
  rw [happlied] at hprocess
  have hqindex : q.nextIndex = some c.index := by
    rw [nextIndex, h.base, h.ledger]
    exact hindex
  have hcommitted : { q with ledger := q.ledger ++ [c] }.applyCommitted R c semantic' =
      (.ok (), qnext.update fun h => { h with state := h.state.apply R.expertEntries c }) := by
    rw [applyCommitted, show { q with ledger := q.ledger ++ [c] } = q.holding c q.uncertain
      from rfl, happlied]
  refine ⟨hauthority ▸ hretakes.agrees, qnext.update fun h =>
    { h with state := h.state.apply R.expertEntries c }, ?_, ?_, ?_, ?_, ?_⟩
  · simp only [PtrRuntime.replayRecord, hretakes.valid, hprepared, bind, Except.bind, hqindex,
      ne_eq, not_true, if_false, hcommitted]
  · exact (hprocess.base.trans h.base).trans hbase.symm
  · rw [hledger, ← h.ledger]
    exact hprocess.ledger
  · refine ⟨owner, sessions, ?_⟩
    rw [hhistory, update, hqhistory]
  · rw [hauthority]
    exact hretakes.authority

/-! ### Every runtime -/

/-- A replay of the records, by whatever host, rebuilds the runtime. -/
structure Reopens (R : Rules ρ τ) (r : PtrRuntime ρ τ) : Prop where
  agrees : r.manifestAuthority.Agrees
  rebuilt : ∀ owner boundary, ∃ q, r.ledger.foldlM (replayRecord R) (new R owner boundary) = .ok q ∧
    q.Rebuilds r

theorem reopens_new (R : Rules ρ τ) (owner : Nat) (boundary : ActionBoundaryConfig) :
    (new R owner boundary).Reopens R where
  agrees v d d' h := by simp [new, ManifestAuthorityRegistry.empty, Held] at h
  rebuilt owner' boundary' :=
    ⟨new R owner' boundary', rfl, rfl, rfl, ⟨owner', ∅, rfl⟩, grows_refl _⟩

theorem Reopens.record (h : r.Reopens R) (hledger : r'.ledger = r.ledger ++ [c])
    (htaken : ∀ q, q.Rebuilds r → r'.manifestAuthority.Agrees ∧ ∃ q', replayRecord R q c = .ok q' ∧
      q'.Rebuilds r') : r'.Reopens R := by
  have hnext := fun owner boundary => (h.rebuilt owner boundary).imp fun q hq =>
    And.intro hq (htaken q hq.2)
  refine ⟨(hnext 0 r.boundary).choose_spec.2.1, fun owner boundary => ?_⟩
  obtain ⟨q, ⟨hreplay, -⟩, -, q', hrecord, hrebuilds⟩ := hnext owner boundary
  refine ⟨q', ?_, hrebuilds⟩
  rw [hledger, List.foldlM_append, hreplay]
  exact bind_eq_ok.mpr ⟨q, rfl, bind_eq_ok.mpr ⟨q', hrecord, rfl⟩⟩

theorem Reopens.quiet (h : r.Reopens R) (hbase : r'.base = r.base) (hledger : r'.ledger = r.ledger)
    (hhistory : ∃ s, r'.history = { r.history with revokedSessions := s })
    (hgrows : Grows r.manifestAuthority r'.manifestAuthority) : r'.Reopens R := by
  obtain ⟨s, hhistory⟩ := hhistory
  refine ⟨hgrows.agrees h.agrees, fun owner boundary => ?_⟩
  obtain ⟨q, hreplay, hrebuilds⟩ := h.rebuilt owner boundary
  obtain ⟨owner', sessions, hqhistory⟩ := hrebuilds.history
  have hsame := hrebuilds.authority
  exact ⟨q, hledger ▸ hreplay, hrebuilds.base.trans hbase.symm, hrebuilds.ledger.trans hledger.symm,
    ⟨owner', sessions, by rw [hqhistory, hhistory]⟩, hsame.policies.trans hgrows.policies,
    fun hd => hgrows.held (hsame.held hd), hgrows.agrees ∘ hsame.agrees⟩

theorem reopens_append (h : r.Reopens R) (happends : r.Appends R c)
    (hbeside : r.Beside R c.event semantic)
    (hcertain : (completed ((r.begun c).applyCommitted R c semantic)).uncertain = false) :
    (completed ((r.begun c).applyCommitted R c semantic)).Reopens R := by
  have hprocess := sameProcess_applyCommitted (R := R) (r.begun c) c semantic
  cases hresult : (r.begun c).applyCommitted R c semantic with
  | mk result after =>
    rw [hresult] at hprocess hcertain
    cases result with
    | error =>
      -- A record that failed left the commit uncertain.
      have huncertain : after.uncertain = true := hprocess.uncertain
      exact absurd (huncertain.symm.trans hcertain) (by decide)
    | ok =>
      obtain ⟨next, hevent, rfl⟩ := applyCommitted_ok hresult
      exact h.record hprocess.ledger fun q hq =>
        hq.replayRecord h.agrees happends.valid hbeside.readied
        (fun _ => happends.encodable) happends.index hevent hprocess.base hprocess.ledger rfl rfl

theorem Rebuilds.replays (h : q.Rebuilds r) (hagrees : r.manifestAuthority.Agrees)
    (hreplays : Replays R r c r') :
    r'.manifestAuthority.Agrees ∧ ∃ q', PtrRuntime.replayRecord R q c = .ok q' ∧
      q'.Rebuilds r' := by
  obtain ⟨semantic, hsemantic, happly⟩ := hreplays.applied
  obtain ⟨next, hevent, rfl⟩ := applyCommitted_ok happly
  refine h.replayRecord hagrees hreplays.valid
    (readied_of_replay hsemantic) ?_ hreplays.index hevent hreplays.process.base
    hreplays.process.ledger rfl rfl
  intro hkind
  obtain ⟨index, e⟩ := c
  cases e with
  | semanticDeltaCommitted =>
    obtain ⟨p, hp, -⟩ := bind_eq_ok.mp hsemantic
    exact (prepareSemanticRecord_eq_ok.mp hp).2.2.2.2.1
  | _ => cases hkind

theorem reopens_replays (h : r.Reopens R) (hreplays : Replays R r c r') : r'.Reopens R := by
  exact h.record hreplays.process.ledger fun q hq => hq.replays h.agrees hreplays

/-- **Every runtime whose last commit is certain can be reopened.** -/
theorem reachable_reopens (h : Reachable R r) : r.uncertain = false → r.Reopens R := by
  refine reachable_invariant (P := fun r => r.uncertain = false → r.Reopens R) ?_ ?_ ?_ h
  · intro owner boundary _
    exact reopens_new R owner boundary
  · intro r r' hr hmove hcertain
    cases hmove with
    | append happends hbeside =>
      exact reopens_append (hr happends.certain) happends hbeside hcertain
    | exhausted => cases hcertain
    | authority hgrows => exact (hr hcertain).quiet rfl rfl ⟨_, rfl⟩ hgrows
    | _ => exact (hr hcertain).quiet rfl rfl ⟨_, rfl⟩ (grows_refl _)
  · intro r c r' hr hreplays hcertain
    exact reopens_replays (hr (hreplays.process.uncertain.symm.trans hcertain)) hreplays

theorem Reopens.replay (h : r.Reopens R) (owner : Nat) (boundary : ActionBoundaryConfig) :
    ∃ q, replay R owner boundary r.committedEvents = .ok q ∧ q.Rebuilds r := by
  obtain ⟨q, hq, hrebuilds⟩ := h.rebuilt owner boundary
  exact ⟨q.markRecoveryRequired, bind_eq_ok.mpr ⟨q, hq, rfl⟩, hrebuilds.base, hrebuilds.ledger,
    hrebuilds.history, hrebuilds.authority⟩

theorem replay_certain {owner boundary events} (h : replay R owner boundary events = .ok r) :
    r.uncertain = false := by
  obtain ⟨next, hnext, h⟩ := bind_eq_ok.mp h
  cases h
  have hcertain : next.uncertain = false := foldlM_invariant
    (fun _ _ _ hr hreplays => hreplays.process.uncertain.trans hr) rfl hnext
  exact hcertain

/-- Runtimes whose calls all fit and find room in the ledger, with reopenings of their
own records between them. -/
inductive Fitting (R : Rules ρ τ) : PtrRuntime ρ τ → Prop
  | new (owner : Nat) (boundary : ActionBoundaryConfig) : Fitting R (.new R owner boundary)
  | call {r : PtrRuntime ρ τ} {call : Call} (h : Fitting R r) (own : call.isShared = false)
    (room : r.Room 2)
      (fits : r.CallFits R call) : Fitting R (r.step R call).1
  | reopen {r r' : PtrRuntime ρ τ} {owner : Nat} {boundary : ActionBoundaryConfig} (h : Fitting R r)
      (hreplay : replay R owner boundary r.committedEvents = .ok r') : Fitting R r'

theorem Fitting.reachable (h : Fitting R r) : Reachable R r := by
  induction h with
  | new owner boundary => exact .new owner boundary
  | call _ own _ _ ih => exact .call ih own
  | reopen _ hreplay => exact .replay hreplay

theorem Fitting.certain (h : Fitting R r) : r.uncertain = false := by
  induction h with
  | new => rfl
  | call hr _ room fits ih => exact (step_clean ih room (reachable_holds hr.reachable) fits).1
  | reopen _ hreplay => exact replay_certain hreplay

/-- **Every record that is appended can be applied and replayed**, if it fits: it is
applied, a call that is refused changes neither the records nor the mark of an uncertain
commit, and the records of the runtime can be replayed. -/
theorem fitting_records_apply_and_replay (R : Rules ρ τ) (h : Fitting R r) :
    r.uncertain = false ∧
      (∀ c semantic, r.Appends R c → r.Beside R c.event semantic → r.Fits R c.event →
        ((r.begun c).applyCommitted R c semantic).1 = .ok ()) ∧
      (∀ call, r.Room 2 → r.CallFits R call → r.Refuses R call →
        (r.step R call).1.committedEvents = r.committedEvents ∧
        (r.step R call).1.uncertain = r.uncertain) ∧
      ∀ owner boundary, ∃ q, replay R owner boundary r.committedEvents = .ok q := by
  have hholds := reachable_holds h.reachable
  refine ⟨h.certain, ?_, ?_, ?_⟩
  · intro c semantic happends hbeside hfits
    obtain ⟨next, hnext⟩ := applyEvent_fits true happends.valid hbeside.readied hfits hholds
    rw [applyCommitted, show r.begun c = r.holding c true from rfl, hnext]
  · intro call hroom hfits hrefuses
    obtain ⟨hcertain, hledger⟩ := step_clean h.certain hroom hholds hfits
    exact ⟨hledger hrefuses, hcertain.trans h.certain.symm⟩
  · intro owner boundary
    obtain ⟨q, hq, -⟩ := (reachable_reopens h.reachable h.certain).replay owner boundary
    exact ⟨q, hq⟩

end PtrRuntime

/-! ### A record that does not fit -/

def strayRevocation : LedgerEvent := .executionManifestRevoked (Digest.fill 7) 1 0

/-- **The revocation of an unknown manifest is appended and cannot be applied**: the call
returns an error, its record stays, the runtime is fenced, and its records cannot be
replayed. -/
theorem stray_revocation_poisons :
    plainRuntime.validateLifecycleEvent plainRules strayRevocation = .ok () ∧
      (plainRuntime.commit plainRules strayRevocation).1 =
        .error (.invalidConfig "unknown manifest revocation") ∧
      (plainRuntime.commit plainRules strayRevocation).2.committedEvents = [⟨1, strayRevocation⟩] ∧
      (plainRuntime.commit plainRules strayRevocation).2.uncertain = true ∧
      (replay plainRules 0 ⟨true, true, true⟩ [⟨1, strayRevocation⟩]).isOk = false := by
  refine ⟨?_, ?_, ?_, ?_, ?_⟩
  all_goals decide +kernel

/-- The first snapshot is protected by a record, and registered by a call. -/
def protectedRun : PtrRuntime Unit Unit :=
  plainRuntime.run plainRules
    [.commit (.protectedStateCommitted ⟨3, "s", 1, 1, Digest.fill 2, Digest.fill 3, Digest.fill 4⟩),
    .registerProtected 1 (Digest.fill 2)]

theorem protectedRun_fitting : Fitting plainRules protectedRun :=
  .call (.call (.new 0 ⟨true, true, true⟩) rfl (by unfold Room; decide)
    (fun _ => by decide +kernel)) rfl (by unfold Room; decide +kernel) trivial

theorem protectedRun_replays : protectedRun.committedEvents.length = 1 ∧
    ∃ q, replay plainRules 0 ⟨true, true, true⟩ protectedRun.committedEvents = .ok q :=
  ⟨by decide +kernel, (fitting_records_apply_and_replay plainRules protectedRun_fitting).2.2.2 0 _⟩

end Ptr.Runtime
