import Ptr.Lib.After
import Ptr.Runtime.Moves

/-!
# The current policy and the ledger

`current_policy_revision` is the greatest policy revision the registry holds and has
not revoked.  Revisions enter the registry from two sides: from the record that
activates a bundle, and from every manifest that is admitted, whatever revision it
names.  `PolicyLog` says what the registry has from the ledger.

An admitted manifest can therefore make a revision current that no record activated
(`admitted_manifest_sets_policy`).  Where every admitted manifest names a revision
that was activated before it, the current policy is one that the ledger activated
and did not revoke.
-/

namespace Ptr.Runtime

open Lib Ledger Semdb PtrRuntime ManifestAuthorityRegistry List
open Std.ExtTreeSet (mem_insert)

variable {ρ τ : Type} {R : Rules ρ τ} {l : List CommittedEvent} {a b : ManifestAuthorityRegistry}

/-! ### What a record says about policies -/

def activates : LedgerEvent → Option (Revision × Digest)
  | .policyBundleActivated revision _ digest _ => some (revision, digest)
  | _ => none

def revokes : LedgerEvent → Option Revision
  | .policyBundleRevoked revision _ _ => some revision
  | _ => none

def names : LedgerEvent → Option Revision
  | .executionManifestAdmitted a => some a.policyRevision
  | _ => none

def Activated (l : List CommittedEvent) (revision : Revision) (digest : Digest) : Prop :=
  ∃ c ∈ l, activates c.event = some (revision, digest)

def Revoked (l : List CommittedEvent) (revision : Revision) : Prop :=
  ∃ c ∈ l, revokes c.event = some revision

def Named (l : List CommittedEvent) (revision : Revision) : Prop :=
  ∃ c ∈ l, names c.event = some revision

theorem activated_append {c v d} :
    Activated (l ++ [c]) v d ↔ Activated l v d ∨ activates c.event = some (v, d) := by
  simp [Activated]

theorem revoked_append {c v} : Revoked (l ++ [c]) v ↔ Revoked l v ∨ revokes c.event = some v := by
  simp [Revoked]

theorem named_append {c v} : Named (l ++ [c]) v ↔ Named l v ∨ names c.event = some v := by
  simp [Named]

/-- An activation repeats an earlier one, or its revision is above every earlier
one. -/
def RisesAfter (before : List CommittedEvent) (c : CommittedEvent) : Prop :=
  ∀ v d, activates c.event = some (v, d) → Activated before v d ∨
    ∀ v' d', Activated before v' d' → v' < v

/-- An admitted manifest names no policy, or one that was activated before it. -/
def BoundAfter (before : List CommittedEvent) (c : CommittedEvent) : Prop :=
  ∀ v, names c.event = some v → v = 0 ∨ ∃ d, Activated before v d

structure PolicyLog (l : List CommittedEvent) (a : ManifestAuthorityRegistry) : Prop where
  digests : ∀ v d, a.policyDigests[v]? = some d ↔ Activated l v d
  revoked : ∀ v, v ∈ a.revokedPolicyRevisions ↔ Revoked l v
  held : ∀ v d, Activated l v d → v ∈ a.policyRevisions
  source : ∀ v, v ∈ a.policyRevisions → (∃ d, Activated l v d) ∨ Named l v
  nonzero : ∀ v, Revoked l v → v ≠ 0
  rises : EachAfter RisesAfter l

theorem policyLog_empty : PolicyLog [] .empty where
  digests v d := by simp [empty, Activated]
  revoked v := by simp [empty, Revoked]
  held v d h := by simp [Activated] at h
  source v h := by simp [empty] at h
  nonzero v h := by simp [Revoked] at h
  rises := eachAfter_nil

theorem PolicyLog.same (h : PolicyLog l a) (hs : SamePolicies a b) : PolicyLog l b where
  digests v d := by rw [hs.digests]; exact h.digests v d
  revoked v := by rw [hs.revoked]; exact h.revoked v
  held v d hv := by rw [hs.revisions]; exact h.held v d hv
  source v hv := by rw [hs.revisions] at hv; exact h.source v hv
  nonzero := h.nonzero
  rises := h.rises

/-! ### One record -/

section Record

variable {c : CommittedEvent}

theorem PolicyLog.sourced (h : PolicyLog l a) {v} (hv : v ∈ a.policyRevisions) :
    (∃ d, Activated (l ++ [c]) v d) ∨ Named (l ++ [c]) v :=
  (h.source v hv).imp (.imp fun _ hd => activated_append.mpr (.inl hd)) fun hn =>
    named_append.mpr (.inl hn)

theorem PolicyLog.nonzero_append (h : PolicyLog l a) (hr : revokes c.event = none) {v}
    (hv : Revoked (l ++ [c]) v) : v ≠ 0 := by
  rw [revoked_append, hr] at hv
  exact h.nonzero v (hv.resolve_right (by simp))

theorem PolicyLog.quiet (h : PolicyLog l a) (ha : activates c.event = none)
    (hr : revokes c.event = none) : PolicyLog (l ++ [c]) a where
  digests v d := by rw [activated_append, ha, h.digests]; simp
  revoked v := by rw [revoked_append, hr, h.revoked]; simp
  held v d hv := by
    rw [activated_append, ha] at hv
    exact h.held v d (hv.resolve_right (by simp))
  source _ := h.sourced
  nonzero _ := h.nonzero_append hr
  rises := by
    refine eachAfter_append_singleton.mpr ⟨h.rises, ?_⟩
    intro v d hv
    rw [ha] at hv
    cases hv

theorem PolicyLog.named {v} (h : PolicyLog (l ++ [c]) a) (hn : names c.event = some v) :
    PolicyLog (l ++ [c]) (a.setPolicyRevision v) where
  digests := h.digests
  revoked := h.revoked
  held w d hw := mem_insert.mpr (.inr (h.held w d hw))
  source w hw := by
    rcases mem_insert.mp hw with heq | hw
    · rw [Std.LawfulEqOrd.compare_eq_iff_eq] at heq
      subst heq
      exact .inr (named_append.mpr (.inr hn))
    · exact h.source w hw
  nonzero := h.nonzero
  rises := h.rises

/-- The keys are sorted, so a revision above the last is above all. -/
theorem lt_of_not_notAbove {v w d} (h : a.notAbove v = false) (hw : a.policyDigests[w]? = some d) :
    w < v := by
  have hmem : w ∈ a.policyDigests.keys := Std.ExtTreeMap.mem_keys.mpr (mem_of_some hw)
  rw [notAbove] at h
  cases hlast : a.policyDigests.keys.getLast? with
  | none =>
    rw [getLast?_eq_none_iff] at hlast
    rw [hlast] at hmem
    cases hmem
  | some last =>
    rw [hlast, Option.any_some, decide_eq_false_iff_not, not_le] at h
    obtain ⟨front, hfront⟩ := getLast?_eq_some_iff.mp hlast
    have hsorted := a.policyDigests.ordered_keys
    rw [hfront, pairwise_append] at hsorted
    rw [hfront, mem_append, mem_singleton] at hmem
    rcases hmem with hmem | rfl
    · have hlt := hsorted.2.2 w hmem last (mem_singleton_self last)
      exact lt_trans (compare_lt_iff_lt.mp hlt) h
    · exact h

theorem PolicyLog.activate {v d} (h : PolicyLog l a) (ha : activates c.event = some (v, d))
    (hr : revokes c.event = none) (hok : a.activatePolicy v d = (.ok (), b)) :
    PolicyLog (l ++ [c]) b := by
  rw [activatePolicy] at hok
  split at hok
  · simp at hok
  split at hok
  · simp at hok
  split at hok
  · next existing hexisting =>
    split at hok
    · simp at hok
    next hsame =>
    rw [not_not] at hsame
    subst hsame
    cases hok
    -- The bundle was active already: the record repeats an earlier one.
    have hold : Activated l v existing := (h.digests v existing).mp hexisting
    exact {
      digests := by
        intro w e
        rw [activated_append, ha, h.digests, Option.some.injEq, Prod.mk.injEq]
        exact ⟨.inl, fun hw => hw.elim id fun ⟨hv, hd⟩ => hv ▸ hd ▸ hold⟩
      revoked := by intro w; rw [revoked_append, hr, h.revoked]; simp
      held := by
        intro w e hw
        rw [activated_append, ha] at hw
        rcases hw with hw | ⟨rfl, rfl⟩
        · exact h.held w e hw
        · exact h.held _ _ hold
      source := fun _ => h.sourced
      nonzero := fun _ => h.nonzero_append hr
      rises := by
        refine eachAfter_append_singleton.mpr ⟨h.rises, ?_⟩
        intro w e hw
        rw [ha] at hw
        obtain ⟨rfl, rfl⟩ := hw
        exact .inl hold }
  · next hnone =>
    split at hok
    · simp at hok
    next habove =>
    rw [Bool.not_eq_true] at habove
    cases hok
    exact {
      digests := by
        intro w e
        rw [activated_append, ha, Option.some.injEq, Prod.mk.injEq, Std.ExtTreeMap.getElem?_insert]
        by_cases hw : v = w
        · subst hw
          rw [if_pos Std.ReflCmp.compare_self, Option.some.injEq]
          refine ⟨fun he => .inr ⟨rfl, he⟩, fun he => he.elim ?_ And.right⟩
          intro hact
          rw [(h.digests v e).mpr hact] at hnone
          cases hnone
        · rw [if_neg (by rwa [Std.LawfulEqOrd.compare_eq_iff_eq]), h.digests]
          exact ⟨.inl, fun he => he.resolve_right fun hv => hw hv.1⟩
      revoked := by intro w; rw [revoked_append, hr]; simpa using h.revoked w
      held := by
        intro w e hw
        rw [activated_append, ha] at hw
        rcases hw with hw | ⟨rfl, rfl⟩
        · exact mem_insert.mpr (.inr (h.held w e hw))
        · exact mem_insert.mpr (.inl Std.ReflCmp.compare_self)
      source := by
        intro w hw
        rcases mem_insert.mp hw with heq | hw
        · rw [Std.LawfulEqOrd.compare_eq_iff_eq] at heq
          subst heq
          exact .inl ⟨d, activated_append.mpr (.inr ha)⟩
        · exact h.sourced hw
      nonzero := fun _ => h.nonzero_append hr
      rises := by
        refine eachAfter_append_singleton.mpr ⟨h.rises, ?_⟩
        intro w e hw
        rw [ha] at hw
        obtain ⟨rfl, rfl⟩ := hw
        exact .inr fun v' d' hact => lt_of_not_notAbove habove ((h.digests v' d').mpr hact) }

theorem PolicyLog.revoke {v} (h : PolicyLog l a) (ha : activates c.event = none)
    (hr : revokes c.event = some v) (hv : v ≠ 0) (hok : a.revokePolicy v = (.ok (), b)) :
    PolicyLog (l ++ [c]) b := by
  rw [revokePolicy] at hok
  split at hok
  · simp at hok
  cases hok
  exact {
    digests := by intro w d; rw [activated_append, ha]; simpa using h.digests w d
    revoked := by
      intro w
      rw [revoked_append, hr, Option.some.injEq, mem_insert, Std.LawfulEqOrd.compare_eq_iff_eq,
        h.revoked]
      exact or_comm
    held := by
      intro w d hw
      rw [activated_append, ha] at hw
      exact h.held w d (hw.resolve_right (by simp))
    source := fun _ => h.sourced
    nonzero := by
      intro w hw
      rw [revoked_append, hr, Option.some.injEq] at hw
      rcases hw with hw | rfl
      · exact h.nonzero w hw
      · exact hv
    rises := by
      refine eachAfter_append_singleton.mpr ⟨h.rises, ?_⟩
      intro w d hw
      rw [ha] at hw
      cases hw }

end Record

/-! ### The records of a runtime -/

namespace PtrRuntime

variable {r r' : PtrRuntime ρ τ}

theorem applyEvent_samePolicies {c} (semantic : Option PreparedDelta)
    (ha : activates c.event = none) (hr : revokes c.event = none) (hn : names c.event = none) :
    SamePolicies r.manifestAuthority (r.applyEvent R c semantic).2.manifestAuthority := by
  obtain ⟨index, e⟩ := c
  cases e with
  | semanticDeltaCommitted =>
    cases semantic with
    | none => exact samePolicies_refl _
    | some =>
      simp only [applyEvent, applySemantic]
      split
      · exact samePolicies_refl _
      · exact samePolicies_refl _
  | scopeLifecycle | podHypothesisCommitted | executionManifestRevoked | tierBackendLifecycle
  | tierObjectCommitted | tierReplicaLifecycle | expertStructuralCommitted | expertFenceCommitted
  | inputInvalidated | expertAuthorityChanged =>
    simp only [applyEvent, applyScope, applyHypothesis, applyManifestRevocation,
      applyTier, applyExpert]
    repeat' split
    all_goals exact samePolicies_refl _
  | protectedStateCommitted p =>
    have hsame :=
      (grows_registerProtectedSnapshot r.manifestAuthority p.revision p.plaintextDigest).policies
    simp only [applyEvent, applyProtectedState]
    split
    · exact samePolicies_refl _
    · split
      · exact samePolicies_refl _
      · next h => rw [h] at hsame; exact hsame
  | executionManifestAdmitted => cases hn
  | policyBundleActivated => cases ha
  | policyBundleRevoked => cases hr
  | _ => exact samePolicies_refl _

theorem applyCommitted_authority (c : CommittedEvent) (semantic : Option PreparedDelta) :
    (r.applyCommitted R c semantic).2.manifestAuthority =
      (r.applyEvent R c semantic).2.manifestAuthority := by
  rw [applyCommitted]
  split
  · next h => rw [h]
  · next h => rw [h]; rfl

/-- An admission record adds the revision it names, or is refused before that. -/
theorem applyAdmission_policies {a} (h : validateAdmission R.sha a = .ok ()) :
    SamePolicies r.manifestAuthority (r.applyAdmission R a).2.manifestAuthority ∨
      SamePolicies (r.manifestAuthority.setPolicyRevision a.policyRevision)
        (r.applyAdmission R a).2.manifestAuthority := by
  obtain ⟨m, hdecode, hrevision⟩ := validateAdmission_ok h
  rw [applyAdmission]
  simp only [hdecode]
  split
  · exact .inl (samePolicies_refl _)
  cases hp : m.principal.isEmpty with
  | true =>
    left
    simp only [observeManifest, admitPrincipal, hp]
    exact samePolicies_refl _
  | false =>
    right
    have hsame := samePolicies_observeManifest (a := r.manifestAuthority) hp
    rw [← hrevision]
    split <;> next hobserve =>
      rw [show r.manifestAuthority.observeManifest m = _ from hobserve] at hsame
      exact hsame

/-- One record keeps the log of policies, applied in full or not. -/
theorem policyLog_apply {c} (semantic : Option PreparedDelta) (h : PolicyLog l r.manifestAuthority)
    (hvalid : r.validateLifecycleEvent R c.event = .ok ()) :
    PolicyLog (l ++ [c]) (r.applyCommitted R c semantic).2.manifestAuthority := by
  rw [applyCommitted_authority]
  obtain ⟨index, e⟩ := c
  by_cases hother : activates e = none ∧ revokes e = none ∧ names e = none
  · obtain ⟨ha, hr, hn⟩ := hother
    exact (h.quiet ha hr).same (applyEvent_samePolicies semantic ha hr hn)
  cases e with
  | executionManifestAdmitted a =>
    have hquiet := h.quiet (c := ⟨index, .executionManifestAdmitted a⟩) rfl rfl
    rcases applyAdmission_policies hvalid with hsame | hsame
    · exact hquiet.same hsame
    · exact (hquiet.named rfl).same hsame
  | policyBundleActivated revision keyId digest =>
    have hactivate : (r.manifestAuthority.activatePolicy revision digest).1 = .ok () := by
      simp only [validateLifecycleEvent, validatePolicyActivation, refuse_eq_ok] at hvalid
      obtain ⟨_, hvalid⟩ := hvalid
      split at hvalid
      · cases hvalid
      rw [refuse_eq_ok] at hvalid
      cases hfirst : (r.manifestAuthority.activatePolicy revision digest).1 with
      | error => rw [hfirst] at hvalid; cases hvalid.2
      | ok => rfl
    simp only [applyEvent, applyPolicyActivation]
    cases hpair : r.manifestAuthority.activatePolicy revision digest with
    | mk =>
      rw [hpair] at hactivate
      cases hactivate
      exact h.activate rfl rfl hpair
  | policyBundleRevoked revision digest =>
    simp only [validateLifecycleEvent, validatePolicyRevocation, refuse_eq_ok, not_or, not_not]
      at hvalid
    obtain ⟨⟨hzero, _⟩, hdigest, _⟩ := hvalid
    have hheld := h.held revision digest ((h.digests revision digest).mp hdigest)
    have hpair : r.manifestAuthority.revokePolicy revision = (.ok (), { r.manifestAuthority with
        revokedPolicyRevisions :=
          r.manifestAuthority.revokedPolicyRevisions.insert revision }) := by
      rw [revokePolicy, if_neg (by simpa using hheld)]
    simp only [applyEvent, applyPolicyRevocation, hpair]
    exact h.revoke rfl rfl hzero hpair
  | _ => exact absurd ⟨rfl, rfl, rfl⟩ hother

/-! ### Every runtime -/

theorem policyLog_moves (h : PolicyLog r.ledger r.manifestAuthority) (hm : Moves R r r') :
    PolicyLog r'.ledger r'.manifestAuthority := by
  cases hm with
  | @append c semantic happends =>
    rw [completed_authority, (completed_appended c semantic).2]
    exact policyLog_apply semantic h happends.valid
  | exhausted | detached | recovery | permissions | ready | sessions => exact h
  | authority hgrows => exact h.same hgrows.policies

theorem policyLog_replays {c} (h : PolicyLog r.ledger r.manifestAuthority) (hr : Replays R r c r') :
    PolicyLog r'.ledger r'.manifestAuthority := by
  obtain ⟨semantic, _, happly⟩ := hr.applied
  have hlog := policyLog_apply (r := { r with ledger := r.ledger ++ [c] }) semantic h hr.valid
  rw [happly] at hlog
  rw [hr.process.ledger]
  exact hlog

theorem reachable_policyLog (h : Reachable R r) : PolicyLog r.ledger r.manifestAuthority :=
  reachable_invariant (P := fun r => PolicyLog r.ledger r.manifestAuthority)
    (fun _ _ => policyLog_empty) (fun _ _ => policyLog_moves) (fun _ _ _ => policyLog_replays) h

end PtrRuntime

/-! ### The current policy -/

theorem Revoked.mono {l' v} (h : Revoked l v) (hl : l <+: l') : Revoked l' v := by
  obtain ⟨c, hc, hv⟩ := h
  exact ⟨c, hl.subset hc, hv⟩

/-- The current revision is held and not revoked, if it is not 0. -/
theorem currentPolicyRevision_spec (a : ManifestAuthorityRegistry) :
    a.currentPolicyRevision = 0 ∨
      a.currentPolicyRevision ∈ a.policyRevisions ∧
      a.currentPolicyRevision ∉ a.revokedPolicyRevisions := by
  rw [currentPolicyRevision]
  cases hfind : a.policyRevisions.toList.reverse.find? fun v => v ∉ a.revokedPolicyRevisions with
  | none => exact .inl rfl
  | some =>
    right
    refine ⟨?_, by simpa using find?_some hfind⟩
    have hmem := mem_of_find?_eq_some hfind
    rwa [mem_reverse, Std.ExtTreeSet.mem_toList] at hmem

theorem PolicyLog.current_ne_revoked (h : PolicyLog l a) {v} (hv : Revoked l v) :
    a.currentPolicyRevision ≠ v := by
  intro heq
  rcases currentPolicyRevision_spec a with hzero | ⟨_, hlive⟩
  · exact h.nonzero v hv (heq.symm.trans hzero)
  · rw [heq, h.revoked] at hlive
    exact hlive hv

theorem PolicyLog.current_activated (h : PolicyLog l a) (hbound : EachAfter BoundAfter l) :
    a.currentPolicyRevision = 0 ∨
      (∃ d, Activated l a.currentPolicyRevision d) ∧ ¬ Revoked l a.currentPolicyRevision := by
  rcases currentPolicyRevision_spec a with hzero | ⟨hheld, hlive⟩
  · exact .inl hzero
  rw [h.revoked] at hlive
  rcases h.source _ hheld with hact | ⟨c, hc, hname⟩
  · exact .inr ⟨hact, hlive⟩
  obtain ⟨before, after, hl, hafter⟩ := hbound.of_mem hc
  rcases hafter _ hname with hzero | ⟨d, c', hc', hact⟩
  · exact .inl hzero
  · refine .inr ⟨⟨d, c', ?_, hact⟩, hlive⟩
    rw [hl]
    exact mem_append_left _ hc'

/-- Where every admitted manifest names a policy that was activated before it, the
current policy is one that the ledger activated and did not revoke.  Activations
rise, and a revoked revision is not current after any further calls. -/
theorem current_policy_from_ledger (R : Rules ρ τ) {r : PtrRuntime ρ τ} (h : r.Reachable R)
    (hbound : EachAfter BoundAfter r.ledger) :
    (r.manifestAuthority.currentPolicyRevision = 0 ∨
      (∃ d, Activated r.ledger r.manifestAuthority.currentPolicyRevision d) ∧
        ¬ Revoked r.ledger r.manifestAuthority.currentPolicyRevision) ∧
    EachAfter RisesAfter r.ledger ∧
    ∀ v, Revoked r.ledger v → ∀ calls : List Call, (∀ call ∈ calls, call.isShared = false) →
      (r.run R calls).manifestAuthority.currentPolicyRevision ≠ v := by
  have hlog := reachable_policyLog h
  refine ⟨hlog.current_activated hbound, hlog.rises, ?_⟩
  intro v hv calls own
  have hafter := reachable_policyLog (reachable_run h own)
  exact hafter.current_ne_revoked (hv.mono (run_ledger calls))

/-! ### Policies of a plain runtime -/

def plainManifest : ExecutionManifest where
  generation := 1
  knowledge := [⟨"k", 1, Digest.fill 2⟩]
  artifacts := [⟨"a", 1, Digest.fill 2⟩]
  origins := ["o"]
  reader := none
  adapter := none
  snapshotRevision := 0
  snapshotDigest := Digest.fill 3
  principal := "p"
  policyRevision := 7
  manifestDigest := Digest.fill 1

def plainBundle : SignedPolicyBundle where
  revision := 7
  keyId := "key"
  payload := ⟨["project"], [], [], [], 0, none⟩
  payloadDigest := Digest.fill 4
  signature := []

/-- The policy revision of an admitted manifest is current with no activation in
the ledger. -/
theorem admitted_manifest_sets_policy :
    ∃ r : PtrRuntime Unit Unit, r.Reachable plainRules ∧ r.uncertain = false ∧
      r.manifestAuthority.currentPolicyRevision = 7 ∧ ∀ v d, ¬ Activated r.ledger v d := by
  refine ⟨(plainRuntime.step plainRules (.admitManifest plainManifest (.ok ()))).1,
    .call (.new 0 _) rfl,
    by decide +kernel, by decide +kernel, ?_⟩
  rintro v d ⟨c, hc, hact⟩
  have hnone :
      ∀ c ∈ (plainRuntime.step plainRules (.admitManifest plainManifest (.ok ()))).1.ledger,
      activates c.event = none := by decide +kernel
  rw [hnone c hc] at hact
  cases hact

/-- A bundle is activated, and a manifest under it is admitted. -/
def boundRun : PtrRuntime Unit Unit :=
  plainRuntime.run plainRules [.activatePolicy plainBundle (.ok ()),
    .admitManifest plainManifest (.ok ())]

theorem boundRun_reachable : boundRun.Reachable plainRules :=
  reachable_run (.new 0 _) (by simp [Call.isShared])

theorem boundRun_bound : EachAfter BoundAfter boundRun.ledger := by
  have hmap : boundRun.ledger.map (fun c => (activates c.event, names c.event)) =
      [(some (7, Digest.fill 4), none), (none, some 7)] := by decide +kernel
  obtain ⟨first, rest, hledger, hfirst, hrest⟩ := map_eq_cons_iff.mp hmap
  obtain ⟨second, rest, rfl, hsecond, hrest⟩ := map_eq_cons_iff.mp hrest
  rw [map_eq_nil_iff] at hrest
  subst hrest
  rw [Prod.mk.injEq] at hfirst hsecond
  rw [hledger]
  refine eachAfter_append_singleton.mpr
    ⟨eachAfter_append_singleton.mpr ⟨eachAfter_nil, ?_⟩, ?_⟩
  · intro v hv
    rw [hfirst.2] at hv
    cases hv
  · intro v hv
    rw [hsecond.2] at hv
    cases hv
    exact .inr ⟨Digest.fill 4, first, mem_singleton_self first, hfirst.1⟩

theorem current_policy_of_boundRun :
    boundRun.manifestAuthority.currentPolicyRevision = 7 ∧ ∃ d, Activated boundRun.ledger 7 d := by
  have hcurrent : boundRun.manifestAuthority.currentPolicyRevision = 7 := by decide +kernel
  have h := (current_policy_from_ledger plainRules boundRun_reachable boundRun_bound).1
  rw [hcurrent] at h
  exact ⟨hcurrent, (h.resolve_left (by decide)).1⟩

end Ptr.Runtime
