import Ptr.Runtime.Calls
import Ptr.Runtime.Frame
import Ptr.Runtime.ManifestCodec

/-!
# What a call is made of

`Moves` lists the changes that a call can make: one record appended and applied, or
a change of what no record determines.  Every call that goes through the runtime is
a sequence of them (`step_moves`), so an invariant is shown once for each change.
-/

namespace Ptr.Runtime

open Lib Ledger Semdb Relation Std ExecutionManifest ExtTreeMap

variable {ρ τ : Type} {R : Rules ρ τ} {r r' : PtrRuntime ρ τ}

/-- Two authorities with the same policies; principals and snapshots may differ. -/
structure SamePolicies (a b : ManifestAuthorityRegistry) : Prop where
  revisions : b.policyRevisions = a.policyRevisions
  digests : b.policyDigests = a.policyDigests
  revoked : b.revokedPolicyRevisions = a.revokedPolicyRevisions

theorem samePolicies_refl (a : ManifestAuthorityRegistry) : SamePolicies a a := ⟨rfl, rfl, rfl⟩

theorem SamePolicies.symm {a b} (h : SamePolicies a b) : SamePolicies b a :=
  ⟨h.revisions.symm, h.digests.symm, h.revoked.symm⟩

theorem SamePolicies.trans {a b c} (h : SamePolicies a b) (h' : SamePolicies b c) :
    SamePolicies a c :=
  ⟨h'.revisions.trans h.revisions, h'.digests.trans h.digests, h'.revoked.trans h.revoked⟩

def ManifestAuthorityRegistry.Held (a : ManifestAuthorityRegistry) (v : Revision) (d : Digest) :
    Prop :=
  a.snapshots[v]? = some d ∨ a.protectedSnapshots[v]? = some d

def ManifestAuthorityRegistry.Agrees (a : ManifestAuthorityRegistry) : Prop :=
  ∀ v d d', a.Held v d → a.Held v d' → d' = d

/-- An authority with the same policies that kept every snapshot. -/
structure Grows (a b : ManifestAuthorityRegistry) : Prop where
  policies : SamePolicies a b
  held : ∀ {v d}, a.Held v d → b.Held v d
  agrees : a.Agrees → b.Agrees

theorem grows_refl (a : ManifestAuthorityRegistry) : Grows a a := ⟨samePolicies_refl a, id, id⟩

namespace PtrRuntime

def completed : Applied ρ τ → PtrRuntime ρ τ
  | (.error _, r) => r
  | (.ok (), r) => { r with uncertain := false }

variable (x : Applied ρ τ)

theorem completed_history : (completed x).history = x.2.history := by
  obtain ⟨result, r⟩ := x
  cases result with
  | error | ok => rfl

theorem completed_authority : (completed x).manifestAuthority = x.2.manifestAuthority := by
  obtain ⟨result, r⟩ := x
  cases result with
  | error | ok => rfl

theorem completed_appended (c : CommittedEvent) (semantic : Option PreparedDelta) :
    (completed ((r.begun c).applyCommitted R c semantic)).base = r.base ∧
      (completed ((r.begun c).applyCommitted R c semantic)).ledger = r.ledger ++ [c] := by
  have hprocess := sameProcess_applyCommitted (R := R) (r.begun c) c semantic
  cases happly : (r.begun c).applyCommitted R c semantic with
  | mk result next =>
    rw [happly] at hprocess
    cases result with
    | error | ok => exact ⟨hprocess.base, hprocess.ledger⟩

theorem completed_uncertain {x : Applied ρ τ} {e} (h : x.1 = .error e) :
    (completed x).uncertain = x.2.uncertain := by
  obtain ⟨result, r⟩ := x
  cases h
  rfl

/-- A kind of record that `commit` refuses, so that another path writes it. -/
def ownPath (e : LedgerEvent) : Bool := hasOwnPath e || isSemantic e || isSettlement e

structure Appends (R : Rules ρ τ) (r : PtrRuntime ρ τ) (c : CommittedEvent) : Prop where
  certain : r.uncertain = false
  settles : isSettlement c.event = false → r.isFenced = false
  valid : r.validateLifecycleEvent R c.event = .ok ()
  /-- A record without a path of its own passed the rules for new records. -/
  fresh : ownPath c.event = false → validateNewRecord R.sha c.event = .ok ()
  room : checkExecutionSectionGrowth r.history.obligations r.history.scopes c.event = .ok ()
  encodable : checkEncodable c.event = .ok ()
  index : r.nextIndex = some c.index

/-- What is prepared beside a record: the change of a semantic record, as its writer
checked it, and nothing beside any other. -/
inductive Beside (R : Rules ρ τ) (r : PtrRuntime ρ τ) : LedgerEvent → Option PreparedDelta → Prop
  | change {origin : SemanticOrigin} {d : SemanticDelta} {encoded : Bytes} {p : PreparedDelta}
      (encode : d.encode = .ok encoded) (prepared : r.history.semdb.prepareDelta d = .ok p)
      (changes : p.next.revision ≠ r.revision)
      (allowed : validateSemanticOrigin R.sha r.history.state.values none r.revision encoded d
        origin = .ok ())
      (kept : bySomeone origin = true → evictedIngressKey p = none) :
      Beside R r (.semanticDeltaCommitted r.revision p.next.revision encoded origin) (some p)
  | nothing {e : LedgerEvent} (other : isSemantic e = false) : Beside R r e none

inductive Moves (R : Rules ρ τ) (r : PtrRuntime ρ τ) : PtrRuntime ρ τ → Prop
  | append {c : CommittedEvent} {semantic : Option PreparedDelta} (h : r.Appends R c)
      (hbeside : r.Beside R c.event semantic) :
      Moves R r (completed ((r.begun c).applyCommitted R c semantic))
  | exhausted : Moves R r { r with uncertain := true }
  | detached (s : ExtTreeSet CommitIndex) : Moves R r { r with detached := s }
  | recovery (s : ExtTreeSet ScopeId) : Moves R r { r with recoveryRequired := s }
  | permissions (p : PermissionSet) : Moves R r { r with permissions := p }
  | ready : Moves R r { r with policyAuthorityReady := true }
  | sessions (s : ExtTreeSet SessionId) :
    Moves R r (r.update fun h => { h with revokedSessions := s })
  | authority {a : ManifestAuthorityRegistry} (h : Grows r.manifestAuthority a) :
      Moves R r { r with manifestAuthority := a }

abbrev MovesTo (R : Rules ρ τ) (r r' : PtrRuntime ρ τ) : Prop := ReflTransGen (Moves R) r r'

/-- A change that no record makes, outside the authority and the manifests. -/
structure Quiet (r r' : PtrRuntime ρ τ) : Prop where
  base : r'.base = r.base
  ledger : r'.ledger = r.ledger
  certain : r'.uncertain = false → r.uncertain = false
  state : r'.history.state = r.history.state
  lifecycle : r'.history.lifecycle = r.history.lifecycle
  obligations : r'.history.obligations = r.history.obligations
  scopes : r'.history.scopes = r.history.scopes

theorem moves_cases (h : Moves R r r') :
    (∃ c semantic, r.Appends R c ∧ r' = completed ((r.begun c).applyCommitted R c semantic)) ∨
      Quiet r r' := by
  cases h with
  | append happends => exact .inl ⟨_, _, happends, rfl⟩
  | exhausted => exact .inr ⟨rfl, rfl, fun h => absurd h (by simp), rfl, rfl, rfl, rfl⟩
  | detached | recovery | permissions | ready | sessions | authority =>
    exact .inr ⟨rfl, rfl, id, rfl, rfl, rfl, rfl⟩

/-! ### The ways to the ledger -/

theorem appendChecked_moves {e semantic} (hcertain : r.uncertain = false)
    (hsettles : isSettlement e = false → r.isFenced = false)
    (hvalid : r.validateLifecycleEvent R e = .ok ())
    (hfresh : ownPath e = false → validateNewRecord R.sha e = .ok ())
    (hroom : checkExecutionSectionGrowth r.history.obligations r.history.scopes e = .ok ())
    (hbeside : r.Beside R e semantic) : r.MovesTo R (r.appendChecked R e semantic).2 := by
  rw [appendChecked]
  cases hencodable : checkEncodable e with
  | error => exact .refl
  | ok u =>
    cases hindex : r.nextIndex with
    | none => exact .single .exhausted
    | some index =>
      have hmove : Moves R r _ := .append (c := ⟨index, e⟩)
        ⟨hcertain, hsettles, hvalid, hfresh, hroom, hencodable, hindex⟩ hbeside
      dsimp only
      cases happly : (r.begun ⟨index, e⟩).applyCommitted R ⟨index, e⟩ semantic with
      | mk result =>
        rw [happly] at hmove
        cases result with
        | error => exact .single hmove
        | ok => exact .single hmove

theorem certain_of_not_fenced (h : r.isFenced = false) : r.uncertain = false := by
  rw [isFenced, Bool.or_eq_false_iff] at h
  exact h.1

theorem appendPrepared_moves {e semantic} (hvalid : r.validateLifecycleEvent R e = .ok ())
    (hfresh : ownPath e = false → validateNewRecord R.sha e = .ok ())
    (hroom : checkExecutionSectionGrowth r.history.obligations r.history.scopes e = .ok ())
    (hbeside : r.Beside R e semantic) : r.MovesTo R (r.appendPrepared R e semantic).2 := by
  rw [appendPrepared]
  cases hfence : r.isFenced with
  | true => exact .refl
  | false =>
    exact appendChecked_moves (certain_of_not_fenced hfence)
      (fun _ => hfence) hvalid hfresh hroom hbeside

theorem commitChecks_ok {e semantic} (h : r.commitChecks R e = .ok semantic) :
    validateNewRecord R.sha e = .ok () ∧
      checkExecutionSectionGrowth r.history.obligations r.history.scopes e = .ok () ∧
      r.validateLifecycleEvent R e = .ok () ∧ r.prepareSemanticEvent R none e = .ok semantic := by
  simp only [commitChecks, refuse_eq_ok, bind_unit_eq_ok] at h
  exact ⟨h.2.2.1, h.2.2.2.2⟩

theorem prepareSemanticEvent_other {e} (h : isSemantic e = false) (index : Option CommitIndex) :
    r.prepareSemanticEvent R index e = .ok none := by
  cases e with
  | semanticDeltaCommitted => cases h
  | _ => rfl

/-- `commit` takes no semantic record, so it prepares nothing. -/
theorem commitChecks_beside {e semantic} (h : r.commitChecks R e = .ok semantic) :
    r.Beside R e semantic := by
  obtain ⟨hnew, -, -, hprepare⟩ := commitChecks_ok h
  have hother : isSemantic e = false := by
    cases e with
    | semanticDeltaCommitted => cases hnew
    | _ => rfl
  rw [prepareSemanticEvent_other hother] at hprepare
  cases hprepare
  exact .nothing hother

theorem commit_moves (R : Rules ρ τ) (r : PtrRuntime ρ τ) (e : LedgerEvent) :
    r.MovesTo R (r.commit R e).2 := by
  rw [commit]
  cases hchecks : r.commitChecks R e with
  | error => exact .refl
  | ok =>
    obtain ⟨hnew, hroom, hvalid, -⟩ := commitChecks_ok hchecks
    exact appendPrepared_moves hvalid (fun _ => hnew) hroom (commitChecks_beside hchecks)

theorem not_semantic_of_settlement {e} (he : isSettlement e = true) : isSemantic e = false := by
  cases e with
  | semanticDeltaCommitted => cases he
  | _ => rfl

theorem not_semantic_of_ownPath {e} (he : hasOwnPath e = true) : isSemantic e = false := by
  cases e with
  | semanticDeltaCommitted => cases he
  | _ => rfl

theorem room_of_ownPath {o g e} (he : hasOwnPath e = true) :
    checkExecutionSectionGrowth o g e = .ok () := by
  cases e with
  | effectAttempted | effectSettled | scopeLifecycle => cases he
  | _ => rfl

theorem commitSettlement_moves {e} (he : isSettlement e = true) :
    r.MovesTo R (r.commitSettlement R e).2 := by
  rw [commitSettlement]
  cases hcertain : r.uncertain with
  | true => exact .refl
  | false =>
    cases hvalid : r.validateLifecycleEvent R e with
    | error => exact .refl
    | ok u =>
      cases hroom : checkExecutionSectionGrowth r.history.obligations r.history.scopes e with
      | error => exact .refl
      | ok =>
        refine appendChecked_moves hcertain ?_ hvalid ?_ hroom
          (.nothing (not_semantic_of_settlement he))
        · intro hne
          rw [he] at hne
          cases hne
        · intro hown
          rw [ownPath, he, Bool.or_true] at hown
          cases hown

theorem commitValidated_moves (R : Rules ρ τ) (r : PtrRuntime ρ τ) {e} (he : hasOwnPath e = true) :
    r.MovesTo R (r.commitValidated R e).2 := by
  rw [commitValidated]
  cases hvalid : r.validateLifecycleEvent R e with
  | error => exact .refl
  | ok =>
    refine appendPrepared_moves hvalid ?_ (room_of_ownPath he)
      (.nothing (not_semantic_of_ownPath he))
    intro hown
    rw [ownPath, he] at hown
    cases hown

theorem commitGated_moves (R : Rules ρ τ) (r : PtrRuntime ρ τ) {e} (he : hasOwnPath e = true) :
    r.MovesTo R (r.commitGated R e).2 := by
  rw [commitGated]
  split
  · exact .refl
  · exact commitValidated_moves R r he

theorem appendSemantic_moves {origin encoded prepared}
    (hbeside : r.Beside R (.semanticDeltaCommitted r.revision prepared.next.revision encoded origin)
      (some prepared)) : r.MovesTo R (r.appendSemantic R origin encoded prepared).2 := by
  have hmoves : r.MovesTo R (r.appendPrepared R
      (.semanticDeltaCommitted r.revision prepared.next.revision encoded origin)
      (some prepared)).2 :=
    appendPrepared_moves rfl (by simp [ownPath, isSemantic]) rfl hbeside
  rw [appendSemantic]
  cases happend :
    r.appendPrepared R (.semanticDeltaCommitted r.revision prepared.next.revision encoded origin)
      (some prepared) with
  | mk result =>
    rw [happend] at hmoves
    cases result with
    | error => exact hmoves
    | ok => exact hmoves

variable (R) (r)

theorem applyIngress_moves {origin} (d : SemanticDelta)
    (raw : bySomeone origin = false) : r.MovesTo R (r.applyIngress R origin d).2 := by
  rw [applyIngress]
  split
  · exact .refl
  split
  · exact .refl
  next hencode =>
  split
  · exact .refl
  next hallowed =>
  split
  · exact .refl
  next hprepared =>
  split
  · exact .refl
  next hchanges =>
  refine appendSemantic_moves (.change hencode hprepared hchanges hallowed ?_)
  intro hsigned
  rw [raw] at hsigned
  cases hsigned

theorem applyJudged_moves (verdict : Except RuntimeError Unit)
    (origin : SemanticOrigin) (d : SemanticDelta) :
    r.MovesTo R (r.applyJudged R verdict origin d).2 := by
  rw [applyJudged]
  split
  · exact .refl
  split
  · exact .refl
  next hencode =>
  split
  · exact .refl
  next hprepared =>
  split
  · exact .refl
  next hkept =>
  split
  · exact .refl
  split
  · exact .refl
  next hchanges =>
  split
  · exact .refl
  · next hallowed =>
    exact appendSemantic_moves (.change hencode hprepared hchanges hallowed fun _ => hkept)

/-! ### Effects -/

theorem recordSettlement_moves (attempt : CommitIndex) (output : Bytes) :
    r.MovesTo R (r.recordSettlement R attempt output).2 :=
  commitSettlement_moves rfl

theorem admitEffect_moves (q : EffectRequest) (wantDetached : Bool) :
    r.MovesTo R (r.admitEffect R q wantDetached).2 := by
  rw [admitEffect]
  split
  · exact .refl
  · exact .refl
  · have hmoves := commit_moves R r (.effectAttempted (q.attempt R.sha))
    split <;> next hcommit => rw [hcommit] at hmoves; exact hmoves

theorem executePrepared_moves (q : EffectRequest) (answer : Except String Bytes) :
    r.MovesTo R (r.executePrepared R q answer).2.1 := by
  have hadmit := admitEffect_moves R r q false
  rw [executePrepared]
  split
  · next h => rw [h] at hadmit; exact hadmit
  · next h => rw [h] at hadmit; exact hadmit
  next attempt next h =>
  rw [h] at hadmit
  cases answer with
  | error => exact hadmit
  | ok output =>
    have hsettle := hadmit.trans (recordSettlement_moves R next attempt output)
    dsimp only
    split <;> next h => rw [h] at hsettle; exact hsettle

theorem dispatchDetached_moves (q : EffectRequest) (answer : Except String Unit) :
    r.MovesTo R (r.dispatchDetached R q answer).2.1 := by
  have hadmit := admitEffect_moves R r q true
  rw [dispatchDetached]
  split
  · next h => rw [h] at hadmit; exact hadmit
  · next h => rw [h] at hadmit; exact hadmit
  next h =>
  rw [h] at hadmit
  cases answer with
  | error => exact hadmit
  | ok => exact hadmit.tail (.detached _)

theorem settleDetached_moves (attempt : CommitIndex) (response : Bytes) :
    r.MovesTo R (r.settleDetached R attempt response).2 := by
  have hsettle := recordSettlement_moves R r attempt response
  rw [settleDetached]
  split
  · exact .refl
  · split
    · next h => rw [h] at hsettle; exact hsettle
    · next h => rw [h] at hsettle; exact hsettle.tail (.detached _)

theorem reconcileEffect_moves (attempt : CommitIndex) (applied : Bool)
    (evidence : String) : r.MovesTo R (r.reconcileEffect R attempt applied evidence).2 := by
  have hsettle :
      r.MovesTo R (r.commitSettlement R (.effectReconciled attempt applied evidence)).2 :=
    commitSettlement_moves rfl
  rw [reconcileEffect]
  split
  · exact .refl
  split
  · exact .refl
  · split
    · next h => rw [h] at hsettle; exact hsettle
    · next h => rw [h] at hsettle; exact hsettle.tail (.detached _)

variable {r} {R}

/-! ### A commit that succeeded -/

theorem commit_ok {e index} (h : r.commit R e = (.ok index, r')) :
    ∃ (semantic : Option PreparedDelta) (next : PtrRuntime ρ τ), r.Appends R ⟨index, e⟩ ∧
      (r.begun ⟨index, e⟩).applyCommitted R ⟨index, e⟩ semantic = (.ok (), next) ∧
      r' = { next with uncertain := false } := by
  rw [commit] at h
  cases hchecks : r.commitChecks R e with
  | error => simp [hchecks] at h
  | ok semantic =>
    simp only [hchecks, appendPrepared] at h
    cases hfence : r.isFenced with
    | true => simp [hfence] at h
    | false =>
      simp only [hfence, appendChecked] at h
      cases hencodable : checkEncodable e with
      | error => simp [hencodable] at h
      | ok u =>
        simp only [hencodable] at h
        cases hindex : r.nextIndex with
        | none => simp [hindex] at h
        | some i =>
          simp only [hindex] at h
          cases happly : (r.begun ⟨i, e⟩).applyCommitted R ⟨i, e⟩ semantic with
          | mk result next =>
            cases result with
            | error => simp [happly] at h
            | ok =>
              simp only [happly] at h
              obtain ⟨rfl, rfl⟩ := h
              obtain ⟨hnew, hroom, hvalid, -⟩ := commitChecks_ok hchecks
              exact ⟨semantic, next, ⟨certain_of_not_fenced hfence, fun _ => hfence, hvalid,
                  fun _ => hnew, hroom, hencodable, hindex⟩, happly, rfl⟩

/-- The materialized values are the only change after the record's own. -/
theorem applyCommitted_ok {c semantic} (h : r.applyCommitted R c semantic = (.ok (), r')) :
    ∃ next, r.applyEvent R c semantic = (.ok (), next) ∧
      r' = next.update fun h => { h with state := h.state.apply R.expertEntries c } := by
  rw [applyCommitted] at h
  cases hevent : r.applyEvent R c semantic with
  | mk result next =>
    cases result with
    | error => simp [hevent] at h
    | ok =>
      simp only [hevent, Prod.mk.injEq, true_and] at h
      exact ⟨next, rfl, h.symm⟩

/-! ### Authority -/

open ManifestAuthorityRegistry

variable (a : ManifestAuthorityRegistry)

theorem contradicts_eq_none {m v d} :
    contradicts m v d = none ↔ ∀ d', m[v]? = some d' → d' = d := by
  rw [contradicts]
  simp

theorem getElem?_insert_free {m : ExtTreeMap Revision Digest} {v w : Revision} {d e}
    (h : ∀ d', m[v]? = some d' → d' = d) :
    (m.insert v d)[w]? = some e ↔ m[w]? = some e ∨ w = v ∧ e = d := by
  rw [getElem?_insert]
  split
  · next heq =>
    cases LawfulEqOrd.eq_of_compare heq
    refine ⟨fun he => .inr ⟨rfl, (Option.some.inj he).symm⟩, ?_⟩
    rintro (he | ⟨-, rfl⟩)
    · rw [h e he]
    · rfl
  · next hne => exact ⟨.inl, fun he => he.resolve_right fun he => hne (by simp [he.1])⟩

/-- A snapshot is added where no other digest of its revision is held. -/
structure Registers (a : ManifestAuthorityRegistry) (v : Revision) (d : Digest)
    (b : ManifestAuthorityRegistry) : Prop where
  policies : SamePolicies a b
  free : ∀ d', a.Held v d' → d' = d
  held : ∀ w e, b.Held w e ↔ a.Held w e ∨ w = v ∧ e = d

theorem Registers.grows {a v d b} (h : Registers a v d b) : Grows a b := by
  refine ⟨h.policies, fun hw => (h.held _ _).mpr (.inl hw), fun hagrees w e e' he he' => ?_⟩
  rw [h.held] at he he'
  rcases he with he | ⟨rfl, rfl⟩
  · rcases he' with he' | ⟨rfl, rfl⟩
    · exact hagrees w e e' he he'
    · exact (h.free e he).symm
  · rcases he' with he' | ⟨-, rfl⟩
    · exact h.free e' he'
    · rfl

theorem registerSnapshot_cases (v : Revision) (d : Digest) :
    (∃ e, a.registerSnapshot v d = (.error e, a)) ∨ ∃ b, a.registerSnapshot v d = (.ok (), b) ∧
      Registers a v d b := by
  rw [registerSnapshot]
  split
  · exact .inl ⟨_, rfl⟩
  next hsnapshots =>
  split
  · exact .inl ⟨_, rfl⟩
  next hprotected =>
  rw [contradicts_eq_none] at hsnapshots hprotected
  refine .inr ⟨_, rfl, ⟨rfl, rfl, rfl⟩, fun d' hd => hd.elim (hsnapshots d') (hprotected d'),
    fun w e => ?_⟩
  rw [Held, getElem?_insert_free hsnapshots, or_right_comm, Held]

theorem registerSnapshot_free {v d} (h : ∀ d', a.Held v d' → d' = d) :
    ∃ b, a.registerSnapshot v d = (.ok (), b) := by
  rw [registerSnapshot, contradicts_eq_none.mpr fun d' hd => h d' (.inl hd),
    contradicts_eq_none.mpr fun d' hd => h d' (.inr hd)]
  exact ⟨_, rfl⟩

theorem registerProtectedSnapshot_cases (v : Revision) (d : Digest) :
    (∃ e, a.registerProtectedSnapshot v d = (.error e, a)) ∨ d ≠ .zero ∧
      (a.registerProtectedSnapshot v d = (.ok (), a) ∧ a.Held v d ∨
        ∃ b, a.registerProtectedSnapshot v d = (.ok (), b) ∧ Registers a v d b) := by
  rw [registerProtectedSnapshot]
  split
  · exact .inl ⟨_, rfl⟩
  next hzero =>
  split
  · exact .inl ⟨_, rfl⟩
  next hprotected =>
  rw [contradicts_eq_none] at hprotected
  split
  · next hv =>
    obtain ⟨d', hd'⟩ := mem_iff_some.mp hv
    exact .inr ⟨hzero, .inl ⟨rfl, .inr (hprotected d' hd' ▸ hd')⟩⟩
  split
  · exact .inl ⟨_, rfl⟩
  next hsnapshots =>
  rw [contradicts_eq_none] at hsnapshots
  refine .inr ⟨hzero,
    .inr ⟨_, rfl, ⟨rfl, rfl, rfl⟩, fun d' hd => hd.elim (hsnapshots d') (hprotected d'), ?_⟩⟩
  intro w e
  rw [Held, getElem?_insert_free hprotected, ← or_assoc, Held]

theorem registerProtectedSnapshot_free {v d} (hd : d ≠ .zero) (h : ∀ d', a.Held v d' → d' = d) :
    ∃ b, a.registerProtectedSnapshot v d = (.ok (), b) := by
  rw [registerProtectedSnapshot, if_neg hd, contradicts_eq_none.mpr fun d' hd => h d' (.inr hd)]
  dsimp only
  split
  · exact ⟨_, rfl⟩
  · rw [contradicts_eq_none.mpr fun d' hd => h d' (.inl hd)]
    exact ⟨_, rfl⟩

variable {a} in
theorem registers_snapshot {v d b} (h : a.registerSnapshot v d = (.ok (), b)) :
    Registers a v d b := by
  obtain ⟨e, he⟩ | ⟨b', hb', hregisters⟩ := registerSnapshot_cases a v d
  · cases he.symm.trans h
  · cases hb'.symm.trans h
    exact hregisters

variable {a} in
theorem registers_protectedSnapshot {v d b} (hagrees : a.Agrees)
    (h : a.registerProtectedSnapshot v d = (.ok (), b)) : d ≠ .zero ∧ Registers a v d b := by
  obtain ⟨e, he⟩ | ⟨hzero, ⟨hsame, hheld⟩ | ⟨b', hb', hregisters⟩⟩ :=
    registerProtectedSnapshot_cases a v d
  · cases he.symm.trans h
  · cases hsame.symm.trans h
    refine ⟨hzero, samePolicies_refl a, fun d' hd' => hagrees v d d' hheld hd', fun w e => ?_⟩
    refine ⟨.inl, fun he => he.elim id ?_⟩
    rintro ⟨rfl, rfl⟩
    exact hheld
  · cases hb'.symm.trans h
    exact ⟨hzero, hregisters⟩

theorem grows_registerSnapshot (revision : Revision) (digest : Digest) :
    Grows a (a.registerSnapshot revision digest).2 := by
  obtain ⟨e, he⟩ | ⟨b, hb, hregisters⟩ := registerSnapshot_cases a revision digest
  · rw [he]
    exact grows_refl a
  · rw [hb]
    exact hregisters.grows

theorem grows_registerProtectedSnapshot (revision : Revision) (digest : Digest) :
    Grows a (a.registerProtectedSnapshot revision digest).2 := by
  obtain ⟨e, he⟩ | ⟨-, ⟨hsame, -⟩ | ⟨b, hb, hregisters⟩⟩ :=
    registerProtectedSnapshot_cases a revision digest
  · rw [he]
    exact grows_refl a
  · rw [hsame]
    exact grows_refl a
  · rw [hb]
    exact hregisters.grows

theorem grows_admitPrincipal (p : PrincipalId) : Grows a (a.admitPrincipal p).2 := by
  rw [admitPrincipal]
  split
  · exact grows_refl a
  · exact ⟨⟨rfl, rfl, rfl⟩, id, id⟩

theorem samePolicies_observeManifest {a : ManifestAuthorityRegistry} {m}
    (hp : m.principal.isEmpty = false) :
    SamePolicies (a.setPolicyRevision m.policyRevision) (a.observeManifest m).2 := by
  have h := grows_registerSnapshot
    (({ a with principals := a.principals.insert m.principal }).setPolicyRevision m.policyRevision)
    m.snapshotRevision m.snapshotDigest
  rw [observeManifest, admitPrincipal, if_neg (by simp [hp])]
  exact ⟨h.policies.revisions, h.policies.digests, h.policies.revoked⟩

theorem applyAdmission_ok {a} (h : r.applyAdmission R a = (.ok (), r')) :
    ∃ m, decodeCanonical R.sha a.manifest = .ok m ∧
      r.manifestAuthority.observeManifest m = (.ok (), r'.manifestAuthority) := by
  rw [applyAdmission] at h
  cases hdecode : decodeCanonical R.sha a.manifest with
  | error => simp [hdecode] at h
  | ok m =>
    simp only [hdecode] at h
    split at h
    · simp at h
    split at h
    · simp at h
    next hobserve =>
    cases h
    exact ⟨m, rfl, hobserve⟩

/-- A manifest in a record is shorter than the record may be. -/
theorem length_of_encodable {a} (h : checkEncodable (.executionManifestAdmitted a) = .ok ()) :
    a.manifest.length < 2 ^ 32 := by
  have hlength := (checkEncodable_eq_ok.mp h).2
  simp only [encodeEvent, putManifestAdmission, List.length_cons, List.length_append,
    putBytes_length, maxRecordBytes] at hlength
  omega

theorem validateAdmission_ok {a} (h : validateAdmission R.sha a = .ok ()) :
    ∃ m, decodeCanonical R.sha a.manifest = .ok m ∧ m.policyRevision = a.policyRevision := by
  rw [validateAdmission] at h
  cases hdecode : decodeCanonical R.sha a.manifest with
  | error => simp [hdecode] at h
  | ok m =>
    simp only [hdecode, refuse_eq_ok, not_or, not_not] at h
    exact ⟨m, rfl, h.1.2.2.2⟩

variable (R) (r)

theorem admitExecutionManifest_moves (m : ExecutionManifest)
    (lineage : Except RuntimeManifestError Unit) :
    r.MovesTo R (r.admitExecutionManifest R m lineage).2 := by
  rw [admitExecutionManifest]
  split
  · exact .refl
  split
  · exact .refl
  next bytes hencode =>
  split
  · exact .refl
  next projection hprojection =>
  have hmoves := commit_moves R r (.executionManifestAdmitted
    ⟨m.manifestDigest, m.generation, r.revision, m.policyRevision, bytes⟩)
  split
  · next hcommit => rw [hcommit] at hmoves; exact hmoves
  next hcommit =>
  rw [hcommit] at hmoves
  refine hmoves.tail (.authority ?_)
  -- The record carries the manifest, so applying it left what the projection has.
  obtain ⟨semantic, next, happends, happly, rfl⟩ := commit_ok hcommit
  obtain ⟨after, hevent, rfl⟩ := applyCommitted_ok happly
  obtain ⟨read, hread, happlied⟩ := applyAdmission_ok hevent
  have hread : read = m := decode_of_encode hencode (length_of_encodable happends.encodable) hread
  rw [hread, begun, hprojection] at happlied
  cases happlied
  exact grows_refl _

theorem revokeExecutionManifest_moves (digest : Digest) :
    r.MovesTo R (r.revokeExecutionManifest R digest).2 := by
  rw [revokeExecutionManifest]
  split
  · exact .refl
  split
  · exact .refl
  · next current _ =>
    have hmoves :=
      commit_moves R r (.executionManifestRevoked digest current.manifest.generation r.revision)
    split <;> next h => rw [h] at hmoves; exact hmoves

theorem activatePolicyBundle_moves (b : SignedPolicyBundle)
    (verified : Except PolicyError Unit) : r.MovesTo R (r.activatePolicyBundle R b verified).2 := by
  cases verified with
  | error => exact .refl
  | ok =>
    rw [activatePolicyBundle]
    split
    · exact .refl
    next projection hprojection =>
    have hmoves := commit_moves R r
      (.policyBundleActivated b.revision b.keyId b.payloadDigest b.encodeForLedger)
    split
    · next hcommit => rw [hcommit] at hmoves; exact hmoves
    next index next hcommit =>
    rw [hcommit] at hmoves
    have hsame : Grows next.manifestAuthority projection := by
      obtain ⟨semantic, after, _, happly, rfl⟩ := commit_ok hcommit
      obtain ⟨applied, hevent, rfl⟩ := applyCommitted_ok happly
      simp only [applyEvent, applyPolicyActivation, begun, hprojection] at hevent
      cases hevent
      exact grows_refl _
    exact (hmoves.tail (.authority hsame)).tail .ready

theorem revokePolicyRevision_moves (revision : Revision) (reason : String) :
    r.MovesTo R (r.revokePolicyRevision R revision reason).2 := by
  rw [revokePolicyRevision]
  split
  · exact .refl
  split
  · exact .refl
  next digest _ =>
  split
  · exact .refl
  next projection hprojection =>
  have hmoves := commit_moves R r (.policyBundleRevoked revision digest reason)
  split
  · next hcommit => rw [hcommit] at hmoves; exact hmoves
  next hcommit =>
  rw [hcommit] at hmoves
  refine hmoves.tail (.authority ?_)
  obtain ⟨semantic, after, _, happly, rfl⟩ := commit_ok hcommit
  obtain ⟨applied, hevent, rfl⟩ := applyCommitted_ok happly
  simp only [applyEvent, applyPolicyRevocation, begun, hprojection] at hevent
  cases hevent
  exact grows_refl _

theorem revokeIdentitySession_moves (session : SessionId) (reason : String) :
    r.MovesTo R (r.revokeIdentitySession R session reason).2 := by
  have hmoves := commit_moves R r (.sessionRevoked session reason)
  rw [revokeIdentitySession]
  split
  · exact .refl
  split
  · exact .refl
  split
  · exact .refl
  · split
    · next h => rw [h] at hmoves; exact hmoves
    · next h => rw [h] at hmoves; exact hmoves.tail (.sessions _)

theorem admitIdentityContext_moves (session : SessionId)
    (issuer subject : String) (valid : Bool) :
    r.MovesTo R (r.admitIdentityContext session issuer subject valid).2 := by
  have hsame := grows_admitPrincipal r.manifestAuthority (issuer ++ ":" ++ subject)
  rw [admitIdentityContext]
  split
  · exact .refl
  split
  · exact .refl
  · dsimp only
    split <;> next h => rw [h] at hsame; exact .single (.authority hsame)

theorem refreshSnapshotAuthority_moves :
    r.MovesTo R (r.refreshSnapshotAuthority R).2 := by
  have hsame := grows_registerSnapshot r.manifestAuthority r.revision
    (snapshotDigest R.sha r.history.semdb.state)
  rw [refreshSnapshotAuthority]
  split <;> next h => rw [h] at hsame; exact .single (.authority hsame)

theorem registerProtectedSnapshotAuthority_moves (revision : Revision)
    (digest : Digest) : r.MovesTo R (r.registerProtectedSnapshotAuthority revision digest).2 := by
  have hsame := grows_registerProtectedSnapshot r.manifestAuthority revision digest
  rw [registerProtectedSnapshotAuthority]
  split
  · exact .refl
  · next h => rw [h] at hsame; exact .single (.authority hsame)

theorem markScopeRecoveryRequired_moves (id : ScopeId) :
    r.MovesTo R (r.markScopeRecoveryRequired id).2 := by
  rw [markScopeRecoveryRequired]
  split
  · exact .refl
  · split
    · exact .refl
    · exact .single (.recovery _)

/-! ### Every call -/

/-- A call that goes through the runtime is a sequence of changes. -/
theorem step_moves {call} (h : call.isShared = false) :
    r.MovesTo R (r.step R call).1 := by
  cases call with
  | commit e => exact commit_moves R r e
  | admitStructural e own => exact commitValidated_moves R r own
  | flushEgress e own => exact commitGated_moves R r own
  | ingress origin raw d => exact applyIngress_moves R r d raw
  | judged verdict origin signed d => exact applyJudged_moves R r verdict origin d
  | execute q answer => exact executePrepared_moves R r q answer
  | dispatch q answer => exact dispatchDetached_moves R r q answer
  | settleDetached attempt response => exact settleDetached_moves R r attempt response
  | reconcile attempt applied evidence => exact reconcileEffect_moves R r attempt applied evidence
  | admitManifest m lineage => exact admitExecutionManifest_moves R r m lineage
  | revokeManifest digest => exact revokeExecutionManifest_moves R r digest
  | activatePolicy b verified => exact activatePolicyBundle_moves R r b verified
  | revokePolicy revision reason => exact revokePolicyRevision_moves R r revision reason
  | revokeSession session reason => exact revokeIdentitySession_moves R r session reason
  | admitIdentity session issuer subject valid =>
    exact admitIdentityContext_moves R r session issuer subject valid
  | refreshSnapshot => exact refreshSnapshotAuthority_moves R r
  | registerProtected revision digest =>
    exact registerProtectedSnapshotAuthority_moves R r revision digest
  | markRecovery id => exact markScopeRecoveryRequired_moves R r id
  | setPermissions p => exact .single (.permissions p)
  | authority | registry => cases h

theorem step_shared {call} (h : call.isShared = true) :
    Quiet r (r.step R call).1 := by
  cases call with
  | authority | registry => exact ⟨rfl, rfl, id, rfl, rfl, rfl, rfl⟩
  | _ => cases h

/-! ### Runs -/

def run (calls : List Call) : PtrRuntime ρ τ :=
  calls.foldl (fun r call => (r.step R call).1) r

def Owned : Prop :=
  ∃ owner boundary calls, r = (new R owner boundary).run R calls

variable {r} {R}

/-- What a record of a replay does: it is validated, appended and applied. -/
structure Replays (R : Rules ρ τ) (r : PtrRuntime ρ τ) (c : CommittedEvent) (r' : PtrRuntime ρ τ) :
    Prop where
  valid : r.validateLifecycleEvent R c.event = .ok ()
  index : r.nextIndex = some c.index
  applied : ∃ semantic, r.prepareSemanticEvent R (some c.index) c.event = .ok semantic ∧
    { r with ledger := r.ledger ++ [c] }.applyCommitted R c semantic = (.ok (), r')

theorem Replays.process {c} (h : Replays R r c r') :
    SameProcess { r with ledger := r.ledger ++ [c] } r' := by
  obtain ⟨semantic, -, happly⟩ := h.applied
  have hprocess :=
    sameProcess_applyCommitted (R := R) { r with ledger := r.ledger ++ [c] } c semantic
  rwa [happly] at hprocess

theorem replayRecord_ok {c} (h : replayRecord R r c = .ok r') : Replays R r c r' := by
  obtain ⟨hvalid, h⟩ := bind_unit_eq_ok.mp h
  obtain ⟨semantic, hsemantic, h⟩ := bind_eq_ok.mp h
  cases hindex : r.nextIndex with
  | none => simp [hindex] at h
  | some =>
    simp only [hindex, refuse_eq_ok, not_not] at h
    obtain ⟨rfl, h⟩ := h
    split at h
    · cases h
    · next happly =>
      cases h
      exact ⟨hvalid, hindex, semantic, hsemantic, happly⟩

/-- The runtimes that calls through the runtime and replays can make. -/
inductive Reachable (R : Rules ρ τ) : PtrRuntime ρ τ → Prop
  | new (owner : Nat) (boundary : ActionBoundaryConfig) : Reachable R (.new R owner boundary)
  | call {r : PtrRuntime ρ τ} {call : Call} (h : Reachable R r) (own : call.isShared = false) :
      Reachable R (r.step R call).1
  | replay {owner : Nat} {boundary : ActionBoundaryConfig} {events : List CommittedEvent}
    {r : PtrRuntime ρ τ}
      (h : replay R owner boundary events = .ok r) : Reachable R r

/-- The runtimes that any calls make, those around the runtime included, and replays. -/
inductive Arises (R : Rules ρ τ) : PtrRuntime ρ τ → Prop
  | new (owner : Nat) (boundary : ActionBoundaryConfig) : Arises R (.new R owner boundary)
  | call {r : PtrRuntime ρ τ} (call : Call) (h : Arises R r) : Arises R (r.step R call).1
  | replay {owner : Nat} {boundary : ActionBoundaryConfig} {events : List CommittedEvent}
    {r : PtrRuntime ρ τ}
      (h : replay R owner boundary events = .ok r) : Arises R r

section Invariant

variable {P : PtrRuntime ρ τ → Prop}

theorem moves_invariant (hmove : ∀ r r', P r → Moves R r r' → P r') (h : r.MovesTo R r')
    (hr : P r) :
    P r' := by
  induction h with
  | refl => exact hr
  | tail _ hstep ih => exact hmove _ _ ih hstep

theorem foldlM_invariant (hreplay : ∀ r c r', P r → Replays R r c r' → P r')
    {events : List CommittedEvent} :
    ∀ {r r' : PtrRuntime ρ τ}, P r → events.foldlM (replayRecord R) r = .ok r' → P r' :=
  fun hr h => foldlM_along (P := fun _ => P) h hr fun _ r c _ r' hr h =>
    hreplay r c r' hr (replayRecord_ok h)

/-- An invariant of every reachable runtime: it holds at first, every change keeps
it, and so does every record of a replay. -/
theorem reachable_invariant (hnew : ∀ owner boundary, P (.new R owner boundary))
    (hmove : ∀ r r', P r → Moves R r r' → P r') (hreplay : ∀ r c r', P r → Replays R r c r' → P r')
    (h : Reachable R r) : P r := by
  induction h with
  | new owner boundary => exact hnew owner boundary
  | call _ own ih => exact moves_invariant hmove (step_moves R _ own) ih
  | replay h =>
    obtain ⟨next, hnext, h⟩ := bind_eq_ok.mp h
    cases h
    exact hmove next _ (foldlM_invariant hreplay (hnew _ _) hnext) (.recovery _)

section Records

variable (hquiet : ∀ r r', P r → Quiet r r' → P r')
  (happend : ∀ r c semantic, P r → r.Appends R c →
  P (completed ((r.begun c).applyCommitted R c semantic)))

include hquiet happend

/-- Records are what a call can do to an invariant that no quiet change touches. -/
theorem step_invariant (call : Call) (hr : P r) : P (r.step R call).1 := by
  have hmove : ∀ r r', P r → Moves R r r' → P r' := by
    intro r r' hr hm
    rcases moves_cases hm with ⟨c, semantic, happends, rfl⟩ | hq
    · exact happend r c semantic hr happends
    · exact hquiet r r' hr hq
  cases hshared : call.isShared with
  | false => exact moves_invariant hmove (step_moves R r hshared) hr
  | true => exact hquiet r _ hr (step_shared R r hshared)

theorem run_invariant (calls : List Call) (hr : P r) : P (r.run R calls) := by
  induction calls generalizing r with
  | nil => exact hr
  | cons call calls ih => exact ih (step_invariant hquiet happend call hr)

/-- An invariant of every runtime that wrote all its records itself. -/
theorem owned_invariant (hnew : ∀ owner boundary, P (.new R owner boundary)) (h : r.Owned R) :
    P r := by
  obtain ⟨owner, boundary, calls, rfl⟩ := h
  exact run_invariant hquiet happend calls (hnew owner boundary)

theorem arises_invariant (hnew : ∀ owner boundary, P (.new R owner boundary))
    (hreplay : ∀ r c r', P r → Replays R r c r' → P r') (h : r.Arises R) : P r := by
  induction h with
  | new owner boundary => exact hnew owner boundary
  | call call _ ih => exact step_invariant hquiet happend call ih
  | replay h =>
    obtain ⟨next, hnext, h⟩ := bind_eq_ok.mp h
    cases h
    exact hquiet next _ (foldlM_invariant hreplay (hnew _ _) hnext)
      ⟨rfl, rfl, id, rfl, rfl, rfl, rfl⟩

end Records

end Invariant

theorem run_ledger (calls : List Call) : r.ledger <+: (r.run R calls).ledger := by
  refine run_invariant (P := fun next => r.ledger <+: next.ledger) ?_ ?_ calls List.prefix_rfl
  · intro s s' hs hq
    rw [hq.ledger]
    exact hs
  · intro s c semantic hs _
    rw [(completed_appended c semantic).2]
    exact hs.trans (List.prefix_append _ _)

theorem arises_run (h : r.Arises R) (calls : List Call) : (r.run R calls).Arises R := by
  induction calls generalizing r with
  | nil => exact h
  | cons call calls ih => exact ih (.call call h)

theorem reachable_run {calls} (h : Reachable R r) (own : ∀ call ∈ calls, call.isShared = false) :
    Reachable R (r.run R calls) := by
  induction calls generalizing r with
  | nil => exact h
  | cons call calls ih =>
    rw [List.forall_mem_cons] at own
    exact ih (.call h own.1) own.2

end PtrRuntime

/-! ### A runtime to look at

The hash is constant and the experts and tiers are empty: nothing below reads
them. -/

def plainRules : Rules Unit Unit where
  sha _ := Digest.fill 1
  decodeEvidence _ := .error "no evidence"
  tierNew := ()
  tierApply _ _ := .ok ()
  expertsNew := ()
  expertCheck _ _ _ := .ok ()
  expertPlan _ _ _ := .ok ⟨(), []⟩
  expertEntries _ _ := []
  expertPlan_named _ _ _ _ h p hp := by
    cases h
    cases hp
  expertEntries_named _ _ p hp := by cases hp

def plainRuntime : PtrRuntime Unit Unit := .new plainRules 0 ⟨true, true, true⟩

end Ptr.Runtime
