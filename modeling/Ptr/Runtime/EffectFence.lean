import Ptr.Runtime.EffectKeys
import Ptr.Runtime.Reopened

/-!
# The effect fence

While an attempt is unsettled a runtime writes nothing but its outcome, so at most one
attempt is ever unsettled.  An executor runs behind the record of its attempt, and what
is unsettled is determined by the records, so a replay in the middle of an effect comes
back fenced.  An action that is recorded as approximate reaches no executor until a record
clears it.
-/

namespace Ptr.Runtime

open Lib Ledger Obligations List

variable {ρ τ : Type} {R : Rules ρ τ}

def settledAttempt : LedgerEvent → Option CommitIndex
  | .effectSettled attempt _ _ | .effectReconciled attempt _ _ => some attempt
  | _ => none

def Obligations.Single (o : Obligations) : Prop :=
  ∀ a b, o.isUnsettled a = true → o.isUnsettled b = true → a = b

def FencedAfter (before : List CommittedEvent) (c : CommittedEvent) : Prop :=
  ∀ attempt, (obligationsOf before).isUnsettled attempt = true →
    settledAttempt c.event = some attempt

namespace PtrRuntime

variable {r r' : PtrRuntime ρ τ} {c : CommittedEvent} {q : EffectRequest} {wantDetached : Bool}
  {attempt : CommitIndex}

theorem not_unsettled_of_not_fenced (h : r.isFenced = false) (attempt : CommitIndex) :
    r.history.obligations.isUnsettled attempt = false := by
  rw [isFenced, Bool.or_eq_false_iff, Bool.not_eq_false'] at h
  rw [isUnsettled, Std.ExtTreeMap.isEmpty_iff.mp h.2]
  rfl

/-- A record finds nothing unsettled but what it settles. -/
theorem Appends.fenced (h : r.Appends R c) (hsingle : r.history.obligations.Single)
    (attempt : CommitIndex) (hattempt : r.history.obligations.isUnsettled attempt = true) :
    settledAttempt c.event = some attempt := by
  cases hkind : isSettlement c.event with
  | false => simp [not_unsettled_of_not_fenced (h.settles hkind)] at hattempt
  | true =>
    have haccepts := effects_of_valid h.valid
    obtain ⟨index, e⟩ := c
    cases e with
    | effectSettled settled =>
      have hsettled := (refuse_eq_ok.mp haccepts).1
      rw [Bool.not_eq_true', Bool.not_eq_false] at hsettled
      rw [settledAttempt, hsingle settled attempt hsettled hattempt]
    | effectReconciled settled => rw [settledAttempt, hsingle settled attempt haccepts hattempt]
    | _ => cases hkind

theorem isUnsettled_of_settle {o : Obligations} {a} {s : Settlement}
    (h : (o.settle attempt s).isUnsettled a = true) : o.isUnsettled a = true := by
  rw [settle] at h
  split at h
  · exact h
  · rw [isUnsettled, Std.ExtTreeMap.contains_erase, Bool.and_eq_true] at h
    exact h.2

theorem Appends.single (h : r.Appends R c) (hsingle : r.history.obligations.Single) :
    (r.history.obligations.apply c).Single := by
  obtain ⟨index, e⟩ := c
  have hless : ∀ attempt settlement, (r.history.obligations.settle attempt settlement).Single :=
    fun attempt settlement a b ha hb => hsingle a b (isUnsettled_of_settle ha)
      (isUnsettled_of_settle hb)
  cases e with
  | effectAttempted attempt =>
    -- An attempt is recorded while nothing is unsettled, so it is the only one.
    have hnone := not_unsettled_of_not_fenced (h.settles rfl)
    have hown : ∀ a, (r.history.obligations.recordAttempt (unsettledBy attempt index)).isUnsettled
        a = true → index = a := by
      intro a ha
      rw [isUnsettled, recordAttempt, Std.ExtTreeMap.contains_insert, Bool.or_eq_true,
        beq_iff_eq, ← isUnsettled, hnone] at ha
      exact Std.LawfulEqOrd.eq_of_compare (ha.resolve_right (by decide))
    exact fun a b ha hb => (hown a ha).symm.trans (hown b hb)
  | effectSettled | effectReconciled => exact hless _ _
  | _ => exact hsingle

structure Fenced (r : PtrRuntime ρ τ) : Prop where
  obligations : r.history.obligations = obligationsOf r.ledger
  single : r.history.obligations.Single
  each : EachAfter FencedAfter r.ledger

theorem owned_fenced (h : r.Owned R) : r.Fenced := by
  refine owned_invariant ?_ ?_ ?_ h
  · intro s s' hs hquiet
    exact ⟨by rw [hquiet.obligations, hquiet.ledger]; exact hs.obligations, by
      rw [hquiet.obligations]; exact hs.single,
      by rw [hquiet.ledger]; exact hs.each⟩
  · intro s c semantic hs happends
    have hobligations : (completed ((s.begun c).applyCommitted R c semantic)).history.obligations =
        s.history.obligations.apply c := by
      rw [completed_history, obligations_applyCommitted]
      rfl
    have hledger := (completed_appended (R := R) (r := s) c semantic).2
    refine ⟨?_, ?_, ?_⟩
    · rw [hobligations, hledger, hs.obligations, obligationsOf_append]
    · rw [hobligations]
      exact happends.single hs.single
    · rw [hledger, eachAfter_append_singleton]
      refine ⟨hs.each, ?_⟩
      rw [FencedAfter, ← hs.obligations]
      exact happends.fenced hs.single
  · intro owner boundary
    refine ⟨rfl, ?_, eachAfter_nil⟩
    intro a b ha
    cases ha

/-! ### Admissions -/

/-- The record of an attempt cannot fail, so a commit of it that is refused wrote
nothing. -/
theorem commit_attempt_refused {a e} (h : r.commit R (.effectAttempted a) = (.error e, r')) :
    r'.ledger = r.ledger := by
  rw [commit] at h
  split at h
  · cases h
    rfl
  rw [appendPrepared] at h
  split at h
  · cases h
    rfl
  rw [appendChecked] at h
  split at h
  · cases h
    rfl
  split at h
  · cases h
    rfl
  · cases h

theorem admitEffect_refused {e} (h : r.admitEffect R q wantDetached = (.error e, r')) :
    r'.ledger = r.ledger := by
  rw [admitEffect] at h
  split at h
  · cases h
    rfl
  · cases h
  split at h
  · next hcommit =>
    cases h
    exact commit_attempt_refused hcommit
  · cases h

theorem execute_refused {answer error} (h : (r.admitEffect R q false).1 = .error error) :
    (r.step R (.execute q answer)).1.ledger = r.ledger ∧ (r.step R (.execute q answer)).2 = [] := by
  cases hadmission : r.admitEffect R q false with
  | mk =>
    rw [hadmission] at h
    cases h
    simp only [step, executePrepared, hadmission]
    exact ⟨admitEffect_refused hadmission, trivial⟩

theorem dispatch_refused {answer error} (h : (r.admitEffect R q true).1 = .error error) :
    (r.step R (.dispatch q answer)).1.ledger = r.ledger ∧
      (r.step R (.dispatch q answer)).2 = [] := by
  cases hadmission : r.admitEffect R q true with
  | mk =>
    rw [hadmission] at h
    cases h
    simp only [step, dispatchDetached, hadmission]
    exact ⟨admitEffect_refused hadmission, trivial⟩

/-! ### Restarts -/

theorem replay_obligations {events : List CommittedEvent} {q}
    (h : events.foldlM (replayRecord R) r = .ok q) :
    q.history.obligations = events.foldl apply r.history.obligations := by
  refine foldlM_along
    (P := fun done q => q.history.obligations = done.foldl apply r.history.obligations) h rfl ?_
  intro done q c _ next hq hnext
  obtain ⟨semantic, -, happly⟩ := (replayRecord_ok hnext).applied
  have hobligations :=
    obligations_applyCommitted (R := R) { q with ledger := q.ledger ++ [c] } c semantic
  rw [happly] at hobligations
  rw [foldl_append, ← hq]
  exact hobligations

/-- **The effect fence.**  In a runtime that wrote all its records itself, at most one
attempt is unsettled; while one is, the next record settles it; an executor is asked
behind the record of its attempt; and a refused admission writes and asks nothing.  If no
record of the runtime failed while it was applied and nobody went around the runtime, a
replay of any prefix of its records rebuilds what they leave unsettled. -/
theorem effect_fence (R : Rules ρ τ) (hr : r.Owned R) :
    r.history.obligations.Single ∧ EachAfter FencedAfter r.committedEvents ∧
      r.history.obligations = obligationsOf r.committedEvents ∧
      (∀ call, ∀ i ∈ (r.step R call).2,
        (∃ q answer, call = .execute q answer ∧ Asked R r q false i (r.step R call).1) ∨
          ∃ q answer, call = .dispatch q answer ∧ Asked R r q true i (r.step R call).1) ∧
      (∀ q answer error, (r.admitEffect R q false).1 = .error error →
        (r.step R (.execute q answer)).1.ledger = r.ledger ∧
        (r.step R (.execute q answer)).2 = []) ∧
      (∀ q answer error, (r.admitEffect R q true).1 = .error error →
        (r.step R (.dispatch q answer)).1.ledger = r.ledger ∧
        (r.step R (.dispatch q answer)).2 = []) ∧
      (r.Reachable R → r.uncertain = false → ∀ events, events <+: r.committedEvents →
        ∀ owner boundary,
        ∃ q, replay R owner boundary events = .ok q ∧
        q.history.obligations = obligationsOf events) := by
  have hfenced := owned_fenced hr
  refine ⟨hfenced.single, hfenced.each, hfenced.obligations, ?_, ?_, ?_, ?_⟩
  · intro call i hi
    obtain ⟨q, -, ⟨answer, rfl⟩ | ⟨answer, rfl⟩⟩ := key_of_invocation hi
    · exact .inl ⟨q, answer, rfl, execute_asked hi⟩
    · exact .inr ⟨q, answer, rfl, dispatch_asked hi⟩
  · exact fun q answer error h => execute_refused h
  · exact fun q answer error h => dispatch_refused h
  · rintro hreachable hcertain events ⟨rest, hevents⟩ owner boundary
    obtain ⟨q, hreplay, -⟩ := (reachable_reopens hreachable hcertain).rebuilt owner boundary
    have hreplay : (events ++ rest).foldlM (replayRecord R) (new R owner boundary) = .ok q :=
      hevents ▸ hreplay
    rw [foldlM_append] at hreplay
    obtain ⟨before, hbefore, -⟩ := bind_eq_ok.mp hreplay
    exact ⟨before.markRecoveryRequired, bind_eq_ok.mpr ⟨before, hbefore, rfl⟩,
      replay_obligations hbefore⟩

end PtrRuntime

/-! ### A runtime that cannot be replayed -/

/-- An effect was executed, then the revocation of an unknown manifest was committed. -/
def strayRun : PtrRuntime Unit Unit := keyedRun.run plainRules [.commit strayRevocation]

/-- **Nothing is rebuilt from the records of this run**: its last record cannot be
applied. -/
theorem stray_run_not_rebuilt : strayRun.committedEvents.length = 4 ∧ strayRun.uncertain = true ∧
    (PtrRuntime.replay plainRules 0 ⟨true, true, true⟩ strayRun.committedEvents).isOk = false := by
  refine ⟨?_, ?_, ?_⟩
  all_goals decide +kernel

/-- The executor fails, so the attempt stays unsettled. -/
def unsettledRun : PtrRuntime Unit Unit :=
  readyRun.run plainRules [.execute keyedRequest (.error "lost")]

theorem unsettledRun_comes_back_fenced : unsettledRun.history.obligations.isUnsettled 2 = true ∧
    ∃ q, PtrRuntime.replay plainRules 0 ⟨true, true, true⟩ unsettledRun.committedEvents = .ok q ∧
      q.history.obligations = unsettledRun.history.obligations := by
  have howned : unsettledRun.Owned plainRules := ⟨0, _, [_, _, _], rfl⟩
  have hreachable : unsettledRun.Reachable plainRules :=
    .call (.call (.call (.new 0 _) rfl) rfl) rfl
  obtain ⟨-, -, -, -, -, -, hreplay⟩ := PtrRuntime.effect_fence plainRules howned
  exact ⟨by decide +kernel, hreplay hreachable (by decide +kernel) _ prefix_rfl 0 _⟩

/-! ### Taint -/

theorem getElem?_apply {t : Taint} {subjects change x} (hx : x ∉ subjects) :
    (t.apply subjects change)[x]? = t[x]? := by
  induction subjects generalizing t with
  | nil => rfl
  | cons y subjects ih =>
    rw [mem_cons, not_or] at hx
    have hne : compare y x ≠ .eq := fun h => hx.1 (Std.LawfulEqOrd.eq_of_compare h).symm
    rw [Taint.apply_cons, ih hx.2]
    cases change with
    | record => exact Std.ExtTreeMap.getElem?_insertIfNew.trans (if_neg fun h => hne h.1)
    | clear => exact Std.ExtTreeMap.getElem?_erase.trans (if_neg hne)

def Clears (recipe : Digest) (x : TaintSubject) (c : CommittedEvent) : Prop :=
  ∃ subjects recompute, c.event = .kvTaintCommitted subjects (.clear recipe recompute) ∧
    x ∈ subjects

/-- Nothing but a record that clears it under its recipe removes an entry. -/
theorem taint_stays {log more x e} (haccepted : EachAfter (AcceptedAfter R.sha) (log ++ more))
    (hx : (taintOf log)[x]? = some e) (hmore : ∀ c ∈ more, ¬ Clears e.recipeDigest x c) :
    (taintOf (log ++ more))[x]? = some e := by
  induction more using reverseRecOn with
  | nil => rwa [append_nil]
  | append_singleton more c ih =>
    rw [← append_assoc, eachAfter_append_singleton] at haccepted
    have hlive := ih haccepted.1 fun c hc => hmore c (mem_append_left _ hc)
    have hc := hmore c (by simp)
    rw [← append_assoc, taintOf_append]
    obtain ⟨index, event⟩ := c
    cases event with
    | kvTaintCommitted subjects change =>
      refine (getElem?_apply fun hmem => ?_).trans hlive
      have hvalid := (validate_taint_ok (haccepted.2.taint _ _ rfl)).2
      cases change with
      | record => exact hvalid.1 x hmem (mem_of_some hlive)
      | clear recipe recompute =>
        obtain ⟨e', he', rfl⟩ := hvalid x hmem
        cases hlive.symm.trans he'
        exact hc ⟨subjects, recompute, rfl, hmem⟩
    | _ => exact hlive

namespace PtrRuntime

variable {r r' : PtrRuntime ρ τ} {q : EffectRequest}

theorem Asked.untainted {wantDetached i after} (h : Asked R r q wantDetached i after) :
    r.history.taint[((.action, taintIdentity R.sha i.action) : TaintSubject)]? = none := by
  obtain ⟨next, hadmission, hi, -⟩ := h
  have hchecks := (admitEffect_attempted hadmission).1
  simp only [priorChecks, bind_eq_ok, checkExecutionAction, refuse_eq_ok] at hchecks
  obtain ⟨_, -, _, -, _, -, _, -, _, ⟨-, _, htaint, -⟩, -⟩ := hchecks
  rw [checkKvTaint] at htaint
  rw [hi]
  split at htaint
  · cases htaint
  · assumption

/-- **A tainted action reaches no effect.**  `r` has recorded the action of identity `d` as
approximate, and `r'` is any later runtime, across any calls, replays and snapshots, whose
new records do not clear it under its recipe.  Then `r'` refuses to authorize the action,
no call of `r'` asks an executor for it, and the taint of `r'` is what its materialized
values say. -/
theorem tainted_action_not_executed (R : Rules ρ τ) (F : ExpertFormat ρ) (G : ExpertReader ρ)
    {log more : List CommittedEvent} {r r' : PtrRuntime ρ τ} (h : Lives R F G log r)
    (h' : Lives R F G (log ++ more) r') {d : Digest} {e : TaintEntry}
    (he : r.history.taint[((.action, d) : TaintSubject)]? = some e)
    (hmore : ∀ c ∈ more, ¬ Clears e.recipeDigest (.action, d) c) :
    (∀ a, taintIdentity R.sha a = d →
      r'.authorizeAction R a = .error (.approximateStateAtEffectBoundary e.reportDigest)) ∧
    (∀ call, ∀ i ∈ (r'.step R call).2, taintIdentity R.sha i.action ≠ d) ∧
    Taint.fromMaterialized r'.history.state.values = .ok r'.history.taint := by
  have hfollows := lives_follows h'
  rw [(lives_follows h).taint] at he
  have hlive := taint_stays hfollows.accepted he hmore
  rw [← hfollows.taint] at hlive
  refine ⟨?_, ?_, taint_rebuilt (lives_kept h').whole⟩
  · rintro a rfl
    rw [authorizeAction, checkKvTaint, hlive]
    rfl
  · rintro call i hi rfl
    have hnone : r'.history.taint[((.action, taintIdentity R.sha i.action) : TaintSubject)]? =
        none := by
      obtain ⟨q, -, ⟨answer, rfl⟩ | ⟨answer, rfl⟩⟩ := key_of_invocation hi
      · exact (execute_asked hi).untainted
      · exact (dispatch_asked hi).untainted
    cases hlive.symm.trans hnone

end PtrRuntime

/-- The action of the request is tainted. -/
def taintedRun : PtrRuntime Unit Unit :=
  readyRun.run plainRules
    [.admitStructural (.kvTaintCommitted [(.action, taintIdentity plainRules.sha readAction)]
      (.record (Digest.fill 1) (Digest.fill 2))) rfl]

def refusedRun : PtrRuntime Unit Unit :=
  taintedRun.run plainRules [.commit (.capsuleCommitted "p" "u" 1)]

theorem refusedRun_not_authorized :
    refusedRun.authorizeAction plainRules readAction =
      .error (.approximateStateAtEffectBoundary (Digest.fill 1)) ∧
    (refusedRun.step plainRules (.execute keyedRequest (.ok [7]))).2 = [] := by
  have hlives := PtrRuntime.lives_of_owned plainFormat plainReader (r := taintedRun)
    (R := plainRules) ⟨_, _, [_, _, _], rfl⟩
  have hlater := PtrRuntime.lives_of_owned plainFormat plainReader (r := refusedRun)
    (R := plainRules) ⟨_, _, [_, _, _, _], rfl⟩
  have hledger : refusedRun.ledger = taintedRun.ledger ++ [⟨3, .capsuleCommitted "p" "u" 1⟩] := by
    decide +kernel
  rw [hledger] at hlater
  refine ⟨(PtrRuntime.tainted_action_not_executed plainRules plainFormat plainReader hlives hlater
    (e := ⟨Digest.fill 1, Digest.fill 2⟩) (by decide +kernel) ?_).1 _ rfl, by decide +kernel⟩
  rintro c hc ⟨subjects, recompute, hclear, -⟩
  rw [mem_singleton.mp hc] at hclear
  cases hclear

end Ptr.Runtime
