import Ptr.Runtime.Folded

/-!
# Effects under a key

An outcome under a key is written when the attempt under that key is settled.  No
attempt of an admission starts under a key that was applied, so an applied outcome is
never written over (`Obligations.Apart`), and what is asked under the key later gets the
recorded answer.  `commit` takes an attempt record as it is, and does not look at the
outcomes; `FreshAttempts` says that no record of the log makes use of that.
-/

namespace Ptr.Runtime

open Lib Ledger Semdb Std List

variable {ρ τ : Type} {R : Rules ρ τ} {F : ExpertFormat ρ} {G : ExpertReader ρ}

structure AppliedEffect where
  attempt : CommitIndex
  identity : ActionIdentity
  response : Option Bytes

def SettledOutcome.appliedEffect : SettledOutcome → Option AppliedEffect
  | .applied attempt identity response => some ⟨attempt, identity, some response⟩
  | .appliedWithoutResponse attempt identity => some ⟨attempt, identity, none⟩
  | .notApplied => none

def attemptKey : LedgerEvent → Option String
  | .effectAttempted a => a.key
  | _ => none

namespace Obligations

variable {o : Obligations} {c : CommittedEvent}

def Spent (o : Obligations) (key : String) : Prop :=
  (o.settled[key]?.bind SettledOutcome.appliedEffect).isSome = true

theorem spent_of_outcome {key out effect} (hout : o.settled[key]? = some out)
    (happlied : out.appliedEffect = some effect) : o.Spent key := by
  rw [Spent, hout, Option.bind_some, happlied]
  rfl

def Fresh (o : Obligations) (e : LedgerEvent) : Prop := ∀ key ∈ attemptKey e, ¬ o.Spent key

instance decidableSpent (o : Obligations) (key : String) : Decidable (o.Spent key) :=
  inferInstanceAs (Decidable (_ = true))

instance decidableFresh (o : Obligations) (e : LedgerEvent) : Decidable (o.Fresh e) :=
  inferInstanceAs (Decidable (∀ key ∈ attemptKey e, ¬ o.Spent key))

/-- The attempts in flight are under different keys, and under none that is spent. -/
structure Apart (o : Obligations) : Prop where
  alone : ∀ (i j : CommitIndex) u v key, o.unsettled[i]? = some u → o.unsettled[j]? = some v →
    u.key = some key → v.key = some key → i = j
  unspent : ∀ (i : CommitIndex) u key, o.unsettled[i]? = some u → u.key = some key → ¬ o.Spent key

theorem apart_empty : Apart .empty where
  alone i j u v key h := by simp [empty] at h
  unspent i u key h := by simp [empty] at h

theorem not_keyInFlight {key} (h : o.keyInFlight key = false) {i : CommitIndex} {u}
    (hu : o.unsettled[i]? = some u) : u.key ≠ some key := by
  intro hkey
  rw [keyInFlight, any_eq_false] at h
  exact h (i, u) (ExtTreeMap.mem_toList_iff_getElem?_eq_some.mpr hu) (by simpa using hkey)

/-- What a valid attempt finds: its key is not in flight. -/
theorem validateAttempt_ok {a} (h : o.validateAttempt a = .ok ()) :
    ∀ key, a.key = some key → o.keyInFlight key = false := by
  intro key hkey
  simp only [validateAttempt, hkey, refuse_eq_ok, Bool.not_eq_true] at h
  exact h.2.1

theorem Apart.recordAttempt {a} {index : CommitIndex} (h : o.Apart)
    (hvalid : o.validateAttempt a = .ok ()) (hfresh : ∀ key ∈ a.key, ¬ o.Spent key) :
    (o.recordAttempt (unsettledBy a index)).Apart := by
  refine ⟨?_, ?_⟩
  · intro i j u v key hu hv hukey hvkey
    obtain ⟨rfl, rfl⟩ | ⟨-, hu⟩ := some_of_insert hu
    · obtain ⟨rfl, -⟩ | ⟨-, hv⟩ := some_of_insert hv
      · rfl
      · -- The new attempt and an older one under the same key.
        exact absurd hvkey (not_keyInFlight (validateAttempt_ok hvalid key hukey) hv)
    · obtain ⟨-, rfl⟩ | ⟨-, hv⟩ := some_of_insert hv
      · exact absurd hukey (not_keyInFlight (validateAttempt_ok hvalid key hvkey) hu)
      · exact h.alone i j u v key hu hv hukey hvkey
  · intro i u key hu hkey
    obtain ⟨-, rfl⟩ | ⟨-, hu⟩ := some_of_insert hu
    · exact hfresh key hkey
    · exact h.unspent i u key hu hkey

theorem settle_of_some {attempt u} (s : Settlement) (hu : o.unsettled[attempt]? = some u) :
    o.settle attempt s = ⟨o.unsettled.erase attempt, match u.key with
      | some key => o.settled.insert key (u.outcome attempt s)
      | none => o.settled⟩ := by
  unfold settle
  split
  · next hnone => cases hu.symm.trans hnone
  · next v hsome =>
    cases hu.symm.trans hsome
    rfl

theorem settled_settle {attempt u} (s : Settlement) (hu : o.unsettled[attempt]? = some u) {key}
    (hkey : u.key ≠ some key) : (o.settle attempt s).settled[key]? = o.settled[key]? := by
  rw [settle_of_some s hu]
  cases hown : u.key with
  | none => rfl
  | some =>
    refine getElem?_insert_ne fun heq => hkey ?_
    rw [hown, heq]

theorem Apart.settle (h : o.Apart) (attempt : CommitIndex) (s : Settlement) :
    (o.settle attempt s).Apart := by
  cases hu : o.unsettled[attempt]? with
  | none =>
    have hsame : o.settle attempt s = o := by rw [Obligations.settle, hu]
    rw [hsame]
    exact h
  | some u =>
    have hget : ∀ i v, (o.settle attempt s).unsettled[i]? = some v →
        i ≠ attempt ∧ o.unsettled[i]? = some v := by
      intro i v hv
      rw [settle_of_some s hu] at hv
      exact some_of_erase hv
    refine ⟨?_, ?_⟩
    · intro i j v w key hv hw hvkey hwkey
      exact h.alone i j v w key (hget i v hv).2 (hget j w hw).2 hvkey hwkey
    · intro i v key hv hkey hspent
      obtain ⟨hne, hv⟩ := hget i v hv
      have hother : u.key ≠ some key := fun hukey =>
        hne (h.alone i attempt v u key hv hu hkey hukey)
      rw [Spent, settled_settle s hu hother] at hspent
      exact h.unspent i v key hv hkey hspent

theorem Apart.apply {sha} (h : o.Apart) (haccepts : o.Accepts sha c.event)
    (hfresh : o.Fresh c.event) : (o.apply c).Apart := by
  obtain ⟨index, e⟩ := c
  cases e with
  | effectAttempted => exact h.recordAttempt haccepts hfresh
  | effectSettled | effectReconciled => exact h.settle _ _
  | _ => exact h

theorem Apart.spent_settle (h : o.Apart) (attempt : CommitIndex) (s : Settlement) {key}
    (hspent : o.Spent key) : (o.settle attempt s).settled[key]? = o.settled[key]? := by
  cases hu : o.unsettled[attempt]? with
  | none => rw [Obligations.settle, hu]
  | some u => exact settled_settle s hu fun hkey => h.unspent attempt u key hu hkey hspent

theorem Apart.spent_apply (h : o.Apart) {key} (hspent : o.Spent key) :
    (o.apply c).settled[key]? = o.settled[key]? := by
  obtain ⟨index, e⟩ := c
  cases e with
  | effectSettled | effectReconciled => exact h.spent_settle _ _ hspent
  | _ => rfl

end Obligations

/-! ### Whole logs -/

/-- No record attempts an effect under a key that the records before it spent. -/
def FreshAttempts (log : List CommittedEvent) : Prop :=
  EachAfter (fun before c => (obligationsOf before).Fresh c.event) log

instance decidableFreshAttempts (log : List CommittedEvent) : Decidable (FreshAttempts log) :=
  decidableEachAfter

theorem apart_of_fresh {sha log} (haccepted : EachAfter (AcceptedAfter sha) log)
    (hfresh : FreshAttempts log) : (obligationsOf log).Apart := by
  induction log using reverseRecOn with
  | nil => exact Obligations.apart_empty
  | append_singleton log c ih =>
    rw [eachAfter_append_singleton] at haccepted
    rw [FreshAttempts, eachAfter_append_singleton] at hfresh
    rw [obligationsOf_append]
    exact (ih haccepted.1 hfresh.1).apply haccepted.2.effects hfresh.2

/-- **A spent key keeps its outcome** through every further record. -/
theorem spent_stays {sha log more} (haccepted : EachAfter (AcceptedAfter sha) (log ++ more))
    (hfresh : FreshAttempts (log ++ more)) {key} (hspent : (obligationsOf log).Spent key) :
    (obligationsOf (log ++ more)).settled[key]? = (obligationsOf log).settled[key]? := by
  induction more using reverseRecOn with
  | nil => rw [append_nil]
  | append_singleton more c ih =>
    rw [← append_assoc] at haccepted hfresh ⊢
    rw [eachAfter_append_singleton] at haccepted
    rw [FreshAttempts, eachAfter_append_singleton] at hfresh
    have hkept := ih haccepted.1 hfresh.1
    have hstill : (obligationsOf (log ++ more)).Spent key := by
      rw [Obligations.Spent, hkept]
      exact hspent
    rw [obligationsOf_append, (apart_of_fresh haccepted.1 hfresh.1).spent_apply hstill, hkept]

/-! ### Requests under a spent key -/

namespace PtrRuntime

variable {r r' : PtrRuntime ρ τ} {log : List CommittedEvent}

def priorChecks (R : Rules ρ τ) (r : PtrRuntime ρ τ) (q : EffectRequest) (wantDetached : Bool) :
    Except ExecutionError Unit := do
  q.handle
  r.checkFence
  q.permit
  q.checkDispatch wantDetached
  r.checkExecutionAction R q.project q.action
  q.checkReport
  r.checkFence
  q.stillValid

theorem admissionChecks_eq (R : Rules ρ τ) (r : PtrRuntime ρ τ) (q : EffectRequest)
    (wantDetached : Bool) :
    r.admissionChecks R q wantDetached =
      (r.priorChecks R q wantDetached >>= fun _ => r.recallKey R q) := by
  simp [admissionChecks, priorChecks]

/-- What a request under a spent key is told, once its other checks passed: a retry
gets the recorded response, or hears that it was not kept. -/
def recalled (sha : Bytes → Digest) (q : EffectRequest) (effect : AppliedEffect) :
    Except ExecutionError Bytes :=
  if effect.identity.isRetry sha q.project q.principal q.action then
    match effect.response with
    | some response => .ok response
    | none => .error (.responseNotRetained effect.attempt)
  else .error (.keyBoundToAnotherAction effect.attempt)

def spentAnswer (R : Rules ρ τ) (r : PtrRuntime ρ τ) (q : EffectRequest) (wantDetached : Bool)
    (effect : AppliedEffect) : Except ExecutionError Bytes := do
  r.priorChecks R q wantDetached
  recalled R.sha q effect

section Spent

variable {q : EffectRequest} {key : String} {out : SettledOutcome} {effect : AppliedEffect}
  (hkey : q.key = some key) (hout : r.history.obligations.settled[key]? = some out)
  (happlied : out.appliedEffect = some effect)

include hkey hout happlied

theorem recallKey_spent :
    r.recallKey R q = (recalled R.sha q effect).map fun response =>
      some (.replayed effect.attempt response) := by
  rw [recallKey, hkey, Option.bind_some, hout, recalled]
  cases out with
  | applied | appliedWithoutResponse =>
    cases happlied
    dsimp only
    split
    · rfl
    · rfl
  | notApplied => cases happlied

theorem admitEffect_spent (wantDetached : Bool) :
    r.admitEffect R q wantDetached =
      ((r.spentAnswer R q wantDetached effect).map (.replayed effect.attempt), r) := by
  have hchecks : r.admissionChecks R q wantDetached =
      (r.spentAnswer R q wantDetached effect).map fun response =>
      some (.replayed effect.attempt response) := by
    rw [admissionChecks_eq, recallKey_spent hkey hout happlied, spentAnswer]
    cases r.priorChecks R q wantDetached with
    | error | ok => rfl
  rw [admitEffect, hchecks]
  cases r.spentAnswer R q wantDetached effect with
  | error | ok => rfl

theorem executePrepared_spent (answer : Except String Bytes) :
    r.executePrepared R q answer = (r.spentAnswer R q false effect, r, []) := by
  rw [executePrepared, admitEffect_spent hkey hout happlied]
  cases r.spentAnswer R q false effect with
  | error | ok => rfl

theorem dispatchDetached_spent (answer : Except String Unit) :
    r.dispatchDetached R q answer =
      ((r.spentAnswer R q true effect).map fun _ => ⟨effect.attempt, true⟩, r, []) := by
  rw [dispatchDetached, admitEffect_spent hkey hout happlied]
  cases r.spentAnswer R q true effect with
  | error | ok => rfl

end Spent

/-! ### Executors -/

section Asked

variable {q : EffectRequest} {wantDetached : Bool} {i : Invocation} {attempt : CommitIndex}

theorem admissionChecks_replayed :
    r.admissionChecks R q wantDetached ≠ .ok (some (.attempted attempt)) := by
  rw [admissionChecks_eq]
  intro h
  obtain ⟨-, -, h⟩ := bind_eq_ok.mp h
  rw [recallKey] at h
  split at h
  · split at h <;> cases h
  · split at h <;> cases h
  · cases h
  · cases h

/-- An attempt that was admitted passed every check, and is the last record of the runtime
that asks the executor. -/
theorem admitEffect_attempted
    (h : r.admitEffect R q wantDetached = (.ok (.attempted attempt), r')) :
    r.priorChecks R q wantDetached = .ok () ∧
      r'.ledger = r.ledger ++ [⟨attempt, .effectAttempted (q.attempt R.sha)⟩] := by
  rw [admitEffect] at h
  split at h
  · cases h
  · next hchecks =>
    cases h
    exact absurd hchecks admissionChecks_replayed
  · next hchecks =>
    rw [admissionChecks_eq] at hchecks
    obtain ⟨_, hprior, -⟩ := bind_eq_ok.mp hchecks
    split at h
    · cases h
    next hcommit =>
    cases h
    obtain ⟨semantic, next, -, happly, rfl⟩ := commit_ok hcommit
    have hledger :=
      (completed_appended (R := R) (r := r)
      ⟨attempt, .effectAttempted (q.attempt R.sha)⟩ semantic).2
    rw [happly] at hledger
    exact ⟨hprior, hledger⟩

theorem moves_ledger (h : r.MovesTo R r') : r.ledger <+: r'.ledger := by
  refine moves_invariant (P := fun s => r.ledger <+: s.ledger) ?_ h prefix_rfl
  intro s s' hs hmove
  rcases moves_cases hmove with ⟨c, semantic, -, rfl⟩ | hquiet
  · rw [(completed_appended c semantic).2]
    exact hs.trans (prefix_append _ _)
  · rw [hquiet.ledger]
    exact hs

/-- The executor was asked by a runtime that had just recorded the attempt: the request
was admitted, its attempt is the last record, and the call went on from there. -/
def Asked (R : Rules ρ τ) (r : PtrRuntime ρ τ) (q : EffectRequest) (wantDetached : Bool)
    (i : Invocation) (after : PtrRuntime ρ τ) : Prop :=
  ∃ next, r.admitEffect R q wantDetached = (.ok (.attempted i.attempt), next) ∧
    i = q.invocation i.attempt ∧
    next.ledger = r.ledger ++ [⟨i.attempt, .effectAttempted (q.attempt R.sha)⟩] ∧
      next.ledger <+: after.ledger

theorem execute_asked {answer i} (hi : i ∈ (r.step R (.execute q answer)).2) :
    Asked R r q false i (r.step R (.execute q answer)).1 := by
  simp only [step, executePrepared] at hi ⊢
  split at hi
  · cases hi
  · cases hi
  next attempt next hadmission =>
  cases answer with
  | error =>
    obtain rfl := mem_singleton.mp hi
    exact ⟨next, hadmission, rfl, (admitEffect_attempted hadmission).2, by simp⟩
  | ok output =>
    have hledger := moves_ledger (recordSettlement_moves R next attempt output)
    dsimp only at hi
    split at hi
    all_goals
      next hsettle =>
      obtain rfl := mem_singleton.mp hi
      rw [hsettle] at hledger
      exact ⟨next, hadmission, rfl, (admitEffect_attempted hadmission).2, by
        simp [hsettle, hledger]⟩

theorem dispatch_asked {answer i} (hi : i ∈ (r.step R (.dispatch q answer)).2) :
    Asked R r q true i (r.step R (.dispatch q answer)).1 := by
  simp only [step, dispatchDetached] at hi ⊢
  split at hi
  · cases hi
  · cases hi
  next attempt next hadmission =>
  cases answer with
  | error | ok =>
    obtain rfl := mem_singleton.mp hi
    exact ⟨next, hadmission, rfl, (admitEffect_attempted hadmission).2, by simp⟩

/-- Whatever is called, an executor that runs was asked under the key of the request. -/
theorem key_of_invocation {call} (hi : i ∈ (r.step R call).2) :
    ∃ q, i.key = q.key ∧
      ((∃ answer, call = .execute q answer) ∨ ∃ answer, call = .dispatch q answer) := by
  cases call with
  | execute q answer =>
    obtain ⟨next, -, hinvocation, -⟩ := execute_asked hi
    exact ⟨q, by rw [hinvocation]; rfl, .inl ⟨answer, rfl⟩⟩
  | dispatch q answer =>
    obtain ⟨next, -, hinvocation, -⟩ := dispatch_asked hi
    exact ⟨q, by rw [hinvocation]; rfl, .inr ⟨answer, rfl⟩⟩
  | _ => cases hi

end Asked

theorem not_invoked_spent {key out effect} (hout : r.history.obligations.settled[key]? = some out)
    (happlied : out.appliedEffect = some effect) (call : Call) :
    ∀ i ∈ (r.step R call).2, i.key ≠ some key := by
  intro i hi hkey
  obtain ⟨q, hq, ⟨answer, rfl⟩ | ⟨answer, rfl⟩⟩ := key_of_invocation hi
  · have hi : i ∈ (r.executePrepared R q answer).2.2 := hi
    rw [executePrepared_spent (hq.symm.trans hkey) hout happlied] at hi
    cases hi
  · have hi : i ∈ (r.dispatchDetached R q answer).2.2 := hi
    rw [dispatchDetached_spent (hq.symm.trans hkey) hout happlied] at hi
    cases hi

/-- **At most once under a key.**  `r` has recorded that the effect under `key` was
applied, and `r'` is any later runtime, across any calls and restarts, in whose records no
attempt was made under a spent key.  Then the outcome is still there; no call runs an
executor under the key; and a request under the key that passes the other checks is
answered from the record: a retry gets the response, or hears that it was not kept, and
any other action is refused as bound to another one. -/
theorem applied_at_most_once (R : Rules ρ τ) (F : ExpertFormat ρ) (G : ExpertReader ρ)
    {log more : List CommittedEvent} {r r' : PtrRuntime ρ τ} (h : Lives R F G log r)
    (h' : Lives R F G (log ++ more) r') (hfresh : FreshAttempts (log ++ more)) {key : String}
    {out : SettledOutcome} {effect : AppliedEffect}
    (hout : r.history.obligations.settled[key]? = some out)
    (happlied : out.appliedEffect = some effect) :
    r'.history.obligations.settled[key]? = some out ∧
    (∀ call, ∀ i ∈ (r'.step R call).2, i.key ≠ some key) ∧
    ∀ q, q.key = some key →
      (∀ answer, r'.executePrepared R q answer = (r'.spentAnswer R q false effect, r', [])) ∧
      ∀ answer, r'.dispatchDetached R q answer =
        ((r'.spentAnswer R q true effect).map fun _ => ⟨effect.attempt, true⟩, r', []) := by
  have hfollows := lives_follows h
  have hfollows' := lives_follows h'
  have hspent : (obligationsOf log).Spent key :=
    Obligations.spent_of_outcome (hfollows.obligations ▸ hout) happlied
  have hout' : r'.history.obligations.settled[key]? = some out := by
    rw [hfollows'.obligations, spent_stays hfollows'.accepted hfresh hspent, ← hfollows.obligations]
    exact hout
  refine ⟨hout', not_invoked_spent hout' happlied, ?_⟩
  intro q hkey
  exact ⟨executePrepared_spent hkey hout' happlied, dispatchDetached_spent hkey hout' happlied⟩

end PtrRuntime

/-! ### An attempt that is committed as it is -/

def readAction : ActionIr where
  operation := "read"
  target := "t"
  capability := "c"
  effect := .read
  inputType := "text"
  generation := 1
  revision := 0
  payload := []

/-- A request under the key `k` that passes every check. -/
def keyedRequest : EffectRequest where
  project := "p"
  principal := "someone"
  action := readAction
  key := some "k"
  detached := false
  handle := .ok ()
  permit := .ok ()
  stillValid := .ok ()
  required := .fullSemantic
  status := .pass
  level := .deterministic
  hardFinding := false

def readyRun : PtrRuntime Unit Unit :=
  plainRuntime.run plainRules [.commit (.capsuleCommitted "p" "t" 1),
    .setPermissions ⟨.ofList ["c"], false, false, false⟩]

def keyedRun : PtrRuntime Unit Unit := readyRun.run plainRules [.execute keyedRequest (.ok [7])]

/-- The same attempt is committed once more, and reconciled as not applied. -/
def overwrittenRun : PtrRuntime Unit Unit :=
  keyedRun.run plainRules [.commit (.effectAttempted (keyedRequest.attempt plainRules.sha)),
    .reconcile 4 false "checked"]

/-- **An applied key is used again**: its outcome is written over, and the executor runs
a second time for the same request. -/
theorem spent_key_runs_again :
    (readyRun.step plainRules (.execute keyedRequest (.ok [7]))).2 = [keyedRequest.invocation 2] ∧
      keyedRun.history.obligations.settled["k"]? =
        some (.applied 2 (unsettledBy (keyedRequest.attempt plainRules.sha) 2).identity [7]) ∧
      overwrittenRun.history.obligations.settled["k"]? = some .notApplied ∧
      (overwrittenRun.step plainRules (.execute keyedRequest (.ok [7]))).2 =
        [keyedRequest.invocation 6] := by
  refine ⟨?_, ?_, ?_, ?_⟩
  · decide +kernel
  · decide +kernel
  · decide +kernel
  · decide +kernel

def laterRun : PtrRuntime Unit Unit :=
  keyedRun.run plainRules [.commit (.capsuleCommitted "p" "u" 1)]

theorem keyedRun_owned : keyedRun.Owned plainRules := ⟨_, _, [_, _, _], rfl⟩

theorem laterRun_owned : laterRun.Owned plainRules := ⟨_, _, [_, _, _, _], rfl⟩

theorem keyedRun_answers :
    laterRun.ledger = keyedRun.ledger ++ [⟨4, .capsuleCommitted "p" "u" 1⟩] ∧
      FreshAttempts laterRun.ledger ∧
      laterRun.history.obligations.settled["k"]? =
        some (.applied 2 (unsettledBy (keyedRequest.attempt plainRules.sha) 2).identity [7]) ∧
      (∀ call, ∀ i ∈ (laterRun.step plainRules call).2, i.key ≠ some "k") ∧
      laterRun.executePrepared plainRules keyedRequest (.ok [8]) = (.ok [7], laterRun, []) := by
  have hlives := PtrRuntime.lives_of_owned plainFormat plainReader keyedRun_owned
  have hlater := PtrRuntime.lives_of_owned plainFormat plainReader laterRun_owned
  have hledger : laterRun.ledger = keyedRun.ledger ++ [⟨4, .capsuleCommitted "p" "u" 1⟩] := by
    decide +kernel
  have hfresh : FreshAttempts laterRun.ledger := by decide +kernel
  have hout : keyedRun.history.obligations.settled["k"]? =
      some (.applied 2 (unsettledBy (keyedRequest.attempt plainRules.sha) 2).identity [7]) := by
      decide +kernel
  obtain ⟨hstill, hidle, hanswers⟩ :=
    PtrRuntime.applied_at_most_once plainRules plainFormat plainReader hlives (hledger ▸ hlater)
    (hledger ▸ hfresh) hout rfl
  refine ⟨hledger, hfresh, hstill, hidle, ((hanswers keyedRequest rfl).1 (.ok [8])).trans ?_⟩
  have hanswer : laterRun.spentAnswer plainRules keyedRequest false
      ⟨2, (unsettledBy (keyedRequest.attempt plainRules.sha) 2).identity, some [7]⟩ = .ok [7] := by
      decide +kernel
  exact congrArg (·, laterRun, []) hanswer

end Ptr.Runtime
