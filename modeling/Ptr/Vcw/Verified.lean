import Ptr.Vcw.Provenance

/-!
# A verified answer is verified, attributed and within budget

Every part of the loop writes a few questions behind the history (`Writes`).  Before a
round the calls of the verifier are counted and some are left, every escalation was used
well, and the candidate of the plan has its Pods among its authors (`Orderly`,
`Plan.Known`).  A round keeps this or ends the request (`round_spec`).
-/

namespace Ptr.Vcw

open Lib Act Event List

variable {P : Type} {H : Host P} {L : VcwLoop} {q : VcwRequest} {s s' s'' : Session P}
  {Q Q' : Event P → Prop}
  {a : Attempt P} {authors : List PodRef} {previous : Option (Handed P)}
    {E : VcwError → Session P → Prop}

/-! ### What is written -/

/-- Questions that satisfy `Q` are written behind the history, and the budget stays but for
the calls of Pods. -/
structure Writes (H : Host P) (Q : Event P → Prop) (s s' : Session P) : Prop where
  events : ∃ evs, s'.history = s.history ++ evs ∧ ∀ e ∈ evs, Q e
  honest : Honest H s.history → Honest H s'.history
  budget : s'.meter.budget = s.meter.budget
  calls : s'.meter.used.verifierCalls = s.meter.used.verifierCalls
  rounds : s'.meter.used.rounds = s.meter.used.rounds
  candidates : s'.candidates = s.candidates

namespace Writes

theorem refl (s : Session P) : Writes H Q s s :=
  ⟨⟨[], (append_nil _).symm, fun _ he => by cases he⟩, id, rfl, rfl, rfl, rfl⟩

theorem trans (h : Writes H Q s s') (h' : Writes H Q s' s'') : Writes H Q s s'' := by
  obtain ⟨evs, hevs, hq⟩ := h.events
  obtain ⟨evs', hevs', hq'⟩ := h'.events
  refine ⟨⟨evs ++ evs', ?_, ?_⟩, fun hh => h'.honest (h.honest hh), h'.budget.trans h.budget,
    h'.calls.trans h.calls, h'.rounds.trans h.rounds, h'.candidates.trans h.candidates⟩
  · rw [hevs', hevs, append_assoc]
  · exact forall_mem_append.mpr ⟨hq, hq'⟩

theorem mono (h : Writes H Q s s') (hQ : ∀ e, Q e → Q' e) : Writes H Q' s s' := by
  obtain ⟨evs, hevs, hq⟩ := h.events
  exact ⟨⟨evs, hevs, fun e he => hQ e (hq e he)⟩, h.honest, h.budget, h.calls,
    h.rounds, h.candidates⟩

theorem tell {e} (hq : Q e) (ha : e.AnsweredBy H s.history) : Writes H Q s (s.tell e) :=
  ⟨⟨[e], rfl, forall_mem_singleton.mpr hq⟩, fun hh => eachAfter_append_singleton.mpr ⟨hh, ha⟩, rfl,
    rfl, rfl, rfl⟩

theorem step (a : Attempt P) (round : Nat) (authors : List PodRef) (decision : StepDecision) :
    Writes H Q s (pushStep a round authors decision s) :=
  ⟨⟨[], (append_nil _).symm, fun _ he => by cases he⟩, id, rfl, rfl, rfl, rfl⟩

end Writes

/-- Only questions to the registry, the router and the workspace. -/
abbrev Quietly (H : Host P) (s s' : Session P) : Prop := Writes H (fun e => e.quiet = true) s s'

/-- Any error but that of a spent budget. -/
abbrev Unbreached (e : VcwError) : Prop := e ≠ .internal "verifier budget breached"

abbrev Quiet (H : Host P) {α : Type} (x : Turn P α) : Prop := Along (Quietly H) Unbreached x

theorem quietly_bind {α β : Type} {x} {f : α → Turn P β} (hx : Quiet H x)
    (hf : ∀ a, Quiet H (f a)) : Quiet H (x >>= f) :=
  along_bind Writes.trans hx hf

theorem quietly_pure {α : Type} (a : α) : Quiet H (pure a : Turn P α) := along_pure Writes.refl a

theorem quietly_throw {α : Type} {e} (he : Unbreached e) : Quiet H (throw e : Turn P α) :=
  along_throw Writes.refl he

theorem quietly_currentGeneration (pod : PodId) : Quiet H (currentGeneration H pod) :=
  fun _ => ⟨Writes.tell rfl rfl, fun _ he => by cases he⟩

theorem quietly_filterEligible (pods : List PodId) : Quiet H (filterEligible H pods) := by
  induction pods with
  | nil => exact quietly_pure _
  | cons pod pods ih =>
    exact quietly_bind (quietly_currentGeneration pod) fun _ => quietly_bind ih fun _ =>
      quietly_pure _

theorem quietly_sample (c : RouteClass) (admissible : List PodId) :
    Quiet H (sample H c admissible) := by
  have hdraw : Quiet H (draw H c admissible) := by
    intro s
    rw [draw]
    cases hanswer : H.sample s.history c admissible with
    | ok => exact ⟨Writes.tell rfl hanswer.symm, fun _ he => by cases he⟩
    | error =>
      refine ⟨Writes.tell rfl hanswer.symm, fun e he => ?_⟩
      cases he
      exact VcwError.noConfusion
  refine quietly_bind hdraw fun pod => quietly_bind (quietly_currentGeneration pod)
    fun current => ?_
  cases current with
  | none => exact quietly_throw VcwError.noConfusion
  | some => exact quietly_pure _

theorem quietly_routeCode (R : FindingRouter) (code : FindingCode) :
    Quiet H (R.routeCode H code) := by
  refine quietly_bind (quietly_filterEligible _) fun pods => ?_
  split
  · exact quietly_pure _
  · exact quietly_bind (quietly_sample _ _) fun _ => quietly_pure _

theorem quietly_routeCodes (R : FindingRouter) (codes : List FindingCode) :
    Quiet H (R.routeCodes H codes) := by
  induction codes with
  | nil => exact quietly_pure _
  | cons code codes ih =>
    exact quietly_bind (quietly_routeCode R code) fun _ => quietly_bind ih fun _ => quietly_pure _

theorem quietly_route (R : FindingRouter) (r : VerificationReport) (required : VerificationLevel) :
    Quiet H (R.route H r required) := by
  rw [FindingRouter.route]
  split
  · exact quietly_pure _
  · exact quietly_bind (quietly_routeCodes R _) fun _ => quietly_pure _
  split
  · exact quietly_pure _
  refine quietly_bind (quietly_filterEligible _) fun pods => ?_
  split
  · exact quietly_pure _
  · exact quietly_bind (quietly_sample _ _) fun _ => quietly_pure _

/-- The authors are asked for one by one, all of them if all stand. -/
theorem eligible_spec (authors : List PodRef) (s : Session P) : (eligible H authors).Leads s
    (fun stand s' => Quietly H s s' ∧
      (stand = true → s'.history = s.history ++ asked P authors)) E := by
  induction authors generalizing s with
  | nil => exact ⟨Writes.refl s, fun _ => (append_nil _).symm⟩
  | cons a authors ih =>
    have hfirst : Quietly H s (s.tell (.generation a.pod (H.generation s.history a.pod))) :=
      Writes.tell rfl rfl
    rw [eligible]
    refine Leads.run rfl ?_
    split
    · next hcurrent =>
      refine (ih _).imp (fun stand s' hrest => ⟨hfirst.trans hrest.1, fun hs => ?_⟩) fun _ _ h => h
      rw [hrest.2 hs, Session.tell, hcurrent, append_assoc]
      rfl
    · exact ⟨hfirst, fun h => by cases h⟩

/-! ### Accounts -/

/-- No verdict was asked for in between. -/
abbrev Mutely (H : Host P) : Session P → Session P → Prop := Writes H fun e => e.mute = true

/-- The calls of the verifier are counted, at most one for each candidate. -/
structure Accounted (H : Host P) (q : VcwRequest) (s : Session P) : Prop where
  honest : Honest H s.history
  budget : s.meter.budget = q.budget
  calls : (verified s.history).length = s.meter.used.verifierCalls
  within : s.meter.used.verifierCalls ≤ q.budget.verifierCalls
  rounds : s.meter.used.rounds ≤ q.budget.rounds
  once : (verified s.history).Sublist s.candidates

theorem Accounted.writes (h : Accounted H q s) (hw : Mutely H s s') : Accounted H q s' := by
  obtain ⟨evs, hevs, hmute⟩ := hw.events
  have hverified : verified s'.history = verified s.history := by
    rw [hevs, verified_append, verified_mute hmute, append_nil]
  refine ⟨hw.honest h.honest, hw.budget.trans h.budget, ?_, ?_, ?_, ?_⟩
  · rw [hverified, hw.calls, h.calls]
  · rw [hw.calls]
    exact h.within
  · rw [hw.rounds]
    exact h.rounds
  · rw [hverified, hw.candidates]
    exact h.once

theorem Accounted.quietly (h : Accounted H q s) (hw : Quietly H s s') : Accounted H q s' :=
  h.writes (hw.mono fun _ => mute_of_quiet)

structure Orderly (H : Host P) (q : VcwRequest) (s : Session P) : Prop extends Accounted H q s where
  settled : Settled H s.history

theorem Orderly.quietly (h : Orderly H q s) (hw : Quietly H s s') : Orderly H q s' := by
  refine ⟨h.toAccounted.quietly hw, ?_⟩
  obtain ⟨evs, hevs, hquiet⟩ := hw.events
  rw [hevs]
  exact h.settled.append fun e he => gives_of_quiet (hquiet e he)

theorem Authored.quietly {p} (h : Authored H s.history p authors) (hw : Quietly H s s') :
    Authored H s'.history p authors := by
  obtain ⟨evs, hevs, hquiet⟩ := hw.events
  rw [hevs]
  exact h.quiet hquiet

def Plan.Known (H : Host P) (h : List (Event P)) : Plan P → Prop
  | .propose _ _ => True
  | .repair previous previousAuthors _ => Authored H h previous previousAuthors
  | .escalate _ previous => ∀ handed ∈ previous, Authored H h handed.value handed.authors

/-! ### Execution -/

/-- Questions that neither give a candidate away nor ask for a verdict. -/
def Event.plain (e : Event P) : Prop := e.mute = true ∧ e.gives = false

theorem Orderly.plainly (h : Orderly H q s) (hw : Writes H plain s s') : Orderly H q s' := by
  refine ⟨h.toAccounted.writes (hw.mono fun _ he => he.1), ?_⟩
  obtain ⟨evs, hevs, hplain⟩ := hw.events
  rw [hevs]
  exact h.settled.append fun e he => (hplain e he).2

theorem writes_countPodCall (s : Session P) :
    Writes H Q s { s with meter := s.meter.countPodCall } :=
  ⟨⟨[], (append_nil _).symm, fun _ he => by cases he⟩, id, rfl, rfl, rfl, rfl⟩

/-- The Pods of an edited candidate are those of the candidate before and the editors. -/
theorem repairs_spec (base : List PodRef) (round : Nat) (actions : List (PodRef × FindingCode))
    (current : P) (applied : List PodRef) (s : Session P)
    (ha : Authored H s.history current (base ++ applied)) :
    (repairs H round actions current applied).Leads s (fun edited s' => Writes H plain s s' ∧
      Authored H s'.history edited.1 (base ++ edited.2) ∧
      (edited.2 = [] → applied = [] ∧ edited.1 = current)) E := by
  induction actions generalizing current applied s with
  | nil => exact ⟨Writes.refl s, ha, fun h => ⟨h, rfl⟩⟩
  | cons action actions ih =>
    obtain ⟨pod, code⟩ := action
    let counted : Session P := { s with meter := s.meter.countPodCall }
    let call : RepairCall P := ⟨pod, round, code, current⟩
    have hasked : (askRepair H call).Leads counted (fun answer told => Writes H plain s told ∧
        told.history = s.history ++ [.repair call answer]) E :=
      ⟨(writes_countPodCall s).trans (Writes.tell ⟨rfl, rfl⟩ rfl), rfl⟩
    rw [repairs]
    refine Leads.run rfl (hasked.bind fun answer told ⟨hwrites, htold⟩ => ?_)
    -- The candidate is kept unless it is edited, and only where the finding is.
    have hkept : (Event.repair call answer).keeps H = true →
        Authored H told.history current (base ++ applied) := by
      intro hkeeps
      rw [htold]
      exact ha.kept (forall_mem_singleton.mpr hkeeps)
    cases answer with
    | none =>
      exact (ih current applied told (hkept rfl)).imp
        (fun _ _ hrest => ⟨hwrites.trans hrest.1, hrest.2⟩) fun _ _ h => h
    | some edited =>
      dsimp only
      split
      · next hconfined =>
        have hedited : Authored H told.history edited
            (base ++ (applied.filter (· ≠ pod) ++ [pod])) := by
          obtain ⟨pods, hbuilt, hpods⟩ := ha
          rw [htold]
          refine ⟨pods ++ [pod], Built.repaired hbuilt hconfined,
            forall_mem_append.mpr ⟨fun a hmem => ?_, by simp⟩⟩
          by_cases heq : a = pod
          · simp [heq]
          · rcases mem_append.mp (hpods a hmem) with hb | hb
            · exact mem_append_left _ hb
            · simp [hb, heq]
        refine (ih edited _ told hedited).imp
          (fun _ _ hrest => ⟨hwrites.trans hrest.1, hrest.2.1, fun hempty => ?_⟩) fun _ _ h => h
        have happlied := (hrest.2.2 hempty).1
        simp at happlied
      · next hconfined =>
        exact (ih current applied told (hkept (by simpa [keeps] using hconfined))).imp
          (fun _ _ hrest => ⟨hwrites.trans hrest.1, hrest.2⟩) fun _ _ h => h

theorem mem_repairedAuthors {previous applied a} (h : a ∈ previous ++ applied) :
    a ∈ repairedAuthors previous applied := by
  by_cases happlied : a ∈ applied
  · exact mem_append_right _ happlied
  · rcases mem_append.mp h with hprevious | habsurd
    · exact mem_append_left _ (mem_filter.mpr ⟨hprevious, decide_eq_true happlied⟩)
    · exact absurd habsurd happlied

theorem handedOver_spec (previous : Option (Handed P)) (s : Session P) :
    (handedOver H previous).Leads s
      (fun handed s' => Quietly H s s' ∧
        ∀ x ∈ handed, previous = some x ∧ s'.history = s.history ++ asked P x.authors) E := by
  cases previous with
  | none => exact ⟨Writes.refl s, fun _ hx => by cases hx⟩
  | some x =>
    refine (eligible_spec x.authors s).bind fun stand s' ⟨hquiet, hstand⟩ => ?_
    cases stand with
    | false => exact ⟨hquiet, fun _ hx => by cases hx⟩
    | true =>
      refine ⟨hquiet, fun y hy => ?_⟩
      cases hy
      exact ⟨rfl, hstand rfl⟩

theorem stillEligible_spec (handed : Option (Handed P)) (s : Session P) :
    (stillEligible H handed).Leads s
      (fun stand s' => Quietly H s s' ∧
        (stand = true → ∀ x ∈ handed, s'.history = s.history ++ asked P x.authors)) E := by
  cases handed with
  | none => exact ⟨Writes.refl s, fun _ _ hx => by cases hx⟩
  | some x =>
    refine (eligible_spec x.authors s).imp (fun stand s' h => ⟨h.1, fun hs y hy => ?_⟩)
      fun _ _ h => h
    cases hy
    exact h.2 hs

def Executed (H : Host P) (q : VcwRequest) (plan : Plan P) (s : Session P) : Produced P → Prop
  | .candidate value authors => Orderly H q s ∧ Authored H s.history value authors
  | .nothing => Guarded H s.history ∧ (plan.isEscalate = false → Settled H s.history)
  | .declined => Orderly H q s ∧ plan.Known H s.history

/-- Every way an escalation can end. -/
theorem execute_escalate {reason} (ho : Orderly H q s)
    (hk : (Plan.escalate reason previous).Known H s.history) (round : Nat) :
    (execute H (.escalate reason previous) round).Leads s (fun produced s' =>
      Mutely H s s' ∧ Executed H q (.escalate reason previous) s' produced) E := by
  rw [execute]
  refine Leads.run rfl ((handedOver_spec previous _).bind fun handed given ⟨hquiet, hgiven⟩ => ?_)
  have hcounted : Quietly H s given := (writes_countPodCall s).trans hquiet
  let call : EscalateCall P := ⟨round, reason, handed.map Handed.value⟩
  have hasked : (askEscalate H call).Leads given (fun answer told => Mutely H s told ∧
      told.history = given.history ++ [.escalate call answer]) E :=
    ⟨(hcounted.mono fun _ => mute_of_quiet).trans (Writes.tell rfl rfl), rfl⟩
  refine hasked.bind fun answer told ⟨htold, hhistory⟩ => ?_
  have hwrites : ∀ {s'}, Quietly H told s' → Mutely H s s' :=
    fun hw => htold.trans (hw.mono fun _ => mute_of_quiet)
  -- What was handed over had its authors asked for right before.
  have hguards : ∀ {later : List (Event P) → Prop} {evs}, (∀ e ∈ evs, e.quiet = true) →
      (∀ x ∈ handed, later evs → asked P x.authors <+: evs) →
      EscalatesWell H later (told.history ++ evs) := by
    intro later evs hq hlater
    rw [hhistory, append_assoc]
    refine (ho.quietly hcounted).settled.escalate (fun p hp => ?_) fun e he =>
      gives_of_quiet (hq e he)
    obtain ⟨x, hx, rfl⟩ := Option.map_eq_some_iff.mp hp
    obtain ⟨hprevious, hbefore⟩ := hgiven x hx
    refine ⟨x.authors, (hk x hprevious).quietly hcounted, ?_, hlater x hx⟩
    rw [hbefore]
    exact suffix_append _ _
  have hunused : ∀ {s'}, Quietly H told s' → Guarded H s'.history := by
    intro s' hw
    obtain ⟨evs, hevs, hq⟩ := hw.events
    rw [hevs]
    exact hguards hq fun _ _ huses =>
      absurd (verified_mute fun e he => mute_of_quiet (hq e he)) huses
  cases answer with
  | none => exact ⟨htold, hunused (Writes.refl _), fun h => by cases h⟩
  | some pair =>
    obtain ⟨author, value⟩ := pair
    refine (stillEligible_spec handed told).bind fun stand after ⟨hstill, hstand⟩ => ?_
    cases stand with
    | false => exact ⟨hwrites hstill, hunused hstill, fun h => by cases h⟩
    | true =>
      refine Leads.run rfl ?_
      have hall :
          Quietly H told
          (after.tell (.generation author.pod (H.generation after.history author.pod))) :=
        hstill.trans (Writes.tell rfl rfl)
      split
      · refine ⟨hwrites hall, ⟨ho.toAccounted.writes (hwrites hall), ?_⟩, ?_⟩
        · obtain ⟨evs, hevs, hq⟩ := hall.events
          rw [hevs]
          refine hguards hq fun x hx _ => ?_
          rw [Session.tell, hstand rfl x hx, append_assoc] at hevs
          rw [← append_cancel_left hevs]
          exact prefix_append _ _
        · have hbuilt : Authored H told.history value [author] := by
            rw [hhistory]
            exact ⟨[author], Built.escalated, fun _ h => h⟩
          exact hbuilt.quietly hall
      · exact ⟨hwrites hall, hunused hall, fun h => by cases h⟩

/-- **Every execution** gives a candidate with its authors, or leaves what it was to work
on in place. -/
theorem execute_spec {plan} (ho : Orderly H q s) (hk : plan.Known H s.history) (round : Nat) :
    (execute H plan round).Leads s (fun produced s' =>
      Mutely H s s' ∧ Executed H q plan s' produced) E := by
  cases plan with
  | escalate => exact execute_escalate ho hk round
  | propose pod reason =>
    let counted : Session P := { s with meter := s.meter.countPodCall }
    have hasked : (askPropose H ⟨pod, round, reason⟩).Leads counted
        (fun answer told => Writes H plain s told ∧
          told.history = s.history ++ [.propose ⟨pod, round, reason⟩ answer]) E :=
      ⟨(writes_countPodCall s).trans (Writes.tell ⟨rfl, rfl⟩ rfl), rfl⟩
    rw [execute]
    refine Leads.run rfl (hasked.bind fun answer told ⟨hwrites, htold⟩ => ?_)
    have horderly := ho.plainly hwrites
    cases answer with
    | none =>
      exact ⟨hwrites.mono fun _ he => he.1, horderly.settled.guarded, fun _ => horderly.settled⟩
    | some value =>
      refine ⟨hwrites.mono fun _ he => he.1, horderly, ?_⟩
      rw [htold]
      exact ⟨[pod], Built.proposed, fun _ h => h⟩
  | repair previous previousAuthors actions =>
    have hstart : Authored H s.history previous (previousAuthors ++ []) := by
      rw [append_nil]
      exact hk
    refine (repairs_spec previousAuthors round actions previous [] s hstart).bind
      fun (current, applied) s' h => ?_
    obtain ⟨hwrites, hauthored, hnone⟩ := h
    have horderly := ho.plainly hwrites
    dsimp only at hauthored hnone ⊢
    split
    · next hempty =>
      refine ⟨hwrites.mono fun _ he => he.1, horderly, ?_⟩
      rw [hempty, append_nil, (hnone hempty).2] at hauthored
      exact hauthored
    · obtain ⟨pods, hbuilt, hpods⟩ := hauthored
      exact ⟨hwrites.mono fun _ he => he.1, horderly, pods, hbuilt,
        fun pod hpod => mem_repairedAuthors (hpods pod hpod)⟩

/-! ### Judgement -/

/-- The budget of the request has room for a verdict. -/
abbrev Session.CallLeft (s : Session P) (q : VcwRequest) : Prop :=
  s.meter.used.verifierCalls < q.budget.verifierCalls

/-- A verdict on a payload that passes, with its authors standing after it. -/
def Passed (H : Host P) (required : VerificationLevel) (h : List (Event P)) (value : P)
    (authors : List PodRef) : Prop :=
  ∃ before report after, h = before ++ .verify value (some report) :: after ∧
    H.verify before value = some report ∧ report.passes required = true ∧
    ∀ a ∈ authors, generation a.pod (some a.generation) ∈ after

/-- The call of the verifier is charged, and it is the only one for the candidate. -/
theorem Orderly.verify (ho : Orderly H q s) (value : P) {meter}
    (hmeter : s.meter.chargeVerifier = .ok meter) :
    Orderly H q { s with
      history := s.history ++ [.verify value (H.verify s.history value)]
      meter := meter
      candidates := s.candidates ++ [value] } := by
  rw [BudgetMeter.chargeVerifier, ho.budget] at hmeter
  split at hmeter
  · cases hmeter
  next hleft =>
  cases hmeter
  have hverified : verified (s.history ++ [.verify value (H.verify s.history value)]) =
      verified s.history ++ [value] :=
    verified_append _ _
  refine ⟨⟨eachAfter_append_singleton.mpr ⟨ho.honest, rfl⟩, rfl, ?_, Nat.not_le.mp hleft,
      ho.rounds, ?_⟩, ?_⟩
  · rw [hverified, length_append, ho.calls]
    rfl
  · rw [hverified]
    exact ho.once.append (Sublist.refl _)
  · exact ho.settled.append (forall_mem_singleton.mpr rfl)

theorem integrate_spec {author : PodRef} {value report} : (integrate H author value report).Leads s
    (fun outcome s' => Quietly H s s' ∧
      s'.history = s.history ++ [.integrate author value report (.ok outcome)])
    fun e s' => Quietly H s s' ∧ Unbreached e := by
  rw [Leads, integrate]
  generalize hanswer : H.integrate s.history author value report = answer
  have hquiet : Quietly H s (s.tell (.integrate author value report answer)) :=
    Writes.tell rfl hanswer.symm
  cases answer with
  | error => exact ⟨hquiet, VcwError.noConfusion⟩
  | ok => exact ⟨hquiet, rfl⟩

/-- **A judgement** charges the verifier, asks it once and then looks at the authors. -/
theorem judge_spec {value} (ho : Orderly H q s) (hleft : s.CallLeft q)
    (ha : Authored H s.history value authors) :
    (judge L H q value authors).Leads { s with candidates := s.candidates ++ [value] }
      (fun judged s' => Orderly H q s' ∧ s'.meter.used.rounds = s.meter.used.rounds ∧
        Authored H s'.history value authors ∧
        (judged.reportClass = .accept → judged.authorsEligible = true →
          Passed H q.required s'.history value authors))
      fun e s' => Orderly H q s' ∧ Unbreached e := by
  rw [judge]
  cases hauthor : authors.getLast? with
  | none =>
    exact ⟨⟨⟨ho.honest, ho.budget, ho.calls, ho.within, ho.rounds,
        ho.once.trans (sublist_append_left _ _)⟩, ho.settled⟩, by decide⟩
  | some author =>
    obtain ⟨meter, hmeter, hrounds⟩ : ∃ meter, s.meter.chargeVerifier = .ok meter ∧
        meter.used.rounds = s.meter.used.rounds := by
      rw [BudgetMeter.chargeVerifier, ho.budget, if_neg (Nat.not_le.mpr hleft)]
      exact ⟨_, rfl, rfl⟩
    have hcharged : chargeVerifier { s with candidates := s.candidates ++ [value] } =
        (.ok (), { s with meter := meter, candidates := s.candidates ++ [value] }) := by
      rw [chargeVerifier, hmeter]
    have hverdict := ho.verify value hmeter
    refine Leads.run hcharged (Leads.run rfl ?_)
    dsimp only
    split
    · exact ⟨hverdict, by decide⟩
    refine (integrate_spec.imp (fun _ _ h => h) fun _ _ h => ⟨hverdict.quietly h.1, h.2⟩).bind
      fun outcome mid ⟨hintegrated, hmid⟩ => (eligible_spec authors mid).bind
      fun stand final ⟨hasked, hstand⟩ => ?_
    have hquiet := hintegrated.trans hasked
    have hauthored :
        Authored H (s.history ++ [.verify value (H.verify s.history value)]) value authors :=
      ha.kept (forall_mem_singleton.mpr rfl)
    refine ⟨hverdict.quietly hquiet, hquiet.rounds.trans hrounds, Authored.quietly hauthored hquiet,
      fun haccept hs => ?_⟩
    have hpasses := classify_eq_accept.mp haccept
    cases hanswer : H.verify s.history value with
    | none =>
      rw [hanswer, Option.getD_none, passes_panicReport] at hpasses
      cases hpasses
    | some report =>
      rw [hanswer, Option.getD_some] at hpasses
      refine ⟨s.history, report, .integrate author value report (.ok outcome) :: asked P authors,
        ?_, hanswer, hpasses, fun a hmem => mem_cons_of_mem _ (mem_map.mpr ⟨a, hmem, rfl⟩)⟩
      rw [hstand hs, hmid, Session.tell, hanswer, append_assoc, append_assoc]
      rfl

/-! ### Rounds -/

/-- The plan of a fallback proposes, or escalates what it was given. -/
theorem routeFallback_spec {reason}
    (hp : ∀ handed ∈ previous, Authored H s.history handed.value handed.authors) :
    (routeFallback L H q reason previous).Leads s
      (fun a s' => Quietly H s s' ∧ a.plan.Known H s'.history)
      fun e s' => Quietly H s s' ∧ Unbreached e := by
  refine ((quietly_route _ _ _).leads s).bind fun outcome s' hquiet => ?_
  cases outcome with
  | regenerate => exact ⟨hquiet, trivial⟩
  | escalate => exact ⟨hquiet, fun handed hh => (hp handed hh).quietly hquiet⟩
  | accept | repair => exact ⟨hquiet, by decide⟩

theorem routeNext_spec {judged value} (ha : Authored H s.history value authors) :
    (routeNext L H q judged value authors).Leads s
      (fun next s' => Quietly H s s' ∧ next.1.plan.Known H s'.history)
      fun e s' => Quietly H s s' ∧ Unbreached e := by
  have hsome : ∀ {s' : Session P}, Quietly H s s' → ∀ handed ∈ some (⟨value, authors⟩ : Handed P),
      Authored H s'.history handed.value handed.authors := by
    intro s' hquiet handed hh
    cases hh
    exact ha.quietly hquiet
  rw [routeNext]
  split
  · exact (routeFallback_spec (hsome (Writes.refl s))).bind fun _ _ h => h
  refine ((quietly_route _ _ _).leads s).bind fun outcome mid hquiet => ?_
  cases outcome with
  | accept => exact ⟨hquiet, by decide⟩
  | regenerate => exact ⟨hquiet, trivial⟩
  | escalate => exact ⟨hquiet, hsome hquiet⟩
  | repair =>
    dsimp only
    split
    · refine ((routeFallback_spec (hsome hquiet)).imp (fun _ _ h => h) fun _ _ h => ?_).bind
        fun _ _ h => ?_
      · exact ⟨hquiet.trans h.1, h.2⟩
      · exact ⟨hquiet.trans h.1, h.2⟩
    · exact ⟨hquiet, ha.quietly hquiet⟩

structure Ended (H : Host P) (q : VcwRequest) (s : Session P) : Prop extends Accounted H q s where
  guarded : Guarded H s.history

theorem Orderly.ended (h : Orderly H q s) : Ended H q s := ⟨h.toAccounted, h.settled.guarded⟩

theorem Orderly.step (h : Orderly H q s) (a : Attempt P) (round : Nat) (authors : List PodRef)
    (decision : StepDecision) :
    Orderly H q (pushStep a round authors decision s) :=
  h.quietly (Writes.step a round authors decision)

/-- What a round leaves: the request has ended, with an answer that holds, or another
attempt can be made. -/
def Leaves (H : Host P) (q : VcwRequest) (rounds : Nat) (next : Next P) (s : Session P) : Prop :=
  match next with
  | .finished f => Ended H q s ∧ ∀ answer, f = .verified answer →
      Authored H s.history answer.payload answer.authors ∧
      Passed H q.required s.history answer.payload answer.authors
  | .attempt a =>
    Orderly H q s ∧ s.CallLeft q ∧ s.meter.used.rounds = rounds ∧ a.plan.Known H s.history

def Fails (H : Host P) (q : VcwRequest) (e : VcwError) (s : Session P) : Prop :=
  Ended H q s ∧ Unbreached e

theorem Orderly.fails (h : Orderly H q s) {e} (hfails : Quietly H s s' ∧ Unbreached e) :
    Fails H q e s' :=
  ⟨(h.quietly hfails.1).ended, hfails.2⟩

/-- A fallback leaves another attempt. -/
theorem Orderly.fallsBack {reason} (h : Orderly H q s) (hleft : s.CallLeft q)
    (hp : ∀ handed ∈ previous, Authored H s.history handed.value handed.authors) :
    (routeFallback L H q reason previous).Leads s
      (fun a s' => Leaves H q s.meter.used.rounds (.attempt a) s') (Fails H q) :=
  (routeFallback_spec hp).imp
    (fun _ _ ⟨hquiet, hknown⟩ =>
    ⟨h.quietly hquiet, hquiet.calls.trans_lt hleft, hquiet.rounds, hknown⟩)
    fun _ _ => h.fails

theorem consider_spec {round value} (ho : Orderly H q s) (hleft : s.CallLeft q)
    (ha : Authored H s.history value authors) :
    (consider L H q a round value authors).Leads s (Leaves H q s.meter.used.rounds)
      (Fails H q) := by
  rw [consider]
  refine Leads.run rfl (((judge_spec ho hleft ha).imp (fun _ _ h => h) fun _ _ h =>
    h.1.fails ⟨Writes.step a round authors .judgeFailed, h.2⟩).onError.bind
      fun judged mid hjudged => ?_)
  obtain ⟨horderly, hrounds, hauthored, hpassed⟩ := hjudged
  have hstep : ∀ decision, Orderly H q (pushStep a round authors decision mid) :=
    horderly.step a round authors
  split
  · next haccept =>
    cases authors.getLast? with
    | none => exact ⟨horderly.ended, by decide⟩
    | some =>
      refine ⟨(hstep .accepted).ended, fun answer hanswer => ?_⟩
      cases hanswer
      exact ⟨hauthored, hpassed haccept.1 haccept.2⟩
  refine Leads.run rfl ?_
  split
  · exact ⟨(hstep _).ended, fun answer hanswer => by cases hanswer⟩
  · next hstop =>
    have hmore : mid.CallLeft q := by
      rw [BudgetMeter.stopAfterVerdict, horderly.budget] at hstop
      split at hstop
      · cases hstop
      · next hlt => exact not_le.mp hlt
    refine ((routeNext_spec hauthored).imp (fun _ _ h => h) fun _ _ h =>
      horderly.fails ⟨h.1.trans (Writes.step a round authors .routingFailed), h.2⟩).onError.bind
        fun next after ⟨hquiet, hknown⟩ => ?_
    exact ⟨(horderly.quietly hquiet).step a round authors _, hquiet.calls.trans_lt hmore,
      hquiet.rounds.trans hrounds, hknown⟩

theorem conclude_spec {round produced} (hacc : Accounted H q s)
    (hleft : s.CallLeft q) (hex : Executed H q a.plan s produced) :
    (conclude L H q a round produced).Leads s (Leaves H q s.meter.used.rounds) (Fails H q) := by
  -- Without a candidate an escalation ends the request, and anything else falls back.
  have hwithout : Guarded H s.history → (a.plan.isEscalate = false → Settled H s.history) →
      (conclude L H q a round .nothing).Leads s (Leaves H q s.meter.used.rounds) (Fails H q) := by
    intro hguarded hsettled
    have hstep : Accounted H q (pushStep a round [] .noCandidate s) :=
      hacc.quietly (Writes.step a round [] .noCandidate)
    rw [conclude]
    refine Leads.run rfl ?_
    cases hplan : a.plan with
    | escalate => exact ⟨⟨hstep, hguarded⟩, fun answer hanswer => by cases hanswer⟩
    | propose | repair =>
      rw [hplan] at hsettled
      exact (Orderly.fallsBack ⟨hstep, hsettled rfl⟩ hleft fun _ hh => by cases hh).bind
        fun _ _ h => h
  cases produced with
  | candidate => exact consider_spec hex.1 hleft hex.2
  | nothing => exact hwithout hex.1 hex.2
  | declined => exact hwithout hex.1.settled.guarded fun _ => hex.1.settled

/-- **One round.** -/
theorem round_spec (ho : Orderly H q s) (hleft : s.CallLeft q)
    (hk : a.plan.Known H s.history) :
    (round L H q a).Leads s (Leaves H q s.meter.used.rounds) (Fails H q) := by
  rw [round]
  refine Leads.run rfl ((execute_spec ho hk _).bind fun produced mid ⟨hwrites, hex⟩ => ?_)
  have hmid : mid.CallLeft q := hwrites.calls.trans_lt hleft
  rw [← hwrites.rounds]
  cases produced with
  | candidate | nothing => exact conclude_spec (ho.toAccounted.writes hwrites) hmid hex
  | declined =>
    obtain ⟨horderly, hknown⟩ := hex
    have hhanded : ∀ handed ∈ a.plan.handed,
        Authored H mid.history handed.value handed.authors := by
      intro handed hh
      cases hplan : a.plan with
      | repair =>
        rw [hplan] at hh hknown
        cases hh
        exact hknown
      | propose | escalate =>
        rw [hplan] at hh
        cases hh
    refine (horderly.fallsBack hmid hhanded).bind fun next after hnext => ?_
    obtain ⟨hafter, hcalls, hrounds, hknown'⟩ := hnext
    dsimp only
    split
    · exact ⟨hafter.step a _ [] .escalate, hcalls, hrounds, hknown'⟩
    refine (execute_spec hafter hknown' _).bind fun produced final ⟨hwrites', hex'⟩ => ?_
    rw [← hrounds, ← hwrites'.rounds]
    exact conclude_spec (hafter.toAccounted.writes hwrites') (hwrites'.calls.trans_lt hcalls) hex'

structure Concludes (H : Host P) (q : VcwRequest) (s : Session P)
    (r : Except VcwError (Finished P)) :
    Prop where
  ended : Ended H q s
  unbreached : ∀ e, r = .error e → Unbreached e
  answers : ∀ answer, r = .ok (.verified answer) →
    Authored H s.history answer.payload answer.authors ∧
    Passed H q.required s.history answer.payload answer.authors

theorem Orderly.exhausted (h : Orderly H q s) (reason : ExhaustionReason) :
    Concludes H q s (.ok (.exhausted reason)) :=
  ⟨h.ended, fun _ he => (by cases he), fun _ hanswer => (by cases hanswer)⟩

theorem Fails.concludes {e} (h : Fails H q e s) : Concludes H q s (.error e) := by
  refine ⟨h.1, ?_, fun _ hanswer => by cases hanswer⟩
  intro e' he'
  cases he'
  exact h.2

/-- **All rounds**: one for each that is left of the budget, and the first. -/
theorem rounds_spec {fuel} (ho : Orderly H q s) (hleft : s.CallLeft q)
    (hk : a.plan.Known H s.history) (hfuel : q.budget.rounds + 1 ≤ s.meter.used.rounds + fuel) :
    ∃ r s', rounds L H q fuel a s = some (r, s') ∧ Concludes H q s' r := by
  induction fuel generalizing a s with
  | zero =>
    have hrounds := ho.rounds
    omega
  | succ fuel ih =>
    rw [rounds]
    generalize hround : round L H q a s = result
    obtain ⟨r, mid⟩ := result
    have hspec : (round L H q a).Leads s _ _ := round_spec ho hleft hk
    rw [Leads, hround] at hspec
    cases r with
    | error => exact ⟨_, _, rfl, hspec.concludes⟩
    | ok next =>
      cases next with
      | finished =>
        refine ⟨_, _, rfl, ⟨hspec.1, fun e he => (by cases he), ?_⟩⟩
        intro answer hanswer
        cases hanswer
        exact hspec.2 answer rfl
      | attempt =>
        obtain ⟨horderly, hcalls, hrounds, hknown⟩ := hspec
        dsimp only
        cases hmeter : mid.meter.chargeRound with
        | error reason => exact ⟨_, _, rfl, horderly.exhausted reason⟩
        | ok meter =>
          obtain ⟨hmore, hbudget, hused, hone⟩ := BudgetMeter.chargeRound_eq_ok hmeter
          rw [horderly.budget] at hmore
          refine ih ⟨⟨horderly.honest, hbudget.trans horderly.budget, ?_, ?_, ?_,
            horderly.once⟩, horderly.settled⟩ (hused.trans_lt hcalls) hknown ?_
          · exact horderly.calls.trans hused.symm
          · exact hused.trans_le horderly.within
          · exact hone.trans_le hmore
          · show q.budget.rounds + 1 ≤ meter.used.rounds + fuel
            omega

theorem orderly_new : Orderly H q (.new P q.budget) :=
  ⟨⟨eachAfter_nil, rfl, rfl, Nat.zero_le _, Nat.zero_le _, Sublist.refl _⟩, settled_nil⟩

theorem drive_spec :
    ∃ r s', drive L H q (q.budget.rounds + 1) (.new P q.budget) = some (r, s') ∧
      Concludes H q s' r := by
  have hspec : (routeFallback L H q .unknown none).Leads (.new P q.budget) _ _ :=
    orderly_new.fallsBack q.budget.verifierCalls_pos fun _ hh => by cases hh
  rw [Leads] at hspec
  rw [drive]
  split at hspec
  · next a s heq =>
    obtain ⟨horderly, hcalls, hrounds, hknown⟩ := hspec
    rw [heq]
    refine rounds_spec horderly hcalls ?_ (by omega)
    split <;> exact hknown
  · next heq =>
    rw [heq]
    exact ⟨_, _, rfl, hspec.concludes⟩

/-- **A verified answer is verified, attributed and within budget.**  Whatever the
surroundings answer, a request returns after at most one round more than its budget; the
verifier is called at most once for each candidate and no more often than budgeted, and no
budget is breached; an answer comes with a verdict of the verifier on just its payload
that passes, behind which all authors stand, and these include everyone the payload was
built from; and a candidate is given to an escalation only while its authors stand, and
the answer is used only if they still do. -/
theorem verified_answer_is_verified (L : VcwLoop) (H : Host P) (q : VcwRequest) :
    ∃ r s, run L H q (q.budget.rounds + 1) = some (r, s) ∧ Honest H s.history ∧
      s.meter.used.rounds ≤ q.budget.rounds ∧
      (verified s.history).Sublist s.candidates ∧
      (verified s.history).length ≤ q.budget.verifierCalls ∧
      r ≠ .error (.internal "verifier budget breached") ∧
      (∀ answer, r = .ok (.verified answer) →
        (∃ before report after, s.history =
          before ++ .verify answer.payload (some report) :: after ∧
          H.verify before answer.payload = some report ∧ report.passes q.required = true ∧
          ∀ a ∈ answer.authors, generation a.pod (some a.generation) ∈ after) ∧
        ∃ pods, Built H s.history answer.payload pods ∧ ∀ pod ∈ pods, pod ∈ answer.authors) ∧
      ∀ before call outcome after p, s.history = before ++ .escalate call outcome :: after →
      call.previous = some p →
        ∃ authors, (∃ pods, Built H before p pods ∧ ∀ pod ∈ pods, pod ∈ authors) ∧
        asked P authors <:+ before ∧ (verified after ≠ [] → asked P authors <+: after) := by
  obtain ⟨r, s, hrun, hended, herror, hanswer⟩ :
    ∃ r s', run L H q (q.budget.rounds + 1) = some (r, s') ∧ Concludes H q s' r := by
    rw [run]
    split
    · exact drive_spec
    · exact ⟨_, _, rfl, Fails.concludes ⟨orderly_new.ended, by decide⟩⟩
  refine ⟨r, s, hrun, hended.honest, hended.rounds, hended.once, ?_, ?_, ?_, hended.guarded⟩
  · rw [hended.calls]
    exact hended.within
  · intro hr
    exact herror _ hr rfl
  · intro answer hr
    exact ⟨(hanswer answer hr).2, (hanswer answer hr).1⟩

end Ptr.Vcw
