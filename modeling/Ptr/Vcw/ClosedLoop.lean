import Ptr.Vcw.Session

/-!
# The verifier-closed loop

A request asks a proposer for a candidate, has it verified once, and then repairs it,
draws a fresh one or escalates, until a candidate is accepted or a budget is spent.
-/

namespace Ptr.Vcw

open Lib Act
open Ptr.Runtime (VerificationStatus)

variable {P : Type}

/-! ### Attempts -/

/-- A candidate handed on, with every Pod whose output is in it. -/
structure Handed (P : Type) where
  value : P
  authors : List PodRef

inductive Plan (P : Type)
  | propose (pod : PodRef) (reason : Option FallbackReason)
  | repair (previous : P) (previousAuthors : List PodRef) (actions : List (PodRef × FindingCode))
  | escalate (reason : EscalationReason) (previous : Option (Handed P))

/-- What is tried in a round; what only the observers read is left out. -/
structure Attempt (P : Type) where
  origin : StepOrigin
  routes : List FindingRouteRecord
  unroutable : List FindingCode
  plan : Plan P

inductive Produced (P : Type)
  | candidate (value : P) (authors : List PodRef)
  | nothing
  | declined

structure VerifiedAnswer (P : Type) where
  payload : P
  author : PodRef
  authors : List PodRef
  project : ProjectId
  requestId : RequestId
  requestDigest : Digest
  required : VerificationLevel
  workspace : WorkspaceOutcome

inductive Finished (P : Type)
  | verified (answer : VerifiedAnswer P)
  | exhausted (reason : ExhaustionReason)
  | escalated (reason : EscalationReason)

structure VcwRequest where
  requestId : RequestId
  project : ProjectId
  requestDigest : Digest
  required : VerificationLevel
  budget : RequestBudget

/-- The loop.  A policy that escalates `Unknown` could never ask a proposer, so it is
refused when a loop is built. -/
structure VcwLoop where
  router : FindingRouter
  workspaceConfig : VerificationLevel → Bool
  regenerates : router.fallback.unknown = .regenerate

def pushStep (a : Attempt P) (round : Nat) (authors : List PodRef) (decision : StepDecision)
    (s : Session P) : Session P :=
  { s with
    steps :=
    s.steps ++ [⟨round, a.origin, authors, a.routes, a.unroutable, decision, s.meter.used⟩] }

section Loop

variable (L : VcwLoop) (H : Host P) (q : VcwRequest)

def routeFallback (reason : FallbackReason) (previous : Option (Handed P)) :
    Turn P (Attempt P) := do
  let status : VerificationStatus := if reason = .failWithoutHardFinding then .fail else .unknown
  match ← L.router.route H (synthetic status) q.required with
  | .regenerate reason proposer =>
    pure ⟨.regenerated, [proposer], [], .propose ⟨proposer.pod, proposer.podGeneration⟩
      (some reason)⟩
  | .escalate reason => pure ⟨.escalated, [], [], .escalate reason previous⟩
  | .accept => throw (.internal "a report without evidence was routed")
  | .repair _ => throw (.internal "a report without evidence was routed")

/-! ### Execution -/

def countPodCall : Turn P Unit := modify fun s => { s with meter := s.meter.countPodCall }

def askPropose (call : ProposeCall) : Turn P (Option P) := fun s =>
  (.ok (H.propose s.history call), s.tell (.propose call (H.propose s.history call)))

def askRepair (call : RepairCall P) : Turn P (Option P) := fun s =>
  (.ok (H.repair s.history call), s.tell (.repair call (H.repair s.history call)))

def askEscalate (call : EscalateCall P) : Turn P (Option (PodRef × P)) := fun s =>
  (.ok (H.escalate s.history call), s.tell (.escalate call (H.escalate s.history call)))

/-- The repair Pods one after another, each with the candidate the ones before it left;
with the Pods whose edits were applied, the last editor at the end. -/
def repairs (round : Nat) : List (PodRef × FindingCode) → P → List PodRef → Turn P (P × List PodRef)
  | [], current, applied => pure (current, applied)
  | (pod, code) :: actions, current, applied => do
    countPodCall
    match ← askRepair H ⟨pod, round, code, current⟩ with
    | some edited =>
      if H.confinedTo current edited [code] then
        repairs round actions edited (applied.filter (· ≠ pod) ++ [pod])
      else repairs round actions current applied
    | none => repairs round actions current applied

def repairedAuthors (previous applied : List PodRef) : List PodRef :=
  previous.filter (· ∉ applied) ++ applied

def handedOver : Option (Handed P) → Turn P (Option (Handed P))
  | none => pure none
  | some previous => do
    if ← eligible H previous.authors then pure (some previous) else pure none

def stillEligible : Option (Handed P) → Turn P Bool
  | none => pure true
  | some handed => eligible H handed.authors

def execute (plan : Plan P) (round : Nat) : Turn P (Produced P) :=
  match plan with
  | .propose pod reason => do
    countPodCall
    match ← askPropose H ⟨pod, round, reason⟩ with
    | some value => pure (.candidate value [pod])
    | none => pure .nothing
  | .repair previous previousAuthors actions => do
    let (current, applied) ← repairs H round actions previous []
    if applied = [] then pure .declined
    else pure (.candidate current (repairedAuthors previousAuthors applied))
  | .escalate reason previous => do
    countPodCall
    let handed ← handedOver H previous
    match ← askEscalate H ⟨round, reason, handed.map Handed.value⟩ with
    | none => pure .nothing
    | some (author, value) => do
      if ← stillEligible H handed then
        let current ← currentGeneration H author.pod
        if current = some author.generation then pure (.candidate value [author]) else pure .nothing
      else pure .nothing

/-! ### Judgement -/

structure Judged where
  reportClass : ReportClass
  report : VerificationReport
  workspace : WorkspaceOutcome
  authorsEligible : Bool

def chargeVerifier : Turn P Unit := fun s =>
  match s.meter.chargeVerifier with
  | .ok meter => (.ok (), { s with meter := meter })
  | .error _ => (.error (.internal "verifier budget breached"), s)

def verify (value : P) : Turn P VerificationReport := fun s =>
  (.ok ((H.verify s.history value).getD panicReport),
    s.tell (.verify value (H.verify s.history value)))

def integrate (author : PodRef) (value : P) (report : VerificationReport) :
    Turn P WorkspaceOutcome := fun s =>
  ((H.integrate s.history author value report).mapError .workspace,
    s.tell (.integrate author value report (H.integrate s.history author value report)))

def judge (value : P) (authors : List PodRef) : Turn P Judged :=
  match authors.getLast? with
  | none => throw (.internal "a candidate without an author")
  | some author => do
    chargeVerifier
    let report ← verify H value
    let reportClass := classify report q.required L.router.limits
    if decide (reportClass = .accept) ≠ report.passes q.required then throw .gateDisagreement
    else do
      let workspace ← integrate H author value report
      let authorsEligible ← eligible H authors
      pure ⟨reportClass, report, workspace, authorsEligible⟩

/-! ### Routing the next step -/

def repairActions (routes : List CodeRoute) : List (PodRef × FindingCode) :=
  routes.filterMap fun
    | .routed ⟨.repair code, pod, generation⟩ => some (⟨pod, generation⟩, code)
    | _ => none

def routedRecords (routes : List CodeRoute) : List FindingRouteRecord :=
  routes.filterMap fun
    | .routed record => some record
    | .unroutable _ => none

def unroutableCodes (routes : List CodeRoute) : List FindingCode :=
  routes.filterMap fun
    | .routed _ => none
    | .unroutable code => some code

def Plan.isEscalate : Plan P → Bool
  | .escalate _ _ => true
  | _ => false

def routeNext (judged : Judged) (value : P) (authors : List PodRef) :
    Turn P (Attempt P × StepDecision) :=
  if judged.reportClass = .accept then do
    let attempt ← routeFallback L H q .unknown (some ⟨value, authors⟩)
    pure (attempt, .authorNoLongerEligible)
  else do
    match ← L.router.route H judged.report q.required with
    | .accept => throw .gateDisagreement
    | .regenerate reason proposer =>
      pure (⟨.regenerated, [proposer], [],
          .propose ⟨proposer.pod, proposer.podGeneration⟩ (some reason)⟩, .regenerate)
    | .escalate reason =>
      pure (⟨.escalated, [], [], .escalate reason (some ⟨value, authors⟩)⟩, .escalate)
    | .repair routes =>
      if repairActions routes = [] then do
        let attempt ← routeFallback L H q .failWithoutHardFinding (some ⟨value, authors⟩)
        pure ({ attempt with unroutable := unroutableCodes routes },
          if attempt.plan.isEscalate then .escalate else .regenerate)
      else
        pure (⟨.repaired, routedRecords routes, unroutableCodes routes,
            .repair value authors (repairActions routes)⟩,
          .repair)

/-! ### Rounds -/

inductive Next (P : Type)
  | finished (f : Finished P)
  | attempt (a : Attempt P)

def consider (a : Attempt P) (round : Nat) (value : P) (authors : List PodRef) :
    Turn P (Next P) := do
  modify fun s => { s with candidates := s.candidates ++ [value] }
  let judged ← (judge L H q value authors).onError (pushStep a round authors .judgeFailed)
  if judged.reportClass = .accept ∧ judged.authorsEligible then
    match authors.getLast? with
    | none => throw (.internal "a candidate without an author")
    | some author => do
      modify (pushStep a round authors .accepted)
      pure (.finished (.verified ⟨value, author, authors, q.project, q.requestId,
          q.requestDigest, q.required,
        judged.workspace⟩))
  else do
    match (← gets Session.meter).stopAfterVerdict with
    | some reason => do
      modify (pushStep a round authors (.stopped reason))
      pure (.finished (.exhausted reason))
    | none => do
      let (next, decision) ← (routeNext L H q judged value authors).onError
        (pushStep a round authors .routingFailed)
      modify (pushStep a round authors
        (if judged.reportClass = .accept then .authorNoLongerEligible else decision))
      pure (.attempt next)

def conclude (a : Attempt P) (round : Nat) : Produced P → Turn P (Next P)
  | .candidate value authors => consider L H q a round value authors
  | .nothing | .declined => do
    modify (pushStep a round [] .noCandidate)
    match a.plan with
    | .escalate reason _ => pure (.finished (.escalated reason))
    | _ => do
      let next ← routeFallback L H q .unknown none
      pure (.attempt next)

def Plan.handed : Plan P → Option (Handed P)
  | .repair previous previousAuthors _ => some ⟨previous, previousAuthors⟩
  | _ => none

/-- One round.  A declined repair is followed by a fresh draw in the same round, or by an
escalation in the next one. -/
def round (a : Attempt P) : Turn P (Next P) := do
  let round := (← gets Session.meter).used.rounds
  match ← execute H a.plan round with
  | .declined => do
    let next ← routeFallback L H q .failWithoutHardFinding a.plan.handed
    if next.plan.isEscalate then do
      modify (pushStep a round [] .escalate)
      pure (.attempt next)
    else do
      let a : Attempt P :=
        { next with
        routes := a.routes ++ next.routes, unroutable := a.unroutable ++ next.unroutable }
      conclude L H q a round (← execute H a.plan round)
  | produced => conclude L H q a round produced

/-- The rounds of a request: the first is free, each further one is charged. -/
def rounds : Nat → Attempt P → Session P → Option (Except VcwError (Finished P) × Session P)
  | 0, _, _ => none
  | fuel + 1, a, s =>
    match round L H q a s with
    | (.error e, s) => some (.error e, s)
    | (.ok (.finished f), s) => some (.ok f, s)
    | (.ok (.attempt next), s) =>
      match s.meter.chargeRound with
      | .error reason => some (.ok (.exhausted reason), s)
      | .ok meter => rounds fuel next { s with meter := meter }

def drive (fuel : Nat) (s : Session P) : Option (Except VcwError (Finished P) × Session P) :=
  match routeFallback L H q .unknown none s with
  | (.error e, s) => some (.error e, s)
  | (.ok a, s) =>
    rounds L H q fuel (match a.plan with
      | .propose _ _ => { a with origin := .initial }
      | _ => a) s

def run (fuel : Nat) : Option (Except VcwError (Finished P) × Session P) :=
  if L.workspaceConfig q.required then drive L H q fuel (.new P q.budget)
  else some (.error .workspaceConfig, .new P q.budget)

end Loop

end Ptr.Vcw
