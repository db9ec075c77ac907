import Ptr.Lib.Act
import Ptr.Vcw.Report

/-!
# The session of a request, and the router

Everything the loop does not decide itself is an answer of its surroundings: which Pods
stand, what the Pods and the verifier say, which Pod is drawn, what the workspace does
with a candidate.  Any of them may change its mind between two calls, so an answer is a
function of all that was asked and answered before (`Host`).
-/

namespace Ptr.Vcw

open Lib
open Ptr.Runtime (VerificationStatus)

inductive RouteClass
  | repair (code : FindingCode)
  | regenerate (reason : FallbackReason)

inductive EscalationReason
  | policy (reason : FallbackReason)
  | noProposer (reason : FallbackReason)

inductive RouteFailure
  | scorer
  | distribution
  | invalidPropensity
  | outsideAdmissibleSet (pod : PodId)
  | noMass
  | nonceExhausted
  deriving DecidableEq

inductive WorkspaceOutcome
  | notSubmitted (why : String)
  | admitted
  | refused (kind : String)
  | unlisted

inductive VcwError
  | config (why : String)
  | workspaceConfig
  | workspace (error : String)
  | badVerifierIdentity
  | route (failure : RouteFailure)
  | gateDisagreement
  | internal (why : String)
  deriving DecidableEq

structure ProposeCall where
  pod : PodRef
  round : Nat
  reason : Option FallbackReason

structure RepairCall (P : Type) where
  pod : PodRef
  round : Nat
  code : FindingCode
  previous : P

structure EscalateCall (P : Type) where
  round : Nat
  reason : EscalationReason
  previous : Option P

/-- A question of the loop with the answer it got. -/
inductive Event (P : Type)
  | generation (pod : PodId) (answer : Option Generation)
  | sample (routeClass : RouteClass) (admissible : List PodId) (answer : Except RouteFailure PodId)
  | propose (call : ProposeCall) (answer : Option P)
  | repair (call : RepairCall P) (answer : Option P)
  | escalate (call : EscalateCall P) (answer : Option (PodRef × P))
  | verify (value : P) (answer : Option VerificationReport)
  | integrate (author : PodRef) (value : P) (report : VerificationReport)
    (answer : Except String WorkspaceOutcome)

/-- What answers the loop.  A verifier that panics gives no report.  The draw of a Pod
stands for the scorer, the nonces and the key. -/
structure Host (P : Type) where
  generation : List (Event P) → PodId → Option Generation
  sample : List (Event P) → RouteClass → List PodId → Except RouteFailure PodId
  propose : List (Event P) → ProposeCall → Option P
  repair : List (Event P) → RepairCall P → Option P
  escalate : List (Event P) → EscalateCall P → Option (PodRef × P)
  verify : List (Event P) → P → Option VerificationReport
  integrate : List (Event P) → PodRef → P → VerificationReport → Except String WorkspaceOutcome
  confinedTo : P → P → List FindingCode → Bool

inductive StepOrigin
  | initial | repaired | regenerated | escalated

inductive StepDecision
  | accepted
  | authorNoLongerEligible
  | repair
  | regenerate
  | escalate
  | stopped (reason : ExhaustionReason)
  | noCandidate
  | routingFailed
  | judgeFailed

/-- A sampled choice; what the estimators need of it is left out. -/
structure FindingRouteRecord where
  routeClass : RouteClass
  pod : PodId
  podGeneration : Generation

structure TraceStep where
  round : Nat
  origin : StepOrigin
  authors : List PodRef
  routes : List FindingRouteRecord
  unroutable : List FindingCode
  decision : StepDecision
  budgetAfter : BudgetUse

/-- The state of a request: what was asked so far, the budget spent, the trace, and the
candidates that were produced. -/
structure Session (P : Type) where
  history : List (Event P)
  meter : BudgetMeter
  steps : List TraceStep
  candidates : List P

variable {P : Type}

abbrev Turn (P α : Type) := Act (Session P) VcwError α

def Session.new (P : Type) (budget : RequestBudget) : Session P := ⟨[], .new budget, [], []⟩

def Session.tell (s : Session P) (e : Event P) : Session P := { s with history := s.history ++ [e] }

/-! ### Questions -/

section Questions

variable (H : Host P)

def currentGeneration (pod : PodId) : Turn P (Option Generation) := fun s =>
  (.ok (H.generation s.history pod), s.tell (.generation pod (H.generation s.history pod)))

/-- Whether all authors stand at their generations; the first that does not ends it. -/
def eligible : List PodRef → Turn P Bool
  | [] => pure true
  | a :: as => do
    let current ← currentGeneration H a.pod
    if current = some a.generation then eligible as else pure false

def filterEligible : List PodId → Turn P (List PodId)
  | [] => pure []
  | pod :: pods => do
    let current ← currentGeneration H pod
    let rest ← filterEligible pods
    pure (if current.isSome then pod :: rest else rest)

def draw (c : RouteClass) (admissible : List PodId) : Turn P PodId := fun s =>
  let answer := H.sample s.history c admissible
  let s := s.tell (.sample c admissible answer)
  match answer with
  | .ok pod => (.ok pod, s)
  | .error failure => (.error (.route failure), s)

def sample (c : RouteClass) (admissible : List PodId) : Turn P FindingRouteRecord := do
  let pod ← draw H c admissible
  match ← currentGeneration H pod with
  | some generation => pure ⟨c, pod, generation⟩
  | none => Act.throw (.route (.outsideAdmissibleSet pod))

end Questions

/-! ### The router -/

inductive CodeRoute
  | routed (record : FindingRouteRecord)
  | unroutable (code : FindingCode)

inductive RouteOutcome
  | accept
  | repair (routes : List CodeRoute)
  | regenerate (reason : FallbackReason) (proposer : FindingRouteRecord)
  | escalate (reason : EscalationReason)

structure FindingRouter where
  repairPods : FindingCode → List PodId
  proposers : List PodId
  fallback : FallbackPolicy
  limits : RouterLimits

namespace FindingRouter

variable (R : FindingRouter) (H : Host P)

def routeCode (code : FindingCode) : Turn P CodeRoute := do
  let eligible ← filterEligible H (R.repairPods code)
  if eligible = [] then pure (.unroutable code)
  else do
    let record ← sample H (.repair code) eligible
    pure (.routed record)

def routeCodes : List FindingCode → Turn P (List CodeRoute)
  | [] => pure []
  | code :: codes => do
    let route ← R.routeCode H code
    let rest ← routeCodes codes
    pure (route :: rest)

def route (r : VerificationReport) (required : VerificationLevel) : Turn P RouteOutcome :=
  match classify r required R.limits with
  | .accept => pure .accept
  | .repair codes => do
    let routes ← R.routeCodes H codes
    pure (.repair routes)
  | .fallback reason =>
    match R.fallback.action reason with
    | .escalate => pure (.escalate (.policy reason))
    | .regenerate => do
      let eligible ← filterEligible H R.proposers
      if eligible = [] then pure (.escalate (.noProposer reason))
      else do
        let proposer ← sample H (.regenerate reason) eligible
        pure (.regenerate reason proposer)

end FindingRouter

end Ptr.Vcw
