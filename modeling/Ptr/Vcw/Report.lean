import Ptr.Runtime.Effects

/-!
# Verifier reports and their classes

A report is accepted exactly if it is a pass at the required level without a hard finding.
A failure with hard findings is repaired, one code at a time, and everything else falls
back to a fresh proposal or to an escalation.
-/

namespace Ptr.Vcw

open Lib
open Ptr.Runtime (VerificationStatus)

structure Finding where
  code : String
  message : String
  hard : Bool

/-- A report; its score decides nothing and is left out. -/
structure VerificationReport where
  status : VerificationStatus
  level : VerificationLevel
  findings : List Finding

abbrev FindingCode := String

structure PodRef where
  pod : PodId
  generation : Generation
  deriving DecidableEq

def levelRank : VerificationLevel → Nat
  | .unverified => 0
  | .latentAgreement => 1
  | .sampleVerified => 2
  | .fullSemantic => 3
  | .deterministic => 4

inductive FallbackReason
  | unknown | disputed | failWithoutHardFinding | forgedPass | belowLevel | tooManyCodes
  | oversizedCode
  deriving DecidableEq

inductive FallbackAction
  | regenerate | escalate

structure FallbackPolicy where
  unknown : FallbackAction
  disputed : FallbackAction
  failWithoutHardFinding : FallbackAction
  forgedPass : FallbackAction
  belowLevel : FallbackAction
  tooManyCodes : FallbackAction
  oversizedCode : FallbackAction

def FallbackPolicy.action (p : FallbackPolicy) : FallbackReason → FallbackAction
  | .unknown => p.unknown
  | .disputed => p.disputed
  | .failWithoutHardFinding => p.failWithoutHardFinding
  | .forgedPass => p.forgedPass
  | .belowLevel => p.belowLevel
  | .tooManyCodes => p.tooManyCodes
  | .oversizedCode => p.oversizedCode

structure RouterLimits where
  maxCodesPerReport : Nat
  maxCodeLen : Nat

inductive ReportClass
  | accept
  | repair (codes : List FindingCode)
  | fallback (reason : FallbackReason)
  deriving DecidableEq

def VerificationReport.hasHard (r : VerificationReport) : Bool := r.findings.any Finding.hard

def hardCodes (limits : RouterLimits) :
    List Finding → List FindingCode → Except FallbackReason (List FindingCode)
  | [], codes => .ok codes
  | f :: fs, codes =>
    if f.hard then
      if limits.maxCodeLen < f.code.utf8ByteSize then .error .oversizedCode
      else if f.code ∈ codes then hardCodes limits fs codes
      else if limits.maxCodesPerReport ≤ codes.length then .error .tooManyCodes
      else hardCodes limits fs (codes ++ [f.code])
    else hardCodes limits fs codes

def classify (r : VerificationReport) (required : VerificationLevel) (limits : RouterLimits) :
    ReportClass :=
  match r.status with
  | .pass =>
    if r.hasHard then .fallback .forgedPass
    else if levelRank r.level < levelRank required then .fallback .belowLevel
    else .accept
  | .unknown => .fallback .unknown
  | .disputed => .fallback .disputed
  | .fail =>
    match hardCodes limits r.findings [] with
    | .error reason => .fallback reason
    | .ok [] => .fallback .failWithoutHardFinding
    | .ok codes => .repair codes

def VerificationReport.passes (r : VerificationReport) (required : VerificationLevel) : Bool :=
  r.status = .pass && !r.hasHard && decide (levelRank required ≤ levelRank r.level)

/-- **The two rules of acceptance agree.** -/
theorem classify_eq_accept {r required limits} :
    classify r required limits = .accept ↔ r.passes required = true := by
  rw [classify, VerificationReport.passes]
  cases r.status with
  | pass =>
    cases r.hasHard with
    | true => simp
    | false =>
      by_cases hlevel : levelRank r.level < levelRank required
      · simp
      · simp
  | unknown | disputed => simp
  | fail =>
    cases hcodes : hardCodes limits r.findings [] with
    | error => simp
    | ok codes => cases codes <;> simp

def unknownReport (findings : List Finding) : VerificationReport :=
  ⟨.unknown, .unverified, findings⟩

/-- What stands in for the report of a verifier that panicked. -/
def panicReport : VerificationReport :=
  unknownReport [{ code := "verifier-panic", message := "", hard := true }]

theorem passes_panicReport (required : VerificationLevel) : panicReport.passes required = false :=
  rfl

/-- `synthetic`: a report without evidence, to ask the router for a Pod. -/
def synthetic (status : VerificationStatus) : VerificationReport := ⟨status, .unverified, []⟩

/-! ### Budgets -/

def maxVerifierCalls : Nat := 256

def maxRounds : Nat := 256

/-- Both budgets of a request, positive and bounded. -/
structure RequestBudget where
  verifierCalls : Nat
  rounds : Nat
  verifierCalls_pos : 0 < verifierCalls
  verifierCalls_le : verifierCalls ≤ maxVerifierCalls
  rounds_pos : 0 < rounds
  rounds_le : rounds ≤ maxRounds

structure BudgetUse where
  verifierCalls : Nat
  rounds : Nat
  podCalls : Nat

inductive ExhaustionReason
  | verifierCalls | rounds

structure BudgetMeter where
  budget : RequestBudget
  used : BudgetUse

namespace BudgetMeter

def new (budget : RequestBudget) : BudgetMeter := ⟨budget, ⟨0, 0, 0⟩⟩

def chargeVerifier (m : BudgetMeter) : Except ExhaustionReason BudgetMeter :=
  if m.budget.verifierCalls ≤ m.used.verifierCalls then .error .verifierCalls
  else .ok { m with used := { m.used with verifierCalls := m.used.verifierCalls + 1 } }

def chargeRound (m : BudgetMeter) : Except ExhaustionReason BudgetMeter :=
  if m.budget.rounds ≤ m.used.rounds then .error .rounds
  else .ok { m with used := { m.used with rounds := m.used.rounds + 1 } }

theorem chargeRound_eq_ok {m m' : BudgetMeter} (h : m.chargeRound = .ok m') :
    m.used.rounds < m.budget.rounds ∧
      m'.budget = m.budget ∧ m'.used.verifierCalls = m.used.verifierCalls ∧
      m'.used.rounds = m.used.rounds + 1 := by
  rw [chargeRound] at h
  split at h
  · cases h
  · next hlt =>
    cases h
    exact ⟨not_le.mp hlt, rfl, rfl, rfl⟩

def countPodCall (m : BudgetMeter) : BudgetMeter :=
  { m with used := { m.used with podCalls := min (m.used.podCalls + 1) (2 ^ 32 - 1) } }

def stopAfterVerdict (m : BudgetMeter) : Option ExhaustionReason :=
  if m.budget.verifierCalls ≤ m.used.verifierCalls then some .verifierCalls
  else if m.budget.rounds ≤ m.used.rounds then some .rounds
  else none

end BudgetMeter

end Ptr.Vcw
