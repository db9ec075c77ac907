import Ptr.Runtime.Error
import Ptr.Runtime.Obligations

/-!
# The budget of the execution section

A compacted snapshot carries the unsettled attempts, the settled keys and the
scopes in one section of bounded size.  The runtime accounts for its bytes and
items without encoding it, with the room that each keyed attempt reserves for its
settlement, and refuses a record that would not fit.
-/

namespace Ptr.Runtime

open Lib Ledger

def maxSectionBytes : Nat := 8 * 1024 * 1024

def maxSectionItems : Nat := 65536

def identityBytes (i : ActionIdentity) : Nat :=
  4 + i.project.utf8ByteSize + 4 + i.principal.utf8ByteSize + 8 + 8 + 32

def unsettledEntryBytes (e : UnsettledEffect) : Nat :=
  8 + 8 + 8 + (e.key.map fun key => 4 + key.utf8ByteSize).getD 0 + 4 + e.target.utf8ByteSize + 4 +
    e.operation.utf8ByteSize + 8 + identityBytes e.identity

def settledEntryBytes (key : String) : SettledOutcome → Nat
  | .applied _ identity response =>
    4 + key.utf8ByteSize + 8 + (8 + identityBytes identity + 4 + response.length)
  | .appliedWithoutResponse _ identity => 4 + key.utf8ByteSize + 8 + (8 + identityBytes identity)
  | .notApplied => 4 + key.utf8ByteSize + 8

/-- What a keyed attempt reserves for its settlement, and whether that adds a
settled key. -/
def reservedSettlement (e : UnsettledEffect) (settled : Std.ExtTreeMap String SettledOutcome) :
    Nat × Bool :=
  match e.key with
  | none => (0, false)
  | some key =>
    let entry := 4 + key.utf8ByteSize + 8 + 8 + identityBytes e.identity
    match settled[key]? with
    | some existing => (entry - settledEntryBytes key existing, false)
    | none => (entry, true)

structure SectionUse where
  bytes : Nat
  unsettled : Nat
  settled : Nat
  scopes : Nat

namespace SectionUse

def fits (u : SectionUse) : Bool :=
  u.bytes ≤ maxSectionBytes && u.unsettled ≤ maxSectionItems && u.settled ≤ maxSectionItems &&
    u.scopes ≤ maxSectionItems

theorem fits_iff {u : SectionUse} :
    u.fits = true ↔ ((u.bytes ≤ maxSectionBytes ∧ u.unsettled ≤ maxSectionItems) ∧
      u.settled ≤ maxSectionItems) ∧ u.scopes ≤ maxSectionItems := by
  simp only [fits, Bool.and_eq_true, decide_eq_true_eq]

def items (u : SectionUse) : Nat := max (max u.unsettled u.settled) u.scopes

def refusal (u : SectionUse) : RuntimeError := .executionSectionFull u.bytes u.items

end SectionUse

variable (o : Obligations) (g : ScopeRegistry)

def executionSection (reserve : Bool) : SectionUse where
  bytes := 8 + 4 +
    (o.unsettled.toList.map fun p =>
      unsettledEntryBytes p.2 + if reserve then (reservedSettlement p.2 o.settled).1 else 0).sum +
    4 + (o.settled.toList.map fun p => settledEntryBytes p.1 p.2).sum + g.snapshotBytes
  unsettled := o.unsettled.size
  settled := o.settled.size +
    (o.unsettled.toList.countP fun p => reserve && (reservedSettlement p.2 o.settled).2)
  scopes := g.scopes.size

def sectionBytesAfterSettlement (attempt : CommitIndex) (len : Nat) :
    Option Nat := do
  let e ← o.unsettled[attempt]?
  let key ← e.key
  let replaced := (o.settled[key]?.map (settledEntryBytes key)).getD 0
  let withResponse := 4 + key.utf8ByteSize + 8 + 8 + identityBytes e.identity + 4 + len
  let freed := unsettledEntryBytes e + (reservedSettlement e o.settled).1 + replaced
  some ((executionSection o g true).bytes + withResponse - freed)

def settlementRetainsResponse (attempt : CommitIndex) (len : Nat) : Bool :=
  (sectionBytesAfterSettlement o g attempt len).all fun bytes => bytes ≤ maxSectionBytes

def SectionUse.check (u : SectionUse) : Except RuntimeError Unit :=
  if u.fits then .ok () else .error u.refusal

/-- `check_execution_section_growth`: an attempt, a new scope or a retained
response must fit. -/
def checkExecutionSectionGrowth : LedgerEvent → Except RuntimeError Unit
  | .effectAttempted a =>
    let e := unsettledBy a 0
    let u := executionSection o g true
    let reserved := reservedSettlement e o.settled
    SectionUse.check { u with
      bytes := u.bytes + (unsettledEntryBytes e + reserved.1)
      unsettled := u.unsettled + 1
      settled := u.settled + if reserved.2 then 1 else 0 }
  | .effectSettled attempt (some response) _ =>
    match sectionBytesAfterSettlement o g attempt response.length with
    | some bytes =>
      if maxSectionBytes < bytes then
        .error (SectionUse.refusal { executionSection o g true with bytes := bytes })
      else .ok ()
    | none => .ok ()
  | .scopeLifecycle e =>
    let growth := g.growthBytes e
    if growth = 0 then .ok ()
    else
      let u := executionSection o g true
      SectionUse.check { u with bytes := u.bytes + growth, scopes := u.scopes + 1 }
  | _ => .ok ()

def executionSectionOverflow : Option SectionUse :=
  if (executionSection o g false).fits then none else some (executionSection o g false)

end Ptr.Runtime
