import Ptr.Ledger.Bounds

/-!
# Effects that were attempted

The part of the execution state that the records determine.  An attempt is
unsettled from its record to the record of its outcome, and an attempt under a key
leaves its outcome under that key: applied with the response, applied without one,
or not applied.
-/

namespace Ptr.Runtime

open Lib Ledger

/-! ### Texts that a record may carry -/

def isControl (c : Char) : Bool := c.toNat ≤ 0x1f || (0x7f ≤ c.toNat && c.toNat ≤ 0x9f)

def isWhitespace (c : Char) : Bool :=
  (0x09 ≤ c.toNat && c.toNat ≤ 0x0d) || c.toNat == 0x20 || c.toNat == 0x85 || c.toNat == 0xa0 ||
    c.toNat == 0x1680 || (0x2000 ≤ c.toNat && c.toNat ≤ 0x200a) || c.toNat == 0x2028 ||
    c.toNat == 0x2029 || c.toNat == 0x202f || c.toNat == 0x205f || c.toNat == 0x3000

/-- A text that is not empty, that `trim` leaves as it is and that has no control
character. -/
def validIdentifier (s : String) : Bool :=
  !s.isEmpty && !s.toList.head?.any isWhitespace && !s.toList.getLast?.any isWhitespace &&
    !s.toList.any isControl

def maxStringBytes : Nat := 4096

def maxKeyBytes : Nat := maxStringBytes

def validKey (s : String) : Bool := validIdentifier s && s.utf8ByteSize ≤ maxKeyBytes

def validAttemptField (s : String) : Bool := !s.isEmpty && s.utf8ByteSize ≤ maxStringBytes

/-! ### Actions -/

structure ActionIr where
  operation : String
  target : String
  capability : CapabilityId
  effect : Effect
  inputType : TypeId
  generation : Generation
  revision : Revision
  payload : Bytes
  deriving DecidableEq

def putLongText (s : String) : Bytes := leBytes 8 s.utf8ByteSize ++ utf8 s

def effectTag (e : Effect) : UInt8 := effectCodes.code e

def digestAt (sha : Bytes → Digest) (a : ActionIr) (revision : Revision) (generation : Generation) :
    Digest :=
  sha (utf8 "PTREXEC01-ACTION" ++ putLongText a.target ++ putLongText a.operation ++
    putLongText a.capability ++ putLongText a.inputType ++
    leBytes 8 a.payload.length ++ a.payload ++
    putU64 revision ++ putU64 generation ++ [effectTag a.effect])

def actionDigest (sha : Bytes → Digest) (a : ActionIr) : Digest :=
  digestAt sha a a.revision a.generation

structure ActionIdentity where
  project : ProjectId
  principal : String
  revision : Revision
  generation : Generation
  actionDigest : Digest
  deriving DecidableEq

/-- Whether an action repeats the attempt, compared at the attempt's position. -/
def ActionIdentity.isRetry (sha : Bytes → Digest) (i : ActionIdentity) (project : ProjectId)
    (principal : String) (a : ActionIr) : Bool :=
  i.project = project && i.principal = principal &&
    i.actionDigest = digestAt sha a i.revision i.generation

/-! ### Attempts and outcomes -/

structure UnsettledEffect where
  attempt : CommitIndex
  key : Option String
  target : String
  operation : String
  effect : Effect
  identity : ActionIdentity

inductive SettledOutcome
  | applied (attempt : CommitIndex) (identity : ActionIdentity) (response : Bytes)
  | appliedWithoutResponse (attempt : CommitIndex) (identity : ActionIdentity)
  | notApplied
  deriving DecidableEq

inductive Settlement
  | applied (response : Option Bytes)
  | notApplied

def unsettledBy (a : EffectAttempt) (index : CommitIndex) : UnsettledEffect where
  attempt := index
  key := a.key
  target := a.target
  operation := a.operation
  effect := a.effect
  identity := ⟨a.project, a.principal, a.revision, a.generation, a.actionDigest⟩

def UnsettledEffect.outcome (e : UnsettledEffect) (attempt : CommitIndex) :
    Settlement → SettledOutcome
  | .applied (some response) => .applied attempt e.identity response
  | .applied none => .appliedWithoutResponse attempt e.identity
  | .notApplied => .notApplied

/-- `retained_obligations`: the fence and the memory of the keys. -/
structure Obligations where
  unsettled : Std.ExtTreeMap CommitIndex UnsettledEffect
  settled : Std.ExtTreeMap String SettledOutcome

namespace Obligations

def empty : Obligations := ⟨∅, ∅⟩

variable (o : Obligations)

def isUnsettled (attempt : CommitIndex) : Bool := o.unsettled.contains attempt

def keyInFlight (key : String) : Bool :=
  o.unsettled.toList.any fun p => p.2.key = some key

def recordAttempt (e : UnsettledEffect) : Obligations :=
  { o with unsettled := o.unsettled.insert e.attempt e }

/-- An outcome is bound to the attempt that it closes, and to its key if it has
one. -/
def settle (attempt : CommitIndex) (settlement : Settlement) : Obligations :=
  match o.unsettled[attempt]? with
  | none => o
  | some e =>
    { unsettled := o.unsettled.erase attempt
      settled := match e.key with
        | some key => o.settled.insert key (e.outcome attempt settlement)
        | none => o.settled }

def oldestUnsettled : Option CommitIndex := o.unsettled.keys.head?

end Obligations

end Ptr.Runtime
