import Ptr.Lib.Section
import Ptr.Ledger.Integrity
import Ptr.Runtime.PolicyAuthority

/-!
# The compacted snapshot

A snapshot carries the committed state of a runtime in three bounded sections, so
that the records below it can be dropped: the semantic state, the lifecycle with the
materialized values and the experts, and the execution obligations with the scopes.
Only the execution section has a budget that a commit is held to.

The block of the experts is written by the expert registry, so its layout and its
items are parameters.  The ledger is the one in memory.
-/

namespace Ptr.Runtime

open Lib Ledger Semdb List

variable {ρ τ : Type}

/-! ### The writer -/

inductive Item
  | raw (bs : Bytes)
  | count (n : Nat)
  /-- A text of 1 to 4096 bytes. -/
  | text (s : String)
  | blob (bs : Bytes)
  | number (n : U64)
  | field (s : String)

/-- `Writer`. -/
def sectionFormat : ItemFormat Item where
  bytes
    | .raw bs => bs
    | .count n => leBytes 4 n
    | .text s | .field s => leBytes 4 s.utf8ByteSize ++ utf8 s
    | .blob bs => leBytes 4 bs.length ++ bs
    | .number n => putU64 n
  allowed
    | .raw _ | .number _ => true
    | .count n => n ≤ maxSectionItems
    | .text s => !s.isEmpty && s.utf8ByteSize ≤ maxStringBytes
    | .blob bs => bs.length ≤ maxRetainedResponse
    | .field s => s.utf8ByteSize < 2 ^ 32

def sectionLimit : RuntimeError := .compacted .sectionLimit

def writeSection (items : List Item) : Except RuntimeError Bytes :=
  sectionFormat.putAll maxSectionBytes sectionLimit items []

def putIdentity (i : ActionIdentity) : List Item :=
  [.field i.project, .field i.principal, .number i.revision, .number i.generation,
    .raw i.actionDigest.bytes]

def putOptional {α : Type} (put : α → Item) : Option α → List Item
  | some a => [.number 1, put a]
  | none => [.number 0]

/-! ### What the writer takes -/

def itemsLength (items : List Item) : Nat := (items.flatMap sectionFormat.bytes).length

@[simp] theorem itemsLength_nil : itemsLength [] = 0 := rfl

@[simp] theorem itemsLength_cons (i : Item) (items : List Item) :
    itemsLength (i :: items) = (sectionFormat.bytes i).length + itemsLength items := by
  simp [itemsLength]

@[simp] theorem itemsLength_append (xs ys : List Item) :
    itemsLength (xs ++ ys) = itemsLength xs + itemsLength ys := by
  simp [itemsLength]

theorem itemsLength_flatMap {α : Type} (f : α → List Item) (xs : List α) :
    itemsLength (xs.flatMap f) = (xs.map fun x => itemsLength (f x)).sum := by
  induction xs with
  | nil => rfl
  | cons x xs ih => simp [ih]

@[simp] theorem length_text (s : String) :
    (sectionFormat.bytes (.text s)).length = 4 + s.utf8ByteSize := by
  simp [sectionFormat]

@[simp] theorem length_field (s : String) :
    (sectionFormat.bytes (.field s)).length = 4 + s.utf8ByteSize := by
  simp [sectionFormat]

@[simp] theorem length_number (n : U64) : (sectionFormat.bytes (.number n)).length = 8 := by
  simp [sectionFormat]

@[simp] theorem length_count (n : Nat) : (sectionFormat.bytes (.count n)).length = 4 := by
  simp [sectionFormat]

@[simp] theorem length_blob (bs : Bytes) :
    (sectionFormat.bytes (.blob bs)).length = 4 + bs.length := by
  simp [sectionFormat]

@[simp] theorem length_raw (bs : Bytes) : (sectionFormat.bytes (.raw bs)).length = bs.length := rfl

def TextFits (s : String) : Prop := 0 < s.utf8ByteSize ∧ s.utf8ByteSize ≤ maxStringBytes

def Listed {α : Type} (P : α → Prop) (xs : List α) : Prop :=
  xs.length ≤ maxSectionItems ∧ ∀ x ∈ xs, P x

def counted {α : Type} (put : α → List Item) (xs : List α) : List Item :=
  .count xs.length :: xs.flatMap put

def countedBytes {α : Type} (weight : α → Nat) (xs : List α) : Nat := 4 + (xs.map weight).sum

def Allowed (items : List Item) : Prop := ∀ i ∈ items, sectionFormat.allowed i = true

theorem writeSection_iff {items} : (∃ bs, writeSection items = .ok bs) ↔
    Allowed items ∧ itemsLength items ≤ maxSectionBytes := by
  constructor
  · rintro ⟨bs, h⟩
    obtain ⟨hallowed, hfits, -⟩ := (ItemFormat.putAll_eq_ok (bot_le)).mp h
    exact ⟨hallowed, hfits⟩
  · rintro ⟨hallowed, hfits⟩
    exact ⟨_, (ItemFormat.putAll_eq_ok (bot_le)).mpr ⟨hallowed, hfits, rfl⟩⟩

theorem length_writeSection {items bs} (h : writeSection items = .ok bs) :
    bs.length ≤ maxSectionBytes := by
  obtain ⟨-, hfits, rfl⟩ := (ItemFormat.putAll_eq_ok (bot_le)).mp h
  exact hfits

theorem allowed_append (xs ys : List Item) : Allowed (xs ++ ys) ↔ Allowed xs ∧ Allowed ys :=
  forall_mem_append

theorem allowed_cons (i : Item) (items : List Item) :
    Allowed (i :: items) ↔ sectionFormat.allowed i = true ∧ Allowed items := forall_mem_cons

theorem allowed_nil : Allowed [] ↔ True := by simp [Allowed]

theorem allowed_number (n : U64) : sectionFormat.allowed (.number n) = true := rfl

theorem allowed_raw (bs : Bytes) : sectionFormat.allowed (.raw bs) = true := rfl

theorem allowed_text {s} : sectionFormat.allowed (.text s) = true ↔ TextFits s := by
  simp [sectionFormat, TextFits, Nat.pos_iff_ne_zero]

theorem allowed_flatMap {α : Type} {f} {xs : List α} :
    Allowed (xs.flatMap f) ↔ ∀ x ∈ xs, Allowed (f x) := by
  simp only [Allowed, mem_flatMap]
  exact ⟨fun h x hx i hi => h i ⟨x, hx, hi⟩, fun h i ⟨x, hx, hi⟩ => h x hx i hi⟩

theorem allowed_counted {α : Type} {put : α → List Item} {xs} :
    Allowed (counted put xs) ↔ Listed (fun x => Allowed (put x)) xs := by
  rw [counted, allowed_cons, allowed_flatMap, Listed]
  simp [sectionFormat]

theorem itemsLength_counted {α : Type} {put : α → List Item} {w : α → Nat}
    (h : ∀ x, itemsLength (put x) = w x) (xs : List α) :
    itemsLength (counted put xs) = countedBytes w xs := by
  rw [counted, itemsLength_cons, length_count, itemsLength_flatMap, countedBytes,
    map_congr_left fun x _ => h x]

@[simp] theorem listed_nil {α : Type} {P : α → Prop} : Listed P [] := ⟨bot_le, forall_mem_nil _⟩

/-! ### The sections -/

inductive ExpertLayout
  | evidence | fenceCause | dependency | authority

structure ExpertFormat (ρ : Type) where
  layout : ρ → ExpertLayout
  items : ρ → List Item

def ExpertLayout.lifecycleMagic : ExpertLayout → Bytes
  | .evidence => utf8 "PTRLC004"
  | .fenceCause => utf8 "PTRLC005"
  | .dependency => utf8 "PTRLC006"
  | .authority => utf8 "PTRLC007"

def ExpertLayout.magic : ExpertLayout → Bytes
  | .evidence => utf8 "PTRCS006"
  | .fenceCause => utf8 "PTRCS007"
  | .dependency => utf8 "PTRCS008"
  | .authority => utf8 "PTRCS009"

def lifecycleItems (F : ExpertFormat ρ) (h : History ρ τ) : List Item :=
  [.raw (F.layout h.experts).lifecycleMagic] ++
    .count h.state.values.size :: h.state.values.toList.flatMap (fun p => [.text p.1, .text p.2]) ++
    .count h.lifecycle.liveGenerations.size ::
      h.lifecycle.liveGenerations.toList.flatMap (fun p => [.text p.1, .number p.2]) ++
    .count h.lifecycle.capsuleProjects.size ::
      h.lifecycle.capsuleProjects.toList.flatMap (fun p => [.text p.1, .text p.2]) ++
    .count h.lifecycle.revokedGenerations.size ::
      h.lifecycle.revokedList.flatMap (fun p => [.text p.1, .number p.2]) ++
    .raw (utf8 "PTREG001") :: F.items h.experts

def effectNumber : Effect → U64
  | .pure => 0
  | .read => 1
  | .mutation => 2
  | .external => 3
  | .irreversible => 4

def scopeStateTag : ScopeState → U64
  | .created => 0
  | .admitted => 1
  | .started => 2
  | .completed => 3
  | .failed => 4
  | .cancelled => 5
  | .timedOut => 6
  | .revoked => 7
  | .released => 8

def unsettledItems (p : CommitIndex × UnsettledEffect) : List Item :=
  [.number p.1, .number p.2.attempt] ++ putOptional .text p.2.key ++
    [.text p.2.target, .text p.2.operation, .number (effectNumber p.2.effect)] ++
    putIdentity p.2.identity

def settledItems (p : String × SettledOutcome) : List Item :=
  .text p.1 :: match p.2 with
    | .applied attempt identity response =>
      [.number 0, .number attempt] ++ putIdentity identity ++ [.blob response]
    | .appliedWithoutResponse attempt identity =>
      [.number 1, .number attempt] ++ putIdentity identity
    | .notApplied => [.number 2]

def scopeItems (g : ScopeRegistry) (p : ScopeId × ExecutionScope) : List Item :=
  let lease := (g.leases[p.1]?).getD {}
  .field p.1 :: putOptional .field p.2.parent ++
    [.field p.2.session, .field p.2.project, .number p.2.createdAt] ++
    putOptional .number p.2.deadline ++
    [.number (scopeStateTag p.2.state), .number (if p.2.cancellationRequested then 1 else 0)] ++
    putOptional .field lease.stateId ++ putOptional .field lease.podId ++
    putOptional .number lease.placementEpoch ++
      putOptional (fun t => .raw (putU128 t)) lease.fencingToken ++
    putOptional .number lease.generation ++ putOptional .field lease.resourceLeaseId

def scopeBlock (g : ScopeRegistry) : List Item :=
  .raw (utf8 "PTRSC001") :: .count g.scopes.size :: g.scopes.toList.flatMap (scopeItems g) ++
    putOptional .number g.lastRevision

def executionItems (o : Obligations) (g : ScopeRegistry) : List Item :=
  .raw (if g.scopes.isEmpty then utf8 "PTREX002" else utf8 "PTREX003") ::
    .count o.unsettled.size :: o.unsettled.toList.flatMap unsettledItems ++
    .count o.settled.size :: o.settled.toList.flatMap settledItems ++
    if g.scopes.isEmpty then [] else scopeBlock g

/-! ### The export -/

structure CompactedSnapshot where
  bytes : Bytes
  revision : Revision
  floor : LogAnchor
  digest : Digest
  deriving DecidableEq

namespace PtrRuntime

/-- `journal_anchor` over the ledger in memory: the whole log is encoded and read
back. -/
def journalAnchor (R : Rules ρ τ) (r : PtrRuntime ρ τ) : Except RuntimeError LogAnchor :=
  if r.isFenced then .error .executionFenced
  else do
    let bytes ← (encodeLogFrom R.sha r.ledger (.empty R.sha)).mapError fun io => .ledger io.message
    let log ← (decodeLogFrom R.sha bytes (.empty R.sha)).mapError fun io => .ledger io.message
    .ok log.anchor

/-- The outer magic: scopes decide it, then the blocks of the experts. -/
def snapshotMagic (F : ExpertFormat ρ) (h : History ρ τ) : Bytes :=
  if h.scopes.scopes.isEmpty then (F.layout h.experts).magic else utf8 "PTRCS010"

def exportCompactedSnapshot (R : Rules ρ τ) (F : ExpertFormat ρ) (r : PtrRuntime ρ τ) :
    Except RuntimeError CompactedSnapshot :=
  match executionSectionOverflow r.history.obligations r.history.scopes with
  | some u => .error (.compactionBlocked u.bytes u.items)
  | none => do
    let floor ← r.journalAnchor R
    if r.history.state.lastApplied ≠ floor.index then .error (.compacted .stateMismatch)
    else do
      let semantic ← (r.history.semdb.exportState.encode).mapError .semantic
      let lifecycle ← writeSection (lifecycleItems F r.history)
      let execution ← writeSection (executionItems r.history.obligations r.history.scopes)
      if maxSectionBytes < semantic.length ∨ maxSectionBytes < lifecycle.length ∨
          maxSectionBytes < execution.length then .error (.compacted .sizeLimit)
      else
        let bytes := snapshotMagic F r.history ++ putU64 r.revision ++ putU64 floor.index ++
          floor.digest.bytes ++
          leBytes 8 semantic.length ++ leBytes 8 lifecycle.length ++ leBytes 8 execution.length ++
          semantic ++ lifecycle ++ execution
        .ok ⟨bytes ++ (R.sha bytes).bytes, r.revision, floor, R.sha bytes⟩

end PtrRuntime

end Ptr.Runtime
