import Ptr.Lib.Checks
import Ptr.Lib.Keyed
import Ptr.Types

/-!
# Semantic deltas and their encoding

A delta is one atomic update: values to store, keys to remove and input sets to
declare.  `encode` writes it behind a magic number, each part behind its count and
in key order, and refuses what passes a limit.  `encode_eq_ok` says when it accepts
and what it then writes.
-/

namespace Ptr.Semdb

open Lib Std List

structure SemanticPayload where
  typeId : TypeId
  source : String
  bytes : Bytes
  deriving DecidableEq

inductive SemanticValue
  | text (s : String)
  | payload (p : SemanticPayload)
  deriving DecidableEq

structure SemanticDelta where
  upserts : ExtTreeMap String SemanticValue := ∅
  removals : ExtTreeSet String := ∅
  dependencies : ExtTreeMap String (ExtTreeSet String) := ∅

inductive SemanticError
  | limitExceeded
  | invalidEncoding
  | invalidKey
  | conflictingOperation
  | cyclicDependency
  | missingDependency (derived input : String)
  | revisionExhausted
  | stalePreparation
  | revisionMismatch (expected actual : Revision)
  | noChangeRecord
  deriving DecidableEq

def maxDeltaBytes : Nat := 4 * 1024 * 1024
def maxDeltaItems : Nat := 16384
def maxKeyBytes : Nat := 4096

/-- `b"PTRSD001"`. -/
def magic : Bytes := [80, 84, 82, 83, 68, 48, 48, 49]

def checkKey (value : String) : Except SemanticError Unit :=
  if value.utf8ByteSize = 0 ∨ maxKeyBytes < value.utf8ByteSize then .error .invalidKey else .ok ()

def ValidKey (value : String) : Prop := 0 < value.utf8ByteSize ∧ value.utf8ByteSize ≤ maxKeyBytes

instance : DecidablePred ValidKey := fun _ => inferInstanceAs (Decidable (_ ∧ _))

theorem checkKey_eq_ok {value} : checkKey value = .ok () ↔ ValidKey value := by
  rw [checkKey, refuse_eq_ok, ValidKey]
  simp only [and_true]
  omega

/-! ### The writer -/

/-- An operation of `Writer`: the bytes so far to the bytes afterwards. -/
abbrev Write := Bytes → Except SemanticError Bytes

namespace Write

def raw (value : Bytes) : Write := fun out =>
  if maxDeltaBytes - out.length < value.length then .error .limitExceeded else .ok (out ++ value)

def count (value : Nat) : Write := fun out =>
  if maxDeltaItems < value then .error .limitExceeded else raw (leBytes 4 value) out

def bytes (value : Bytes) : Write := fun out =>
  if 2 ^ 32 ≤ value.length then .error .limitExceeded
  else do
    let out ← raw (leBytes 4 value.length) out
    raw value out

def key (value : String) : Write := fun out => do
  checkKey value
  bytes (utf8 value) out

def value : SemanticValue → Write
  | .text text => fun out => do
    let out ← raw [0] out
    bytes (utf8 text) out
  | .payload payload => fun out => do
    let out ← raw [1] out
    let out ← key payload.typeId out
    let out ← key payload.source out
    bytes payload.bytes out

def upsert (p : String × SemanticValue) : Write := fun out => do
  let out ← key p.1 out
  value p.2 out

def dependency (p : String × ExtTreeSet String) : Write := fun out => do
  let out ← key p.1 out
  let out ← count p.2.size out
  p.2.toList.foldlM (fun out input => key input out) out

end Write

def SemanticDelta.conflicting (d : SemanticDelta) : Bool :=
  d.removals.toList.any fun k => d.upserts.contains k || d.dependencies.contains k

def SemanticDelta.encode (d : SemanticDelta) : Except SemanticError Bytes :=
  if d.conflicting then .error .conflictingOperation
  else do
    let out ← Write.raw magic []
    let out ← Write.count d.upserts.size out
    let out ← d.upserts.toList.foldlM (fun out p => Write.upsert p out) out
    let out ← Write.count d.removals.size out
    let out ← d.removals.toList.foldlM (fun out k => Write.key k out) out
    let out ← Write.count d.dependencies.size out
    d.dependencies.toList.foldlM (fun out p => Write.dependency p out) out

/-! ### What is written -/

def putValue : SemanticValue → Bytes
  | .text text => 0 :: putString text
  | .payload payload =>
    1 :: (putString payload.typeId ++ putString payload.source ++ putBytes payload.bytes)

def putUpsert (p : String × SemanticValue) : Bytes := putString p.1 ++ putValue p.2

def putDependency (p : String × ExtTreeSet String) : Bytes :=
  putString p.1 ++ putCounted putString p.2.toList

def SemanticDelta.image (d : SemanticDelta) : Bytes :=
  magic ++ putCounted putUpsert d.upserts.toList ++ putCounted putString d.removals.toList ++
    putCounted putDependency d.dependencies.toList

def SemanticValue.Valid : SemanticValue → Prop
  | .text _ => True
  | .payload p => ValidKey p.typeId ∧ ValidKey p.source

/-- Each part has an accepted number of items and valid keys, and no key is
removed and written. -/
structure SemanticDelta.Valid (d : SemanticDelta) : Prop where
  disjoint : d.conflicting = false
  upserts_count : d.upserts.size ≤ maxDeltaItems
  upserts_valid : ∀ p ∈ d.upserts.toList, ValidKey p.1 ∧ p.2.Valid
  removals_count : d.removals.size ≤ maxDeltaItems
  removals_valid : ∀ k ∈ d.removals.toList, ValidKey k
  dependencies_count : d.dependencies.size ≤ maxDeltaItems
  dependencies_valid : ∀ p ∈ d.dependencies.toList,
    ValidKey p.1 ∧ p.2.size ≤ maxDeltaItems ∧ ∀ k ∈ p.2.toList, ValidKey k

/-- `w` accepts exactly when `P` holds and `bs` fits, and then appends `bs`. -/
def Write.Puts (w : Write) (bs : Bytes) (P : Prop) : Prop :=
  ∀ out out', out.length ≤ maxDeltaBytes →
    (w out = .ok out' ↔ P ∧ (out ++ bs).length ≤ maxDeltaBytes ∧ out' = out ++ bs)

namespace Write

variable {w w' : Write} {bs bs' : Bytes} {P P' : Prop}

theorem puts_raw (value : Bytes) : Puts (raw value) value True := by
  intro out out' hout
  rw [raw, refuse_eq_ok, length_append, Except.ok.injEq]
  constructor
  · rintro ⟨hfits, rfl⟩
    exact ⟨trivial, by omega, rfl⟩
  · rintro ⟨-, hfits, rfl⟩
    exact ⟨by omega, rfl⟩

theorem Puts.bind (h : Puts w bs P) (h' : Puts w' bs' P') :
    Puts (fun out => w out >>= w') (bs ++ bs') (P ∧ P') := by
  intro out out' hout
  rw [bind_eq_ok]
  constructor
  · rintro ⟨mid, hmid, hend⟩
    obtain ⟨hP, hfits, rfl⟩ := (h out mid hout).mp hmid
    obtain ⟨hP', hfits', rfl⟩ := (h' _ out' hfits).mp hend
    rw [append_assoc] at hfits' ⊢
    exact ⟨⟨hP, hP'⟩, hfits', rfl⟩
  · rintro ⟨⟨hP, hP'⟩, hfits, rfl⟩
    rw [← append_assoc] at hfits ⊢
    have hfirst : (out ++ bs).length ≤ maxDeltaBytes := by
      rw [length_append] at hfits
      omega
    exact ⟨out ++ bs, (h out _ hout).mpr ⟨hP, hfirst, rfl⟩, (h' _ _ hfirst).mpr ⟨hP', hfits, rfl⟩⟩

theorem Puts.mono {Q : Prop} (h : Puts w bs P) (hiff : P ↔ Q) : Puts w bs Q := by
  rwa [← propext hiff]

theorem puts_refuse {c : Prop} [Decidable c] {e} (h : Puts w bs P) :
    Puts (fun out => if c then .error e else w out) bs (¬ c ∧ P) := by
  intro out out' hout
  rw [refuse_eq_ok, h out out' hout, and_assoc]

theorem puts_foldlM {α : Type} {w : α → Write} {put} {P : α → Prop}
    (h : ∀ a, Puts (w a) (put a) (P a)) (as : List α) :
    Puts (fun out => as.foldlM (fun out a => w a out) out) (as.flatMap put) (∀ a ∈ as, P a) := by
  induction as with
  | nil =>
    intro out out' hout
    simp only [flatMap_nil, append_nil, not_mem_nil]
    constructor
    · intro heq
      exact ⟨fun _ hf => absurd hf id, hout, (Except.ok.inj heq).symm⟩
    · rintro ⟨-, -, rfl⟩
      rfl
  | cons a as ih =>
    refine ((h a).bind ih).mono ?_
    rw [forall_mem_cons]

theorem puts_count (n : Nat) : Puts (count n) (leBytes 4 n) (n ≤ maxDeltaItems) :=
  (puts_refuse (puts_raw _)).mono (by rw [and_true, Nat.not_lt])

theorem puts_bytes (value : Bytes) : Puts (bytes value) (putBytes value) True := by
  have h : Puts (bytes value) (putBytes value) (¬ 2 ^ 32 ≤ value.length ∧ True ∧ True) :=
    puts_refuse ((puts_raw _).bind (puts_raw _))
  intro out out' hout
  rw [h out out' hout]
  refine and_congr_left ?_
  rintro ⟨hfits, -⟩
  rw [length_append, putBytes_length, maxDeltaBytes] at hfits
  simp only [and_true, iff_true]
  omega

theorem puts_counted {α : Type} {w : α → Write} {put} {P : α → Prop}
    (h : ∀ a, Puts (w a) (put a) (P a)) {as} {n : Nat} (hn : as.length = n) :
    Puts (fun out => count n out >>= fun out => as.foldlM (fun out a => w a out) out)
      (putCounted put as) (n ≤ maxDeltaItems ∧ ∀ a ∈ as, P a) := by
  subst hn
  exact (puts_count _).bind (puts_foldlM h as)

theorem puts_key (value : String) : Puts (key value) (putString value) (ValidKey value) := by
  intro out out' hout
  rw [key, bind_unit_eq_ok, checkKey_eq_ok, puts_bytes _ out out' hout, true_and]
  rfl

theorem puts_value (v : SemanticValue) : Puts (value v) (putValue v) v.Valid := by
  cases v with
  | text => exact ((puts_raw [0]).bind (puts_bytes _)).mono (by simp [SemanticValue.Valid])
  | payload p =>
    have h :=
      (puts_raw [1]).bind ((puts_key p.typeId).bind ((puts_key p.source).bind (puts_bytes p.bytes)))
    rw [← append_assoc (putString p.typeId)] at h
    exact h.mono (by simp [SemanticValue.Valid])

theorem puts_upsert (p : String × SemanticValue) :
    Puts (upsert p) (putUpsert p) (ValidKey p.1 ∧ p.2.Valid) :=
  (puts_key p.1).bind (puts_value p.2)

theorem puts_dependency (p : String × ExtTreeSet String) : Puts (dependency p) (putDependency p)
    (ValidKey p.1 ∧ p.2.size ≤ maxDeltaItems ∧ ∀ k ∈ p.2.toList, ValidKey k) :=
  (puts_key p.1).bind (puts_counted puts_key ExtTreeSet.length_toList)

end Write

open Write in
/-- The encoder accepts a valid delta whose bytes fit, and writes those. -/
theorem SemanticDelta.encode_eq_ok {d : SemanticDelta} {bs} :
    d.encode = .ok bs ↔ d.Valid ∧ d.image.length ≤ maxDeltaBytes ∧ bs = d.image := by
  have hupserts : Puts _ (putCounted putUpsert d.upserts.toList) _ :=
    puts_counted puts_upsert ExtTreeMap.length_toList
  have hremovals : Puts _ (putCounted putString d.removals.toList) _ :=
    puts_counted puts_key ExtTreeSet.length_toList
  have hdependencies : Puts _ (putCounted putDependency d.dependencies.toList) _ :=
    puts_counted puts_dependency ExtTreeMap.length_toList
  have hall := (puts_raw magic).bind (hupserts.bind (hremovals.bind hdependencies)) [] bs (bot_le)
  simp only [bind_assoc] at hall
  rw [encode, refuse_eq_ok, hall, nil_append, ← append_assoc, ← append_assoc, Bool.not_eq_true,
    ← and_assoc, true_and]
  refine and_congr_left fun _ => ?_
  constructor
  · rintro ⟨hdisjoint, hup, hrem, hdep⟩
    exact ⟨hdisjoint, hup.1, hup.2, hrem.1, hrem.2, hdep.1, hdep.2⟩
  · intro h
    exact ⟨h.disjoint, ⟨h.upserts_count, h.upserts_valid⟩, ⟨h.removals_count, h.removals_valid⟩,
      h.dependencies_count, h.dependencies_valid⟩

end Ptr.Semdb
