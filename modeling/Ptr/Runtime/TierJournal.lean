import Ptr.Lib.Keyed
import Ptr.Runtime.Moves

/-!
# The journal of the storage tiers

Which backends there are, which objects were committed and which replicas a backend holds
is projected from the records of the ledger.  A lifecycle record carries the digest of what
it says, and one whose digest was seen changes nothing: so the history can be applied
again, in part or as a whole, behind later records.  The journal of a runtime is the one of
its records (`tierJournal_reachable`).
-/

namespace Ptr.Runtime

open Lib Ledger Std

inductive StorageTier
  | gpu | cpu | nvme | objectStore
  deriving DecidableEq

inductive BackendLifecycleState
  | configured | healthChecked | available | draining | detached | revoked
  deriving DecidableEq

inductive ReplicaState
  | preparing | available | draining | corrupt | revoked | released
  deriving DecidableEq

def storageTierCodes : CodeTable StorageTier where
  members := [.gpu, .cpu, .nvme, .objectStore]
  complete a := by cases a <;> decide
  small := by decide

def backendStateCodes : CodeTable BackendLifecycleState where
  members := [.configured, .healthChecked, .available, .draining, .detached, .revoked]
  complete a := by cases a <;> decide
  small := by decide

def replicaStateCodes : CodeTable ReplicaState where
  members := [.preparing, .available, .draining, .corrupt, .revoked, .released]
  complete a := by cases a <;> decide
  small := by decide

/-- The variants of `TierError` that reading a manifest ends with. -/
inductive TierError
  | invalidManifest (reason : String)
  | rootDigestMismatch

inductive TierProjectionError
  | invalidEvent
  | unknownStateCode
  | invalidBackendTransition
  | invalidReplicaTransition
  | conflictingObject
  | unknownBackend
  | unknownObject
  | manifest (error : TierError)

structure ChunkDescriptor where
  index : UInt32
  offset : U64
  length : U64
  digest : Digest
  deriving DecidableEq

inductive TierObjectDomain
  | kvSnapshot | modelWeight | adapter | artifact
  deriving DecidableEq

structure TierObjectManifest where
  domain : TierObjectDomain
  logicalId : String
  generation : Generation
  revision : Revision
  schemaDigest : Digest
  rootDigest : Digest
  chunks : List ChunkDescriptor
  deriving DecidableEq

structure JournaledBackend where
  tier : StorageTier
  state : BackendLifecycleState
  revision : Revision
  eventDigest : Digest
  deriving DecidableEq

structure JournaledReplica where
  tier : StorageTier
  state : ReplicaState
  generation : Generation
  revision : Revision
  eventDigest : Digest
  deriving DecidableEq

structure TierJournalProjection where
  backends : ExtTreeMap String JournaledBackend := ∅
  objects : ExtTreeMap Digest TierObjectManifest := ∅
  replicas : ExtTreeMap (Digest × String) JournaledReplica := ∅
  seenEvents : ExtTreeSet Digest := ∅

def validBackendTransition : BackendLifecycleState → BackendLifecycleState → Bool
  | .configured, .healthChecked | .configured, .revoked | .healthChecked, .available
  | .healthChecked, .revoked | .available, .draining | .available, .revoked
  | .draining, .detached | .draining, .revoked => true
  | _, _ => false

def validReplicaTransition : ReplicaState → ReplicaState → Bool
  | .preparing, .available | .preparing, .corrupt | .preparing, .revoked
  | .available, .draining | .available, .corrupt | .available, .revoked
  | .draining, .released | .draining, .corrupt | .draining, .revoked => true
  | _, _ => false

/-- `backend_gone`. -/
def BackendLifecycleState.gone (s : BackendLifecycleState) : Bool := s = .detached || s = .revoked

/-- `retires_replica`. -/
def ReplicaState.retires (s : ReplicaState) : Bool := s = .revoked || s = .corrupt || s = .released

def trimmedName (s : String) : Bool :=
  !s.isEmpty && !s.toList.head?.any isWhitespace && !s.toList.getLast?.any isWhitespace

structure TierCodec where
  sha : Bytes → Digest
  decodeCanonical : Bytes → Except TierError TierObjectManifest

section

variable (C : TierCodec)

def backendLifecycleDigest (backend : String) (tier : StorageTier) (state : BackendLifecycleState)
    (revision : Revision) : Digest :=
  C.sha (utf8 "ptr-tier-backend-lifecycle-v1\x00" ++ putLongText backend ++
    [storageTierCodes.code tier, backendStateCodes.code state] ++ putU64 revision)

def replicaLifecycleDigest (object : Digest) (backend : String) (tier : StorageTier)
    (state : ReplicaState) (generation : Generation) (revision : Revision) : Digest :=
  C.sha (utf8 "ptr-tier-replica-lifecycle-v1\x00" ++ object.bytes ++ putLongText backend ++
    [storageTierCodes.code tier, replicaStateCodes.code state] ++ putU64 generation ++
    putU64 revision)

def tierFromCode (code : UInt8) : Except TierProjectionError StorageTier :=
  okOr (storageTierCodes.fromCode code) (.manifest (.invalidManifest "unknown storage tier"))

def backendOf (b : TierBackend) : Except TierProjectionError JournaledBackend :=
  if !trimmedName b.backendId || b.revision = 0 || b.eventDigest = .zero then .error .invalidEvent
  else do
    let tier ← tierFromCode b.tier
    let state ← okOr (backendStateCodes.fromCode b.state) .unknownStateCode
    if backendLifecycleDigest C b.backendId tier state b.revision ≠ b.eventDigest then
      .error .invalidEvent
    else .ok ⟨tier, state, b.revision, b.eventDigest⟩

def replicaOf (r : TierReplica) : Except TierProjectionError JournaledReplica := do
  let tier ← tierFromCode r.tier
  let state ← okOr (replicaStateCodes.fromCode r.state) .unknownStateCode
  if replicaLifecycleDigest C r.rootDigest r.backendId tier state r.generation r.revision ≠
      r.eventDigest then
    .error .invalidEvent
  else .ok ⟨tier, state, r.generation, r.revision, r.eventDigest⟩

inductive TierEntry
  | backend (id : String) (next : JournaledBackend)
  | object (root : Digest) (manifest : TierObjectManifest)
  | replica (key : Digest × String) (next : JournaledReplica)

/-- `entry`, unless its value is stored; `follows` is the rule for a successor of a stored
value and `first` the one for a new key. -/
def place {α : Type} [DecidableEq α] (current : Option α) (next : α) (follows : α → Bool)
    (first : Bool) (refused : TierProjectionError) (entry : TierEntry) :
    Except TierProjectionError (Option TierEntry) :=
  match current with
  | some current =>
    if current = next then
      .ok none else if !follows current then .error refused else .ok (some entry)
  | none => if !first then .error refused else .ok (some entry)

def JournaledBackend.follows (next current : JournaledBackend) : Bool :=
  current.tier = next.tier && current.revision < next.revision &&
    validBackendTransition current.state next.state

def JournaledReplica.follows (next current : JournaledReplica) : Bool :=
  current.tier = next.tier && current.revision < next.revision &&
    validReplicaTransition current.state next.state

namespace TierJournalProjection

variable (p : TierJournalProjection)

def readReplica (r : TierReplica) :
    Except TierProjectionError (JournaledBackend × JournaledReplica) := do
  let object ← okOr p.objects[r.rootDigest]? .unknownObject
  if object.generation ≠ r.generation || !trimmedName r.backendId || r.revision = 0 ||
      r.eventDigest = .zero then
    .error .invalidEvent
  else
    let backend ← okOr p.backends[r.backendId]? .unknownBackend
    let next ← replicaOf C r
    .ok (backend, next)

def change : LedgerEvent → Except TierProjectionError (Option TierEntry)
  | .tierBackendLifecycle b => do
    let next ← backendOf C b
    if next.eventDigest ∈ p.seenEvents then .ok none
    else
      place p.backends[b.backendId]? next next.follows
        (next.state = .configured) .invalidBackendTransition (.backend b.backendId next)
  | .tierObjectCommitted root generation revision manifest => do
    let decoded ← (C.decodeCanonical manifest).mapError .manifest
    if decoded.rootDigest ≠ root || decoded.generation ≠ generation ||
        decoded.revision ≠ revision then
      .error .invalidEvent
    else
      place p.objects[root]? decoded (fun _ => false) true .conflictingObject (.object root decoded)
  | .tierReplicaLifecycle r => do
    let (backend, next) ← p.readReplica C r
    if next.eventDigest ∈ p.seenEvents then .ok none
    -- the replicas of a backend that is gone can still be retired
    else if backend.tier ≠ next.tier || (backend.state.gone && !next.state.retires) ||
        (next.state = .preparing && backend.state ≠ .available) then
      .error .invalidEvent
    else
      place p.replicas[(r.rootDigest, r.backendId)]? next next.follows (next.state = .preparing)
        .invalidReplicaTransition (.replica (r.rootDigest, r.backendId) next)
  | _ => .ok none

def put : TierEntry → TierJournalProjection
  | .backend id next =>
    { p with
      seenEvents := p.seenEvents.insert next.eventDigest, backends := p.backends.insert id next }
  | .object root manifest => { p with objects := p.objects.insert root manifest }
  | .replica key next =>
    { p with
      seenEvents := p.seenEvents.insert next.eventDigest, replicas := p.replicas.insert key next }

def apply (e : LedgerEvent) : Except TierProjectionError Unit × TierJournalProjection :=
  match p.change C e with
  | .error e => (.error e, p)
  | .ok none => (.ok (), p)
  | .ok (some entry) => (.ok (), p.put entry)

def record (s : TierJournalProjection × List LedgerEvent) (e : LedgerEvent) :
    TierJournalProjection × List LedgerEvent :=
  match s.1.apply C e with
  | (.ok (), p) => (p, s.2 ++ [e])
  | (.error _, p) => (p, s.2)

def journal (es : List LedgerEvent) : TierJournalProjection × List LedgerEvent :=
  es.foldl (record C) ({}, [])

end TierJournalProjection

end

namespace TierJournalProjection

variable {C : TierCodec} {p q r : TierJournalProjection} {e : LedgerEvent} {entry : TierEntry}

/-! ### Journals only grow -/

def Fits (p : TierJournalProjection) : TierEntry → Prop
  | .backend id next => ∀ old, p.backends[id]? = some old → next.follows old
  | .object root _ => p.objects[root]? = none
  | .replica key next =>
    (∃ backend, p.backends[key.2]? = some backend ∧ (backend.state.gone → next.state.retires)) ∧
      ∀ old, p.replicas[key]? = some old → next.follows old

/-- An entry is kept or gives way to one of a later revision; an object is kept, and so is a
backend that is gone. -/
structure Grows (p q : TierJournalProjection) : Prop where
  backends : Onward (fun old new => old.revision < new.revision ∧
    ¬ old.state.gone) p.backends q.backends
  objects : Onward (fun _ _ => False) p.objects q.objects
  replicas : Onward (fun old new => old.revision < new.revision) p.replicas q.replicas
  seen : ∀ {d}, d ∈ p.seenEvents → d ∈ q.seenEvents

theorem Grows.refl : Grows p p := ⟨.refl, .refl, .refl, id⟩

theorem Grows.trans (h : Grows p q) (h' : Grows q r) : Grows p r where
  backends := h.backends.trans (fun h h' => ⟨h.1.trans h'.1, h.2⟩) h'.backends
  objects := h.objects.trans (fun h _ => h) h'.objects
  replicas := h.replicas.trans (fun h h' => h.trans h') h'.replicas
  seen hd := h'.seen (h.seen hd)

theorem not_gone_of_transition {old new} : validBackendTransition old new = true → ¬ old.gone := by
  cases old <;> cases new <;> decide

theorem Fits.grows (h : p.Fits entry) : Grows p (p.put entry) := by
  cases entry with
  | backend =>
    refine ⟨onward_insert fun old hold => ?_, .refl, .refl, fun hd => by simp [put, hd]⟩
    have hfollows := h old hold
    simp only [JournaledBackend.follows, Bool.and_eq_true, decide_eq_true_eq] at hfollows
    exact ⟨hfollows.1.2, not_gone_of_transition hfollows.2⟩
  | object root =>
    refine ⟨.refl, onward_insert fun old hold => ?_, .refl, id⟩
    cases (show p.objects[root]? = none from h).symm.trans hold
  | replica =>
    refine ⟨.refl, .refl, onward_insert fun old hold => ?_, fun hd => by simp [put, hd]⟩
    have hfollows := h.2 old hold
    simp only [JournaledReplica.follows, Bool.and_eq_true, decide_eq_true_eq] at hfollows
    exact hfollows.1.2

theorem Grows.object {root : Digest} {m} (h : Grows p q) (hm : p.objects[root]? = some m) :
    q.objects[root]? = some m := by
  obtain ⟨_, hnew, rfl | hfalse⟩ := h.objects hm
  · exact hnew
  · exact hfalse.elim

/-! ### Records that are known -/

structure Seen (p : TierJournalProjection) : Prop where
  backends : ∀ {id : String} {b}, p.backends[id]? = some b → b.eventDigest ∈ p.seenEvents
  replicas : ∀ {key : Digest × String} {r}, p.replicas[key]? = some r → r.eventDigest ∈ p.seenEvents

theorem Seen.put (hp : Seen p) (entry) : Seen (p.put entry) := by
  cases entry with
  | backend =>
    refine ⟨fun h => ?_, fun h => by simp [TierJournalProjection.put, hp.replicas h]⟩
    obtain ⟨-, rfl⟩ | ⟨-, hold⟩ := some_of_insert h
    · simp [TierJournalProjection.put]
    · simp [TierJournalProjection.put, hp.backends hold]
  | object => exact ⟨hp.backends, hp.replicas⟩
  | replica =>
    refine ⟨fun h => by simp [TierJournalProjection.put, hp.backends h], fun h => ?_⟩
    obtain ⟨-, rfl⟩ | ⟨-, hold⟩ := some_of_insert h
    · simp [TierJournalProjection.put]
    · simp [TierJournalProjection.put, hp.replicas hold]

theorem readReplica_eq_ok {r : TierReplica} {backend next} :
    p.readReplica C r = .ok (backend, next) ↔ ∃ object, p.objects[r.rootDigest]? = some object ∧
      ¬ (object.generation ≠ r.generation || !trimmedName r.backendId || r.revision = 0 ||
        r.eventDigest = .zero) ∧
      p.backends[r.backendId]? = some backend ∧ replicaOf C r = .ok next := by
  simp only [readReplica, bind_eq_ok, okOr_eq_ok, refuse_eq_ok, Except.ok.injEq, Prod.mk.injEq]
  refine exists_congr fun object => and_congr_right fun _ => and_congr_right fun _ => ?_
  constructor
  · rintro ⟨_, hbackend, _, hnext, rfl, rfl⟩
    exact ⟨hbackend, hnext⟩
  · rintro ⟨hbackend, hnext⟩
    exact ⟨_, hbackend, _, hnext, rfl, rfl⟩

variable (C) in
def Knows (p : TierJournalProjection) : LedgerEvent → Prop
  | .tierBackendLifecycle b => ∃ next, backendOf C b = .ok next ∧ next.eventDigest ∈ p.seenEvents
  | .tierObjectCommitted root generation revision manifest =>
    ∃ decoded, C.decodeCanonical manifest = .ok decoded ∧
      ¬ (decoded.rootDigest ≠ root || decoded.generation ≠ generation ||
      decoded.revision ≠ revision) ∧
      p.objects[root]? = some decoded
  | .tierReplicaLifecycle r =>
    ∃ backend next, p.readReplica C r = .ok (backend, next) ∧ next.eventDigest ∈ p.seenEvents
  | _ => True

theorem change_of_knows (h : p.Knows C e) : p.change C e = .ok none := by
  cases e
  case tierBackendLifecycle b =>
    obtain ⟨next, hnext, hseen⟩ := h
    exact bind_eq_ok.mpr ⟨next, hnext, if_pos hseen⟩
  case tierObjectCommitted =>
    obtain ⟨decoded, hdecoded, hfields, hobject⟩ := h
    refine bind_eq_ok.mpr ⟨decoded, mapError_eq_ok.mpr hdecoded, refuse_eq_ok.mpr ⟨hfields, ?_⟩⟩
    rw [hobject, place, if_pos rfl]
  case tierReplicaLifecycle r =>
    obtain ⟨backend, next, hread, hseen⟩ := h
    exact bind_eq_ok.mpr ⟨(backend, next), hread, if_pos hseen⟩
  all_goals rfl

theorem Knows.grows (h : p.Knows C e) (hg : Grows p q) : q.Knows C e := by
  cases e
  case tierBackendLifecycle => exact h.imp fun _ h => ⟨h.1, hg.seen h.2⟩
  case tierObjectCommitted => exact h.imp fun _ h => ⟨h.1, h.2.1, hg.object h.2.2⟩
  case tierReplicaLifecycle =>
    obtain ⟨backend, next, hread, hseen⟩ := h
    obtain ⟨object, hobject, hfields, hbackend, hnext⟩ := readReplica_eq_ok.mp hread
    obtain ⟨new, hnew, -⟩ := hg.backends hbackend
    exact ⟨new, next, readReplica_eq_ok.mpr ⟨object, hg.object hobject, hfields, hnew, hnext⟩,
      hg.seen hseen⟩
  all_goals trivial

theorem place_eq_ok {α : Type} [DecidableEq α] {current : Option α}
    {next follows first refused added}
    (h : place current next follows first refused entry = .ok added) :
    added = none ∧ current = some next ∨ added = some entry ∧ ∀ old, current = some old →
      follows old = true := by
  rcases current with _ | old
  · obtain ⟨-, h⟩ := refuse_eq_ok.mp h
    cases h
    exact .inr ⟨rfl, fun _ h => by cases h⟩
  · rw [place] at h
    split at h
    · next heq =>
      cases h
      exact .inl ⟨rfl, by rw [heq]⟩
    · obtain ⟨hfollows, h⟩ := refuse_eq_ok.mp h
      cases h
      exact .inr ⟨rfl, by simpa using hfollows⟩

/-- A record that is accepted is known, or what it stores fits and makes it known. -/
theorem change_eq_ok (hp : Seen p) {added} (h : p.change C e = .ok added) :
    added = none ∧ p.Knows C e ∨ ∃ entry, added = some entry ∧ p.Fits entry ∧
      (p.put entry).Knows C e := by
  cases e
  case tierBackendLifecycle b =>
    obtain ⟨next, hnext, h⟩ := bind_eq_ok.mp h
    split at h
    · next hseen =>
      cases h
      exact .inl ⟨rfl, next, hnext, hseen⟩
    · obtain ⟨rfl, hcurrent⟩ | ⟨rfl, hfollows⟩ := place_eq_ok h
      · exact .inl ⟨rfl, next, hnext, hp.backends hcurrent⟩
      · exact .inr ⟨_, rfl, hfollows, next, hnext, by simp [put]⟩
  case tierObjectCommitted root generation revision manifest =>
    obtain ⟨decoded, hdecoded, h⟩ := bind_eq_ok.mp h
    obtain ⟨hfields, h⟩ := refuse_eq_ok.mp h
    obtain ⟨rfl, hcurrent⟩ | ⟨rfl, hfollows⟩ := place_eq_ok h
    · exact .inl ⟨rfl, decoded, mapError_eq_ok.mp hdecoded, hfields, hcurrent⟩
    · refine .inr ⟨_, rfl, ?_, decoded, mapError_eq_ok.mp hdecoded, hfields, by simp [put]⟩
      exact Option.eq_none_iff_forall_ne_some.mpr fun old hold => by cases hfollows old hold
  case tierReplicaLifecycle r =>
    obtain ⟨⟨backend, next⟩, hread, h⟩ := bind_eq_ok.mp h
    simp only at h
    split at h
    · next hseen =>
      cases h
      exact .inl ⟨rfl, backend, next, hread, hseen⟩
    · obtain ⟨hbackend, h⟩ := refuse_eq_ok.mp h
      obtain ⟨rfl, hcurrent⟩ | ⟨rfl, hfollows⟩ := place_eq_ok h
      · exact .inl ⟨rfl, backend, next, hread, hp.replicas hcurrent⟩
      obtain ⟨-, -, -, hknown, -⟩ := readReplica_eq_ok.mp hread
      have hretires : backend.state.gone → next.state.retires := by
        simp only [Bool.or_eq_true, not_or] at hbackend
        simpa using hbackend.1.2
      exact .inr ⟨_, rfl, ⟨⟨backend, hknown, hretires⟩, hfollows⟩, backend, next, hread,
        by simp [put]⟩
  all_goals exact .inl ⟨by cases h; rfl, trivial⟩

/-! ### Whole histories -/

variable (C) in
def Holds (s : TierJournalProjection × List LedgerEvent) : Prop :=
  Seen s.1 ∧ ∀ e ∈ s.2, s.1.Knows C e

/-- **All or nothing**: a record leaves the journal, or is accepted with all that it stores. -/
theorem apply_cases (hp : Seen p) (e) :
    (p.apply C e).2 = p ∧ ((p.apply C e).1 = .ok () → p.Knows C e) ∨
      ∃ entry, p.apply C e = (.ok (), p.put entry) ∧ p.Fits entry ∧ (p.put entry).Knows C e := by
  rw [apply]
  rcases hchange : p.change C e with _ | added
  · exact .inl ⟨rfl, (by cases ·)⟩
  · obtain ⟨rfl, hknows⟩ | ⟨entry, rfl, hfits⟩ := change_eq_ok hp hchange
    · exact .inl ⟨rfl, fun _ => hknows⟩
    · exact .inr ⟨entry, rfl, hfits⟩

theorem Holds.record {s} (hs : Holds C s) (e) :
    Holds C (record C s e) ∧ Grows s.1 (record C s e).1 := by
  rw [TierJournalProjection.record]
  obtain ⟨hsame, hknows⟩ | ⟨entry, happly, hfits, hknows⟩ := apply_cases hs.1 e
  · rcases happly : s.1.apply C e with ⟨_ | _, p⟩
    all_goals
      rw [happly] at hsame hknows
      subst hsame
      refine ⟨⟨hs.1, ?_⟩, .refl⟩
    · exact hs.2
    · simpa [or_imp, forall_and] using ⟨hs.2, hknows rfl⟩
  · rw [happly]
    refine ⟨⟨hs.1.put entry, ?_⟩, hfits.grows⟩
    simpa [or_imp, forall_and] using ⟨fun e he => (hs.2 e he).grows hfits.grows, hknows⟩

theorem Holds.foldl {s} (hs : Holds C s) (es : List LedgerEvent) :
    Holds C (es.foldl (TierJournalProjection.record C) s) ∧
      Grows s.1 (es.foldl (TierJournalProjection.record C) s).1 := by
  induction es generalizing s with
  | nil => exact ⟨hs, .refl⟩
  | cons e es ih =>
    obtain ⟨hnext, hgrows⟩ := hs.record e
    exact ⟨(ih hnext).1, hgrows.trans (ih hnext).2⟩

/-- **The journal is monotone and idempotent.**  Behind any records, the next one changes
nothing or stores one entry as a whole, and those that were accepted change nothing again,
one by one or as a prefix of the history.  Behind more records, an entry is kept or has a
later revision, and a backend that is gone is kept.  A replica that changes has a backend,
and retires if that is gone. -/
theorem tier_journal_monotone (es more : List LedgerEvent) (e : LedgerEvent) :
    let p := (journal C es).1
    let later := (journal C (es ++ more)).1
    ((p.apply C e).2 = p ∨ ∃ entry, p.apply C e = (.ok (), p.put entry)) ∧
    (∀ e ∈ (journal C es).2, p.apply C e = (.ok (), p)) ∧
    (∀ pre, pre <+: (journal C es).2 → pre.foldl (fun p e => (p.apply C e).2) p = p) ∧
    (∀ (id : String) old, p.backends[id]? = some old → ∃ new, later.backends[id]? = some new ∧
      (new = old ∨ old.revision < new.revision) ∧ (old.state.gone → new = old)) ∧
    (∀ (key : Digest × String) old, p.replicas[key]? = some old →
      ∃ new, later.replicas[key]? = some new ∧ (new = old ∨ old.revision < new.revision)) ∧
    ∀ (key : Digest × String) new, (p.apply C e).2.replicas[key]? = some new →
      p.replicas[key]? ≠ some new → ∃ backend, p.backends[key.2]? = some backend ∧
      (backend.state.gone → new.state.retires) := by
  intro p later
  have hholds : Holds C (journal C es) := (Holds.foldl ⟨⟨by simp, by simp⟩, by simp⟩ es).1
  have hgrows : Grows p later := by
    rw [show later = (more.foldl (record C) (journal C es)).1 by
      simp only [later, journal, List.foldl_append]]
    exact (hholds.foldl more).2
  have hagain : ∀ e ∈ (journal C es).2, p.apply C e = (.ok (), p) := fun e he => by
    rw [apply, change_of_knows (hholds.2 e he)]
  have hcases := apply_cases (C := C) (p := p) hholds.1 e
  refine ⟨hcases.imp And.left fun h => h.imp fun _ => And.left, hagain, fun pre hpre => ?_,
    fun id old hold => ?_, fun key old hold => hgrows.replicas hold,
    fun key new hnew hchanged => ?_⟩
  · have hsub := hpre.subset
    clear hpre
    induction pre with
    | nil => rfl
    | cons e pre ih =>
      rw [List.foldl_cons, hagain e (hsub List.mem_cons_self)]
      exact ih fun _ he => hsub (List.mem_cons_of_mem _ he)
  · obtain ⟨new, hnew, hkept | ⟨hlt, hgone⟩⟩ := hgrows.backends hold
    · exact ⟨new, hnew, .inl hkept, fun _ => hkept⟩
    · exact ⟨new, hnew, .inr hlt, fun h => absurd h hgone⟩
  · obtain ⟨hsame, -⟩ | ⟨entry, happly, hfits, -⟩ := hcases
    · rw [hsame] at hnew
      exact absurd hnew hchanged
    rw [happly] at hnew
    cases entry with
    | backend => exact absurd hnew hchanged
    | object => exact absurd hnew hchanged
    | replica key' next =>
      obtain ⟨rfl, rfl⟩ | ⟨-, hold⟩ := some_of_insert hnew
      · exact hfits.1
      · exact absurd hold hchanged

end TierJournalProjection

/-! ### The journal of a runtime -/

def TierError.debug : TierError → String
  | .invalidManifest reason => "InvalidManifest(\"" ++ reason ++ "\")"
  | .rootDigestMismatch => "RootDigestMismatch"

def TierProjectionError.debug : TierProjectionError → String
  | .invalidEvent => "InvalidEvent"
  | .unknownStateCode => "UnknownStateCode"
  | .invalidBackendTransition => "InvalidBackendTransition"
  | .invalidReplicaTransition => "InvalidReplicaTransition"
  | .conflictingObject => "ConflictingObject"
  | .unknownBackend => "UnknownBackend"
  | .unknownObject => "UnknownObject"
  | .manifest error => "Manifest(" ++ error.debug ++ ")"

variable {ρ τ : Type} {R : Rules ρ τ} {C : TierCodec}

def Rules.journaled (R : Rules ρ τ) (C : TierCodec) : Rules ρ TierJournalProjection where
  sha := R.sha
  decodeEvidence := R.decodeEvidence
  tierNew := {}
  tierApply p e :=
    match p.apply C e with
    | (.ok (), p) => .ok p
    | (.error error, _) => .error error.debug
  expertsNew := R.expertsNew
  expertCheck := R.expertCheck
  expertPlan := R.expertPlan
  expertEntries := R.expertEntries
  expertPlan_named := R.expertPlan_named
  expertEntries_named := R.expertEntries_named

namespace PtrRuntime

open CommittedEvent TierJournalProjection

theorem tierJournal_applyEvent (r : PtrRuntime ρ TierJournalProjection) (c : CommittedEvent)
    (semantic : Option Semdb.PreparedDelta) :
    (r.applyEvent (R.journaled C) c semantic).2.history.tierJournal =
      (r.history.tierJournal.apply C c.event).2 := by
  obtain ⟨index, e⟩ := c
  cases e with
  | tierBackendLifecycle | tierObjectCommitted | tierReplicaLifecycle =>
    simp only [applyEvent, applyTier, Rules.journaled, TierJournalProjection.apply]
    cases hchange : r.history.tierJournal.change C _ with
    | error => rfl
    | ok added =>
      cases added with
      | none | some => rfl
  | semanticDeltaCommitted =>
    cases semantic with
    | none => rfl
    | some =>
      simp only [applyEvent, applySemantic]
      split
      all_goals rfl
  | _ =>
    simp only [applyEvent, applyScope, applyHypothesis, applyAdmission, applyManifestRevocation,
      applyPolicyActivation, applyPolicyRevocation, applyProtectedState, applyExpert]
    repeat' split
    all_goals rfl

theorem tierJournal_applyCommitted (r : PtrRuntime ρ TierJournalProjection) (c : CommittedEvent)
    (semantic : Option Semdb.PreparedDelta) :
    (r.applyCommitted (R.journaled C) c semantic).2.history.tierJournal =
      (r.history.tierJournal.apply C c.event).2 := by
  have hevent := tierJournal_applyEvent (R := R) (C := C) r c semantic
  rw [applyCommitted]
  split
  · next h =>
    rw [h] at hevent
    exact hevent
  · next h =>
    rw [h] at hevent
    exact hevent

theorem journal_append (es : List LedgerEvent) (e : LedgerEvent) :
    (journal C (es ++ [e])).1 = ((journal C es).1.apply C e).2 := by
  rw [journal, List.foldl_append, List.foldl_cons, List.foldl_nil, ← journal, record]
  rcases (journal C es).1.apply C e with ⟨_ | _, _⟩
  · rfl
  · rfl

/-- **The journal of a runtime is the one of its records.** -/
theorem tierJournal_reachable {r : PtrRuntime ρ TierJournalProjection}
    (hr : r.Reachable (R.journaled C)) :
    r.history.tierJournal = (journal C (r.ledger.map event)).1 := by
  refine reachable_invariant (P := fun r =>
    r.history.tierJournal = (journal C (r.ledger.map event)).1) (fun _ _ => rfl) ?_ ?_ hr
  · intro r r' hr hm
    cases hm with
    | @append c semantic happends =>
      rw [completed_history, tierJournal_applyCommitted, (completed_appended c semantic).2,
        List.map_append]
      exact (congrArg (fun p => (p.apply C c.event).2) hr).trans (journal_append _ c.event).symm
    | _ => exact hr
  · intro r c r' hr h
    obtain ⟨semantic, -, happly⟩ := h.applied
    have hjournal := tierJournal_applyCommitted (R := R) (C := C)
      { r with ledger := r.ledger ++ [c] } c semantic
    rw [happly] at hjournal
    rw [h.process.ledger, List.map_append]
    exact hjournal.trans
      ((congrArg (fun p => (p.apply C c.event).2) hr).trans (journal_append _ c.event).symm)

end PtrRuntime

end Ptr.Runtime
