import Mathlib.Data.List.TakeDrop
import Ptr.Lib.Fault
import Ptr.Ledger.Bounds

/-!
# What a raft member remembers across a restart

The state that `raft_storage.rs` keeps on disk (`Stored`): hard state,
configuration, the snapshot with its payload, the count of ledger events the
snapshot covers, and the log above it.  A `Store` is that state together with the
health of the storage; each of its operations is one step that happens as a
whole, not at all, or (an append) up to some entry.

* `Contiguous`: the entries of a log are numbered in a row.
* `Follows`: the entries that a store holds as committed are those of the
  group's log.
-/

namespace Ptr.Raft

open Lib Ledger List
open Prog hiding pure bind throw get modify

/-! ### Raft's own types -/

inductive EntryType
  | normal | confChange | confChangeV2
  deriving DecidableEq

structure Entry where
  index : U64
  term : U64
  kind : EntryType
  context : Bytes
  data : Bytes
  deriving DecidableEq

structure HardState where
  term : U64
  vote : U64
  commit : U64
  deriving DecidableEq

structure ConfState where
  voters : List U64
  learners : List U64
  votersOutgoing : List U64
  learnersNext : List U64
  autoLeave : Bool
  deriving DecidableEq

/-- The position that a snapshot describes.  The configuration in raft's own
metadata is the one of the storage and is not kept twice. -/
structure SnapshotMetadata where
  index : U64
  term : U64
  deriving DecidableEq

structure Snapshot where
  index : U64
  term : U64
  confState : ConfState
  data : Bytes

/-- How many ledger events the snapshot covers, or that nobody has said yet. -/
inductive AppliedEvents
  | counted (n : U64)
  | snapshotPending
  deriving DecidableEq

def carriesLedgerEvent (e : Entry) : Bool := e.kind == .normal && !e.data.isEmpty

def maxEntryBytes : Nat := 8 * 1024 * 1024
def maxSnapshotBytes : Nat := 64 * 1024 * 1024
def maxLogBytes : Nat := 1024 * 1024 * 1024

def recordLen (e : Entry) : Nat := 8 + 8 + 8 + 1 + 4 + 4 + 32 + e.context.length + e.data.length

def logLen (es : List Entry) : Nat := 8 + (es.map recordLen).sum

/-! ### The stored state -/

structure Stored where
  hardState : HardState
  confState : ConfState
  snapshot : SnapshotMetadata
  payload : Bytes
  applied : AppliedEvents
  fence : U64
  entries : List Entry
  deriving DecidableEq

namespace Stored

def fresh (voters learners : List U64) : Stored where
  hardState := ⟨0, 0, 0⟩
  confState := ⟨voters, learners, [], [], false⟩
  snapshot := ⟨0, 0⟩
  payload := []
  applied := .counted 0
  fence := 0
  entries := []

variable (s : Stored)

def firstIndex : U64 :=
  match s.entries.head? with
  | some e => e.index
  | none => U64.saturatingAdd s.snapshot.index 1

def lastIndex : U64 :=
  match s.entries.getLast? with
  | some e => e.index
  | none => s.snapshot.index

def committedEntries : List Entry := s.entries.filter fun e => e.index ≤ s.hardState.commit

def exhausted : IoError := invalid "the raft log index is exhausted"

/-- The loop of `append` over the new entries, at position `p`. -/
def checkConsecutive (first : U64) : Nat → List Entry → Except IoError Unit
  | _, [] => .ok ()
  | p, e :: es =>
    if 2 ^ 64 ≤ first.val + p then .error exhausted
    else if e.index.val ≠ first.val + p then
      .error (invalid "appended raft entries are not consecutive")
    else if maxEntryBytes < e.data.length ∨ maxEntryBytes < e.context.length then
      .error (invalid "raft entry payload is over the bound")
    else checkConsecutive first (p + 1) es

def keep (first : U64) : Nat := first.val - s.firstIndex.val

def checkOrder (first : U64) (es : List Entry) : Except IoError Unit :=
  if first < s.firstIndex then
    .error (invalid s!"append at {first} would overwrite compacted history below {s.firstIndex}")
  else if 2 ^ 64 ≤ s.lastIndex.val + 1 then .error exhausted
  else if s.lastIndex.val + 1 < first.val then
    .error (invalid s!"append at {first} leaves a gap after {s.lastIndex}")
  else checkConsecutive first 0 es

def checkSize (start : Nat) (es : List Entry) : Except IoError Unit :=
  if maxLogBytes < start + (es.map recordLen).sum then
    .error (invalid "the raft log would pass its size bound")
  else .ok ()

def checkAppend (first : U64) (es : List Entry) : Except IoError Unit := do
  checkOrder s first es
  checkSize (logLen (s.entries.take (s.keep first))) es

def overwrite (n : Nat) (es : List Entry) : Stored := { s with entries := s.entries.take n ++ es }

def checkInstall (snap : Snapshot) : Except IoError Unit :=
  if snap.index < s.firstIndex then
    .error (invalid s!"snapshot at {snap.index} is behind the log's first index {s.firstIndex}")
  else if maxSnapshotBytes < snap.data.length then
    .error (invalid "raft snapshot payload is over the bound")
  else .ok ()

def install (snap : Snapshot) : Stored :=
  { s with
    hardState := { s.hardState with term := max s.hardState.term snap.term, commit := snap.index }
    confState := snap.confState
    snapshot := ⟨snap.index, snap.term⟩
    payload := snap.data
    applied := .snapshotPending
    entries := [] }

inductive SnapshotFloorRefusal
  | aboveRetentionFloor (index : U64) (events floor : CommitIndex)
  | floorMismatch (index : U64) (events floor : CommitIndex)
  | unaccounted (snapshotIndex : U64)

def SnapshotFloorRefusal.code : SnapshotFloorRefusal → String
  | aboveRetentionFloor .. => "PTR_RAFT_COMPACTION_ABOVE_RETENTION_FLOOR"
  | floorMismatch .. => "PTR_RAFT_SNAPSHOT_FLOOR_MISMATCH"
  | unaccounted .. => "PTR_RAFT_SNAPSHOT_UNACCOUNTED"

def SnapshotFloorRefusal.message (r : SnapshotFloorRefusal) : String :=
  match r with
  | aboveRetentionFloor index events floor =>
    s!"{r.code}: compacting to raft index {index} discards ledger events through {events}, " ++
      s!"and the retained snapshot covers only through {floor}"
  | floorMismatch index events floor =>
    s!"{r.code}: raft index {index} produced ledger events through {events}, and the payload " ++
      s!"claims to cover through {floor}"
  | unaccounted snapshotIndex =>
    s!"{r.code}: the snapshot installed at {snapshotIndex} has not been accounted for, " ++
      "so no ledger position can be derived from a raft index"

def SnapshotFloorRefusal.error (r : SnapshotFloorRefusal) : IoError := invalid r.message

def eventsThrough (index : U64) : Except IoError U64 :=
  match s.applied with
  | .snapshotPending => .error (SnapshotFloorRefusal.unaccounted s.snapshot.index).error
  | .counted base =>
    let above := ((s.entries.filter fun e => e.index ≤ index).filter carriesLedgerEvent).length
    if h : base.val + above < 2 ^ 64 then .ok ⟨base.val + above, h⟩
    else .error (invalid "the count of applied events is exhausted")

def termOf (index : U64) : Except IoError U64 :=
  if index = s.snapshot.index then .ok s.snapshot.term
  else if index < s.firstIndex ∨ s.lastIndex < index then
    .error (invalid s!"index {index} is outside the log")
  else
    match s.entries[index.val - s.firstIndex.val]? with
    | some e => .ok e.term
    -- the entries are contiguous, so the position exists
    | none => .error (invalid s!"index {index} is outside the log")

/-- The checks of `record_snapshot_within`; the term and the count of the
position are what they find. -/
def checkRecord (index : U64) (data : Bytes) (floor : CommitIndex) : Except IoError (U64 × U64) :=
  if s.hardState.commit < index then
    .error (invalid s!"snapshot at {index} is ahead of the committed index {s.hardState.commit}")
  else if index < s.snapshot.index then
    .error (invalid "snapshot moves the covered position backwards")
  else if maxSnapshotBytes < data.length then
    .error (invalid "raft snapshot payload is over the bound")
  else do
    let term ← s.termOf index
    let events ← s.eventsThrough index
    if floor < events then
      .error (SnapshotFloorRefusal.aboveRetentionFloor index events floor).error
    else if events < floor then .error (SnapshotFloorRefusal.floorMismatch index events floor).error
    else .ok (term, events)

def compact (index term events : U64) (data : Bytes) : Stored :=
  { s with
    snapshot := ⟨index, term⟩
    payload := data
    applied := .counted events
    entries := s.entries.drop (index.val + 1 - s.firstIndex.val) }

def withHardState (h : HardState) : Stored := { s with hardState := h }

def withConfState (c : ConfState) : Stored := { s with confState := c }

def withApplied (n : U64) : Stored := { s with applied := .counted n }

/-- The state as it is written: it claims the storage for its own term. -/
def claim (fence : U64) : Stored := { s with fence := max fence s.hardState.term }

end Stored

/-! ### A store and its operations -/

inductive Health
  | sound | poisoned
  deriving DecidableEq

/-- What a restart would read, and whether the running storage still answers for
it. -/
structure Store where
  held : Stored
  health : Health

def storagePoisoned : IoError :=
  ⟨.other, "PTR_RAFT_STORAGE_POISONED: an I/O error past a point of no return left the storage " ++
    "unsure of its files; restart the member"⟩

def fenced (fence term : U64) : IoError :=
  invalid s!"PTR_RAFT_FENCED: storage was claimed at term {fence}, this writer is at term {term}"

def ioFailure : IoError := ⟨.other, "I/O error"⟩

namespace Store

def refuseIfPoisoned : Prog Store IoError Unit := do
  let s ← Prog.get
  match s.health with
  | .sound => pure ()
  | .poisoned => Prog.throw storagePoisoned

/-- A writer below the term that claimed the storage is refused. -/
def checkFence (fence term : U64) : Except IoError Unit :=
  if term < fence then .error (fenced fence term) else .ok ()

/-- Replace the stored state as a whole.  A failure leaves the old state, or the
new one and a storage that refuses every later write. -/
def persist (next : Stored → Stored) : Prog Store IoError Unit := do
  refuseIfPoisoned
  let s ← Prog.get
  ofExcept (checkFence s.held.fence (next s.held).hardState.term)
  step ioFailure (fun t => { t with held := (next t.held).claim t.held.fence })
    (fun k t => if k = 0 then t else ⟨(next t.held).claim t.held.fence, .poisoned⟩)

def setHardState (h : HardState) : Prog Store IoError Unit := persist (·.withHardState h)

def setCommit (commit : U64) : Prog Store IoError Unit :=
  persist fun s => s.withHardState { s.hardState with commit := commit }

def setAppliedEvents (n : U64) : Prog Store IoError Unit := persist (·.withApplied n)

def setConfState (c : ConfState) : Prog Store IoError Unit := persist (·.withConfState c)

/-- `append`: a failure leaves the old log, or what it keeps of it and some of
the new entries. -/
def append (es : List Entry) : Prog Store IoError Unit := do
  refuseIfPoisoned
  match es with
  | [] => pure ()
  | first :: _ => do
    let s ← Prog.get
    ofExcept (checkFence s.held.fence s.held.hardState.term)
    ofExcept (s.held.checkAppend first.index es)
    let keep := s.held.keep first.index
    step ioFailure (fun t => { t with held := t.held.overwrite keep es })
      (fun k t => ⟨if k = 0 then t.held else t.held.overwrite keep (es.take (k - 1)), .poisoned⟩)

def applySnapshot (snap : Snapshot) : Prog Store IoError Unit := do
  refuseIfPoisoned
  let s ← Prog.get
  ofExcept (s.held.checkInstall snap)
  ofExcept (checkFence s.held.fence s.held.hardState.term)
  persist (·.install snap)

def recordSnapshotWithin (index : U64) (data : Bytes) (floor : CommitIndex) :
    Prog Store IoError Unit := do
  refuseIfPoisoned
  let s ← Prog.get
  let (term, events) ← ofExcept (s.held.checkRecord index data floor)
  ofExcept (checkFence s.held.fence s.held.hardState.term)
  persist (·.compact index term events data)

def recordSnapshot (index : U64) (data : Bytes) : Prog Store IoError Unit := do
  refuseIfPoisoned
  let s ← Prog.get
  let events ← ofExcept (s.held.eventsThrough index)
  recordSnapshotWithin index data events

/-! ### What the operations can do -/

variable {s s' : Store} {r : Outcome IoError Unit}

section

variable {α : Type} {Q : α → Store → Prop} {W : Option IoError → Store → Prop}

/-- A guarded operation runs on a sound storage, and changes nothing otherwise. -/
theorem leads_guarded {p} (h : s.health = .sound → (p ()).Leads s Q W) (hW : ∀ e, W (some e) s) :
    (refuseIfPoisoned >>= p).Leads s Q W := by
  refine Leads.bind (Q := fun _ t => t = s ∧ s.health = .sound) (leads_get_bind ?_) ?_
  · split
    case h_1 hs => exact leads_pure ⟨rfl, hs⟩
    case h_2 => exact leads_throw (hW _)
  · rintro _ _ ⟨rfl, hs⟩
    exact h hs

end

/-- The stored state was replaced, under the fence that it carries. -/
def Replaced (next : Stored → Stored) (s s' : Store) : Prop :=
  s.held.fence ≤ (next s.held).hardState.term ∧ s'.held = (next s.held).claim s.held.fence

/-- **A replacement of the stored state** happens or does not. -/
theorem leads_persist {next} :
    (persist next).Leads s (fun _ s' => Replaced next s s' ∧ s'.health = .sound)
      fun _ s' => s' = s ∨ Replaced next s s' ∧ s'.health = .poisoned := by
  refine leads_guarded
    (fun hs => leads_get_bind (leads_ofExcept_bind (fun _ hx => ?_) fun _ => .inl rfl))
    fun _ => .inl rfl
  have hf : s.held.fence ≤ (next s.held).hardState.term := not_lt.mp (refuse_eq_ok.mp hx).1
  refine leads_step ⟨⟨hf, rfl⟩, hs⟩ fun k _ => ?_
  split
  · exact .inl rfl
  · exact .inr ⟨⟨hf, rfl⟩, rfl⟩

theorem persist_succeeds {next} (hs : s.health = .sound)
    (hf : s.held.fence ≤ (next s.held).hardState.term) : (persist next).Succeeds s := by
  refine ⟨(), ⟨(next s.held).claim s.held.fence, s.health⟩, ?_⟩
  simp [persist, refuseIfPoisoned, checkFence, Bind.bind, Prog.bind, Prog.get, Pure.pure, Prog.pure,
    Prog.ofExcept, Prog.step, hs, not_lt.mpr hf]

/-- **An append** changes nothing, or leaves what it keeps and some of the new
entries, all of them on success. -/
theorem leads_append {es} : (append es).Leads s
    (fun _ s' => (es = [] ∧ s' = s) ∨ ∃ first rest, es = first :: rest ∧
      s.held.checkAppend first.index es = .ok () ∧
      s'.held = s.held.overwrite (s.held.keep first.index) es)
    fun _ s' => s'.held = s.held ∨ ∃ first rest n, es = first :: rest ∧
      s.held.checkAppend first.index es = .ok () ∧
      s'.held = s.held.overwrite (s.held.keep first.index) (es.take n) := by
  refine leads_guarded (fun _ => ?_) fun _ => .inl rfl
  cases es with
  | nil => exact leads_pure (.inl ⟨rfl, rfl⟩)
  | cons first rest =>
    refine leads_get_bind
      (leads_ofExcept_bind (fun _ _ => leads_ofExcept_bind (fun _ hx => ?_) fun _ => .inl rfl)
      fun _ => .inl rfl)
    refine leads_step (.inr ⟨first, rest, rfl, hx, rfl⟩) fun k _ => ?_
    by_cases hk : k = 0
    · exact .inl (if_pos hk)
    · exact .inr ⟨first, rest, k - 1, rfl, hx, if_neg hk⟩

theorem leads_applySnapshot {snap} : (applySnapshot snap).Leads s
    (fun _ s' => s.held.checkInstall snap = .ok () ∧ Replaced (·.install snap) s s')
    fun _ s' => s' = s ∨ s.held.checkInstall snap = .ok () ∧ Replaced (·.install snap) s s' := by
  refine leads_guarded (fun _ => leads_get_bind (leads_ofExcept_bind
    (fun _ hx => leads_ofExcept_bind (fun _ _ => ?_) fun _ => .inl rfl)
    fun _ => .inl rfl)) fun _ => .inl rfl
  exact leads_persist.imp (fun _ _ h => ⟨hx, h.1⟩) fun _ _ h => h.imp_right fun h => ⟨hx, h.1⟩

def Compacted (index : U64) (data : Bytes) (floor : CommitIndex) (s s' : Store) : Prop :=
  ∃ term events, s.held.checkRecord index data floor = .ok (term, events) ∧
    Replaced (·.compact index term events data) s s'

theorem leads_recordSnapshotWithin {index} {data : Bytes} {floor} :
    (recordSnapshotWithin index data floor).Leads s
      (fun _ => Compacted index data floor s) fun _ s' => s' = s ∨
      Compacted index data floor s s' := by
  refine leads_guarded (fun _ => leads_get_bind (leads_ofExcept_bind
    (fun found hx => leads_ofExcept_bind (fun _ _ => ?_) fun _ => .inl rfl)
    fun _ => .inl rfl)) fun _ => .inl rfl
  exact leads_persist.imp (fun _ _ h => ⟨found.1, found.2, hx, h.1⟩)
    fun _ _ h => h.imp_right fun h => ⟨found.1, found.2, hx, h.1⟩

theorem leads_recordSnapshot {index} {data : Bytes} {Q W}
    (h : ∀ events, (recordSnapshotWithin index data events).Leads s Q W) (hW : ∀ e, W (some e) s) :
    (recordSnapshot index data).Leads s Q W :=
  leads_guarded (fun _ => leads_get_bind (leads_ofExcept_bind (fun events _ => h events) hW)) hW

end Store

/-! ### Logs numbered in a row -/

def Contiguous (n : Nat) : List Entry → Prop
  | [] => True
  | e :: es => e.index.val = n + 1 ∧ Contiguous (n + 1) es

namespace Contiguous

variable {n : Nat} {es fs : List Entry}

theorem append_iff : Contiguous n (es ++ fs) ↔ Contiguous n es ∧ Contiguous (n + es.length) fs := by
  induction es generalizing n with
  | nil => simp [Contiguous]
  | cons e es ih =>
    rw [cons_append, Contiguous, ih, Contiguous, and_assoc, length_cons,
      Nat.add_right_comm, add_assoc]

theorem take (h : Contiguous n es) (k : Nat) : Contiguous n (es.take k) :=
  (append_iff.mp (by rwa [take_append_drop])).1

theorem drop (h : Contiguous n es) {k} (hk : k ≤ es.length) : Contiguous (n + k) (es.drop k) := by
  have := (append_iff.mp (by rwa [take_append_drop k])).2
  rwa [length_take, min_eq_left hk] at this

theorem mem (h : Contiguous n es) {e} (he : e ∈ es) :
    n < e.index.val ∧ e.index.val ≤ n + es.length := by
  induction es generalizing n with
  | nil => cases he
  | cons d es ih =>
    rw [length_cons]
    rcases mem_cons.mp he with rfl | he
    · have := h.1
      omega
    · have := ih h.2 he
      omega

theorem getLast (h : Contiguous n es) {e} (he : es.getLast? = some e) :
    e.index.val = n + es.length := by
  obtain ⟨ds, rfl⟩ := getLast?_eq_some_iff.mp he
  have := (append_iff.mp h).2.1
  simp only [length_append]
  omega

theorem filter_le (h : Contiguous n es) (c : U64) :
    (es.filter fun e => e.index ≤ c) = es.take (c.val - n) := by
  induction es generalizing n with
  | nil => simp
  | cons e es ih =>
    obtain ⟨he, hes⟩ := h
    by_cases hc : e.index ≤ c
    · have hle : e.index.val ≤ c.val := hc
      rw [filter_cons_of_pos (by simpa using hc), ih hes,
        show c.val - n = c.val - (n + 1) + 1 by omega, take_succ_cons]
    · have hlt : c.val < e.index.val := not_le.mp hc
      rw [filter_cons_of_neg (by simpa using hc), ih hes, show c.val - (n + 1) = 0 by omega,
        show c.val - n = 0 by omega]
      simp

end Contiguous

theorem Stored.checkConsecutive_contiguous {first p n es} (h : checkConsecutive first p es = .ok ())
    (hn : n + 1 = first.val + p) : Contiguous n es := by
  induction es generalizing p n with
  | nil => trivial
  | cons e es ih =>
    simp only [checkConsecutive, refuse_eq_ok] at h
    obtain ⟨-, he, -, h⟩ := h
    exact ⟨by omega, ih h (by omega)⟩

/-! ### Stores that follow the log of the group -/

/-- The entries of `L` at the positions `a + 1, …, b`. -/
def seg (L : List Entry) (a b : Nat) : List Entry := (L.drop a).take (b - a)

def eventCount (L : List Entry) (i : Nat) : Nat := ((L.take i).filter carriesLedgerEvent).length

@[simp] theorem seg_self (L : List Entry) (a : Nat) : seg L a a = [] := by simp [seg]

theorem seg_append {L a b c} (hab : a ≤ b) (hbc : b ≤ c) : seg L a b ++ seg L b c = seg L a c := by
  rw [seg, seg, seg, show c - a = (b - a) + (c - b) by omega, take_add, drop_drop,
    show a + (b - a) = b by omega]

theorem take_append_seg (L : List Entry) {a b} (hab : a ≤ b) :
    L.take a ++ seg L a b = L.take b := by
  rw [seg, ← take_add, show a + (b - a) = b by omega]

theorem seg_length {L a b} (hb : b ≤ L.length) : (seg L a b).length = b - a := by
  rw [seg, length_take, length_drop]
  omega

theorem eventCount_seg (L : List Entry) {a b} (hab : a ≤ b) :
    eventCount L a + ((seg L a b).filter carriesLedgerEvent).length = eventCount L b := by
  rw [eventCount, eventCount, ← take_append_seg L hab, filter_append, length_append]

theorem eventCount_mono (L : List Entry) {a b} (hab : a ≤ b) : eventCount L a ≤ eventCount L b := by
  rw [← eventCount_seg L hab]
  exact Nat.le_add_right _ _

/-- The entries up to the commit index are those of the log `L` of the group. -/
structure Stored.Agrees (L : List Entry) (s : Stored) : Prop where
  snapshot_le : s.snapshot.index.val ≤ s.hardState.commit.val
  commit_le : s.hardState.commit.val ≤ L.length
  committed : s.entries.take (s.hardState.commit.val - s.snapshot.index.val) =
    seg L s.snapshot.index.val s.hardState.commit.val

/-- **The store follows the log of the group**: it agrees with it, it has no
gap, and the count that goes with its snapshot is the number of events below. -/
structure Stored.Follows (L : List Entry) (s : Stored) : Prop extends Stored.Agrees L s where
  contiguous : Contiguous s.snapshot.index.val s.entries
  counted : ∀ n, s.applied = .counted n → n.val = eventCount L s.snapshot.index.val

structure Stored.SameLog (s t : Stored) : Prop where
  hardState : t.hardState = s.hardState
  snapshot : t.snapshot = s.snapshot
  applied : t.applied = s.applied
  entries : t.entries = s.entries

namespace Stored

variable {s : Stored} {L : List Entry}

theorem Follows.committedEntries (h : s.Follows L) :
    s.committedEntries = seg L s.snapshot.index.val s.hardState.commit.val := by
  rw [Stored.committedEntries, h.contiguous.filter_le, h.committed]

theorem SameLog.refl (s : Stored) : s.SameLog s := ⟨rfl, rfl, rfl, rfl⟩

theorem SameLog.trans {t u} (h : s.SameLog t) (h' : t.SameLog u) : s.SameLog u :=
  ⟨h'.1.trans h.1, h'.2.trans h.2, h'.3.trans h.3, h'.4.trans h.4⟩

theorem SameLog.claim {t} (h : s.SameLog t) (f : U64) : s.SameLog (t.claim f) :=
  ⟨h.1, h.2, h.3, h.4⟩

theorem SameLog.withHardState {t} (h : s.SameLog t) (hs : HardState) :
    (s.withHardState hs).SameLog (t.withHardState hs) := ⟨rfl, h.2, h.3, h.4⟩

theorem SameLog.firstIndex {t} (h : s.SameLog t) : t.firstIndex = s.firstIndex := by
  rw [Stored.firstIndex, Stored.firstIndex, h.entries, h.snapshot]

theorem SameLog.keep {t} (h : s.SameLog t) (first : U64) : t.keep first = s.keep first := by
  rw [Stored.keep, Stored.keep, h.firstIndex]

theorem SameLog.overwrite {t} (h : s.SameLog t) (n : Nat) (es : List Entry) :
    (s.overwrite n es).SameLog (t.overwrite n es) :=
  ⟨h.1, h.2, h.3, congrArg (fun old : List Entry => old.take n ++ es) h.4⟩

theorem Agrees.sameLog {t} (h : s.Agrees L) (hst : s.SameLog t) : t.Agrees L where
  snapshot_le := by rw [hst.snapshot, hst.hardState]; exact h.snapshot_le
  commit_le := by rw [hst.hardState]; exact h.commit_le
  committed := by rw [hst.snapshot, hst.hardState, hst.entries]; exact h.committed

theorem Follows.sameLog {t} (h : s.Follows L) (hst : s.SameLog t) : t.Follows L where
  toAgrees := h.toAgrees.sameLog hst
  contiguous := by rw [hst.snapshot, hst.entries]; exact h.contiguous
  counted := by rw [hst.snapshot, hst.applied]; exact h.counted

theorem Follows.claim (h : s.Follows L) (f : U64) : (s.claim f).Follows L :=
  h.sameLog ⟨rfl, rfl, rfl, rfl⟩

theorem Follows.recommit (h : s.Follows L) {hs} (ha : (s.withHardState hs).Agrees L) :
    (s.withHardState hs).Follows L := ⟨ha, h.contiguous, h.counted⟩

theorem Follows.length_le (h : s.Follows L) :
    s.hardState.commit.val - s.snapshot.index.val ≤ s.entries.length := by
  have := congrArg length h.committed
  rw [seg_length h.commit_le, length_take] at this
  omega

/-- A log that holds entries above its snapshot begins right above it. -/
theorem firstIndex_val (h : Contiguous s.snapshot.index.val s.entries)
    (hmax : s.lastIndex.val + 1 < 2 ^ 64) : s.firstIndex.val = s.snapshot.index.val + 1 := by
  rw [firstIndex]
  cases hs : s.entries with
  | nil =>
    have hl : s.lastIndex = s.snapshot.index := by simp [lastIndex, hs]
    rw [hl] at hmax
    exact U64.saturatingAdd_val hmax
  | cons =>
    rw [hs] at h
    exact h.1

theorem lastIndex_val (h : Contiguous s.snapshot.index.val s.entries) :
    s.lastIndex.val = s.snapshot.index.val + s.entries.length := by
  rw [lastIndex]
  cases hs : s.entries.getLast? with
  | none => simp [getLast?_eq_none_iff.mp hs]
  | some => exact h.getLast hs

theorem Follows.account (h : s.Follows L) {n} (hn : n.val = eventCount L s.snapshot.index.val) :
    (s.withApplied n).Follows L :=
  ⟨⟨h.snapshot_le, h.commit_le, h.committed⟩, h.contiguous, fun k hk => by cases hk; exact hn⟩

theorem checkAppend_spec {first es} (hc : Contiguous s.snapshot.index.val s.entries)
    (h : s.checkAppend first es = .ok ()) :
    s.keep first ≤ s.entries.length ∧ first.val = s.snapshot.index.val + s.keep first + 1 ∧
      Contiguous (s.snapshot.index.val + s.keep first) es := by
  simp only [checkAppend, checkOrder, refuse_eq_ok, bind_unit_eq_ok, not_le] at h
  obtain ⟨⟨hlow, hmax, hgap, hcons⟩, -⟩ := h
  have hfirst := firstIndex_val hc hmax
  have hlast := lastIndex_val hc
  have hlow' : s.firstIndex.val ≤ first.val := not_lt.mp hlow
  rw [keep]
  refine ⟨by omega, by omega, checkConsecutive_contiguous hcons (by omega)⟩

theorem Follows.overwrite (h : s.Follows L) {first es} (n : Nat)
    (hcheck : s.checkAppend first es = .ok ()) (hfirst : s.hardState.commit.val < first.val) :
    (s.overwrite (s.keep first) (es.take n)).Follows L := by
  obtain ⟨hlen, hpos, hes⟩ := checkAppend_spec h.contiguous hcheck
  have hkeep : (s.entries.take (s.keep first)).length = s.keep first := by
    rw [length_take, min_eq_left hlen]
  refine ⟨⟨h.snapshot_le, h.commit_le, ?_⟩, ?_, h.counted⟩
  rotate_left
  · rw [Stored.overwrite, Contiguous.append_iff, hkeep]
    exact ⟨h.contiguous.take _, hes.take n⟩
  · refine Eq.trans ?_ h.committed
    show (s.entries.take (s.keep first) ++ es.take n).take
      (s.hardState.commit.val - s.snapshot.index.val) = _
    rw [take_append_of_le_length (by omega), take_take, min_eq_left (by omega)]

theorem follows_install {snap} (hi : snap.index.val ≤ L.length) :
    (s.install snap).Follows L where
  contiguous := trivial
  snapshot_le := le_refl _
  commit_le := hi
  committed := by
    show [].take (snap.index.val - snap.index.val) = seg L snap.index.val snap.index.val
    simp
  counted := fun n hn => by cases hn

theorem follows_fresh (L : List Entry) (voters learners : List U64) :
    (fresh voters learners).Follows L where
  snapshot_le := le_refl _
  commit_le := Nat.zero_le _
  committed := by simp [fresh, seg]
  contiguous := trivial
  counted := fun n hn => by
    cases hn
    simp [eventCount, fresh]

theorem Follows.take_entries (h : s.Follows L) {i} (hi : i ≤ s.hardState.commit.val) :
    s.entries.take (i - s.snapshot.index.val) = seg L s.snapshot.index.val i := by
  have := congrArg (take (i - s.snapshot.index.val)) h.committed
  rw [take_take, min_eq_left (by omega)] at this
  rw [this, seg, take_take, min_eq_left (by omega)]
  rfl

theorem Follows.drop_entries (h : s.Follows L) {i} (hlow : s.snapshot.index.val ≤ i) :
    (s.entries.drop (i - s.snapshot.index.val)).take (s.hardState.commit.val - i) =
      seg L i s.hardState.commit.val := by
  have := congrArg (drop (i - s.snapshot.index.val)) h.committed
  rw [drop_take, seg, drop_take, drop_drop] at this
  rw [seg, show s.hardState.commit.val - i =
    s.hardState.commit.val - s.snapshot.index.val - (i - s.snapshot.index.val) by omega, this]
  congr 2
  omega

theorem eventsThrough_eq (h : s.Follows L) {index events} (hlow : s.snapshot.index.val ≤ index.val)
    (hhigh : index.val ≤ s.hardState.commit.val) (he : s.eventsThrough index = .ok events) :
    events.val = eventCount L index.val := by
  rw [eventsThrough] at he
  cases ha : s.applied with
  | snapshotPending =>
    rw [ha] at he
    cases he
  | counted base =>
    simp only [ha] at he
    split at he
    · rw [← Except.ok.inj he, ← eventCount_seg L hlow, ← h.counted base ha, ← h.take_entries hhigh,
        ← h.contiguous.filter_le]
    · cases he

theorem compact_drop (hc : Contiguous s.snapshot.index.val s.entries) (index : U64) :
    s.entries.drop (index.val + 1 - s.firstIndex.val) =
      s.entries.drop (index.val - s.snapshot.index.val) := by
  cases hs : s.entries with
  | nil => simp
  | cons =>
    have hfirst : s.firstIndex.val = s.snapshot.index.val + 1 := by
      rw [hs] at hc
      rw [firstIndex, hs]
      exact hc.1
    rw [hfirst, Nat.add_sub_add_right]

theorem checkRecord_counted {index term events data floor}
    (h : s.checkRecord index data floor = .ok (term, events)) : s.applied ≠ .snapshotPending := by
  intro hpend
  simp only [checkRecord, refuse_eq_ok, bind_eq_ok] at h
  obtain ⟨-, -, -, t, -, ev, hev, -⟩ := h
  rw [eventsThrough, hpend] at hev
  cases hev

theorem checkRecord_snapshot_le {index data floor n}
    (hcheck : s.checkRecord index data floor = .ok n) : s.snapshot.index.val ≤ index.val := by
  simp only [checkRecord, refuse_eq_ok] at hcheck
  exact not_lt.mp hcheck.2.1

theorem Follows.compact (h : s.Follows L) {index term events data floor}
    (hcheck : s.checkRecord index data floor = .ok (term, events)) :
    (s.compact index term events data).Follows L := by
  have hlow := checkRecord_snapshot_le hcheck
  simp only [checkRecord, refuse_eq_ok, bind_eq_ok] at hcheck
  obtain ⟨hhigh, -, -, t, -, ev, hev, -, -, hres⟩ := hcheck
  obtain ⟨rfl, rfl⟩ := Prod.mk.inj (Except.ok.inj hres)
  replace hhigh : index.val ≤ s.hardState.commit.val := not_lt.mp hhigh
  have hlen := h.length_le
  refine ⟨⟨hhigh, h.commit_le, ?_⟩, ?_, ?_⟩
  rotate_left
  · show Contiguous index.val (s.entries.drop (index.val + 1 - s.firstIndex.val))
    rw [compact_drop h.contiguous]
    have := h.contiguous.drop (show index.val - s.snapshot.index.val ≤ s.entries.length by omega)
    rwa [show s.snapshot.index.val + (index.val - s.snapshot.index.val) = index.val by omega]
      at this
  · intro n hn
    cases hn
    exact eventsThrough_eq h hlow hhigh hev
  · show (s.entries.drop (index.val + 1 - s.firstIndex.val)).take
      (s.hardState.commit.val - index.val) = _
    rw [compact_drop h.contiguous, h.drop_entries hlow]
    rfl

end Stored

end Ptr.Raft
