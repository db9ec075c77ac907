import Mathlib.Data.List.Sort
import Mathlib.Logic.Relation
import Ptr.Ledger.Codec
import Ptr.Raft.Storage

/-!
# A raft member

`raft_node.rs` over a store: what a member does with the ready states that the
raft library hands it, with an installed snapshot that nobody accounted for yet,
and when it is opened again.  The library itself is not modelled: its ready
states are inputs, and `RaftLib` says what it is assumed to do with a membership
change.

* `applyCommitted`, `handleReady`, `resumeWithApplied`, `recover`: the code.
* `Takes`: what taking a list of committed entries can do to a member; a call
  that fails has taken a prefix (`leads_applyCommitted`).
-/

namespace Ptr.Raft

open Lib Ledger Store
open Prog hiding pure bind throw get modify

/-! ### The library -/

/-- A change to who votes in the group; `propose_membership` makes no others. -/
inductive MembershipChange
  | addVoter (id : U64)
  | removeVoter (id : U64)
  deriving DecidableEq

/-- **What the raft library is assumed to do** with a membership change: it adds
or removes the named voter, and refuses to remove the last one. -/
structure RaftLib where
  decodeChange : Bytes → Except String MembershipChange
  applyConfChange : ConfState → MembershipChange → Except String ConfState
  add (c : ConfState) (id : U64) : ∃ c', applyConfChange c (.addVoter id) = .ok c' ∧
    ∀ v, v ∈ c'.voters ↔ v ∈ c.voters ∨ v = id
  remove (c : ConfState) (id : U64) : (∃ v ∈ c.voters, v ≠ id) →
    ∃ c', applyConfChange c (.removeVoter id) = .ok c' ∧
      ∀ v, v ∈ c'.voters ↔ v ∈ c.voters ∧ v ≠ id
  remove_last (c : ConfState) (id : U64) : (∀ v ∈ c.voters, v = id) →
    ∃ e, applyConfChange c (.removeVoter id) = .error e

/-- A library that keeps the voters in the order they came, and writes a change
as a tag and one byte for the voter. -/
def RaftLib.plain : RaftLib where
  decodeChange
    | [0, v] => .ok (.addVoter (Fin.ofNat _ v.toNat))
    | [1, v] => .ok (.removeVoter (Fin.ofNat _ v.toNat))
    | _ => .error "not a membership change"
  applyConfChange
    | c, .addVoter id =>
      .ok { c with voters := if id ∈ c.voters then c.voters else c.voters ++ [id] }
    | c, .removeVoter id =>
      if c.voters.filter (· ≠ id) = [] then .error "removed all voters"
      else .ok { c with voters := c.voters.filter (· ≠ id) }
  add c id := by
    refine ⟨_, rfl, fun v => ?_⟩
    by_cases h : id ∈ c.voters
    · simp only [if_pos h]
      exact ⟨.inl, fun hv => hv.elim (fun hv => hv) fun hv => hv ▸ h⟩
    · simp only [if_neg h, List.mem_append, List.mem_singleton]
  remove c id := by
    rintro ⟨v, hv, hne⟩
    have hmem : v ∈ c.voters.filter (· ≠ id) := List.mem_filter.mpr ⟨hv, by simpa using hne⟩
    refine ⟨_, if_neg (List.ne_nil_of_mem hmem), fun v => ?_⟩
    simp [List.mem_filter]
  remove_last c id := by
    intro hall
    refine ⟨_, if_pos (List.filter_eq_nil_iff.mpr fun v hv => ?_)⟩
    simp [hall v hv]

/-- One ready state: a snapshot to install, entries to write, entries that are
decided, and what the light ready that follows brings. -/
structure Ready where
  snapshot : Option Snapshot
  entries : List Entry
  hardState : Option HardState
  committedEntries : List Entry
  lightCommit : Option U64
  lightEntries : List Entry

/-! ### The member -/

structure InstalledSnapshot where
  index : U64
  term : U64
  state : Bytes
  digest : Digest
  deriving DecidableEq

structure Member where
  store : Store
  /-- The configuration inside the raft library. -/
  group : ConfState
  committed : List CommittedEvent
  appliedEvents : U64
  installed : Option InstalledSnapshot
  deferred : List Entry
  failed : Bool
  -- What the member did so far; nothing in the code reads these four.
  /-- The position up to which the library handed entries over. -/
  handed : Nat
  /-- The position up to which a snapshot stands for the events. -/
  floor : Nat
  delivered : List CommittedEvent
  /-- The membership changes applied since the member was opened or installed a
  snapshot. -/
  changes : List MembershipChange

namespace Member

def isSound (m : Member) : Bool := m.store.health == .sound && !m.failed

def voters (m : Member) : List U64 := m.store.held.confState.voters.insertionSort (· ≤ ·)

theorem mem_voters {m : Member} {v} : v ∈ m.voters ↔ v ∈ m.store.held.confState.voters :=
  List.mem_insertionSort _

def push (n : U64) (event : LedgerEvent) (m : Member) : Member :=
  { m with
    appliedEvents := n
    committed := m.committed ++ [⟨n, event⟩]
    delivered := m.delivered ++ [⟨n, event⟩] }

/-- Raft's own configuration follows a change as soon as it is applied. -/
def regroup (state : ConfState) (cc : MembershipChange) (m : Member) : Member :=
  { m with group := state, changes := m.changes ++ [cc] }

def withStore (m : Member) (s : Store) : Member := { m with store := s }

def advance (k : Nat) (m : Member) : Member := { m with handed := m.handed + k }

end Member

def nodeFailed : String :=
  "PTR_RAFT_NODE_FAILED: an error after raft handed this member a ready state left the raft " ++
    "state ahead of what the host applied; restart the member so it replays its log"

def noSnapshotPending : String :=
  "PTR_RAFT_NO_SNAPSHOT_PENDING: no installed snapshot is waiting to be accounted for; a count " ++
    "set now would renumber every later event"

def onStore {α : Type} (p : Prog Store IoError α) : Prog Member String α :=
  (p.mapErr IoError.message).zoom Member.store fun s m => m.withStore s

def ensureSound : Prog Member String Unit := do
  let m ← Prog.get
  match m.store.health with
  | .poisoned => Prog.throw storagePoisoned.message
  | .sound => if m.failed then Prog.throw nodeFailed else pure ()

section

variable (lib : RaftLib)

def applyChange (data : Bytes) : Prog Member String Unit := do
  let cc ← ofExcept (lib.decodeChange data)
  let m ← Prog.get
  let state ← ofExcept (lib.applyConfChange m.group cc)
  Prog.modify (·.regroup state cc)
  onStore (setConfState state)

def applyEvent (data : Bytes) : Prog Member String Unit := do
  let event ← ofExcept ((decodeEvent data).mapError IoError.message)
  let m ← Prog.get
  match U64.checkedAdd m.appliedEvents 1 with
  | none => Prog.throw "the count of applied events is exhausted"
  | some n => Prog.modify (·.push n event)

def applyCommitted : List Entry → Prog Member String Unit
  | [] => pure ()
  | e :: es =>
    if e.kind = .confChange then do
      applyChange lib e.data
      applyCommitted es
    else if carriesLedgerEvent e = false then applyCommitted es
    else do
      let m ← Prog.get
      -- this entry and what follows it wait until the snapshot is accounted for
      if m.installed.isSome then
        Prog.modify fun m => { m with deferred := m.deferred ++ e :: es }
      else do
        applyEvent e.data
        applyCommitted es

/-- Entries that the library handed over are not handed over again. -/
def takeCommitted (es : List Entry) : Prog Member String Unit := do
  applyCommitted lib es
  Prog.modify (·.advance es.length)

variable (sha : Bytes → Digest)

def Snapshot.installed (snap : Snapshot) : InstalledSnapshot :=
  ⟨snap.index, snap.term, snap.data, sha snap.data⟩

/-- The snapshot branch of `drain_ready`.  The library takes the configuration
of the snapshot as its own and goes on above it. -/
def installSnapshot (snap : Snapshot) : Prog Member String Unit := do
  onStore (applySnapshot snap)
  Prog.modify fun m =>
    { m with
      committed := []
      installed := some (snap.installed sha)
      group := snap.confState
      handed := snap.index.val
      floor := snap.index.val
      changes := [] }

def forSome {α : Type} (p : α → Prog Member String Unit) : Option α → Prog Member String Unit
  | none => pure ()
  | some a => p a

/-- A ready state without new entries writes none. -/
def appendEntries (es : List Entry) : Prog Member String Unit :=
  if es.isEmpty then pure () else onStore (Store.append es)

/-- One turn of the loop of `drain_ready`. -/
def handleReady (rd : Ready) : Prog Member String Unit := do
  forSome (installSnapshot sha) rd.snapshot
  appendEntries rd.entries
  forSome (fun h => onStore (setHardState h)) rd.hardState
  takeCommitted lib rd.committedEntries
  forSome (fun c => onStore (setCommit c)) rd.lightCommit
  takeCommitted lib rd.lightEntries

/-- `drain` for one ready state, behind the check that every call makes. -/
def drain (rd : Ready) : Prog Member String Unit := do
  ensureSound
  (handleReady lib sha rd).onErr fun m => { m with failed := true }

def applyDeferred : Prog Member String Unit := do
  let m ← Prog.get
  Prog.modify fun m => { m with deferred := [] }
  applyCommitted lib m.deferred

def resumeWithApplied (n : U64) : Prog Member String Unit := do
  ensureSound
  let m ← Prog.get
  match m.installed with
  | none => Prog.throw noSnapshotPending
  | some _ => do
    onStore (setAppliedEvents n)
    Prog.modify fun m => { m with appliedEvents := n, installed := none }
    (applyDeferred lib).onErr fun m => { m with failed := true }

def recordSnapshotWithin (index : U64) (state : Bytes) (floor : CommitIndex) :
    Prog Member String Unit := do
  ensureSound
  onStore (Store.recordSnapshotWithin index state floor)

def recordSnapshot (index : U64) (state : Bytes) : Prog Member String Unit := do
  ensureSound
  onStore (Store.recordSnapshot index state)

def Stored.pendingSnapshot (s : Stored) : Option InstalledSnapshot :=
  match s.applied with
  | .counted _ => none
  | .snapshotPending => some ⟨s.snapshot.index, s.snapshot.term, s.payload, sha s.payload⟩

def Stored.recoveredApplied (s : Stored) : U64 :=
  match s.applied with
  | .counted n => n
  | .snapshotPending => 0

def boot (s : Stored) : Member where
  store := ⟨s, .sound⟩
  group := s.confState
  committed := []
  appliedEvents := s.recoveredApplied
  installed := s.pendingSnapshot sha
  deferred := []
  failed := false
  handed := s.snapshot.index.val
  floor := s.snapshot.index.val
  delivered := []
  changes := []

/-- `open` on a member that has just been booted: the recovered entries are
applied, or wait behind the pending snapshot. -/
def recover (recovered : List Entry) : Prog Member String Unit := do
  let m ← Prog.get
  if m.installed.isSome then
    Prog.modify fun m => { m with deferred := recovered }.advance recovered.length
  else takeCommitted lib recovered

end

/-! ### What taking committed entries can do -/

section

variable (lib : RaftLib)

/-- The entries were taken one after another, up to the first event if a
snapshot is waiting. -/
inductive Takes : Member → List Entry → Member → Prop
  | nil {m : Member} : Takes m [] m
  | change {m m' : Member} {e : Entry} {es : List Entry} {cc : MembershipChange} {state : ConfState}
      {s : Store} : e.kind = .confChange → lib.decodeChange e.data = .ok cc →
      lib.applyConfChange m.group cc = .ok state → s.health = .sound →
      s.held = (m.store.held.withConfState state).claim m.store.held.fence →
      Takes ((m.regroup state cc).withStore s) es m' → Takes m (e :: es) m'
  | skip {m m' : Member} {e : Entry} {es : List Entry} : e.kind ≠ .confChange →
      carriesLedgerEvent e = false → Takes m es m' → Takes m (e :: es) m'
  | defer {m : Member} {e : Entry} {es : List Entry} : carriesLedgerEvent e = true →
      m.installed.isSome → Takes m (e :: es) { m with deferred := m.deferred ++ e :: es }
  | event {m m' : Member} {e : Entry} {es : List Entry} {n : U64} {ev : LedgerEvent} :
      carriesLedgerEvent e = true → m.installed = none → decodeEvent e.data = .ok ev →
      n.val = m.appliedEvents.val + 1 → Takes (m.push n ev) es m' → Takes m (e :: es) m'

/-- The member stopped at an entry.  A membership change may have reached the
library and the stored configuration before it did. -/
def HaltsAt (m : Member) (e : Entry) (m' : Member) : Prop :=
  m' = m ∨ ∃ cc state s, e.kind = .confChange ∧ lib.decodeChange e.data = .ok cc ∧
    lib.applyConfChange m.group cc = .ok state ∧ m' = (m.regroup state cc).withStore s ∧
    (s = m.store ∨ s.held = (m.store.held.withConfState state).claim m.store.held.fence)

variable {lib} {m m' : Member} {e : Entry} {es : List Entry} {r : Outcome String Unit}

section

variable {α : Type} {Q : α → Member → Prop} {W : Option String → Member → Prop}

theorem leads_onStore {p : Prog Store IoError α}
    (h : p.Leads m.store (fun a s => Q a (m.withStore s)) fun w s =>
      W (w.map IoError.message) (m.withStore s)) : (onStore p).Leads m Q W :=
  leads_zoom (leads_mapErr h)

theorem leads_whenSound {p} (h : m.isSound = true → (p ()).Leads m Q W) (hW : ∀ e, W (some e) m) :
    (ensureSound >>= p).Leads m Q W := by
  refine Leads.bind (Q := fun _ x => x = m ∧ m.isSound = true) (leads_get_bind ?_) ?_
  · rw [Member.isSound]
    cases m.store.health with
    | poisoned => exact leads_throw (hW _)
    | sound =>
      cases m.failed with
      | true => exact leads_throw (hW _)
      | false => exact leads_pure ⟨rfl, rfl⟩
  · rintro _ _ ⟨rfl, hs⟩
    exact h hs

end

theorem leads_applyChange (hk : e.kind = .confChange) : (applyChange lib e.data).Leads m
    (fun _ m' => ∃ cc state s, lib.decodeChange e.data = .ok cc ∧
      lib.applyConfChange m.group cc = .ok state ∧
      m' = (m.regroup state cc).withStore s ∧ s.health = .sound ∧
      s.held = (m.store.held.withConfState state).claim m.store.held.fence)
    fun _ => HaltsAt lib m e := by
  refine leads_ofExcept_bind (fun cc hcc => leads_get_bind (leads_ofExcept_bind
    (fun state hst => leads_modify_bind (leads_onStore (leads_persist.imp ?_ ?_)))
    fun _ => .inl rfl)) fun _ => .inl rfl
  · rintro _ s ⟨⟨-, hheld⟩, hs⟩
    exact ⟨cc, state, s, hcc, hst, rfl, hs, hheld⟩
  · rintro _ s (rfl | ⟨⟨-, hheld⟩, -⟩)
    · exact .inr ⟨cc, state, _, hk, hcc, hst, rfl, .inl rfl⟩
    · exact .inr ⟨cc, state, s, hk, hcc, hst, rfl, .inr hheld⟩

theorem leads_applyEvent {data} : (applyEvent data).Leads m
    (fun _ m' => ∃ n ev, decodeEvent data = .ok ev ∧ n.val = m.appliedEvents.val + 1 ∧
      m' = m.push n ev)
    fun _ m' => m' = m := by
  refine leads_ofExcept_bind (fun ev hev => leads_get_bind ?_) fun _ => rfl
  cases hn : U64.checkedAdd m.appliedEvents 1 with
  | none => exact leads_throw rfl
  | some n => exact leads_modify ⟨n, ev, mapError_eq_ok.mp hev, U64.checkedAdd_eq_some hn, rfl⟩

theorem carries_kind (h : carriesLedgerEvent e = true) : e.kind = .normal := by
  rw [carriesLedgerEvent, Bool.and_eq_true, beq_iff_eq] at h
  exact h.1

structure Untouched (m m' : Member) : Prop where
  sameLog : m.store.held.SameLog m'.store.held
  installed : m'.installed = m.installed
  failed : m'.failed = m.failed
  handed : m'.handed = m.handed
  floor : m'.floor = m.floor

theorem Untouched.refl (m : Member) : Untouched m m := ⟨.refl _, rfl, rfl, rfl, rfl⟩

theorem Untouched.trans {m₁ m₂ m₃} (h : Untouched m₁ m₂) (h' : Untouched m₂ m₃) : Untouched m₁ m₃ :=
  ⟨h.1.trans h'.1, h'.2.trans h.2, h'.3.trans h.3, h'.4.trans h.4, h'.5.trans h.5⟩

theorem Untouched.push (n : U64) (ev : LedgerEvent) (m : Member) : Untouched m (m.push n ev) :=
  ⟨.refl _, rfl, rfl, rfl, rfl⟩

theorem Untouched.regroup {cc state s}
    (hs : s.held = (m.store.held.withConfState state).claim m.store.held.fence) :
    Untouched m ((m.regroup state cc).withStore s) :=
  ⟨⟨(congrArg Stored.hardState hs :), (congrArg Stored.snapshot hs :),
    (congrArg Stored.applied hs :), (congrArg Stored.entries hs :)⟩, rfl, rfl, rfl, rfl⟩

theorem Takes.untouched (h : Takes lib m es m') : Untouched m m' := by
  induction h with
  | nil => exact .refl _
  | change hk hcc hst hs hheld h ih => exact (Untouched.regroup hheld).trans ih
  | skip hk hc h ih => exact ih
  | defer => exact ⟨.refl _, rfl, rfl, rfl, rfl⟩
  | event hc hi hev hn h ih => exact (Untouched.push _ _ _).trans ih

theorem HaltsAt.untouched (h : HaltsAt lib m e m') : Untouched m m' := by
  rcases h with rfl | ⟨cc, state, s, -, -, -, rfl, rfl | hheld⟩
  · exact .refl _
  · exact ⟨.refl _, rfl, rfl, rfl, rfl⟩
  · exact .regroup hheld

/-- Some of the entries were taken, and the member stopped at the next one. -/
def Halts (lib : RaftLib) (m : Member) (es : List Entry) (m' : Member) : Prop :=
  ∃ done e rest m₁, es = done ++ e :: rest ∧ Takes lib m done m₁ ∧ HaltsAt lib m₁ e m'

/-- **Committed entries are taken in order**, all of them or up to one where the
member stops. -/
theorem leads_applyCommitted :
    (applyCommitted lib es).Leads m (fun _ => Takes lib m es) fun _ => Halts lib m es := by
  induction es generalizing m with
  | nil => exact leads_pure .nil
  | cons e es ih =>
    -- what follows an entry that was taken by `step`
    have lift {m₁ : Member} (step : ∀ ds m2, Takes lib m₁ ds m2 → Takes lib m (e :: ds) m2) :
        (applyCommitted lib es).Leads m₁ (fun _ => Takes lib m (e :: es)) fun _ =>
        Halts lib m (e :: es) := by
      refine ih.imp (fun _ _ => step _ _) ?_
      rintro _ m' ⟨done, d, rest, m2, rfl, ht, hh⟩
      exact ⟨e :: done, d, rest, m2, rfl, step _ _ ht, hh⟩
    have halt {m'} (hh : HaltsAt lib m e m') : Halts lib m (e :: es) m' :=
      ⟨[], e, es, m, rfl, .nil, hh⟩
    rw [applyCommitted]
    by_cases hk : e.kind = .confChange
    · rw [if_pos hk]
      refine (leads_applyChange hk).seq (fun _ _ => halt) ?_
      rintro _ _ ⟨cc, state, s, hcc, hst, rfl, hs, hheld⟩
      exact lift fun _ _ ht => .change hk hcc hst hs hheld ht
    rw [if_neg hk]
    by_cases hc : carriesLedgerEvent e = false
    · rw [if_pos hc]
      exact lift fun _ _ ht => .skip hk hc ht
    rw [if_neg hc]
    replace hc : carriesLedgerEvent e = true := Bool.not_eq_false _ ▸ hc
    refine leads_get_bind ?_
    by_cases hi : m.installed.isSome
    · rw [if_pos hi]
      exact leads_modify (.defer hc hi)
    · rw [if_neg hi]
      refine leads_applyEvent.seq (fun _ _ h => halt (.inl h)) ?_
      rintro _ _ ⟨n, ev, hev, hn, rfl⟩
      exact lift fun _ _ ht => .event hc (Option.not_isSome_iff_eq_none.mp hi) hev hn ht

end

/-! ### Rules for the steps of a call -/

section

variable {lib : RaftLib} {sha : Bytes → Digest} {m m' : Member} {es : List Entry}
  {r : Outcome String Unit}
  {P Q W : Member → Prop}

theorem triple_forSome {α : Type} {f} {o : Option α} (hnone : o = none → ∀ m, P m → Q m)
    (hsome : ∀ a, o = some a → Triple P (f a) (fun _ => Q) W) :
    Triple P (forSome f o) (fun _ => Q) W := by
  cases o with
  | none => exact triple_pure (hnone rfl)
  | some a => exact hsome a rfl

theorem triple_persist {next} (hkeep : ∀ m, P m → W m)
    (hdone : ∀ m s, P m → Replaced next m.store s → W (m.withStore s) ∧ Q (m.withStore s)) :
    Triple P (onStore (persist next)) (fun _ => Q) W := by
  refine fun m hP => leads_onStore (leads_persist.imp (fun _ s h => (hdone m s hP h.1).2) ?_)
  rintro _ s (rfl | ⟨h, -⟩)
  · exact hkeep m hP
  · exact (hdone m s hP h).1

theorem triple_appendEntries (hnil : es = [] → ∀ m, P m → Q m)
    (hkeep : ∀ m s, P m → s.held = m.store.held → W (m.withStore s))
    (hdone : ∀ first rest m s n, es = first :: rest → P m →
      m.store.held.checkAppend first.index es = .ok () →
      s.held = m.store.held.overwrite (m.store.held.keep first.index) (es.take n) →
      W (m.withStore s) ∧ (es.take n = es → Q (m.withStore s))) :
    Triple P (appendEntries es) (fun _ => Q) W := by
  cases es with
  | nil => exact triple_pure (hnil rfl)
  | cons first rest =>
    refine fun m hP => leads_onStore (leads_append.imp ?_ ?_)
    · rintro _ s (⟨⟨⟩, -⟩ | ⟨_, _, ⟨⟩, hcheck, hheld⟩)
      have hall : (first :: rest).take (first :: rest).length = first :: rest := List.take_length
      exact (hdone first rest m s _ rfl hP hcheck (by rwa [hall])).2 hall
    · rintro _ s (hheld | ⟨_, _, n, ⟨⟩, hcheck, hheld⟩)
      · exact hkeep m s hP hheld
      · exact (hdone first rest m s n rfl hP hcheck hheld).1

theorem triple_installSnapshot {snap} (hkeep : ∀ m, P m → W m)
    (hdone : ∀ m s, P m → Replaced (·.install snap) m.store s → W (m.withStore s) ∧
      Q { m.withStore s with
        committed := [], installed := some (snap.installed sha), group := snap.confState
        handed := snap.index.val, floor := snap.index.val, changes := [] }) :
    Triple P (installSnapshot sha snap) (fun _ => Q) W := by
  intro m hP
  refine Leads.bind (Q := fun _ x => ∃ s, x = m.withStore s ∧ Replaced (·.install snap) m.store s)
    (leads_onStore (leads_applySnapshot.imp (fun _ s h => ⟨s, rfl, h.2⟩) ?_)) ?_
  · rintro _ s (rfl | ⟨-, h⟩)
    · exact hkeep m hP
    · exact (hdone m s hP h).1
  · rintro _ _ ⟨s, rfl, h⟩
    exact leads_modify (hdone m s hP h).2

theorem triple_takeCommitted (hdone : ∀ m m', P m → Takes lib m es m' → Q (m'.advance es.length))
    (hhalt : ∀ m done e rest m₁ m', P m → es = done ++ e :: rest → Takes lib m done m₁ →
      HaltsAt lib m₁ e m' → W m') : Triple P (takeCommitted lib es) (fun _ => Q) W := by
  intro m hP
  refine leads_applyCommitted.seq ?_ fun _ m' ht => leads_modify (hdone m m' hP ht)
  rintro _ m' ⟨done, e, rest, m₁, heq, ht, hh⟩
  exact hhalt m done e rest m₁ m' hP heq ht hh

/-- **When the host accounts for a snapshot**, the count reaches the store before the
deferred entries are taken up again. -/
theorem leads_resumeWithApplied {n} {W : Option String → Member → Prop} (hkeep : ∀ w, W w m)
    (hdone : ∀ snap s, m.isSound = true → m.installed = some snap →
      Replaced (·.withApplied n) m.store s →
      ((m.withStore s).isSound = false → ∀ w, W w (m.withStore s)) ∧
      ((applyDeferred lib).onErr fun m => { m with failed := true }).Leads
        { m.withStore s with appliedEvents := n, installed := none } (fun _ => Q) W) :
    (resumeWithApplied lib n).Leads m (fun _ => Q) W := by
  refine leads_whenSound (fun hs => leads_get_bind ?_) fun e => hkeep (some e)
  cases hi : m.installed with
  | none => exact leads_throw (hkeep _)
  | some snap =>
    refine Leads.bind (Q := fun _ x => ∃ s, x = m.withStore s ∧
      Replaced (·.withApplied n) m.store s)
      (leads_onStore (leads_persist.imp (fun _ s h => ⟨s, rfl, h.1⟩) ?_)) ?_
    · rintro w s (rfl | ⟨h, hbad⟩)
      · exact hkeep _
      · exact (hdone snap s hs hi h).1 (by simp [Member.isSound, Member.withStore, hbad]) _
    · rintro _ _ ⟨s, rfl, h⟩
      exact leads_modify_bind (hdone snap s hs hi h).2

end

/-! ### Ready states that the library may hand over -/

namespace Ready

variable (rd : Ready) (m : Member)

/-- The position above which the entries of a ready state begin. -/
def start : Nat :=
  match rd.snapshot with
  | some s => s.index.val
  | none => m.handed

/-- The stored state after the snapshot. -/
def base : Stored :=
  match rd.snapshot with
  | some s => m.store.held.install s
  | none => m.store.held

def written : Stored :=
  match rd.entries with
  | [] => rd.base m
  | first :: _ => (rd.base m).overwrite ((rd.base m).keep first.index) rd.entries

def decided : Stored :=
  match rd.hardState with
  | some h => (rd.written m).withHardState h
  | none => rd.written m

def settled : Stored :=
  match rd.lightCommit with
  | some c => (rd.decided m).withHardState { (rd.decided m).hardState with commit := c }
  | none => rd.decided m

end Ready

/-- **The library hands over the committed log `L` in order and without gaps**:
it never asks for a committed entry to be overwritten, never lets the commit
index fall or leave `L`, and hands over what follows the last entry it handed
over, up to the commit index it made durable. -/
structure Delivers (L : List Entry) (m : Member) (rd : Ready) : Prop where
  snapshot : ∀ s, rd.snapshot = some s → m.handed ≤ s.index.val ∧ s.index.val ≤ L.length
  fresh : ∀ e ∈ rd.entries, (rd.base m).hardState.commit.val < e.index.val
  decided : (rd.decided m).Agrees L
  settled : (rd.settled m).Agrees L
  commit_mono : (rd.base m).hardState.commit.val ≤ (rd.decided m).hardState.commit.val
  light_mono : (rd.decided m).hardState.commit.val ≤ (rd.settled m).hardState.commit.val
  committed : rd.committedEntries =
    seg L (rd.start m) (rd.start m + rd.committedEntries.length)
  committed_le : rd.start m + rd.committedEntries.length ≤ (rd.decided m).hardState.commit.val
  light : rd.lightEntries = seg L (rd.start m + rd.committedEntries.length)
    (rd.start m + rd.committedEntries.length + rd.lightEntries.length)
  light_le : rd.start m + rd.committedEntries.length + rd.lightEntries.length ≤
    (rd.settled m).hardState.commit.val

instance (L : List Entry) (s : Stored) : Decidable (s.Agrees L) :=
  decidable_of_iff (s.snapshot.index.val ≤ s.hardState.commit.val ∧
      s.hardState.commit.val ≤ L.length ∧
      s.entries.take (s.hardState.commit.val - s.snapshot.index.val) =
        seg L s.snapshot.index.val s.hardState.commit.val)
    ⟨fun ⟨h₁, h₂, h₃⟩ => ⟨h₁, h₂, h₃⟩, fun ⟨h₁, h₂, h₃⟩ => ⟨h₁, h₂, h₃⟩⟩

/-! ### Lives of a member -/

/-- A member that runs, or what a stopped one left in its store. -/
inductive Life
  | up (m : Member)
  | down (s : Stored)

inductive Action
  | ready (rd : Ready)
  | resume (n : U64)
  | recordWithin (index : U64) (state : Bytes) (floor : CommitIndex)
  | record (index : U64) (state : Bytes)
  | stop
  | reopen

def Life.after (m : Member) : Outcome String Unit → Life
  | .crash => .down m.store.held
  | _ => .up m

def Life.opened (m : Member) : Outcome String Unit → Life
  | .ok _ => .up m
  | _ => .down m.store.held

variable (lib : RaftLib) (sha : Bytes → Digest)

inductive Step : Action → Life → Life → Prop
  | ready {m m' : Member} {rd : Ready} {r : Outcome String Unit} :
      (drain lib sha rd).Ends m r m' → Step (.ready rd) (.up m) (.after m' r)
  | resume {m m' : Member} {n : U64} {r : Outcome String Unit} :
      (resumeWithApplied lib n).Ends m r m' → Step (.resume n) (.up m) (.after m' r)
  | recordWithin {m m' : Member} {index : U64} {state : Bytes} {floor : CommitIndex}
      {r : Outcome String Unit} : (recordSnapshotWithin index state floor).Ends m r m' →
      Step (.recordWithin index state floor) (.up m) (.after m' r)
  | record {m m' : Member} {index : U64} {state : Bytes} {r : Outcome String Unit} :
      (recordSnapshot index state).Ends m r m' →
      Step (.record index state) (.up m) (.after m' r)
  | stop {m : Member} : Step .stop (.up m) (.down m.store.held)
  | reopen {s : Stored} {m' : Member} {r : Outcome String Unit} :
      (recover lib s.committedEntries).Ends (boot sha s) r m' →
      Step .reopen (.down s) (.opened m' r)

/-! ### What a life keeps -/

/-- `W` holds of every member that runs and `Q` of a sound one; what a member leaves in
its store has `S`. -/
structure Lasting (Q W : Member → Prop) (S : Stored → Prop) : Prop where
  any : ∀ {m}, Q m → W m
  stored : ∀ {m}, W m → S m.store.held
  marked : ∀ {m}, W m → W { m with failed := true }

def Life.Keeps (Q W : Member → Prop) (S : Stored → Prop) : Life → Prop
  | .up m => W m ∧ (m.isSound = true → Q m)
  | .down s => S s

section

variable {lib} {Q W P : Member → Prop} {S : Stored → Prop} {m m' : Member} {r : Outcome String Unit}

/-- How a call that keeps `Q` and `W` fails. -/
def Member.Stopped (Q W : Member → Prop) (w : Option String) (m : Member) : Prop :=
  W m ∧ (w.isSome → m.isSound = true → Q m)

theorem Life.Keeps.stopped (hk : (Life.up m).Keeps Q W S) (w : Option String) : m.Stopped Q W w :=
  ⟨hk.1, fun _ => hk.2⟩

namespace Lasting

theorem up (h : Lasting Q W S) (hm : Q m) : (Life.up m).Keeps Q W S := ⟨h.any hm, fun _ => hm⟩

theorem after (h : Lasting Q W S) {p : Prog Member String Unit}
    (hp : p.Leads m (fun _ => Q) (Member.Stopped Q W)) (he : p.Ends m r m') :
    (Life.after m' r).Keeps Q W S := by
  cases r with
  | ok => exact h.up (hp.ok he)
  | err => exact ⟨(hp.err he).1, (hp.err he).2 rfl⟩
  | crash => exact h.stored (hp.crash he).1

theorem opened (h : Lasting Q W S) {p : Prog Member String Unit}
    (hp : p.Leads m (fun _ => Q) fun _ => W) (he : p.Ends m r m') :
    (Life.opened m' r).Keeps Q W S := by
  cases r with
  | ok => exact h.up (hp.ok he)
  | err => exact h.stored (hp.err he)
  | crash => exact h.stored (hp.crash he)

theorem leads_marked (h : Lasting Q W S) {p : Prog Member String Unit}
    (ht : Triple P p (fun _ => Q) W) (hP : P m) :
    (p.onErr fun m => { m with failed := true }).Leads m (fun _ => Q) (Member.Stopped Q W) :=
  leads_onErr (ht m hP) (fun _ _ hW => ⟨h.marked hW, fun _ hs => by simp [Member.isSound] at hs⟩)
    fun _ hW => ⟨hW, nofun⟩

theorem leads_onStore (h : Lasting Q W S) {p : Prog Store IoError Unit}
    (hk : (Life.up m).Keeps Q W S)
    (hp : Q m → p.Leads m.store (fun _ s => Q (m.withStore s)) fun _ s => Q (m.withStore s)) :
    (ensureSound >>= fun _ => onStore p).Leads m (fun _ => Q) (Member.Stopped Q W) :=
  leads_whenSound (fun hs => Raft.leads_onStore ((hp (hk.2 hs)).imp (fun _ _ hq => hq)
    fun _ _ hq => ⟨h.any hq, fun _ _ => hq⟩)) fun _ => hk.stopped _

theorem leads_resume (h : Lasting Q W S) {n} (hk : (Life.up m).Keeps Q W S)
    (hdone : ∀ snap s, Q m → m.installed = some snap → Replaced (·.withApplied n) m.store s →
      W (m.withStore s) ∧
      Triple (· = { m.withStore s with appliedEvents := n, installed := none })
        (applyDeferred lib) (fun _ => Q) W) :
    (resumeWithApplied lib n).Leads m (fun _ => Q) (Member.Stopped Q W) := by
  refine leads_resumeWithApplied hk.stopped fun snap s hs hi hheld => ?_
  obtain ⟨hW, ht⟩ := hdone snap s (hk.2 hs) hi hheld
  refine ⟨fun hbad w => ⟨hW, fun _ hs => ?_⟩, h.leads_marked ht rfl⟩
  rw [hbad] at hs
  cases hs

end Lasting

end

end Ptr.Raft
