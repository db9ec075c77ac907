import Mathlib.Logic.Relation
import Ptr.Ledger.File

/-!
# The acknowledged ledger

A record is durable when its append returns and acknowledged when the anchor
that covers it is installed.  `append_acknowledged` does the one and then the
other and fences the handle in between; `compact` writes a new log and lets one
anchor advance name it; `reclaim_orphans` deletes the logs that the handle does
not name.

* `ends_appendAcknowledged`, `ends_compact`: what a call can do to the handle and
  to the disk, however it ends.
-/

namespace Ptr.Ledger

open Lib AnchorStore FileLedger
open Prog hiding pure bind throw get modify

/-! ### Compaction plans -/

structure CompactionBarrier where
  snapshotCovers : CommitIndex
  allConsumersCaughtUp : Bool
  unresolvedRevocations : Nat

def CompactionBarrier.safe (b : CompactionBarrier) : Bool :=
  b.allConsumersCaughtUp && b.unresolvedRevocations == 0

structure CompactionPlan where
  base : LogAnchor
  tail : LogAnchor
  discardedRecords : Nat
  retainedRecords : Nat

inductive CompactionDecision
  | retain
  | blocked (barrier : CompactionBarrier)
  | compact (plan : CompactionPlan)

inductive CompactionFault
  | floorNotAdvancing | floorAboveTail | floorNotOnBoundary | stalePlan | destinationExists
  deriving DecidableEq

/-- What a completed cutover produced: the two logs are named by their floors. -/
structure CompactionOutcome where
  plan : CompactionPlan
  liveLog : CommitIndex
  supersededLog : CommitIndex

inductive AcknowledgedError
  | anchor (error : AnchorError)
  | log (diagnostic : String)
  | unrecoverable (split : Split)
  | tailRefused (completeRecords : Nat) (incompleteFrame : Bool)
  | fenced
  | compaction (fault : CompactionFault)
  deriving DecidableEq

/-- `From<io::Error>`. -/
def AcknowledgedError.ofIo (e : IoError) : AcknowledgedError := .log e.message

/-! ### The ledger -/

structure AcknowledgedLedger where
  log : FileLedger
  anchors : AnchorStore
  fenced : Bool
  recovery : Option TailRecovery
  deriving DecidableEq

variable (sha : Bytes → Digest) (key : AnchorKey)

namespace AcknowledgedLedger

def onLog {α : Type} (p : Prog (FileLedger × Disk) IoError α) :
    Prog (AcknowledgedLedger × Disk) AcknowledgedError α :=
  (p.mapErr .ofIo).zoom (fun s => (s.1.log, s.2)) fun t s => ({ s.1 with log := t.1 }, t.2)

def onAnchors {α : Type} (p : Prog (AnchorStore × Disk) AnchorError α) :
    Prog (AcknowledgedLedger × Disk) AcknowledgedError α :=
  (p.mapErr .anchor).zoom (fun s => (s.1.anchors, s.2)) fun t s =>
    ({ s.1 with anchors := t.1 }, t.2)

def onDisk {α : Type} (p : DiskProg α) :
    Prog (AcknowledgedLedger × Disk) AcknowledgedError α :=
  (p.mapErr .ofIo).zoom Prod.snd fun d s => (s.1, d)

def create : Prog Disk AcknowledgedError AcknowledgedLedger := do
  let d ← Prog.get
  if d.anchor.isSome then Prog.throw (.anchor .exists)
  else do
    let log ← (FileLedger.createNew sha).mapErr .ofIo
    let anchors ← (AnchorStore.initialize' sha key (.initial sha)).mapErr .anchor
    pure ⟨log, anchors, false, none⟩

def checkSplit (policy : TailPolicy) : Split → Except AcknowledgedError Unit
  | .aligned => .ok ()
  | .unacknowledged records incomplete _ =>
    if policy = .refuse then .error (.tailRefused records incomplete) else .ok ()
  | fault => .error (.unrecoverable fault)

/-- `open`. -/
def openLedger (minimumEpoch : U64) (policy : TailPolicy) :
    Prog Disk AcknowledgedError (AcknowledgedLedger × Split) := do
  let anchors ← (AnchorStore.openExpecting sha key minimumEpoch).mapErr .anchor
  let anchor := anchors.current
  let locked ← (lockForRecovery sha anchor.base).mapErr .ofIo
  let split := locked.classify sha anchor
  ofExcept (checkSplit policy split)
  let (log, recovery) ← (locked.repair sha anchor policy).mapErr .ofIo
  if recovery.tail ≠ anchor.log then do
    let (_, anchors) ← ((AnchorStore.acknowledge sha key recovery.tail
      (recovery.origin.getD .unset)).mapErr .anchor).withLocal anchors
    pure (⟨log, anchors, false, some recovery⟩, split)
  else pure (⟨log, anchors, false, some recovery⟩, split)

def appendAcknowledged (event : LedgerEvent) :
    Prog (AcknowledgedLedger × Disk) AcknowledgedError CommitIndex := do
  let (h, _) ← Prog.get
  if h.fenced then Prog.throw .fenced
  else do
    let index ← onLog (FileLedger.appendDurable sha event)
    let (h, _) ← Prog.get
    let tail ← ofExcept (h.log.anchor?.mapError .ofIo)
    let origin := h.log.derivedOrigin sha
    Prog.modify fun s => ({ s.1 with fenced := true }, s.2)
    let _ ← onAnchors (AnchorStore.acknowledge sha key tail (origin.getD .unset))
    Prog.modify fun s => ({ s.1 with fenced := false }, s.2)
    pure index

def planCompaction (h : AcknowledgedLedger) (keepRecords : Nat) (barrier : CompactionBarrier) :
    Except AcknowledgedError CompactionDecision :=
  let anchor := h.anchors.current
  let floor := anchor.base.index.val
  let tail := anchor.log
  if tail.index.val - floor ≤ keepRecords then .ok .retain
  else if !barrier.safe then .ok (.blocked barrier)
  else
    let proposed := min (tail.index.val - keepRecords) barrier.snapshotCovers.val
    if proposed ≤ floor then .ok (.blocked barrier)
    else do
      let anchors ← (chainAnchors sha h.log.events anchor.base).mapError .ofIo
      match anchors[proposed - floor - 1]? with
      | none => .error (.compaction .floorNotOnBoundary)
      | some base =>
        .ok (.compact ⟨base, tail, proposed - floor, tail.index.val - proposed⟩)

/-- The checks that `compact` makes before it touches anything, and the log it
will write. -/
def checkPlan (h : AcknowledgedLedger) (plan : CompactionPlan) :
    Except AcknowledgedError Bytes := do
  let anchor := h.anchors.current
  if plan.tail ≠ anchor.log then .error (.compaction .stalePlan)
  else if plan.base.index ≤ anchor.base.index then .error (.compaction .floorNotAdvancing)
  else if plan.base.index > anchor.log.index then .error (.compaction .floorAboveTail)
  else do
    let offset := plan.base.index.val - anchor.base.index.val
    let anchors ← (chainAnchors sha h.log.events anchor.base).mapError .ofIo
    if anchors[offset - 1]? ≠ some plan.base then .error (.compaction .floorNotOnBoundary)
    else (encodeLogFrom sha (h.log.events.drop offset) plan.base).mapError .ofIo

/-- `compact`.  The floor advance is the commit point; a failure of it does not
fence the handle. -/
def compact (plan : CompactionPlan) :
    Prog (AcknowledgedLedger × Disk) AcknowledgedError CompactionOutcome := do
  let (h, d) ← Prog.get
  if h.fenced then Prog.throw .fenced
  else do
    let bytes ← ofExcept (h.checkPlan sha plan)
    if (d.logs[plan.base.index]?).isSome then Prog.throw (.compaction .destinationExists)
    else do
      let compacted ← onDisk (FileLedger.createFromLogAbove sha bytes plan.base plan.tail)
      let _ ← onAnchors (AnchorStore.advanceCompacted sha key plan.base plan.tail)
      Prog.modify fun s => ({ s.1 with log := compacted }, s.2)
      pure ⟨plan, plan.base.index, h.anchors.current.base.index⟩

def removeAll : List CommitIndex → DiskProg Unit
  | [] => pure ()
  | i :: rest => do
    Disk.removeFile i
    removeAll rest

def orphans (d : Disk) (live : CommitIndex) : List CommitIndex := d.logs.keys.filter (· ≠ live)

def reclaimOrphans : Prog (AcknowledgedLedger × Disk) AcknowledgedError (List CommitIndex) := do
  let (h, d) ← Prog.get
  onDisk Disk.touch
  let found := orphans d h.anchors.current.base.index
  onDisk (removeAll found)
  pure found

/-! ### What a call can do -/

variable {sha key} {h h' : AcknowledgedLedger} {d d' : Disk}

section

variable {α : Type} {Q : α → AcknowledgedLedger × Disk → Prop}
  {W : Option AcknowledgedError → AcknowledgedLedger × Disk → Prop}

theorem leads_onLog {p : Prog (FileLedger × Disk) IoError α}
    (hp : p.Leads (h.log, d) (fun a x => Q a ({ h with log := x.1 }, x.2)) fun w x =>
      W (w.map .ofIo) ({ h with log := x.1 }, x.2)) : (onLog p).Leads (h, d) Q W :=
  leads_zoom (leads_mapErr hp)

theorem leads_onAnchors {p : Prog (AnchorStore × Disk) AnchorError α}
    (hp : p.Leads (h.anchors, d) (fun a x => Q a ({ h with anchors := x.1 }, x.2)) fun w x =>
      W (w.map .anchor) ({ h with anchors := x.1 }, x.2)) : (onAnchors p).Leads (h, d) Q W :=
  leads_zoom (leads_mapErr hp)

theorem leads_onDisk {p : DiskProg α}
    (hp : p.Leads d (fun a d' => Q a (h, d')) fun w d' => W (w.map .ofIo) (h, d')) :
    (onDisk p).Leads (h, d) Q W := leads_zoom (leads_mapErr hp)

end

section

variable {W : Option AcknowledgedError → AcknowledgedLedger × Disk → Prop}

/-- **An append** is refused by the fence, fails in the log, or reaches the
anchor and leaves the handle fenced exactly if the acknowledgment fails. -/
theorem leads_appendAcknowledged {e Q} {R : CommitIndex → FileLedger × Disk → Prop}
    (hfenced : h.fenced = true → ∀ w, W w (h, d))
    (hlog : h.fenced = false → (appendDurable sha e).Leads (h.log, d) R
      fun w x => W (w.map .ofIo) ({ h with log := x.1 }, x.2))
    (hack : h.fenced = false → ∀ i l d₁, R i (l, d₁) → l.poisoned = false ∧
      (acknowledge sha key l.anchor ((l.derivedOrigin sha).getD .unset)).Leads (h.anchors, d₁)
        (fun _ y => Q i ({ h with log := l, anchors := y.1, fenced := false }, y.2))
        fun w y => W (w.map .anchor) ({ h with log := l, anchors := y.1, fenced := true }, y.2)) :
    (appendAcknowledged sha key e).Leads (h, d) Q W := by
  refine leads_get_bind ?_
  simp only
  cases hf : h.fenced with
  | true => exact leads_throw (hfenced hf _)
  | false =>
    refine Leads.bind (Q := fun i x => ∃ l, x.1 = { h with log := l } ∧ R i (l, x.2))
      (leads_onLog ((hlog hf).imp (fun _ x hR => ⟨x.1, rfl, hR⟩) fun _ _ hW => hW)) ?_
    rintro i ⟨h₁, d₁⟩ ⟨l, hh, hR⟩
    obtain rfl : h₁ = _ := hh
    obtain ⟨hclean, hack⟩ := hack hf i l d₁ hR
    refine leads_get_bind
      (leads_ofExcept_ok (a := l.anchor) (by simp [anchor?, hclean, Except.mapError]) ?_)
    exact leads_modify_bind ((leads_onAnchors hack).bind fun _ _ hQ =>
      leads_modify_bind (leads_pure hQ))

/-- **A cutover** changes nothing, or builds the new log, or builds it and asks
for the floor advance.  Its handle moves to the new log only with the advance. -/
theorem leads_compact {plan Q} (hkeep : ∀ w, W w (h, d))
    (hbuild : ∀ bytes, h.fenced = false → h.checkPlan sha plan = .ok bytes →
      d.logs[plan.base.index]? = none → (∀ w f, W w (h, d.setLog plan.base.index f)) ∧
      ∀ p, decodeLogFrom sha bytes plan.base = .ok p →
        (advanceCompacted sha key plan.base plan.tail).Leads
          (h.anchors, d.setLog plan.base.index (.synced bytes))
          (fun _ y => ∀ o, Q o ({ h with
            log := ⟨p.events, plan.tail, plan.base, bytes.length, false⟩, anchors := y.1 }, y.2))
          fun w y => W (w.map .anchor) ({ h with anchors := y.1 }, y.2)) :
    (compact sha key plan).Leads (h, d) Q W := by
  refine leads_get_bind ?_
  simp only
  split
  · exact leads_throw (hkeep _)
  next hf =>
  refine leads_ofExcept_bind (fun bytes hb => ?_) fun _ => hkeep _
  split
  · exact leads_throw (hkeep _)
  next hex =>
  obtain ⟨hfile, hadvance⟩ := hbuild bytes (by simpa using hf) hb (by simpa using hex)
  refine Leads.bind (Q := fun l x => ∃ p, decodeLogFrom sha bytes plan.base = .ok p ∧
    l = ⟨p.events, plan.tail, plan.base, bytes.length, false⟩ ∧
    x = (h, d.setLog plan.base.index (.synced bytes)))
    (leads_onDisk (leads_createFromLogAbove.imp ?_ ?_)) ?_
  · rintro _ _ ⟨p, hp, -, rfl, rfl⟩
    exact ⟨p, hp, rfl, rfl⟩
  · rintro w _ (rfl | ⟨-, f, rfl⟩)
    · exact hkeep _
    · exact hfile _ f
  · rintro _ _ ⟨p, hp, rfl, rfl⟩
    refine Leads.bind (Q := fun _ x => ∀ o, Q o ({ x.1 with
      log := ⟨p.events, plan.tail, plan.base, bytes.length, false⟩ }, x.2))
        (leads_onAnchors (hadvance p hp)) ?_
    exact fun _ _ hQ => leads_modify_bind (leads_pure (hQ _))

end

/-- **The steps of an open**: it fails before it touches the log, in the repair, or
while it acknowledges what the repair kept. -/
theorem leads_openLedger {e policy Q W} (hkeep : ∀ w, W w d)
    (hrepair : ∀ file a f p, d.anchor = some file → authenticate sha key e file.content = .ok a →
      d.logs[a.base.index]? = some f → scanFrom sha f.content a.base = .ok p →
      (RecoverableLog.repair sha ⟨a.base, p, f.content.length⟩ a policy).Leads d (fun x d₁ =>
        (x.2.tail = a.log → ∀ split, Q (⟨x.1, ⟨a⟩, false, some x.2⟩, split) d₁) ∧
        (x.2.tail ≠ a.log → (acknowledge sha key x.2.tail (x.2.origin.getD .unset)).Leads (⟨a⟩, d₁)
          (fun _ y => ∀ split, Q (⟨x.1, y.1, false, some x.2⟩, split) y.2)
          fun w y => W (w.map .anchor) y.2))
        fun w d' => W (w.map .ofIo) d') :
    (openLedger sha key e policy).Leads d Q W := by
  refine (leads_mapErr (leads_openExpecting_found.imp (fun _ _ h => h) ?_)).bind ?_
  · rintro w _ rfl
    exact hkeep _
  rintro _ _ ⟨rfl, file, a, hfile, ha, rfl⟩
  refine (leads_mapErr (leads_lockForRecovery.imp (fun _ _ h => h) ?_)).bind ?_
  · rintro w _ rfl
    exact hkeep _
  rintro _ _ ⟨rfl, f, p, hf, hp, rfl⟩
  refine leads_ofExcept_bind (fun _ _ => ?_) fun _ => hkeep _
  refine (leads_mapErr (hrepair file a f p hfile ha hf hp)).bind fun x d₁ hx => ?_
  simp only
  split
  · next ht =>
    refine Leads.bind (Q := fun y d' => ∀ split, Q (⟨x.1, y.2, false, some x.2⟩, split) d')
      (leads_withLocal (leads_mapErr (hx.2 ht))) fun _ _ h => ?_
    exact leads_pure (h _)
  · next ht => exact leads_pure (hx.1 (not_not.mp ht) _)

end AcknowledgedLedger

end Ptr.Ledger
