import Mathlib.Data.List.AList
import Ptr.Lib.DiskFile
import Ptr.Raft.Record

/-!
# The files of the raft storage

`FileRaftStorage` step by step on its files.  The log is written in place; every
other file is written beside its place and renamed into it, so a stop leaves the
old file or the new one.  A state names its snapshot payload by digest and is
replaced before the log is, and `openStorage` finishes what a stop left between
the two.

* `RaftDisk`: the directory.  The names of the scratch files are names like any
  other, and no reader looks at them.
* `Core`: what the running storage has in memory.
* `openStorage`: the first opening and every later one.
-/

namespace Ptr.Raft

open Lib Ledger
open Prog hiding pure bind throw get modify

/-! ### The directory -/

inductive FileName
  | state | stateTmp | logRewrite
  | payload (digest : Digest) | payloadTmp (digest : Digest)
  deriving DecidableEq

structure RaftDisk where
  files : AList fun _ : FileName => Bytes
  log : Option DiskFile

/-- File steps, any of which may fail. -/
abbrev FileProg := Prog RaftDisk IoError

namespace RaftDisk

def empty : RaftDisk := ⟨∅, none⟩

variable (n : FileName)

def file (d : RaftDisk) : Option Bytes := d.files.lookup n

def put (bs : Bytes) (d : RaftDisk) : RaftDisk := ⟨d.files.insert n bs, d.log⟩

def remove (d : RaftDisk) : RaftDisk := ⟨d.files.erase n, d.log⟩

def withLog (f : DiskFile) (d : RaftDisk) : RaftDisk := ⟨d.files, some f⟩

def move (a b : FileName) (d : RaftDisk) : RaftDisk :=
  match d.file a with
  | some bs => (d.remove a).put b bs
  | none => d

def moveLog (d : RaftDisk) : RaftDisk :=
  match d.file .logRewrite with
  | some bs => (d.remove .logRewrite).withLog (.synced bs)
  | none => d

def mapLog (g : DiskFile → DiskFile) (d : RaftDisk) : RaftDisk :=
  match d.log with
  | some f => d.withLog (g f)
  | none => d

def logContent (d : RaftDisk) : Bytes :=
  match d.log with
  | some f => f.content
  | none => []

/-- What a power loss can leave: renamed files stay, the log settles, and scratch
files may hold anything. -/
structure Settles (d d' : RaftDisk) : Prop where
  state : d'.file .state = d.file .state
  payload : ∀ g, d'.file (.payload g) = d.file (.payload g)
  log : (d.log = none ∧ d'.log = none) ∨ ∃ f f', d.log = some f ∧ d'.log = some f' ∧ f.Settles f'

/-! ### Steps -/

def writeFile (bs : Bytes) : FileProg Unit :=
  step ioFailure (put n bs) fun k d => if k = 0 then d else d.put n (bs.take (k - 1))

def atomicWrite (tmp n : FileName) (bs : Bytes) : FileProg Unit := do
  writeFile tmp bs
  allOrNothing ioFailure (move tmp n)

def syncDir : FileProg Unit := atomic ioFailure id

def removeLeftover : FileProg Unit :=
  (atomic ioFailure (remove n)).attempt

def removeAll : List FileName → FileProg Unit
  | [] => pure ()
  | n :: ns => do
    removeLeftover n
    removeAll ns

def isOtherPayload (keep : Digest) : FileName → Bool
  | .payload g => g != keep
  | .payloadTmp _ => true
  | _ => false

def removeOtherPayloads (keep : Digest) : FileProg Unit := do
  let d ← Prog.get
  removeAll (d.files.keys.filter (isOtherPayload keep))

def writePayload (digest : Digest) (data : Bytes) : FileProg Unit := do
  atomicWrite (.payloadTmp digest) (.payload digest) data
  syncDir

def logStep (done : DiskFile → DiskFile) (part : Nat → DiskFile → DiskFile) :
    FileProg Unit :=
  step ioFailure (mapLog done) fun k => mapLog (part k)

def setLen (n : Nat) : FileProg Unit :=
  logStep (DiskFile.truncate n) fun k f => if k = 0 then f else f.truncate n

def writeLog (bs : Bytes) : FileProg Unit :=
  logStep (DiskFile.write bs) fun k => DiskFile.write (bs.take k)

def syncLog : FileProg Unit := logStep DiskFile.sync DiskFile.syncPart

def openLog : FileProg Unit := do
  let d ← Prog.get
  match d.log with
  | some _ => pure ()
  | none => atomic ioFailure (withLog .empty)

def prepare : FileProg Unit := do
  removeLeftover .stateTmp
  removeLeftover .logRewrite
  openLog

/-- `write_log_header`.  The log holds at most a part of a header, which is
written over. -/
def writeLogHeader : FileProg Unit := do
  logStep (fun f => (f.truncate 0).write logMagic) fun k f =>
    if k = 0 then f else (f.truncate 0).write (logMagic.take (k - 1))
  syncLog

variable (sha : Bytes → Digest)

def writeScratchLog (es : List Entry) : FileProg Unit :=
  writeFile .logRewrite (logBytes sha es)

def installScratchLog : FileProg Unit := do
  allOrNothing ioFailure moveLog
  syncDir

def rewriteLog (es : List Entry) : FileProg Unit := do
  writeScratchLog sha es
  installScratchLog

def loadPayload (digest : Digest) (d : RaftDisk) : Except IoError Bytes :=
  match d.file (.payload digest) with
  | none =>
    if digest = sha [] then .ok []
    else .error (invalid "the snapshot payload the state names is missing")
  | some data =>
    if maxSnapshotBytes < data.length then
      .error (invalid "retained raft snapshot is over the size bound")
    else if sha data ≠ digest then
      .error (invalid "retained raft snapshot does not match the digest the state names")
    else .ok data

end RaftDisk

/-! ### The running storage -/

/-- `Core`.  The fence of `held` is the one that the state file carries; the
copy that the source also keeps is never read. -/
structure Core where
  held : Stored
  digest : Digest
  offsets : List Nat
  trimmedTailBytes : Nat
  health : Health
  deriving DecidableEq

/-- File steps of a storage, which changes its memory beside them. -/
abbrev StorageProg := Prog (Core × RaftDisk) IoError

variable (sha : Bytes → Digest)

namespace Core

def fresh (voters learners : List U64) : Core :=
  ⟨.fresh voters learners, sha [], [], 0, .sound⟩

def poison (c : Core) : Core := { c with health := .poisoned }

def image (c : Core) (fence : U64) : StateImage :=
  ⟨c.held.hardState, c.held.confState, c.held.snapshot, c.digest, fence, c.held.applied⟩

def withHeld (g : Stored → Stored) (c : Core) : Core := { c with held := g c.held }

def restore (previous c : Core) : Core := { previous with health := c.health }

def rewritten (es : List Entry) (c : Core) : Core :=
  ⟨{ c.held with entries := es }, c.digest, offsetsFrom logMagic.length es,
    c.trimmedTailBytes, c.health⟩

def extended (keep start : Nat) (es : List Entry) (c : Core) : Core :=
  ⟨c.held.overwrite keep es, c.digest, c.offsets.take keep ++ offsetsFrom start es,
    c.trimmedTailBytes, c.health⟩

/-- The fields of the state file that announce a snapshot; the payload and the
entries follow later. -/
def announced (next : Stored → Stored) (digest : Digest) (c : Core) : Core :=
  ⟨{ next c.held with payload := c.held.payload, entries := c.held.entries }, digest, c.offsets,
    c.trimmedTailBytes, c.health⟩

end Core

namespace Files

def onDisk {α : Type} (p : FileProg α) : StorageProg α :=
  p.zoom Prod.snd fun d s => (s.1, d)

def modifyCore (g : Core → Core) : StorageProg Unit :=
  Prog.modify fun s => (g s.1, s.2)

def orElse (g : Core → Core) (p : StorageProg Unit) :
    StorageProg Unit := p.onErr fun s => (g s.1, s.2)

def refuseIfPoisoned : StorageProg Unit := do
  let s ← Prog.get
  match s.1.health with
  | .sound => pure ()
  | .poisoned => Prog.throw storagePoisoned

/-- The fence of the state file.  No state file means no claim. -/
def fenceOnDisk (d : RaftDisk) : Except IoError U64 :=
  match d.file .state with
  | none => .ok 0
  | some bytes => do
    let image ← readState sha (some bytes)
    .ok image.fence

def fencedTo : StorageProg U64 := do
  let s ← Prog.get
  let onDisk ← ofExcept (fenceOnDisk sha s.2)
  ofExcept (Store.checkFence onDisk s.1.held.hardState.term)
  pure (max onDisk s.1.held.hardState.term)

def persistState : StorageProg Unit := do
  refuseIfPoisoned
  let fence ← fencedTo sha
  let s ← Prog.get
  onDisk (RaftDisk.atomicWrite .stateTmp .state (encodeState sha (s.1.image fence)))
  modifyCore (Core.withHeld fun h => { h with fence := fence })
  orElse Core.poison (onDisk RaftDisk.syncDir)

def replaceState (g : Core → Core) : StorageProg Unit := do
  let s ← Prog.get
  modifyCore g
  orElse (Core.restore s.1) (persistState sha)

def setHardState (h : HardState) : StorageProg Unit :=
  replaceState sha (Core.withHeld (·.withHardState h))

def setCommit (commit : U64) : StorageProg Unit :=
  replaceState sha (Core.withHeld fun s => s.withHardState { s.hardState with commit := commit })

def setAppliedEvents (n : U64) : StorageProg Unit :=
  replaceState sha (Core.withHeld (·.withApplied n))

def setConfState (c : ConfState) : StorageProg Unit :=
  replaceState sha (Core.withHeld (·.withConfState c))

def startOf (keep : Nat) (s : Core × RaftDisk) : Nat :=
  match s.1.offsets[keep]? with
  | some offset => offset
  | none => s.2.logContent.length

def shorten (keep start : Nat) : StorageProg Unit := do
  let s ← Prog.get
  if keep < s.1.held.entries.length then onDisk (RaftDisk.setLen start) else pure ()

def writeEntries (keep start : Nat) (es : List Entry) : StorageProg Unit := do
  shorten keep start
  onDisk (RaftDisk.writeLog (records sha es))
  onDisk RaftDisk.syncLog
  modifyCore (Core.extended keep start es)

def appendFrom (first : Entry) (es : List Entry) : StorageProg Unit := do
  let _ ← fencedTo sha
  let s ← Prog.get
  ofExcept (s.1.held.checkOrder first.index es)
  let keep := s.1.held.keep first.index
  let start := startOf keep s
  ofExcept (Stored.checkSize start es)
  orElse Core.poison (writeEntries sha keep start es)

def append (es : List Entry) : StorageProg Unit := do
  refuseIfPoisoned
  match es with
  | [] => pure ()
  | first :: _ => appendFrom sha first es

def resetLog : StorageProg Unit := do
  onDisk (RaftDisk.rewriteLog sha [])
  modifyCore (Core.rewritten [])

def compactTo (index : U64) : StorageProg Unit := do
  let s ← Prog.get
  let held := s.1.held
  if index < held.firstIndex then pure ()
  else if held.lastIndex < index then
    Prog.throw (invalid s!"compaction to {index} is past the last index {held.lastIndex}")
  else do
    let kept := held.entries.drop (index.val - held.firstIndex.val + 1)
    onDisk (RaftDisk.writeScratchLog sha kept)
    onDisk (allOrNothing ioFailure RaftDisk.moveLog)
    modifyCore (Core.rewritten kept)
    onDisk RaftDisk.syncDir

/-- The state that names a payload which is in place, and the log that goes with
that state. -/
def announceSnapshot (next : Stored → Stored) (data : Bytes)
    (log : StorageProg Unit) : StorageProg Unit := do
  replaceState sha (Core.announced next (sha data))
  modifyCore (Core.withHeld fun h => { h with payload := data })
  onDisk (RaftDisk.removeOtherPayloads (sha data))
  orElse Core.poison log

/-- The common part of `apply_snapshot` and `record_snapshot_within`. -/
def replaceSnapshot (next : Stored → Stored) (data : Bytes)
    (log : StorageProg Unit) : StorageProg Unit := do
  let _ ← fencedTo sha
  onDisk (RaftDisk.writePayload (sha data) data)
  announceSnapshot sha next data log

def applySnapshot (snap : Snapshot) : StorageProg Unit := do
  refuseIfPoisoned
  let s ← Prog.get
  ofExcept (s.1.held.checkInstall snap)
  replaceSnapshot sha (·.install snap) snap.data (resetLog sha)

def recordSnapshotWithin (index : U64) (data : Bytes) (floor : CommitIndex) :
    StorageProg Unit := do
  refuseIfPoisoned
  let s ← Prog.get
  let (term, events) ← ofExcept (s.1.held.checkRecord index data floor)
  replaceSnapshot sha (·.compact index term events data) data (compactTo sha index)

def recordSnapshot (index : U64) (data : Bytes) : StorageProg Unit := do
  refuseIfPoisoned
  let s ← Prog.get
  let events ← ofExcept (s.1.held.eventsThrough index)
  recordSnapshotWithin sha index data events

/-! ### Opening -/

/-- What `open` reads: the state, the payload it names and the log, which it
synchronizes first. -/
def readFiles : FileProg (StateImage × Bytes × LogImage) := do
  let d ← Prog.get
  let image ← ofExcept (readState sha (d.file .state))
  let data ← ofExcept (RaftDisk.loadPayload sha image.snapshotDigest d)
  RaftDisk.removeOtherPayloads image.snapshotDigest
  RaftDisk.syncLog
  let d ← Prog.get
  let log ← ofExcept (scanLog sha d.logContent image.snapshot.index image.hardState.commit)
  pure (image, data, log)

def cutTail (log : LogImage) : FileProg Unit :=
  if log.trimmed = 0 then pure ()
  else do
    RaftDisk.setLen log.cut
    RaftDisk.syncLog

/-- A log that begins at or below the snapshot is rewritten: without the records
that the snapshot covers, and without any record while the snapshot waits to be
accounted for. -/
def settleLog (applied : AppliedEvents) (log : LogImage) : FileProg (List Entry × List Nat) :=
  if log.skipped then do
    let es := if applied = .snapshotPending then [] else log.entries
    RaftDisk.rewriteLog sha es
    pure (es, offsetsFrom logMagic.length es)
  else pure (log.entries, log.offsets)

def coreOf (image : StateImage) (data : Bytes) (es : List Entry) (offsets : List Nat)
    (trimmed : Nat) : Core :=
  ⟨⟨image.hardState, image.confState, image.snapshot, data, image.applied, image.fence, es⟩,
    image.snapshotDigest, offsets, trimmed, .sound⟩

def reopen : FileProg Core := do
  let (image, data, log) ← readFiles sha
  cutTail log
  let (es, offsets) ← settleLog sha image.applied log
  pure (coreOf image data es offsets log.trimmed)

def startFresh (voters learners : List U64) : FileProg Core := do
  let d ← Prog.get
  if logMagic.length < d.logContent.length then
    Prog.throw (invalid ("a log with records exists but its state file is missing; refusing to " ++
      "start over it"))
  else do
    RaftDisk.writeLogHeader
    let (_, core) ← (persistState sha).withLocal (Core.fresh sha voters learners)
    pure core

/-- `FileRaftStorage::open`. -/
def openStorage (voters learners : List U64) : FileProg Core := do
  RaftDisk.prepare
  let d ← Prog.get
  match d.file .state with
  | some _ => reopen sha
  | none => startFresh sha voters learners

end Files

/-! ### What the steps on the files can do -/

/-- `d'` is `d` to a reader of the state, of the log and of the payload
`keep`. -/
structure RaftDisk.SameFor (keep : Digest) (d d' : RaftDisk) : Prop where
  state : d'.file .state = d.file .state
  payload : d'.file (.payload keep) = d.file (.payload keep)
  log : d'.log = d.log

structure RaftDisk.Relogged (f : DiskFile) (d d' : RaftDisk) : Prop where
  state : d'.file .state = d.file .state
  payload : ∀ g, d'.file (.payload g) = d.file (.payload g)
  log : d'.log = some f

def FileName.Scratch (n : FileName) : Prop := n ≠ .state ∧ ∀ g, n ≠ .payload g

namespace RaftDisk

variable {d d' d'' : RaftDisk} {n m : FileName} {bs : Bytes} {g : Digest} {r : Outcome IoError Unit}

@[simp] theorem file_put_self : (d.put n bs).file n = some bs := AList.lookup_insert _

theorem file_put_ne (h : m ≠ n) : (d.put n bs).file m = d.file m := AList.lookup_insert_ne h

theorem file_remove_ne (h : m ≠ n) : (d.remove n).file m = d.file m := AList.lookup_erase_ne h

theorem SameFor.refl (g : Digest) (d : RaftDisk) : SameFor g d d := ⟨rfl, rfl, rfl⟩

theorem SameFor.trans (h : SameFor g d d') (h' : SameFor g d' d'') : SameFor g d d'' :=
  ⟨h'.state.trans h.state, h'.payload.trans h.payload, h'.log.trans h.log⟩

theorem SameFor.relogged {f} (h : ∀ g, SameFor g d d') (h' : Relogged f d' d'') :
    Relogged f d d'' :=
  ⟨h'.state.trans (h Digest.zero).state, fun g => (h'.payload g).trans (h g).payload, h'.log⟩

theorem relogged_withLog (f : DiskFile) (d : RaftDisk) : Relogged f d (d.withLog f) :=
  ⟨rfl, fun _ => rfl, rfl⟩

theorem Relogged.trans {f f'} (h : Relogged f d d') (h' : Relogged f' d' d'') : Relogged f' d d'' :=
  ⟨h'.state.trans h.state, fun g => (h'.payload g).trans (h.payload g), h'.log⟩

theorem sameFor_put (hn : n.Scratch) (bs : Bytes) (g : Digest) : SameFor g d (d.put n bs) :=
  ⟨file_put_ne hn.1.symm, file_put_ne (hn.2 g).symm, rfl⟩

theorem sameFor_remove (hs : n ≠ .state) (hg : n ≠ .payload g) : SameFor g d (d.remove n) :=
  ⟨file_remove_ne hs.symm, file_remove_ne hg.symm, rfl⟩

theorem leads_writeFile (hn : n.Scratch) :
    (writeFile n bs).Leads d (fun _ d' => d' = d.put n bs) fun _ d' => ∀ g, SameFor g d d' := by
  refine leads_step rfl fun k _ g => ?_
  split
  · exact .refl g d
  · exact sameFor_put hn _ g

/-- The content `bs` was moved from the scratch file `n` to `m`. -/
structure Moved (n m : FileName) (bs : Bytes) (d d' : RaftDisk) : Prop where
  file : d'.file m = some bs
  log : d'.log = d.log
  others : ∀ k, k ≠ m → k ≠ n → d'.file k = d.file k

theorem moved_put : Moved n m bs d ((d.put n bs).move n m) := by
  rw [move, file_put_self]
  refine ⟨file_put_self, rfl, fun k hm hn => ?_⟩
  rw [file_put_ne hm, file_remove_ne hn, file_put_ne hn]

/-- **A file replaced by a rename** is the old one or the new one. -/
theorem leads_atomicWrite (hn : n.Scratch) : (atomicWrite n m bs).Leads d (fun _ => Moved n m bs d)
    fun w d' => (∀ g, SameFor g d d') ∨ w = none ∧ Moved n m bs d d' := by
  refine (leads_writeFile hn).seq (fun _ _ => .inl) ?_
  rintro _ _ rfl
  exact leads_allOrNothing moved_put (fun _ => .inl (sameFor_put hn bs)) (.inr ⟨rfl, moved_put⟩)

theorem leads_syncDir : syncDir.Leads d (fun _ d' => d' = d) fun _ d' => d' = d :=
  leads_atomic rfl (fun _ => rfl) fun _ => rfl

theorem scratch_payloadTmp (g : Digest) : (FileName.payloadTmp g).Scratch := ⟨nofun, nofun⟩

theorem scratch_stateTmp : FileName.stateTmp.Scratch := ⟨nofun, nofun⟩

theorem scratch_logRewrite : FileName.logRewrite.Scratch := ⟨nofun, nofun⟩

theorem Moved.sameFor {k} (h : Moved (.payloadTmp g) (.payload g) bs d d') (hk : k ≠ g) :
    SameFor k d d' where
  state := h.others .state nofun nofun
  payload := h.others _ (fun h => hk (FileName.payload.inj h)) nofun
  log := h.log

theorem leads_writePayload :
    (writePayload g bs).Leads d (fun _ => Moved (.payloadTmp g) (.payload g) bs d)
      fun _ d' => (∀ k, SameFor k d d') ∨ Moved (.payloadTmp g) (.payload g) bs d d' := by
  refine (leads_atomicWrite (scratch_payloadTmp g)).seq (fun _ _ h => h.imp_right And.right) fun _ d1 hd => ?_
  exact leads_syncDir.imp (fun _ _ h => h ▸ hd) fun _ _ h => .inr (h ▸ hd)

theorem leads_removeLeftover (hs : n ≠ .state) (hg : n ≠ .payload g) :
    (removeLeftover n).Leads d (fun _ => SameFor g d) fun w d' => w = none ∧ SameFor g d d' := by
  have hsame : SameFor g d (d.remove n) := sameFor_remove hs hg
  exact leads_attempt (leads_atomic hsame (fun _ => ⟨.refl g d, rfl, .refl g d⟩) fun _ =>
    ⟨hsame, rfl, hsame⟩)

theorem leads_removeAll {ns} (hns : ∀ n ∈ ns, n ≠ .state ∧ n ≠ .payload g) :
    (removeAll ns).Leads d (fun _ => SameFor g d) fun w d' => w = none ∧ SameFor g d d' := by
  induction ns generalizing d with
  | nil => exact leads_pure (.refl g d)
  | cons n ns ih =>
    obtain ⟨hs, hg⟩ := hns n (by simp)
    refine (leads_removeLeftover hs hg).bind fun _ d1 h1 => ?_
    exact (ih fun m hm => hns m (by simp [hm])).imp (fun _ _ => h1.trans) fun _ _ h =>
      ⟨h.1, h1.trans h.2⟩

theorem leads_removeOtherPayloads :
    (removeOtherPayloads g).Leads d (fun _ => SameFor g d) fun w d' => w = none ∧
      SameFor g d d' := by
  refine leads_get_bind (leads_removeAll fun n hn => ?_)
  have hother := (List.mem_filter.mp hn).2
  constructor
  · rintro rfl
    cases hother
  · rintro rfl
    simp [isOtherPayload] at hother

theorem leads_removeScratch (hn : n.Scratch) :
    (removeLeftover n).Leads d (fun _ d' => ∀ g, SameFor g d d') fun _ d' => ∀ g, SameFor g d d' :=
  leads_of_ends fun _ _ h g =>
    ((leads_removeLeftover hn.1 (hn.2 g)).imp (fun _ _ h => h) fun _ _ h => h.2).always h

/-- What the first steps of an opening leave: a directory without a log gets one. -/
def Prepared (d d' : RaftDisk) : Prop := (∀ g, SameFor g d d') ∨ d.log = none ∧ Relogged .empty d d'

theorem leads_prepare :
    prepare.Leads d (fun _ d' => Prepared d d' ∧ ∃ f, d'.log = some f) fun _ => Prepared d := by
  refine (leads_removeScratch scratch_stateTmp).seq (fun _ _ => .inl) fun _ d1 h1 => ?_
  refine Leads.bind (Q := fun _ d2 => ∀ g, SameFor g d d2)
    ((leads_removeScratch scratch_logRewrite).imp (fun _ _ h g => (h1 g).trans (h g)) fun _ _ h =>
    .inl fun g => (h1 g).trans (h g)) ?_
  intro _ d2 h2
  refine leads_get_bind ?_
  cases hlog : d2.log with
  | some f => exact leads_pure ⟨.inl h2, f, hlog⟩
  | none =>
    have hnew : d.log = none ∧ Relogged .empty d (d2.withLog .empty) :=
      ⟨(h2 Digest.zero).log.symm.trans hlog, SameFor.relogged h2 (relogged_withLog _ _)⟩
    exact leads_atomic ⟨.inr hnew, _, rfl⟩ (fun _ => .inl h2) fun _ => .inr hnew

theorem logContent_of_some {f} (hf : d.log = some f) : d.logContent = f.content := by
  rw [logContent, hf]

theorem leads_logStep {done part f Q W} (hf : d.log = some f) (h : Q () (d.withLog (done f)))
    (hpart : ∀ k w, W w (d.withLog (part k f))) : (logStep done part).Leads d Q W := by
  have hmap : ∀ g, d.mapLog g = d.withLog (g f) := fun g => by rw [mapLog, hf]
  refine leads_step ?_ fun k => ?_
  · rwa [hmap]
  · rw [hmap]
    exact hpart k

theorem moveLog_put (d : RaftDisk) (bs : Bytes) :
    Relogged (.synced bs) d (d.put .logRewrite bs).moveLog := by
  have hsame : ∀ g, SameFor g d ((d.put .logRewrite bs).remove .logRewrite) := fun g =>
    (sameFor_put scratch_logRewrite bs g).trans (sameFor_remove nofun nofun)
  exact SameFor.relogged hsame (relogged_withLog ..)

theorem leads_moveLog : (allOrNothing ioFailure moveLog).Leads (d.put .logRewrite bs)
    (fun _ => Relogged (.synced bs) d) fun _ d' => (∀ g, SameFor g d d') ∨
      Relogged (.synced bs) d d' :=
  leads_allOrNothing (moveLog_put d bs) (fun _ => .inl (sameFor_put scratch_logRewrite bs))
    (.inr (moveLog_put d bs))

/-- **A rewritten log** is the old file or exactly the new one. -/
theorem leads_rewriteLog {sha es} :
    (rewriteLog sha es).Leads d (fun _ => Relogged (.synced (logBytes sha es)) d)
      fun _ d' => (∀ g, SameFor g d d') ∨ Relogged (.synced (logBytes sha es)) d d' := by
  refine (leads_writeFile scratch_logRewrite).seq (fun _ _ => .inl) ?_
  rintro _ _ rfl
  refine leads_moveLog.bind fun _ d2 hd => ?_
  exact leads_syncDir.imp (fun _ _ h => h ▸ hd) fun _ _ h => .inr (h ▸ hd)

end RaftDisk

end Ptr.Raft
