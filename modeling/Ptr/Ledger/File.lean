import Ptr.Ledger.Anchor

/-!
# The log file and its recovery

A `FileLedger` is the open handle of one log.  It is poisoned before its first
write and unpoisoned after its last sync, so a failed append closes the handle
for good.

* `leads_appendDurable`: an append that succeeds leaves the whole record on disk;
  one that fails leaves some prefix of it and a poisoned handle.
* `leads_cutAndOpen`: a repair drops what is behind the last record it keeps and
  nothing else; `leads_repair`: under the acknowledging policy that is the last
  complete one.
-/

namespace Ptr.Ledger

open Lib List
open Prog hiding pure bind throw get modify

/-! ### How a log relates to its anchor -/

inductive Split
  | aligned
  | unacknowledged (completeRecords : Nat) (incompleteFrame : Bool) (tail : LogAnchor)
  | lostSuffix (acknowledged present : CommitIndex)
  | diverged | originMismatch | baseMismatch
  deriving DecidableEq

inductive TailPolicy
  | acknowledge | discard | refuse
  deriving DecidableEq

structure TailRecovery where
  acknowledgedRecords : Nat
  discardedRecords : Nat
  incompleteFrameRemoved : Bool
  trimmedZeroTailBytes : Nat
  tail : LogAnchor
  origin : Option ChainOrigin
  deriving DecidableEq

def Split.code : Split → String
  | .lostSuffix .. => "PTR_ACK_LOST_SUFFIX"
  | .diverged => "PTR_ACK_DIVERGED"
  | .originMismatch => "PTR_ACK_ORIGIN_MISMATCH"
  | .baseMismatch => "PTR_ACK_BASE_MISMATCH"
  | .aligned | .unacknowledged .. => "PTR_ACK_UNRECOVERABLE"

def Split.Repairable : Split → Prop
  | .aligned | .unacknowledged .. => True
  | _ => False

def unrecoverable (fault : Split) : IoError := invalid fault.code

/-! ### The handle -/

/-- `FileLedger`.  Its file is the log named by the index of `base`. -/
structure FileLedger where
  events : List CommittedEvent
  anchor : LogAnchor
  base : LogAnchor
  length : Nat
  poisoned : Bool
  deriving DecidableEq

def indeterminate : IoError := ⟨.other, "PTR_LOG_INDETERMINATE"⟩

variable (sha : Bytes → Digest)

namespace FileLedger

def fromVerifiedAbove (events : List CommittedEvent) (anchor : LogAnchor) (length : Nat)
    (base : LogAnchor) : DiskProg FileLedger := do
  Disk.touch
  pure ⟨events, anchor, base, length, false⟩

/-- The writes of a new log: open for creation, lock, write, sync, sync the
directory. -/
def writeNew (i : CommitIndex) (bytes : Bytes) : DiskProg Unit := do
  Disk.createNew i
  Disk.touch
  Disk.writeAll i bytes
  Disk.syncLog i
  Disk.touch

def createNew : DiskProg FileLedger := do
  writeNew 0 logMagic
  let verified ← ofExcept (decodeLogFrom sha logMagic (.empty sha))
  fromVerifiedAbove verified.events verified.anchor logMagic.length (.empty sha)

/-- `create_from_log_above`: everything is checked before the file exists. -/
def createFromLogAbove (bytes : Bytes) (base trusted : LogAnchor) :
    DiskProg FileLedger := do
  let verified ← ofExcept (decodeLogFrom sha bytes base)
  ofExcept (verified.requireAnchor trusted)
  writeNew base.index bytes
  fromVerifiedAbove verified.events verified.anchor bytes.length base

/-- `derived_origin`: the digest of commit index 1, while the log still has it. -/
def derivedOrigin (l : FileLedger) : Option ChainOrigin :=
  if l.base ≠ .empty sha then none
  else match l.events with
    | [] => none
    | first :: _ =>
      match encodeRecord sha first.event (.empty sha) with
      | .ok (_, after) => some after.digest
      | .error _ => none

def anchor? (l : FileLedger) : Except IoError LogAnchor :=
  if l.poisoned then .error indeterminate else .ok l.anchor

def writeFrame (i : CommitIndex) (bytes : Bytes) : DiskProg Unit := do
  Disk.writeAll i (bytes.take frameHeaderBytes)
  Disk.writeAll i (bytes.drop frameHeaderBytes)
  Disk.touch
  Disk.syncLog i

def onDisk {α σ : Type} (p : DiskProg α) : Prog (σ × Disk) IoError α :=
  p.zoom Prod.snd fun d s => (s.1, d)

def appendDurable (event : LedgerEvent) : Prog (FileLedger × Disk) IoError CommitIndex := do
  let (l, d) ← Prog.get
  if l.poisoned then Prog.throw indeterminate
  else do
    let (bytes, anchor) ← ofExcept (encodeRecord sha event l.anchor)
    if l.length + bytes.length > maxLogBytes then Prog.throw (invalid "PTR_LOG_SIZE_LIMIT")
    else do
      onDisk Disk.touch
      Prog.modify fun s => ({ s.1 with poisoned := true }, s.2)
      -- the file must not have changed under the handle
      if (d.logs[l.base.index]?).map (·.content.length) ≠ some l.length then
        Prog.throw (invalid "PTR_LOG_EXTERNAL_LENGTH_CHANGE")
      else do
        onDisk (writeFrame l.base.index bytes)
        Prog.modify fun s =>
          (⟨l.events ++ [⟨anchor.index, event⟩], anchor, l.base, l.length + bytes.length, false⟩,
            s.2)
        pure anchor.index

end FileLedger

/-! ### Recovery -/

structure RecoverableLog where
  base : LogAnchor
  scanned : Prefix
  length : Nat

def lockForRecovery (base : LogAnchor) : DiskProg RecoverableLog := do
  let d ← Prog.get
  match d.logs[base.index]? with
  | none => Prog.throw ⟨.notFound, "no such file"⟩
  | some f => do
    -- open and lock, then read
    Disk.touch
    Disk.touch
    if f.content.length > maxLogBytes then Prog.throw (invalid "PTR_LOG_SIZE_LIMIT")
    else do
      let scanned ← ofExcept (scanFrom sha f.content base)
      pure ⟨base, scanned, f.content.length⟩

namespace RecoverableLog

variable (l : RecoverableLog)

def tail : LogAnchor := l.scanned.anchor

def derivedOrigin : Option ChainOrigin :=
  if l.base ≠ .empty sha then none else (l.scanned.milestones[1]?).map (·.2.digest)

def classify (anchor : ProtectedAnchor) : Split :=
  if anchor.base ≠ l.base then .baseMismatch
  else if anchor.origin ≠ .unset ∧ (l.derivedOrigin sha).any (· ≠ anchor.origin) then
    .originMismatch
  else match l.scanned.recordsAfter anchor.log with
    | some n =>
      if n = 0 ∧ !l.scanned.incomplete then .aligned
      else .unacknowledged n l.scanned.incomplete l.tail
    | none =>
      if anchor.log.index > l.tail.index then .lostSuffix anchor.log.index l.tail.index
      else .diverged

def truncateDurably (i : CommitIndex) (n : Nat) : DiskProg Unit := do
  Disk.setLen i n
  Disk.syncLog i

/-- The part of `repair` behind its checks: cut the file, if it must be cut, and
open what is left. -/
def cutAndOpen (target : LogAnchor) (keep : Nat) :
    DiskProg FileLedger := do
  if keep ≠ l.length then truncateDurably l.base.index keep
  FileLedger.fromVerifiedAbove
    (l.scanned.events.take (target.index.val - l.base.index.val)) target keep l.base

def repair (anchor : ProtectedAnchor) (policy : TailPolicy) :
    DiskProg (FileLedger × TailRecovery) :=
  let go (records : Nat) (incomplete : Bool) : DiskProg (FileLedger × TailRecovery) :=
    if policy = .refuse ∧ (records > 0 ∨ incomplete) then
      Prog.throw (invalid "PTR_ACK_TAIL_REFUSED")
    else do
      let drop := policy = .discard ∧ records > 0
      let target := if drop then anchor.log else l.tail
      let keep ← ofExcept (if drop then
          match l.scanned.offsetOf anchor.log with
          | some n => .ok n
          | none => .error (unrecoverable .diverged)
        else .ok l.scanned.completeBytes)
      let ledger ← l.cutAndOpen target keep
      pure (ledger, ⟨if drop then 0 else records, if drop then records else 0, incomplete,
        l.scanned.zeroTail, target, ledger.derivedOrigin sha⟩)
  match l.classify sha anchor with
  | .aligned => go 0 false
  | .unacknowledged records incomplete _ => go records incomplete
  | fault => Prog.throw (unrecoverable fault)

end RecoverableLog

def FileLedger.recoverUnacknowledgedTailReporting (trusted : LogAnchor) :
    DiskProg (FileLedger × Nat) := do
  let l ← lockForRecovery sha (.empty sha)
  ofExcept (l.scanned.requireAnchor trusted)
  if l.scanned.incomplete then RecoverableLog.truncateDurably l.base.index l.scanned.completeBytes
  let ledger ← FileLedger.fromVerifiedAbove l.scanned.events l.scanned.anchor
    l.scanned.completeBytes l.base
  pure (ledger, l.scanned.zeroTail)

/-! ### What an append can do -/

variable {sha}

namespace FileLedger

variable {i : CommitIndex} {bs : Bytes} {d : Disk} {f : DiskFile} {base trusted : LogAnchor}
  {e : LedgerEvent}

/-- **The writes of a new log** touch no log but the new one, and leave exactly
its bytes, synchronized, if they succeed. -/
theorem leads_writeNew :
    (writeNew i bs).Leads d (fun _ d' => d.logs[i]? = none ∧ d' = d.setLog i (.synced bs))
      fun _ d' => d' = d ∨ d.logs[i]? = none ∧ ∃ f, d' = d.setLog i f := by
  refine Leads.bind (Q := fun _ d' => d.logs[i]? = none ∧ d' = d.setLog i .empty)
    (leads_get_bind ?_) ?_
  · cases hf : d.logs[i]? with
    | some => exact leads_throw (.inl rfl)
    | none => exact leads_atomic ⟨rfl, rfl⟩ (fun _ => .inl rfl) fun _ => .inr ⟨rfl, _, rfl⟩
  rintro _ _ ⟨hnone, rfl⟩
  have hnew : ∀ f, d.setLog i f = d ∨ d.logs[i]? = none ∧ ∃ g, d.setLog i f = d.setLog i g :=
    fun f => .inr ⟨hnone, f, rfl⟩
  refine Disk.leads_touch_bind (fun _ => hnew _) (Disk.leads_setLog_bind (fun _ _ => hnew _) ?_)
  refine Disk.leads_setLog_bind (fun _ _ => hnew _) (Disk.leads_touch.imp ?_ ?_)
  · rintro _ _ rfl
    exact ⟨hnone, rfl⟩
  · rintro _ _ rfl
    exact hnew _

theorem leads_fromVerifiedAbove {events anchor length Q W} (hW : ∀ w, W w d)
    (h : Q ⟨events, anchor, base, length, false⟩ d) :
    (fromVerifiedAbove events anchor length base).Leads d Q W :=
  Disk.leads_touch_bind hW (leads_pure h)

theorem leads_createNew : (FileLedger.createNew sha).Leads d
    (fun l d' => l = ⟨[], .empty sha, .empty sha, logMagic.length, false⟩ ∧
      d'.logs[(0 : CommitIndex)]? = some (.synced logMagic)) fun _ _ => True := by
  obtain ⟨p, hp, hanchor, hevents⟩ :=
    decodeLogFrom_chain (Chain.nil (.empty sha)) (by rw [append_nil]; decide)
  rw [append_nil] at hp
  refine leads_writeNew.seq (fun _ _ _ => trivial) ?_
  rintro _ _ ⟨-, rfl⟩
  refine leads_ofExcept_bind (fun q hq => leads_fromVerifiedAbove (fun _ => trivial) ?_)
    fun _ => trivial
  obtain rfl := Except.ok.inj (hp.symm.trans hq)
  rw [hanchor, hevents]
  exact ⟨rfl, Disk.getElem?_setLog_self ..⟩

/-- **A log built above a floor**: only its own file is touched, and a success
leaves the checked bytes and a handle of them. -/
theorem leads_createFromLogAbove : (createFromLogAbove sha bs base trusted).Leads d
    (fun l d' => ∃ p, decodeLogFrom sha bs base = .ok p ∧ p.anchor = trusted ∧
      d' = d.setLog base.index (.synced bs) ∧ l = ⟨p.events, trusted, base, bs.length, false⟩)
    fun _ d' => d' = d ∨ d.logs[base.index]? = none ∧ ∃ f, d' = d.setLog base.index f := by
  refine leads_ofExcept_bind (fun p hp => leads_ofExcept_bind (fun _ ha => ?_) fun _ => .inl rfl)
    fun _ => .inl rfl
  rw [Prefix.requireAnchor, refuse_eq_ok, not_not] at ha
  refine leads_writeNew.bind ?_
  rintro _ _ ⟨hnone, rfl⟩
  exact leads_fromVerifiedAbove (fun _ => .inr ⟨hnone, _, rfl⟩) ⟨p, hp, ha.1, rfl, by rw [ha.1]⟩

/-- `g` is `f` with the first `k` bytes of `bs` behind it. -/
structure Grown (f : DiskFile) (bs : Bytes) (k : Nat) (g : DiskFile) : Prop where
  content : g.content = f.content ++ bs.take k
  durable : f.durable <+: g.durable
  removed : f.removed = [] → g.removed = []

theorem grown_synced : Grown f bs bs.length (.synced (f.content ++ bs)) where
  content := by rw [DiskFile.content_synced, take_length]
  durable := f.durable_prefix_content.trans (prefix_append _ _)
  removed _ := rfl

/-- **The writes of an append** leave a prefix of the record behind the log, and
all of it, synchronized, if they succeed. -/
theorem leads_writeFrame (hf : d.logs[i]? = some f) :
    (writeFrame i bs).Leads d (fun _ d' => d' = d.setLog i (.synced (f.content ++ bs)))
      fun _ d' => ∃ g k, d' = d.setLog i g ∧ Grown f bs k g := by
  refine Disk.leads_logStep_bind hf
    (fun k _ => ⟨_, min k frameHeaderBytes, rfl, ?_, prefix_rfl, id⟩) ?_
  · rw [DiskFile.content_write, take_take]
  refine Disk.leads_setLog_bind (fun k _ => ⟨_, frameHeaderBytes + k, rfl, ?_, prefix_rfl, id⟩) ?_
  · rw [DiskFile.content_write, DiskFile.content_write, append_assoc, ← take_add]
  -- the log now ends in the whole record, none of it synchronized
  have hc : ((f.write (bs.take frameHeaderBytes)).write (bs.drop frameHeaderBytes)).content =
      f.content ++ bs := by
    rw [DiskFile.content_write, DiskFile.content_write, append_assoc, take_append_drop]
  refine Disk.leads_touch_bind
    (fun _ => ⟨_, bs.length, rfl, by rw [hc, take_length], prefix_rfl, id⟩) ?_
  refine Disk.leads_setLog (fun k _ => ⟨_, bs.length, rfl, ?_, ?_, ?_⟩) (by rw [DiskFile.sync, hc])
  · rw [DiskFile.content_syncPart, hc, take_length]
  · exact ((f.write _).write _).durable_prefix_syncPart k
  · intro hrem
    simp [DiskFile.syncPart, DiskFile.write, hrem]

/-- The append of `e` to the log of `l` has passed its checks: `bs` is the record. -/
structure Appends (sha : Bytes → Digest) (e : LedgerEvent) (l : FileLedger) (d : Disk) (bs : Bytes)
    (a : LogAnchor) (f : DiskFile) : Prop where
  clean : l.poisoned = false
  record : encodeRecord sha e l.anchor = .ok (bs, a)
  file : d.logs[l.base.index]? = some f
  length : f.content.length = l.length
  size : l.length + bs.length ≤ maxLogBytes

/-- **What an append can do**: nothing, or write a prefix of one record to its
own log.  A handle that has written is poisoned until the record is whole. -/
theorem leads_appendDurable {l} : (appendDurable sha e).Leads (l, d)
    (fun i x => ∃ bs a f, Appends sha e l d bs a f ∧ i = a.index ∧
      x = (⟨l.events ++ [⟨a.index, e⟩], a, l.base, l.length + bs.length, false⟩,
        d.setLog l.base.index (.synced (f.content ++ bs))))
    fun _ x => (x.2 = d ∧ (x.1 = l ∨ x.1 = { l with poisoned := true })) ∨
      ∃ bs a f g k, Appends sha e l d bs a f ∧
      Grown f bs k g ∧ x = ({ l with poisoned := true }, d.setLog l.base.index g) := by
  refine leads_get_bind ?_
  simp only
  split
  · exact leads_throw (.inl ⟨rfl, .inl rfl⟩)
  next hpoison =>
  refine leads_ofExcept_bind (fun x hx => ?_) fun _ => .inl ⟨rfl, .inl rfl⟩
  obtain ⟨bs, a⟩ := x
  simp only
  split
  · exact leads_throw (.inl ⟨rfl, .inl rfl⟩)
  next hsize =>
  refine Leads.bind (Q := fun _ x => x = (l, d)) (leads_zoom (Disk.leads_touch.imp ?_ ?_)) ?_
  · rintro _ _ rfl
    rfl
  · rintro _ _ rfl
    exact .inl ⟨rfl, .inl rfl⟩
  rintro _ _ rfl
  refine leads_modify_bind ?_
  split
  · exact leads_throw (.inl ⟨rfl, .inr rfl⟩)
  next hlen =>
  obtain ⟨f, hf, hfl⟩ : ∃ f, d.logs[l.base.index]? = some f ∧ f.content.length = l.length := by
    simpa using hlen
  have happends : Appends sha e l d bs a f :=
    ⟨by simpa using hpoison, hx, hf, hfl, Nat.not_lt.mp hsize⟩
  refine Leads.bind (Q := fun _ x => x.2 = d.setLog l.base.index (.synced (f.content ++ bs)))
    (leads_zoom ((leads_writeFrame hf).imp (fun _ _ h => h) ?_)) ?_
  · rintro _ _ ⟨g, k, rfl, hg⟩
    exact .inr ⟨bs, a, f, g, k, happends, hg, rfl⟩
  · rintro _ ⟨l', d'⟩ hd
    obtain rfl : d' = _ := hd
    exact leads_modify_bind (leads_pure ⟨bs, a, f, happends, rfl, rfl⟩)

theorem appendDurable_succeeds {e l d bs a} (hpoison : l.poisoned = false)
    (hx : encodeRecord sha e l.anchor = .ok (bs, a)) (hsize : l.length + bs.length ≤ maxLogBytes)
    (hf : (d.logs[l.base.index]?).map (·.content.length) = some l.length) :
    (appendDurable sha e).Succeeds (l, d) := by
  refine succeeds_get_bind ?_
  simp only [hpoison]
  refine succeeds_ofExcept_bind hx ?_
  simp only [not_lt.mpr hsize, hf, ne_eq]
  refine succeeds_bind (succeeds_zoom Disk.touch_succeeds) fun _ _ _ =>
    succeeds_bind (succeeds_modify _) fun _ _ _ => succeeds_bind (succeeds_zoom ?_) fun _ _ _ =>
    succeeds_bind (succeeds_modify _) fun _ _ _ => succeeds_pure _
  exact succeeds_bind (succeeds_step ..) fun _ _ _ => succeeds_bind (succeeds_step ..) fun _ _ _ =>
    succeeds_bind Disk.touch_succeeds fun _ _ _ => succeeds_step ..

theorem fromVerifiedAbove_succeeds {events anchor base length d} :
    (fromVerifiedAbove events anchor length base).Succeeds d :=
  succeeds_bind Disk.touch_succeeds fun _ _ _ => succeeds_pure _

theorem createFromLogAbove_succeeds {base trusted p d} (hp : decodeLogFrom sha bs base = .ok p)
    (ha : p.anchor = trusted) (hd : d.logs[base.index]? = none) :
    (createFromLogAbove sha bs base trusted).Succeeds d := by
  have hrequire : p.requireAnchor trusted = .ok () := by
    rw [Prefix.requireAnchor, if_neg (not_not_intro ha)]
  refine succeeds_ofExcept_bind hp (succeeds_ofExcept_bind hrequire ?_)
  refine succeeds_bind ?_ fun _ _ _ => fromVerifiedAbove_succeeds
  refine succeeds_bind (succeeds_get_bind ?_) fun _ _ _ => ?_
  · rw [hd]
    exact succeeds_step ..
  · exact succeeds_bind Disk.touch_succeeds fun _ _ _ =>
      succeeds_bind (succeeds_step ..) fun _ _ _ =>
      succeeds_bind (succeeds_step ..) fun _ _ _ => Disk.touch_succeeds

end FileLedger

/-! ### What a recovery can do -/

theorem leads_lockForRecovery {base d} : (lockForRecovery sha base).Leads d
    (fun l d' => d' = d ∧ ∃ f p, d.logs[base.index]? = some f ∧
      scanFrom sha f.content base = .ok p ∧
      l = ⟨base, p, f.content.length⟩) fun _ d' => d' = d := by
  refine leads_get_bind ?_
  split
  · exact leads_throw rfl
  next f hf =>
  refine Disk.leads_touch_bind (fun _ => rfl) (Disk.leads_touch_bind (fun _ => rfl) ?_)
  split
  · exact leads_throw rfl
  · exact leads_ofExcept_bind (fun p hp => leads_pure ⟨rfl, f, p, hf, hp, rfl⟩) fun _ => rfl

theorem lockForRecovery_succeeds {base d f p} (hf : d.logs[base.index]? = some f)
    (hl : f.content.length ≤ maxLogBytes) (hp : scanFrom sha f.content base = .ok p) :
    (lockForRecovery sha base).Succeeds d := by
  refine succeeds_get_bind ?_
  rw [hf]
  refine succeeds_bind Disk.touch_succeeds fun _ _ _ => ?_
  refine succeeds_bind Disk.touch_succeeds fun _ _ _ => ?_
  rw [if_neg (not_lt.mpr hl), hp]
  exact succeeds_pure _

namespace RecoverableLog

variable {l : RecoverableLog} {d d' : Disk} {keep : Nat}

/-- What a truncation can leave: the file as it was, or cut, and synchronized wholly or
in part. -/
def Cut (f : DiskFile) (keep : Nat) (g : DiskFile) : Prop :=
  g = f ∨ g = f.truncate keep ∨ (∃ k, g = (f.truncate keep).syncPart k) ∨
    g = .synced (f.content.take keep)

theorem leads_truncateDurably {i f} (hf : d.logs[i]? = some f) :
    (truncateDurably i keep).Leads d (fun _ d' => d' = d.setLog i (.synced (f.content.take keep)))
      fun _ d' => ∃ g, d' = d.setLog i g ∧ Cut f keep g := by
  refine Disk.leads_logStep_bind hf (fun k _ => ⟨_, rfl, ?_⟩) (Disk.leads_setLog
    (fun k _ => ⟨_, rfl, .inr (.inr (.inl ⟨k, rfl⟩))⟩)
    (by rw [DiskFile.sync, DiskFile.content_truncate]))
  split
  · exact .inl rfl
  · exact .inr (.inl rfl)

theorem cut_kept {f keep} :
    Cut f keep (if keep = f.content.length then f else .synced (f.content.take keep)) := by
  split
  · exact .inl rfl
  · exact .inr (.inr (.inr rfl))

theorem content_kept {f : DiskFile} {keep} :
    (if keep = f.content.length then f else .synced (f.content.take keep)).content =
      f.content.take keep := by
  split
  · next hall => rw [hall, take_length]
  · exact DiskFile.content_synced _

/-- **A cut** leaves the log as it was, or without the bytes behind the kept
ones.  A success leaves exactly the kept bytes, synchronized if any were cut. -/
theorem leads_cutAndOpen {target f} (hf : d.logs[l.base.index]? = some f) :
    (l.cutAndOpen target keep).Leads d
      (fun ledger d' => ledger =
        ⟨l.scanned.events.take (target.index.val - l.base.index.val), target, l.base, keep, false⟩ ∧
        d' = d.setLog l.base.index (if keep = l.length then f else .synced (f.content.take keep)))
      fun _ d' => ∃ g, d' = d.setLog l.base.index g ∧ Cut f keep g := by
  unfold cutAndOpen
  by_cases hk : keep = l.length
  · rw [if_neg (not_not.mpr hk), if_pos hk, Disk.setLog_eq_self hf]
    exact FileLedger.leads_fromVerifiedAbove
      (fun _ => ⟨f, (Disk.setLog_eq_self hf).symm, .inl rfl⟩) ⟨rfl, rfl⟩
  · rw [if_pos hk, if_neg hk]
    refine (leads_truncateDurably hf).bind ?_
    rintro _ _ rfl
    exact FileLedger.leads_fromVerifiedAbove (fun _ => ⟨_, rfl, .inr (.inr (.inr rfl))⟩) ⟨rfl, rfl⟩

theorem cutAndOpen_succeeds {target} : (l.cutAndOpen target keep).Succeeds d := by
  unfold cutAndOpen
  split
  · refine succeeds_bind ?_ fun _ _ _ => FileLedger.fromVerifiedAbove_succeeds
    exact succeeds_bind (succeeds_step ..) fun _ _ _ => succeeds_step ..
  · exact FileLedger.fromVerifiedAbove_succeeds

/-- **A repair under the acknowledging policy** keeps every complete record. -/
theorem leads_repair {anchor Q W} (hs : (l.classify sha anchor).Repairable)
    (h : (l.cutAndOpen l.tail l.scanned.completeBytes).Leads d (fun ledger d' =>
      ∀ recovery : TailRecovery, recovery.tail = l.tail →
        recovery.origin = ledger.derivedOrigin sha → Q (ledger, recovery) d') W) :
    (l.repair sha anchor .acknowledge).Leads d Q W := by
  unfold repair
  cases hsplit : l.classify sha anchor with
  | aligned | unacknowledged =>
    exact Leads.bind (Q := fun n d' => n = l.scanned.completeBytes ∧ d' = d)
      (leads_pure ⟨rfl, rfl⟩) (by
      rintro _ _ ⟨rfl, rfl⟩
      exact h.bind fun _ _ hQ => leads_pure (hQ _ rfl rfl))
  | lostSuffix | diverged | originMismatch | baseMismatch => exact (hsplit ▸ hs).elim

theorem repair_succeeds {anchor} (hs : (l.classify sha anchor).Repairable) :
    (l.repair sha anchor .acknowledge).Succeeds d := by
  unfold repair
  cases hsplit : l.classify sha anchor with
  | aligned | unacknowledged =>
    exact succeeds_bind (succeeds_pure _) fun _ _ _ =>
      succeeds_bind cutAndOpen_succeeds fun _ _ _ => succeeds_pure _
  | lostSuffix | diverged | originMismatch | baseMismatch => exact (hsplit ▸ hs).elim

end RecoverableLog

end Ptr.Ledger
