import Ptr.Ledger.Disk

/-!
# Protected anchors

The anchor says which history is acknowledged, how far, and above which floor
the log begins.  It is authenticated under a key of the host and replaced by an
atomic rename.

* `leads_advance`: a transition publishes at most one record, which is the one it
  was asked for, and publishes it only if it moves the epoch forward and neither
  the covered index nor the origin backward.
* `leads_openExpecting`: the installed record is the one a reader finds.
-/

namespace Ptr.Ledger

open Lib List
open Prog hiding pure bind throw get modify

def anchorMagic : Bytes := utf8 "PTRANC01"
def macDomain : Bytes := utf8 "PTRANC01-MAC"
def authenticatedBytes : Nat := 136
def anchorBytes : Nat := authenticatedBytes + 32

/-- `ChainOrigin`: the digest of commit index 1, or zero while there is none. -/
abbrev ChainOrigin := Digest

def ChainOrigin.unset : ChainOrigin := Digest.zero

inductive AnchorError
  | absent | format | unsupportedVersion | unauthenticated
  | staleEpoch (stored expected : U64)
  | nonMonotonic | originMismatch | baseRange | «exists» | storage
  deriving DecidableEq

structure ProtectedAnchor where
  epoch : U64
  log : LogAnchor
  origin : ChainOrigin
  base : LogAnchor
  deriving DecidableEq

variable (sha : Bytes → Digest)

namespace ProtectedAnchor

def initial : ProtectedAnchor := ⟨1, .empty sha, .unset, .empty sha⟩

def checkSelf (a : ProtectedAnchor) : Except AnchorError Unit :=
  if a.base.index > a.log.index then .error .baseRange
  else if a.base ≠ .empty sha ∧ a.base.index = 0 then .error .baseRange
  else .ok ()

def encode (a : ProtectedAnchor) : Bytes :=
  anchorMagic ++ putU64 a.epoch ++ putU64 a.log.index ++ a.log.digest.bytes ++ a.origin.bytes ++
    putU64 a.base.index ++ a.base.digest.bytes ++ replicate 8 0

def readFields : Reader AnchorError ProtectedAnchor := do
  let epoch ← Reader.u64 .format
  let index ← Reader.u64 .format
  let digest ← Digest.read .format
  let origin ← Digest.read .format
  let baseIndex ← Reader.u64 .format
  let baseDigest ← Digest.read .format
  pure ⟨epoch, ⟨index, digest⟩, origin, ⟨baseIndex, baseDigest⟩⟩

def decode (bytes : Bytes) : Except AnchorError ProtectedAnchor :=
  if bytes.length ≠ anchorBytes then .error .format
  else if bytes.take 8 ≠ anchorMagic then
    -- another magic of the family is a version problem
    .error (if bytes.take 3 = utf8 "PTR" then .unsupportedVersion else .format)
  else if (bytes.drop 128).take 8 ≠ replicate 8 0 then .error .format
  else do
    let (anchor, _) ← readFields (bytes.drop 8)
    anchor.checkSelf sha
    .ok anchor

end ProtectedAnchor

/-! ### Authentication -/

def hmacSha256 (key message : Bytes) : Digest :=
  let block := if key.length > 64 then (sha key).bytes ++ replicate 32 0
    else key ++ replicate (64 - key.length) 0
  sha (block.map (· ^^^ 0x5c) ++ (sha (block.map (· ^^^ 0x36) ++ message)).bytes)

def constantTimeEq (left right : Bytes) : Bool :=
  left.length == right.length &&
    (left.zip right).foldl (fun acc p => acc ||| (p.1 ^^^ p.2)) (0 : UInt8) == 0

theorem constantTimeEq_iff {left right : Bytes} :
    constantTimeEq left right = true ↔ left = right := by
  have h : ∀ (left right : Bytes) acc, left.length = right.length ∧
      (left.zip right).foldl (fun acc p => acc ||| (p.1 ^^^ p.2)) acc = 0 ↔
      acc = 0 ∧ left = right := by
    intro left
    induction left with
    | nil => rintro (_ | ⟨b, right⟩) acc <;> simp
    | cons b left ih => rintro (_ | ⟨c, right⟩) acc <;> simp [ih, and_assoc]
  simp [constantTimeEq, h]

abbrev AnchorKey := Digest

variable (key : AnchorKey)

def mac (message : Bytes) : Digest := hmacSha256 sha key.bytes (macDomain ++ message)

def ProtectedAnchor.record (a : ProtectedAnchor) : Bytes := a.encode ++ (mac sha key a.encode).bytes

/-- What `open_expecting` decides about the bytes it read. -/
def authenticate (minimumEpoch : U64) (bytes : Bytes) : Except AnchorError ProtectedAnchor :=
  if bytes.length ≠ anchorBytes then .error .format
  else if !constantTimeEq (bytes.drop authenticatedBytes)
      (mac sha key (bytes.take authenticatedBytes)).bytes then .error .unauthenticated
  else do
    let current ← ProtectedAnchor.decode sha bytes
    if current.epoch < minimumEpoch then .error (.staleEpoch current.epoch minimumEpoch)
    else .ok current

/-! ### The store -/

structure AnchorStore where
  current : ProtectedAnchor
  deriving DecidableEq

namespace AnchorStore

def publish (anchor : ProtectedAnchor) : Prog Disk AnchorError Unit :=
  (Disk.writeAtomically (anchor.record sha key)).mapErr fun _ => .storage

/-- `initialize`: an existing anchor is never replaced. -/
def initialize' (anchor : ProtectedAnchor) : Prog Disk AnchorError AnchorStore := do
  ofExcept (anchor.checkSelf sha)
  let d ← Prog.get
  if d.anchor.isSome then Prog.throw .exists
  else do
    publish sha key anchor
    pure ⟨anchor⟩

def openExpecting (minimumEpoch : U64) : Prog Disk AnchorError AnchorStore := do
  let d ← Prog.get
  match d.anchor with
  | none => Prog.throw .absent
  | some f => do
    Disk.touch.mapErr fun _ => .storage
    let current ← ofExcept (authenticate sha key minimumEpoch f.content)
    pure ⟨current⟩

def checkCommit (current next : ProtectedAnchor) : Except AnchorError Unit := do
  next.checkSelf sha
  if next.epoch ≤ current.epoch ∨ next.log.index < current.log.index then .error .nonMonotonic
  else if next.log.index = current.log.index ∧ next.log.digest ≠ current.log.digest then
    .error .nonMonotonic
  else if next.origin ≠ current.origin ∧ current.origin ≠ .unset then .error .originMismatch
  else .ok ()

/-- `commit`: validate and publish a successor.  The store forgets nothing when
the publication fails, so it may then be behind the disk. -/
def commit (next : ProtectedAnchor) : Prog (AnchorStore × Disk) AnchorError ProtectedAnchor := do
  let (store, _) ← Prog.get
  ofExcept (checkCommit sha store.current next)
  (publish sha key next).zoom Prod.snd fun d s => (s.1, d)
  Prog.modify fun s => (⟨next⟩, s.2)
  pure next

def acknowledged (current : ProtectedAnchor) (log : LogAnchor) (origin : ChainOrigin) :
    Except AnchorError ProtectedAnchor :=
  match U64.checkedAdd current.epoch 1 with
  | none => .error .nonMonotonic
  | some epoch =>
    .ok ⟨epoch, log, if current.origin ≠ .unset then current.origin else origin, current.base⟩

def compacted (current : ProtectedAnchor) (base log : LogAnchor) :
    Except AnchorError ProtectedAnchor :=
  if base.index < current.base.index then .error .nonMonotonic
  else match U64.checkedAdd current.epoch 1 with
    | none => .error .nonMonotonic
    | some epoch => .ok ⟨epoch, log, current.origin, base⟩

def acknowledge (log : LogAnchor) (origin : ChainOrigin) :
    Prog (AnchorStore × Disk) AnchorError ProtectedAnchor := do
  let (store, _) ← Prog.get
  let next ← ofExcept (acknowledged store.current log origin)
  commit sha key next

def advanceCompacted (base log : LogAnchor) :
    Prog (AnchorStore × Disk) AnchorError ProtectedAnchor := do
  let (store, _) ← Prog.get
  let next ← ofExcept (compacted store.current base log)
  commit sha key next

end AnchorStore

/-! ### Reading what was published -/

variable {sha key} {a : ProtectedAnchor}

@[simp] theorem anchorMagic_length : anchorMagic.length = 8 := by decide

@[simp] theorem ProtectedAnchor.encode_length (a : ProtectedAnchor) : a.encode.length = 136 := by
  simp [encode]

theorem ProtectedAnchor.exact_fields :
    Reader.Exact readFields (fun a => putU64 a.epoch ++ putU64 a.log.index ++
      a.log.digest.bytes ++ a.origin.bytes ++ putU64 a.base.index ++ a.base.digest.bytes)
      fun _ => True := by
  rintro bs ⟨_, ⟨⟩, _, ⟨⟩⟩ rest
  simp [readFields, Reader.bind_iff, Reader.exact_u64, Digest.exact_read _ _ _ _]

/-- **What is read as an anchor is one**, in front of the bytes that authenticate it. -/
theorem ProtectedAnchor.decode_iff {bs : Bytes} : decode sha bs = .ok a ↔
    ∃ tag : Bytes, tag.length = 32 ∧ bs = a.encode ++ tag ∧ a.checkSelf sha = .ok () := by
  simp only [decode, refuse_eq_ok, not_not]
  constructor
  · rintro ⟨hlength, hmagic, hreserved, h⟩
    obtain ⟨⟨b, rest⟩, hread, h⟩ := bind_eq_ok.mp h
    obtain ⟨hself, h⟩ := bind_unit_eq_ok.mp h
    cases h
    obtain ⟨hfields, -⟩ := (exact_fields _ _ _).mp hread
    have hbs := take_append_drop 8 bs
    rw [hmagic, hfields] at hbs
    have hdrop : bs.drop 128 = rest := by
      rw [← hbs, ← append_assoc]
      exact drop_left' (by simp)
    refine ⟨rest.drop 8, ?_, ?_, hself⟩
    · rw [← hdrop, length_drop, length_drop, hlength]
      rfl
    · rw [← hbs, encode, ← hreserved, hdrop]
      simp
  · rintro ⟨tag, htag, rfl, hself⟩
    have hfields : readFields ((a.encode ++ tag).drop 8) = .ok (a, replicate 8 0 ++ tag) := by
      simp only [encode, append_assoc]
      rw [drop_left' anchorMagic_length]
      exact (exact_fields _ _ _).mpr ⟨by simp, trivial⟩
    refine ⟨by simp [htag, anchorBytes, authenticatedBytes], ?_, ?_, ?_⟩
    · simp only [encode, append_assoc]
      exact take_left' anchorMagic_length
    · rw [encode, append_assoc, drop_left' (by simp), take_left' (by simp)]
    · rw [hfields]
      exact bind_unit_eq_ok.mpr ⟨hself, rfl⟩

theorem authenticate_record_eq (h : a.checkSelf sha = .ok ()) (e : U64) :
    authenticate sha key e (a.record sha key) =
      if a.epoch < e then .error (.staleEpoch a.epoch e) else .ok a := by
  have hlen : (a.record sha key).length = anchorBytes := by
    simp [ProtectedAnchor.record, anchorBytes, authenticatedBytes]
  have htake : (a.record sha key).take authenticatedBytes = a.encode :=
    take_left' (by simp [authenticatedBytes])
  have hdrop : (a.record sha key).drop authenticatedBytes = (mac sha key a.encode).bytes :=
    drop_left' (by simp [authenticatedBytes])
  have hdecode : ProtectedAnchor.decode sha (a.record sha key) = .ok a :=
    ProtectedAnchor.decode_iff.mpr ⟨_, Digest.bytes_length _, rfl, h⟩
  rw [authenticate, if_neg (by simp [hlen]), hdrop, htake, constantTimeEq_iff.mpr rfl, hdecode]
  simp [bind, Except.bind]

theorem authenticate_record (h : a.checkSelf sha = .ok ()) {e} (he : e ≤ a.epoch) :
    authenticate sha key e (a.record sha key) = .ok a := by
  rw [authenticate_record_eq h, if_neg (not_lt.mpr he)]

/-- **The anchor file is exact**: it is accepted as an anchor exactly if it is the record of
that anchor under the key, the anchor is in itself consistent, and it is not older than
asked for. -/
theorem authenticate_iff_record (sha : Bytes → Digest) (key : AnchorKey) (minimumEpoch : U64)
    (bs : Bytes) (a : ProtectedAnchor) : authenticate sha key minimumEpoch bs = .ok a ↔
      bs = a.record sha key ∧ a.checkSelf sha = .ok () ∧ minimumEpoch ≤ a.epoch := by
  constructor
  · intro h
    simp only [authenticate, refuse_eq_ok, Bool.not_eq_true', Bool.not_eq_false, constantTimeEq_iff]
      at h
    obtain ⟨-, hmac, h⟩ := h
    obtain ⟨b, hdecode, h⟩ := bind_eq_ok.mp h
    rw [refuse_eq_ok, not_lt] at h
    obtain ⟨hepoch, ⟨⟩⟩ := h
    obtain ⟨tag, -, rfl, hself⟩ := ProtectedAnchor.decode_iff.mp hdecode
    rw [authenticatedBytes, drop_left' a.encode_length, take_left' a.encode_length] at hmac
    exact ⟨by rw [hmac]; rfl, hself, hepoch⟩
  · rintro ⟨rfl, hself, hepoch⟩
    exact authenticate_record hself hepoch

/-! ### What a transition can do -/

namespace AnchorStore

variable {s s' : AnchorStore} {d d' : Disk} {next : ProtectedAnchor}
  {r : Outcome AnchorError ProtectedAnchor}
  {a : ProtectedAnchor} {origin : ChainOrigin} {log : LogAnchor} {e : U64}

/-- **A publication** becomes visible as a whole or not at all. -/
theorem leads_publish :
    (publish sha key next).Leads d (fun _ => Disk.Published (next.record sha key) d)
      fun _ d' => d.Quiet d' ∨ Disk.Published (next.record sha key) d d' :=
  leads_mapErr Disk.leads_writeAtomically

/-- The successor `next`, which is `x`, is published after all checks. -/
structure Installs (sha : Bytes → Digest) (key : AnchorKey) (x : Except AnchorError ProtectedAnchor)
    (s : AnchorStore) (next : ProtectedAnchor) (d d' : Disk) : Prop where
  found : x = .ok next
  checked : checkCommit sha s.current next = .ok ()
  published : Disk.Published (next.record sha key) d d'

/-- **A transition publishes nothing, or its successor after all checks.**  Only
a transition that succeeds moves the store. -/
theorem leads_advance {x} : (ofExcept x >>= commit sha key).Leads (s, d)
    (fun a y => Installs sha key x s a d y.2 ∧ y.1 = ⟨a⟩)
    fun _ y => y.1 = s ∧ (d.Quiet y.2 ∨ ∃ next, Installs sha key x s next d y.2) := by
  have hquiet : d.Quiet d := ⟨rfl, rfl, rfl⟩
  refine leads_ofExcept_bind
    (fun next hx =>
    leads_get_bind (leads_ofExcept_bind (fun _ hcheck => ?_) fun _ => ⟨rfl, .inl hquiet⟩)) fun _ =>
    ⟨rfl, .inl hquiet⟩
  refine Leads.bind (Q := fun _ y => y.1 = s ∧ Installs sha key x s next d y.2)
    (leads_zoom (leads_publish.imp (fun _ _ h => ⟨rfl, hx, hcheck, h⟩) fun _ _ h =>
      ⟨rfl, h.imp_right fun h => ⟨next, hx, hcheck, h⟩⟩)) ?_
  rintro _ y ⟨-, h⟩
  exact leads_modify_bind (leads_pure ⟨h, rfl⟩)

theorem checkCommit_ok {b} (h : checkCommit sha a b = .ok ()) :
    b.checkSelf sha = .ok () ∧ a.epoch < b.epoch ∧ a.log.index ≤ b.log.index := by
  simp only [checkCommit, bind_unit_eq_ok, refuse_eq_ok, not_or] at h
  obtain ⟨hs, ⟨h1, h2⟩, -⟩ := h
  exact ⟨hs, not_le.mp h1, not_lt.mp h2⟩

theorem leads_acknowledge : (acknowledge sha key log origin).Leads (s, d)
    (fun a y => Installs sha key (acknowledged s.current log origin) s a d y.2 ∧ y.1 = ⟨a⟩)
    fun _ y => y.1 = s ∧
      (d.Quiet y.2 ∨ ∃ next, Installs sha key (acknowledged s.current log origin) s next d y.2) :=
  leads_get_bind leads_advance

theorem leads_advanceCompacted {base} : (advanceCompacted sha key base log).Leads (s, d)
    (fun a y => Installs sha key (compacted s.current base log) s a d y.2 ∧ y.1 = ⟨a⟩)
    fun _ y => y.1 = s ∧
      (d.Quiet y.2 ∨ ∃ next, Installs sha key (compacted s.current base log) s next d y.2) :=
  leads_get_bind leads_advance

theorem acknowledged_ok {b} (h : acknowledged a log origin = .ok b) :
    b.epoch.val = a.epoch.val + 1 ∧ b.log = log ∧ b.base = a.base ∧
      b.origin = if a.origin ≠ .unset then a.origin else origin := by
  unfold acknowledged at h
  cases he : U64.checkedAdd a.epoch 1 with
  | none => simp [he] at h
  | some =>
    rw [he] at h
    cases h
    exact ⟨U64.checkedAdd_eq_some he, rfl, rfl, rfl⟩

theorem acknowledged_of_epoch (h : a.epoch.val + 1 < 2 ^ 64) (log : LogAnchor)
    (origin : ChainOrigin) : ∃ b, acknowledged a log origin = .ok b := by
  have he : U64.checkedAdd a.epoch 1 = some ⟨a.epoch.val + 1, h⟩ := dif_pos h
  rw [acknowledged, he]
  exact ⟨_, rfl⟩

theorem compacted_ok {b base} (h : compacted a base log = .ok b) :
    b.epoch.val = a.epoch.val + 1 ∧ b.log = log ∧ b.base = base ∧ b.origin = a.origin ∧
      a.base.index ≤ b.base.index := by
  simp only [compacted, refuse_eq_ok] at h
  obtain ⟨hb, h⟩ := h
  cases he : U64.checkedAdd a.epoch 1 with
  | none => simp [he] at h
  | some =>
    rw [he] at h
    cases h
    exact ⟨U64.checkedAdd_eq_some he, rfl, rfl, rfl, not_lt.mp hb⟩

theorem leads_initialize : (initialize' sha key a).Leads d
    (fun st d' => st = ⟨a⟩ ∧ d'.logs = d.logs ∧ d'.anchor = some (.synced (a.record sha key)))
      fun _ _ => True := by
  refine leads_ofExcept_bind (fun _ _ => leads_get_bind ?_) fun _ => trivial
  split
  · exact leads_throw trivial
  · exact leads_publish.seq (fun _ _ _ => trivial) fun _ _ h => leads_pure ⟨rfl, h.1, h.2.1⟩

theorem leads_openExpecting_found : (openExpecting sha key e).Leads d
    (fun s d' => d' = d ∧ ∃ f a, d.anchor = some f ∧
      authenticate sha key e f.content = .ok a ∧ s = ⟨a⟩)
    fun _ d' => d' = d := by
  refine leads_get_bind ?_
  cases hf : d.anchor with
  | none => exact leads_throw rfl
  | some f =>
    refine (leads_mapErr Disk.leads_touch).bind ?_
    rintro _ _ rfl
    exact leads_ofExcept_bind (fun a ha => leads_pure ⟨rfl, f, a, rfl, ha, rfl⟩) fun _ => rfl

theorem eq_of_authenticate {x} (hs : a.checkSelf sha = .ok ())
    (h : authenticate sha key e (a.record sha key) = .ok x) : a = x := by
  rw [authenticate_record_eq hs] at h
  split at h
  · cases h
  · exact Except.ok.inj h

/-- **A reader finds the installed record**, or fails. -/
theorem leads_openExpecting (ha : d.anchor = some (.synced (a.record sha key)))
    (hs : a.checkSelf sha = .ok ()) :
    (openExpecting sha key e).Leads d (fun s d' => d' = d ∧ s = ⟨a⟩) fun _ d' => d' = d := by
  refine leads_openExpecting_found.imp ?_ fun _ _ h => h
  rintro _ _ ⟨hd, f, x, hf, hx, rfl⟩
  obtain rfl := Option.some.inj (ha.symm.trans hf)
  rw [DiskFile.content_synced] at hx
  rw [eq_of_authenticate hs hx]
  exact ⟨hd, rfl⟩

theorem openExpecting_succeeds (ha : d.anchor = some (.synced (a.record sha key)))
    (hs : a.checkSelf sha = .ok ()) (he : e ≤ a.epoch) : (openExpecting sha key e).Succeeds d := by
  refine succeeds_get_bind ?_
  rw [ha]
  refine succeeds_bind (succeeds_mapErr _ Disk.touch_succeeds) fun _ _ _ => ?_
  rw [DiskFile.content_synced, authenticate_record hs he]
  exact succeeds_pure _

theorem commit_succeeds (hc : checkCommit sha s.current next = .ok ()) :
    (commit sha key next).Succeeds (s, d) := by
  refine succeeds_get_bind (succeeds_ofExcept_bind hc ?_)
  refine succeeds_bind (succeeds_zoom ?_) fun _ _ _ => ?_
  · exact succeeds_mapErr _ (Disk.writeAtomically_succeeds _)
  · exact succeeds_bind (succeeds_modify _) fun _ _ _ => succeeds_pure _

theorem acknowledge_succeeds (hn : acknowledged s.current log origin = .ok next)
    (hc : checkCommit sha s.current next = .ok ()) :
    (acknowledge sha key log origin).Succeeds (s, d) :=
  succeeds_get_bind (succeeds_ofExcept_bind hn (commit_succeeds hc))

end AnchorStore

end Ptr.Ledger
