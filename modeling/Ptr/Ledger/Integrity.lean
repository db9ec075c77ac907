import Ptr.Ledger.RoundTrip

/-!
# The checked log

A log is a magic followed by frames.  A frame holds one record and the digest of
the frame before it, so the frames above a trusted anchor form a chain.  The
hash is a parameter: nothing here depends on which function it is.

* `encodeRecord`: one frame, chained from the anchor of the record before it.
* `scanFrom`: the verifying reader.  It stops at an incomplete last frame and at
  a tail of zero bytes, and refuses everything else that is not a chain.
* `Chain a es bs t`: the frames of the events `es` above the anchor `a` are `bs`
  and end at the anchor `t`.

The main lemma is `scanFrom_chain`: a chain followed by any part of one further
frame is scanned to exactly its events.
-/

namespace Ptr.Ledger

open Lib CommittedEvent List

/-! ### Magics and bounds -/

def logMagic : Bytes := utf8 "PTRLOG02"
def frameMagic : Bytes := utf8 "PTRFR002"
def endMagic : Bytes := utf8 "PTREND02"
def frameHeaderBytes : Nat := 84
def frameTrailerBytes : Nat := 40
def maxLogBytes : Nat := 128 * 1024 * 1024
def maxRecords : Nat := 100000

@[simp] theorem logMagic_length : logMagic.length = 8 := by decide
@[simp] theorem frameMagic_length : frameMagic.length = 8 := by decide
@[simp] theorem endMagic_length : endMagic.length = 8 := by decide

structure LogAnchor where
  index : CommitIndex
  digest : Digest
  deriving DecidableEq

variable (sha : Bytes → Digest)

def LogAnchor.empty : LogAnchor := ⟨0, sha logMagic⟩

def hashParts (domain a b : Bytes) : Digest := sha (domain ++ a ++ b)

/-! ### Writing -/

/-- The first 52 bytes of a frame: everything its header digest covers. -/
def frameHead (index : U64) (payload : Bytes) (previous : Digest) : Bytes :=
  frameMagic ++ putU64 index ++ leBytes 4 payload.length ++ previous.bytes

def headerHash (head : Bytes) : Digest := hashParts sha (utf8 "PTRHDR02") head []

def frameHeader (index : U64) (payload : Bytes) (previous : Digest) : Bytes :=
  frameHead index payload previous ++ (headerHash sha (frameHead index payload previous)).bytes

def recordHash (header payload : Bytes) : Digest := hashParts sha (utf8 "PTRREC02") header payload

def frame (index : U64) (payload : Bytes) (previous : Digest) : Bytes :=
  let header := frameHeader sha index payload previous
  header ++ payload ++ (recordHash sha header payload).bytes ++ endMagic

/-- `encode_record`: one record chained from `previous`, with its new anchor. -/
def encodeRecord (event : LedgerEvent) (previous : LogAnchor) :
    Except IoError (Bytes × LogAnchor) :=
  match U64.checkedAdd previous.index 1 with
  | none => .error (invalid "PTR_LOG_INDEX_EXHAUSTED")
  | some index =>
    if index.val > maxRecords then .error (invalid "PTR_LOG_RECORD_LIMIT")
    else do
      checkOriginBounds event
      let payload := encodeEvent event
      if payload = [] ∨ payload.length > maxRecordBytes then
        .error (invalid "PTR_LOG_PAYLOAD_LIMIT")
      else
        .ok (frame sha index payload previous.digest,
          ⟨index, recordHash sha (frameHeader sha index payload previous.digest) payload⟩)

/-- The loop of `encode_log_from`: `bytes` is what is written so far. -/
def encodeLogLoop : List CommittedEvent → LogAnchor → Bytes → Except IoError Bytes
  | [], _, bytes => .ok bytes
  | committed :: rest, anchor, bytes => do
    let (record, next) ← encodeRecord sha committed.event anchor
    if committed.index ≠ next.index then .error (invalid "PTR_LOG_INDEX_MISMATCH")
    else if bytes.length + record.length > maxLogBytes then
      .error (invalid "PTR_LOG_SIZE_LIMIT")
    else encodeLogLoop rest next (bytes ++ record)

def encodeLogFrom (events : List CommittedEvent) (base : LogAnchor) : Except IoError Bytes :=
  if events.length > maxRecords then .error (invalid "PTR_LOG_RECORD_LIMIT")
  else encodeLogLoop sha events base logMagic

def chainLoop : List CommittedEvent → LogAnchor → Except IoError (List LogAnchor)
  | [], _ => .ok []
  | committed :: rest, anchor => do
    let (_, next) ← encodeRecord sha committed.event anchor
    if committed.index ≠ next.index then .error (invalid "PTR_LOG_INDEX_MISMATCH")
    else do
      let anchors ← chainLoop rest next
      .ok (next :: anchors)

/-- `chain_anchors`: the anchor of each event above `base`. -/
def chainAnchors (events : List CommittedEvent) (base : LogAnchor) :
    Except IoError (List LogAnchor) :=
  if events.length > maxRecords then .error (invalid "PTR_LOG_RECORD_LIMIT")
  else chainLoop sha events base

/-! ### Reading -/

/-- `Prefix`: what a scan found.  A milestone is the offset just past a record
and the anchor it produced; the first one is the base. -/
structure Prefix where
  events : List CommittedEvent
  anchor : LogAnchor
  completeBytes : Nat
  incomplete : Bool
  zeroTail : Nat
  milestones : List (Nat × LogAnchor)

inductive ScanStep
  | stop (zeroTail : Nat)
  | record (event : LedgerEvent) (anchor : LogAnchor) (total : Nat)

/-- As much of a known field as a short tail has must agree. -/
def fieldAgrees (remaining : Bytes) (start : Nat) (expected : Bytes) : Bool :=
  let available := min (remaining.length - start) expected.length
  (remaining.drop start).take available = expected.take available

/-- The part of the loop of `scan_from` behind a complete header. -/
def scanFrame (remaining : Bytes) (anchor : LogAnchor) (next : U64) : Except IoError ScanStep :=
  let header := remaining.take frameHeaderBytes
  let index := ofLeBytes ((header.drop 8).take 8)
  let length := ofLeBytes ((header.drop 16).take 4)
  let stop := frameHeaderBytes + length
  let total := stop + frameTrailerBytes
  let payload := (remaining.drop frameHeaderBytes).take length
  let hash := recordHash sha header payload
  if header.drop 52 ≠ (headerHash sha (header.take 52)).bytes then
    .error (invalid "PTR_LOG_HEADER_DIGEST")
  else if index ≠ next.val ∨ (header.drop 20).take 32 ≠ anchor.digest.bytes then
    .error (invalid "PTR_LOG_CHAIN_OR_ORDER")
  else if length = 0 ∨ length > maxRecordBytes then .error (invalid "PTR_LOG_PAYLOAD_LIMIT")
  else if remaining.length < total then .ok (.stop 0)
  else if (remaining.drop stop).take 32 ≠ hash.bytes ∨
      (remaining.drop (stop + 32)).take 8 ≠ endMagic then
    .error (invalid "PTR_LOG_RECORD_DIGEST_OR_TRAILER")
  else do
    let event ← decodeEvent payload
    if encodeEvent event ≠ payload then .error (invalid "PTR_LOG_NONCANONICAL_EVENT")
    else .ok (.record event ⟨next, hash⟩ total)

/-- One round of the loop of `scan_from`, on bytes that are not empty. -/
def scanStep (remaining : Bytes) (anchor : LogAnchor) : Except IoError ScanStep :=
  if remaining.all (· = 0) then .ok (.stop remaining.length)
  else if remaining.take frameMagic.length ≠ frameMagic.take remaining.length then
    .error (invalid "PTR_LOG_FRAME_MAGIC")
  else match U64.checkedAdd anchor.index 1 with
    | none => .error (invalid "PTR_LOG_INDEX_EXHAUSTED")
    | some next =>
      if !fieldAgrees remaining 8 (putU64 next) then .error (invalid "PTR_LOG_CHAIN_OR_ORDER")
      else if !fieldAgrees remaining 20 anchor.digest.bytes then
        .error (invalid "PTR_LOG_CHAIN_OR_ORDER")
      else if remaining.length < frameHeaderBytes then .ok (.stop 0)
      else scanFrame sha remaining anchor next

/-- The loop of `scan_from`.  Every round but the last consumes a frame, so
`fuel` rounds suffice for that many bytes. -/
def scanLoop : Nat → Bytes → Prefix → Except IoError Prefix
  | 0, _, p => .ok p
  | fuel + 1, remaining, p =>
    if remaining = [] then .ok p
    else if p.events.length ≥ maxRecords then .error (invalid "PTR_LOG_RECORD_LIMIT")
    else do
      match ← scanStep sha remaining p.anchor with
      | .stop zeroTail => .ok { p with zeroTail := zeroTail, incomplete := true }
      | .record event anchor total =>
        let offset := p.completeBytes + total
        scanLoop fuel (remaining.drop total)
          { p with
            events := p.events ++ [⟨anchor.index, event⟩]
            anchor := anchor
            completeBytes := offset
            milestones := p.milestones ++ [(offset, anchor)] }

def Prefix.start (base : LogAnchor) : Prefix :=
  ⟨[], base, logMagic.length, false, 0, [(logMagic.length, base)]⟩

def scanFrom (bytes : Bytes) (base : LogAnchor) : Except IoError Prefix :=
  if bytes.length > maxLogBytes then .error (invalid "PTR_LOG_SIZE_LIMIT")
  else if bytes.take logMagic.length ≠ logMagic then .error (invalid "PTR_LOG_FORMAT_OR_HEADER")
  else scanLoop sha bytes.length (bytes.drop logMagic.length) (Prefix.start base)

/-- `decode_log_from`: the strict decoder, which repairs nothing. -/
def decodeLogFrom (bytes : Bytes) (base : LogAnchor) : Except IoError Prefix := do
  let p ← scanFrom sha bytes base
  if p.incomplete then .error (invalid "PTR_LOG_INCOMPLETE_FRAME") else .ok p

def Prefix.requireAnchor (p : Prefix) (trusted : LogAnchor) : Except IoError Unit :=
  if p.anchor ≠ trusted then .error (invalid "PTR_LOG_ANCHOR_MISMATCH") else .ok ()

def Prefix.offsetOf (p : Prefix) (anchor : LogAnchor) : Option Nat :=
  (p.milestones.find? fun m => m.2 = anchor).map (·.1)

def Prefix.recordsAfter (p : Prefix) (anchor : LogAnchor) : Option Nat :=
  (p.milestones.findIdx? fun m => m.2 = anchor).map fun i => p.milestones.length - 1 - i

/-! ### One record -/

variable {sha} {e : LedgerEvent}

/-- **What an accepted record is**: the next index, within all bounds, framed
over the digest of the anchor it follows. -/
theorem encodeRecord_ok {a a' bs} (h : encodeRecord sha e a = .ok (bs, a')) :
    U64.checkedAdd a.index 1 = some a'.index ∧ a'.index.val ≤ maxRecords ∧
      checkOriginBounds e = .ok () ∧ encodeEvent e ≠ [] ∧
      (encodeEvent e).length ≤ maxRecordBytes ∧
      bs = frame sha a'.index (encodeEvent e) a.digest ∧
      a'.digest = recordHash sha (frameHeader sha a'.index (encodeEvent e) a.digest)
        (encodeEvent e) := by
  unfold encodeRecord at h
  cases hi : U64.checkedAdd a.index 1 with
  | none => simp [hi] at h
  | some =>
    simp only [hi, refuse_eq_ok, bind_unit_eq_ok] at h
    obtain ⟨hr, hc, hp, rfl, rfl⟩ := h
    rw [not_or] at hp
    exact ⟨rfl, not_lt.mp hr, hc, hp.1, not_lt.mp hp.2, rfl, rfl⟩

theorem encodeRecord_index {a a' bs} (h : encodeRecord sha e a = .ok (bs, a')) :
    a'.index.val = a.index.val + 1 := by
  have := U64.checkedAdd_eq_some (encodeRecord_ok h).1
  simpa using this

theorem encodeRecord_succ {a a' bs} (h : encodeRecord sha e a = .ok (bs, a')) :
    a.index + 1 = a'.index := by
  apply Fin.ext
  have hi := encodeRecord_index h
  rw [hi]
  exact Nat.mod_eq_of_lt (hi ▸ a'.index.isLt)

@[simp] theorem frameHead_length (i : U64) (p : Bytes) (d : Digest) :
    (frameHead i p d).length = 52 := by simp [frameHead]

@[simp] theorem frameHeader_length (i : U64) (p : Bytes) (d : Digest) :
    (frameHeader sha i p d).length = 84 := by simp [frameHeader]

@[simp] theorem frame_length (i : U64) (p : Bytes) (d : Digest) :
    (frame sha i p d).length = 124 + p.length := by
  simp [frame]
  omega

theorem frame_fields (sha : Bytes → Digest) (i : U64) (p : Bytes) (d : Digest) (rest : Bytes) :
    let x := frame sha i p d ++ rest
    x.take frameHeaderBytes = frameHeader sha i p d ∧
      (frameHeader sha i p d).take 52 = frameHead i p d ∧
      (frameHeader sha i p d).drop 52 = (headerHash sha (frameHead i p d)).bytes ∧
      ((frameHeader sha i p d).drop 8).take 8 = putU64 i ∧
      ((frameHeader sha i p d).drop 16).take 4 = leBytes 4 p.length ∧
      ((frameHeader sha i p d).drop 20).take 32 = d.bytes ∧
      (x.drop frameHeaderBytes).take p.length = p ∧
      (x.drop (frameHeaderBytes + p.length)).take 32 =
        (recordHash sha (frameHeader sha i p d) p).bytes ∧
      (x.drop (frameHeaderBytes + p.length + 32)).take 8 = endMagic := by
  have hm := frameMagic_length
  refine ⟨?_, ?_, ?_, ?_, ?_, ?_, ?_, ?_, ?_⟩
  · rw [frame, append_assoc, append_assoc, append_assoc]
    exact take_left' (frameHeader_length i p d)
  · exact take_left' (frameHead_length i p d)
  · exact drop_left' (frameHead_length i p d)
  · simp only [frameHeader, frameHead, append_assoc]
    rw [drop_left' hm, take_left' (putU64_length i)]
  · simp only [frameHeader, frameHead, append_assoc]
    rw [← append_assoc, drop_left' (by simp), take_left' (leBytes_length 4 _)]
  · simp only [frameHeader, frameHead, append_assoc]
    rw [← append_assoc, ← append_assoc, drop_left' (by simp),
      take_left' d.length_eq]
  · simp only [frame, append_assoc, frameHeaderBytes]
    rw [drop_left' (frameHeader_length i p d), take_left' rfl]
  · simp only [frame, append_assoc, frameHeaderBytes]
    rw [← append_assoc, drop_left' (by simp), take_left' (Digest.length_eq _)]
  · simp only [frame, append_assoc, frameHeaderBytes]
    rw [← append_assoc, ← append_assoc, drop_left' (by simp; omega),
      take_left' endMagic_length]

theorem take_field {y expected : Bytes} (h : y.take expected.length = expected) {m}
    (hm : m ≤ expected.length) : expected.take m = y.take m := by
  have ht : (y.take expected.length).take m = y.take m := by rw [take_take, min_eq_left hm]
  rwa [h] at ht

theorem fieldAgrees_take {x expected : Bytes} {start}
    (h : (x.drop start).take expected.length = expected) (k : Nat) :
    fieldAgrees (x.take k) start expected = true := by
  simp only [fieldAgrees, decide_eq_true_eq]
  rw [take_field h (min_le_right _ _), drop_take, take_take, length_take]
  exact congrArg (take · _) (by omega)

theorem fieldAgrees_of {x expected : Bytes} {start}
    (h : (x.drop start).take expected.length = expected) : fieldAgrees x start expected = true := by
  simpa using fieldAgrees_take h x.length

theorem not_all_zero {x} : ¬ (frameMagic ++ x).all (· = 0) = true := by
  have h : frameMagic.all (· = 0) = false := by decide
  simp [h]

theorem frame_chain_fields (sha : Bytes → Digest) (i : U64) (p : Bytes) (d : Digest)
    (rest : Bytes) :
    ((frame sha i p d ++ rest).drop 8).take (putU64 i).length = putU64 i ∧
      ((frame sha i p d ++ rest).drop 20).take d.bytes.length = d.bytes := by
  have hm := frameMagic_length
  constructor
  · simp only [frame, frameHeader, frameHead, append_assoc]
    rw [drop_left' hm, take_left' rfl]
  · simp only [frame, frameHeader, frameHead, append_assoc]
    rw [← append_assoc, ← append_assoc, drop_left' (by simp), take_left' rfl]

theorem ofLeBytes_putU64 (i : U64) : ofLeBytes (putU64 i) = i.val :=
  ofLeBytes_leBytes (by simp)

/-- **A complete frame is read back.** -/
theorem scanStep_frame {a a'} (hi : U64.checkedAdd a.index 1 = some a'.index)
    (hc : checkOriginBounds e = .ok ()) (hne : encodeEvent e ≠ [])
    (hl : (encodeEvent e).length ≤ maxRecordBytes)
    (hd : a'.digest = recordHash sha (frameHeader sha a'.index (encodeEvent e) a.digest)
      (encodeEvent e)) (rest : Bytes) :
    scanStep sha (frame sha a'.index (encodeEvent e) a.digest ++ rest) a =
      .ok (.record e a' (frame sha a'.index (encodeEvent e) a.digest).length) := by
  obtain ⟨h1, h2, h3, h4, h5, h6, h7, h8, h9⟩ :=
    frame_fields sha a'.index (encodeEvent e) a.digest rest
  obtain ⟨hf1, hf2⟩ :=
    frame_chain_fields sha a'.index (encodeEvent e) a.digest rest
  have hlen : (frame sha a'.index (encodeEvent e) a.digest ++ rest).length =
      124 + (encodeEvent e).length + rest.length := by simp
  have hz : ¬ (frame sha a'.index (encodeEvent e) a.digest ++ rest).all (· = 0) = true := by
    exact not_all_zero
  have hmagic : (frame sha a'.index (encodeEvent e) a.digest ++ rest).take frameMagic.length =
      frameMagic := by
    exact take_left' rfl
  have hn : ofLeBytes (leBytes 4 (encodeEvent e).length) = (encodeEvent e).length :=
    ofLeBytes_leBytes (by unfold maxRecordBytes at hl; omega)
  have hpos : (encodeEvent e).length ≠ 0 := by simpa using hne
  have htotal : 84 + (encodeEvent e).length + 40 = 124 + (encodeEvent e).length := by omega
  unfold scanStep
  rw [if_neg hz, if_neg (by
    rw [hmagic, take_of_length_le (by rw [frameMagic_length]; omega)]; simp), hi]
  simp only [fieldAgrees_of hf1, fieldAgrees_of hf2, Bool.not_true, Bool.false_eq_true, if_false]
  rw [if_neg (by rw [frameHeaderBytes]; omega), scanFrame]
  simp only [h1, h2, h3, h4, h5, h6, hn, h7, h8, h9, ofLeBytes_putU64, ne_eq, not_true_eq_false,
    if_false, false_or]
  rw [if_neg (by omega), decodeEvent_encodeEvent hc hl]
  simp [bind, Except.bind, ← hd, frameHeaderBytes, frameTrailerBytes, htotal]

theorem scanStep_record {a a' bs} (h : encodeRecord sha e a = .ok (bs, a')) (rest : Bytes) :
    scanStep sha (bs ++ rest) a = .ok (.record e a' bs.length) := by
  obtain ⟨hi, -, hc, hne, hl, rfl, hd⟩ := encodeRecord_ok h
  exact scanStep_frame hi hc hne hl hd rest

/-- **A part of a record is an incomplete tail**, whatever its length. -/
theorem scanStep_torn {a a' : LogAnchor} {bs part} (h : encodeRecord sha e a = .ok (bs, a'))
    (hp : part <+: bs) (hne : part ≠ []) (hlt : part.length < bs.length) :
    scanStep sha part a = .ok (.stop 0) := by
  obtain ⟨hi, -, -, hpay, hl, rfl, -⟩ := encodeRecord_ok h
  obtain ⟨h1, h2, h3, h4, h5, h6, -⟩ :=
    frame_fields sha a'.index (encodeEvent e) a.digest []
  obtain ⟨hf1, hf2⟩ :=
    frame_chain_fields sha a'.index (encodeEvent e) a.digest []
  have hpart : part = (frame sha a'.index (encodeEvent e) a.digest).take part.length :=
    prefix_iff_eq_take.mp hp
  have hmagic : frameMagic <+: frame sha a'.index (encodeEvent e) a.digest := by
    exact prefix_append _ _
  have htake : part.take frameMagic.length = frameMagic.take part.length := by
    rw [prefix_iff_eq_take.mp hmagic, hpart]
    simp only [take_take, length_take]
    exact congrArg (take · _) (by omega)
  have hz : ¬ part.all (· = 0) = true := by
    intro hall
    -- the first byte of the part is the first byte of the magic
    cases part with
    | nil => exact hne rfl
    | cons b =>
      have hcons : frameMagic = 80 :: frameMagic.tail := by decide
      have hb : b = 80 := by
        rw [hcons] at htake
        simpa using congrArg head? htake
      simp [hb] at hall
  rw [append_nil] at h1 hf1 hf2
  have hn : ofLeBytes (leBytes 4 (encodeEvent e).length) = (encodeEvent e).length :=
    ofLeBytes_leBytes (by unfold maxRecordBytes at hl; omega)
  have hpos : (encodeEvent e).length ≠ 0 := by simpa using hpay
  unfold scanStep
  rw [if_neg hz, if_neg (by rw [htake]; simp), hi]
  have hk1 := fieldAgrees_take hf1 part.length
  have hk2 := fieldAgrees_take hf2 part.length
  rw [← hpart] at hk1 hk2
  simp only [hk1, hk2, Bool.not_true, Bool.false_eq_true, if_false]
  split
  · rfl
  have hheader : part.take frameHeaderBytes =
      frameHeader sha a'.index (encodeEvent e) a.digest := by
    rw [← h1, hpart, take_take, min_eq_left (by omega)]
  rw [frame_length] at hlt
  rw [scanFrame]
  simp only [hheader, h2, h3, h4, h5, h6, ofLeBytes_putU64, ne_eq, not_true_eq_false,
    if_false, false_or]
  rw [if_neg (by omega), if_pos (by rw [frameHeaderBytes, frameTrailerBytes]; omega)]

/-! ### Chains -/

/-- `Chain a es bs t`: the events `es` above the anchor `a` are the frames `bs`
and end at the anchor `t`. -/
inductive Chain (sha : Bytes → Digest) :
    LogAnchor → List LedgerEvent → Bytes → LogAnchor → Prop
  | nil (a : LogAnchor) : Chain sha a [] [] a
  | cons {a m t : LogAnchor} {e : LedgerEvent} {es : List LedgerEvent} {bs rest : Bytes} :
    encodeRecord sha e a = .ok (bs, m) → Chain sha m es rest t →
      Chain sha a (e :: es) (bs ++ rest) t

def number : CommitIndex → List LedgerEvent → List CommittedEvent
  | _, [] => []
  | i, e :: es => ⟨i + 1, e⟩ :: number (i + 1) es

def marks (sha : Bytes → Digest) : Nat → LogAnchor → List LedgerEvent → List (Nat × LogAnchor)
  | _, _, [] => []
  | offset, a, e :: es =>
    match encodeRecord sha e a with
    | .ok (bs, m) => (offset + bs.length, m) :: marks sha (offset + bs.length) m es
    | .error _ => []

namespace Chain

variable {a m t : LogAnchor} {es fs : List LedgerEvent} {bs cs : Bytes}

theorem single {e} (h : encodeRecord sha e a = .ok (bs, t)) : Chain sha a [e] bs t := by
  have := Chain.cons h (Chain.nil t)
  rwa [append_nil] at this

theorem append (h : Chain sha a es bs m) (h' : Chain sha m fs cs t) :
    Chain sha a (es ++ fs) (bs ++ cs) t := by
  induction h with
  | nil => exact h'
  | cons he _ ih =>
    rw [append_assoc]
    exact .cons he (ih h')

theorem split (h : Chain sha a (es ++ fs) bs t) :
    ∃ m bs₁ bs₂, bs = bs₁ ++ bs₂ ∧ Chain sha a es bs₁ m ∧ Chain sha m fs bs₂ t := by
  induction es generalizing a bs with
  | nil => exact ⟨a, [], bs, rfl, .nil a, h⟩
  | cons e es ih =>
    cases h with
    | cons he hrest =>
      obtain ⟨m, bs₁, bs₂, rfl, h1, h2⟩ := ih hrest
      exact ⟨m, _, bs₂, (append_assoc ..).symm, .cons he h1, h2⟩

theorem unique {bs' t'} (h : Chain sha a es bs t) (h' : Chain sha a es bs' t') :
    bs = bs' ∧ t = t' := by
  induction h generalizing bs' t' with
  | nil =>
    cases h'
    exact ⟨rfl, rfl⟩
  | cons he _ ih =>
    cases h' with
    | cons he' hrest' =>
      rw [he] at he'
      cases he'
      obtain ⟨rfl, rfl⟩ := ih hrest'
      exact ⟨rfl, rfl⟩

theorem index (h : Chain sha a es bs t) : t.index.val = a.index.val + es.length := by
  induction h with
  | nil => rfl
  | cons he _ ih =>
    rw [ih, encodeRecord_index he, length_cons]
    omega

theorem index_le (h : Chain sha a es bs t) (hne : es ≠ []) : t.index.val ≤ maxRecords := by
  induction h with
  | nil => exact absurd rfl hne
  | cons he hrest ih =>
    cases hrest with
    | nil => exact (encodeRecord_ok he).2.1
    | cons => exact ih (by simp)

end Chain

/-- What may stand behind the last complete record: nothing, or a part of one
record of `P` that is not all of it. -/
def Torn (sha : Bytes → Digest) (P : LedgerEvent → Prop) (t : LogAnchor) (part : Bytes) : Prop :=
  part = [] ∨ ∃ e bs a, P e ∧ encodeRecord sha e t = .ok (bs, a) ∧ part <+: bs ∧
    part.length < bs.length

theorem Torn.stop {P t part} (h : Torn sha P t part) (hne : part ≠ []) :
    t.index.val < maxRecords ∧ scanStep sha part t = .ok (.stop 0) := by
  rcases h with rfl | ⟨e, bs, a, -, he, hpre, hlt⟩
  · exact absurd rfl hne
  · have hi := encodeRecord_index he
    have hm := (encodeRecord_ok he).2.1
    exact ⟨by omega, scanStep_torn he hpre hne hlt⟩

theorem scanLoop_chain {a t es bs part zeros} (h : Chain sha a es bs t) {fuel}
    (hf : (bs ++ part).length ≤ fuel) {p} (ha : p.anchor = a) (hn : p.events.length ≤ a.index.val)
    (hstop : part ≠ [] → p.events.length + es.length < maxRecords ∧
      scanStep sha part t = .ok (.stop zeros)) :
    scanLoop sha fuel (bs ++ part) p = .ok
      { events := p.events ++ number a.index es
        anchor := t
        completeBytes := p.completeBytes + bs.length
        incomplete := p.incomplete || !part.isEmpty
        zeroTail := if part = [] then p.zeroTail else zeros
        milestones := p.milestones ++ marks sha p.completeBytes a es } := by
  induction h generalizing fuel p with
  | nil a =>
    subst ha
    by_cases hpart : part = []
    · subst hpart
      cases fuel <;> simp [scanLoop, number, marks]
    obtain ⟨fuel, rfl⟩ : ∃ k, fuel = k + 1 := by
      cases fuel with
      | zero => simp_all
      | succ k => exact ⟨k, rfl⟩
    obtain ⟨hroom, hstep⟩ := hstop hpart
    have hlim : ¬ p.events.length ≥ maxRecords := Nat.not_le.mpr hroom
    have hb : part.isEmpty = false := by simpa using hpart
    rw [nil_append, scanLoop, if_neg hpart, if_neg hlim, hstep]
    simp [bind, Except.bind, hpart, hb, number, marks]
  | cons he hrest ih =>
    rename_i a m t e es bs rest
    subst ha
    have hi := encodeRecord_index he
    obtain ⟨-, hm, -, -, -, hbs, -⟩ := encodeRecord_ok he
    have hlim : ¬ p.events.length ≥ maxRecords := by omega
    have hlen : 0 < bs.length := by rw [hbs, frame_length]; omega
    rw [append_assoc] at hf ⊢
    obtain ⟨fuel, rfl⟩ : ∃ k, fuel = k + 1 := by
      cases fuel with
      | zero => simp only [length_append] at hf; omega
      | succ k => exact ⟨k, rfl⟩
    have hne : bs ++ (rest ++ part) ≠ [] := by
      intro h
      simp [append_eq_nil_iff] at h
      simp [h.1] at hlen
    have hnext := encodeRecord_succ he
    rw [scanLoop, if_neg hne, if_neg hlim, scanStep_record he]
    simp only [bind, Except.bind, drop_left]
    rw [ih (by simp only [length_append] at hf ⊢; omega) rfl (by simp; omega)
      (by simpa [Nat.add_assoc, Nat.add_comm 1] using hstop)]
    simp only [number, marks, he, hnext, append_assoc, cons_append, nil_append,
      length_append, Nat.add_assoc]

/-- **A chain is scanned to its events**, if the scan stops behind it. -/
theorem scanFrom_stop {base t es bs part} (zeros : Nat) (h : Chain sha base es bs t)
    (hl : (logMagic ++ (bs ++ part)).length ≤ maxLogBytes)
    (hstop : part ≠ [] → es.length < maxRecords ∧ scanStep sha part t = .ok (.stop zeros)) :
    scanFrom sha (logMagic ++ (bs ++ part)) base = .ok
      { events := number base.index es
        anchor := t
        completeBytes := logMagic.length + bs.length
        incomplete := !part.isEmpty
        zeroTail := if part = [] then 0 else zeros
        milestones := (logMagic.length, base) :: marks sha logMagic.length base es } := by
  rw [scanFrom, if_neg (Nat.not_lt.mpr hl), if_neg (by rw [take_left' rfl]; simp),
    drop_left' rfl,
    scanLoop_chain h (by simp only [length_append]; omega) rfl (Nat.zero_le _)
      (by simpa [Prefix.start] using hstop)]
  simp [Prefix.start]

/-- **A chain and a torn tail are scanned to the events of the chain.** -/
theorem scanFrom_chain {P base t es bs part} (h : Chain sha base es bs t) (ht : Torn sha P t part)
    (hl : (logMagic ++ (bs ++ part)).length ≤ maxLogBytes) :
    scanFrom sha (logMagic ++ (bs ++ part)) base = .ok
      { events := number base.index es
        anchor := t
        completeBytes := logMagic.length + bs.length
        incomplete := !part.isEmpty
        zeroTail := 0
        milestones := (logMagic.length, base) :: marks sha logMagic.length base es } := by
  rw [scanFrom_stop 0 h hl, ite_self]
  intro hne
  obtain ⟨hlt, hstep⟩ := ht.stop hne
  have hindex := h.index
  exact ⟨by omega, hstep⟩

/-! ### Boundaries -/

theorem marks_length {a t es bs} (h : Chain sha a es bs t) (offset : Nat) :
    (marks sha offset a es).length = es.length := by
  induction h generalizing offset with
  | nil => rfl
  | cons he _ ih => simp [marks, he, ih]

/-- The boundary of a prefix of the chain stands at the place of its last
record: the index tells all boundaries apart. -/
theorem findIdx?_marks {a m t es fs bs cs} (h : Chain sha a es bs m) (h' : Chain sha m fs cs t)
    (offset : Nat) :
    ((offset, a) :: marks sha offset a (es ++ fs)).findIdx? (fun x => x.2 = m) =
      some es.length := by
  induction h generalizing offset with
  | nil => simp [findIdx?_cons]
  | cons he hrest ih =>
    rename_i a m t e es bs rest
    have hne : a ≠ t := by
      intro heq
      have h1 := encodeRecord_index he
      have h2 := hrest.index
      rw [← heq] at h2
      omega
    rw [findIdx?_cons, decide_eq_false hne]
    simp [marks, he, ih h']

theorem recordsAfter_chain {a m t} {es fs : List LedgerEvent} {bs cs} (h : Chain sha a es bs m)
    (h' : Chain sha m fs cs t) {p : Prefix} {offset}
    (hp : p.milestones = (offset, a) :: marks sha offset a (es ++ fs)) :
    p.recordsAfter m = some fs.length := by
  rw [Prefix.recordsAfter, hp, findIdx?_marks h h']
  simp [marks_length (h.append h')]

theorem number_length (i : CommitIndex) (es : List LedgerEvent) :
    (number i es).length = es.length := by
  induction es generalizing i with
  | nil => rfl
  | cons e es ih => simp [number, ih]

theorem number_append (i : CommitIndex) (es fs : List LedgerEvent) :
    number i (es ++ fs) = number i es ++ number (i + Fin.ofNat _ es.length) fs := by
  induction es generalizing i with
  | nil => simp [number]
  | cons e es ih =>
    have h : i + 1 + Fin.ofNat (2 ^ 64) es.length = i + Fin.ofNat (2 ^ 64) (es.length + 1) := by
      apply Fin.ext
      simp only [Fin.val_add, Fin.val_ofNat, Fin.val_one]
      omega
    simp only [cons_append, number, ih, length_cons, h]

@[simp] theorem number_map_event (i : CommitIndex) (es : List LedgerEvent) :
    (number i es).map event = es := by
  induction es generalizing i with
  | nil => rfl
  | cons e es ih => simp [number, ih]

theorem Chain.index_eq {a t es bs} (h : Chain sha a es bs t) :
    t.index = a.index + Fin.ofNat _ es.length := by
  have hi := h.index
  apply Fin.ext
  simp only [Fin.val_add, Fin.val_ofNat]
  omega

/-! ### Whole logs -/

theorem encodeLogLoop_ok {cs a bs out} (h : encodeLogLoop sha cs a bs = .ok out)
    (hb : bs.length ≤ maxLogBytes) :
    ∃ rest t, Chain sha a (cs.map event) rest t ∧ out = bs ++ rest ∧
      out.length ≤ maxLogBytes := by
  induction cs generalizing a bs with
  | nil =>
    cases h
    exact ⟨[], a, .nil a, (append_nil _).symm, hb⟩
  | cons c cs ih =>
    rw [encodeLogLoop, bind_eq_ok] at h
    obtain ⟨⟨record, next⟩, he, h⟩ := h
    simp only [refuse_eq_ok] at h
    obtain ⟨-, hlen, h⟩ := h
    obtain ⟨rest, t, hc, rfl, hl⟩ := ih h (by simp only [length_append]; omega)
    exact ⟨record ++ rest, t, .cons he hc, append_assoc .., hl⟩

theorem encodeLogFrom_ok {cs base out} (h : encodeLogFrom sha cs base = .ok out) :
    ∃ bs t, Chain sha base (cs.map event) bs t ∧ out = logMagic ++ bs ∧
      out.length ≤ maxLogBytes := by
  rw [encodeLogFrom, refuse_eq_ok] at h
  exact encodeLogLoop_ok h.2 (by rw [logMagic_length, maxLogBytes]; omega)

theorem chainLoop_get {cs a x as} (h : chainLoop sha cs a = .ok as) {k} (hk : as[k]? = some x) :
    ∃ bs, Chain sha a ((cs.map event).take (k + 1)) bs x := by
  induction cs generalizing a as k with
  | nil =>
    cases h
    simp at hk
  | cons c cs ih =>
    rw [chainLoop, bind_eq_ok] at h
    obtain ⟨⟨record, next⟩, he, h⟩ := h
    simp only [refuse_eq_ok, bind_eq_ok] at h
    obtain ⟨-, anchors, h, hcons⟩ := h
    cases hcons
    cases k with
    | zero =>
      cases hk
      exact ⟨record, .single he⟩
    | succ =>
      obtain ⟨bs, hc⟩ := ih h (by simpa using hk)
      exact ⟨record ++ bs, .cons he hc⟩

theorem chainAnchors_get {cs a x as} (h : chainAnchors sha cs a = .ok as) {k}
    (hk : as[k]? = some x) :
    ∃ bs, Chain sha a ((cs.map event).take (k + 1)) bs x := by
  rw [chainAnchors, refuse_eq_ok] at h
  exact chainLoop_get h.2 hk

theorem decodeLogFrom_chain {base t es bs} (h : Chain sha base es bs t)
    (hl : (logMagic ++ bs).length ≤ maxLogBytes) :
    ∃ p, decodeLogFrom sha (logMagic ++ bs) base = .ok p ∧ p.anchor = t ∧
      p.events = number base.index es := by
  have ht : Torn sha (fun _ => True) t [] := .inl rfl
  have hs := scanFrom_chain h ht (by simpa using hl)
  rw [append_nil] at hs
  exact ⟨_, by rw [decodeLogFrom, hs]; rfl, rfl, rfl⟩

end Ptr.Ledger
