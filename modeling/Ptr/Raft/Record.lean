import Ptr.Raft.Storage
import Mathlib.Data.List.Infix

/-!
# The bytes of the raft storage

The two formats of `raft_storage.rs`: the state file, which is replaced as a
whole, and the log, whose records carry their own digest.  A log may end in part
of a record; the reader stops there and says where.

* `readState_encodeState`: a state file within its bound is read back.
* `parseRecord_encodeRecord`, `parseRecord_torn`: a whole record is read back
  from in front of anything, and no proper part of a record is one.
* `scanLog_records`: a log of records followed by a torn one is read as the
  records above the snapshot.
-/

namespace Ptr.Raft

open Lib Ledger Reader List

def logMagic : Bytes := utf8 "PTRRLG01"
def recordMagic : Bytes := utf8 "PTRRFR01"
def stateMagic : Bytes := utf8 "PTRRST03"
def maxStateBytes : Nat := 1024 * 1024

@[simp] theorem logMagic_length : logMagic.length = 8 := by decide
@[simp] theorem recordMagic_length : recordMagic.length = 8 := by decide

/-- `entry_type_code`. -/
def entryTypeCodes : CodeTable EntryType where
  members := [.normal, .confChange, .confChangeV2]
  complete a := by cases a <;> decide
  small := by decide

def entryTypeFromCode (code : UInt8) : Except IoError EntryType :=
  match entryTypeCodes.fromCode code with
  | some kind => .ok kind
  | none => .error (invalid s!"unknown raft entry type code {code}")

theorem fromCode_of_ok {code kind} (h : entryTypeFromCode code = .ok kind) :
    entryTypeCodes.fromCode code = some kind := by
  unfold entryTypeFromCode at h
  split at h <;> cases h
  assumption

variable (sha : Bytes → Digest) {i : StateImage}

/-! ### The state file -/

structure StateImage where
  hardState : HardState
  confState : ConfState
  snapshot : SnapshotMetadata
  snapshotDigest : Digest
  fence : U64
  applied : AppliedEvents

def putHardState (h : HardState) : Bytes := putU64 h.term ++ putU64 h.vote ++ putU64 h.commit

def putIds (ids : List U64) : Bytes := putCounted putU64 ids

def putConfState (c : ConfState) : Bytes :=
  putIds c.voters ++ putIds c.learners ++ putIds c.votersOutgoing ++ putIds c.learnersNext ++
    putBool c.autoLeave

def putApplied : AppliedEvents → Bytes
  | .counted n => 0 :: putU64 n
  | .snapshotPending => 1 :: putU64 0

def stateFields (i : StateImage) : Bytes :=
  putHardState i.hardState ++ putConfState i.confState ++ putU64 i.snapshot.index ++
    putU64 i.snapshot.term ++ i.snapshotDigest.bytes ++ putU64 i.fence ++ putApplied i.applied

def stateBody (i : StateImage) : Bytes := stateMagic ++ stateFields i

def encodeState (i : StateImage) : Bytes := stateBody i ++ (sha (stateBody i)).bytes

def takeU64 : Reader IoError U64 := u64 (invalid "raft state file ends inside a field")

def takeHardState : Reader IoError HardState := do
  let term ← takeU64
  let vote ← takeU64
  let commit ← takeU64
  pure ⟨term, vote, commit⟩

def takeIds : Reader IoError (List U64) := do
  let count ← u32 (invalid "raft state file ends inside an id count")
  replicate count.val (u64 (invalid "raft state file ends inside an id"))

def takeConfState : Reader IoError ConfState := do
  let voters ← takeIds
  let learners ← takeIds
  let votersOutgoing ← takeIds
  let learnersNext ← takeIds
  let autoLeave ← bool (invalid "raft state file ends before auto_leave")
    fun other => invalid s!"invalid auto_leave byte {other}"
  pure ⟨voters, learners, votersOutgoing, learnersNext, autoLeave⟩

def appliedFrom (tag : UInt8) (count : U64) : Except IoError AppliedEvents :=
  if tag = 0 then .ok (.counted count)
  else if tag = 1 ∧ count = 0 then .ok .snapshotPending
  else .error (invalid "raft state file has an invalid applied count")

def takeApplied : Reader IoError AppliedEvents := do
  let tag ← u8 (invalid "raft state file ends before the applied count")
  let count ← takeU64
  check (appliedFrom tag count)

def takeState : Reader IoError StateImage := do
  let hardState ← takeHardState
  let confState ← takeConfState
  let index ← takeU64
  let term ← takeU64
  let digest ← Digest.read (invalid "raft state file ends inside the snapshot digest")
  let fence ← takeU64
  let applied ← takeApplied
  pure ⟨hardState, confState, ⟨index, term⟩, digest, fence, applied⟩

def readBounded (file : Option Bytes) (max : Nat) (what : String) : Except IoError Bytes :=
  match file with
  | none => .error ⟨.notFound, "no such file"⟩
  | some bs =>
    if max < bs.length then .error (invalid s!"{what} is over the size bound") else .ok bs

theorem readBounded_some {bs max what} (h : bs.length ≤ max) :
    readBounded (some bs) max what = .ok bs := if_neg (Nat.not_lt.mpr h)

def readState (file : Option Bytes) : Except IoError StateImage := do
  let bytes ← readBounded file maxStateBytes "raft state file"
  let body := bytes.take (bytes.length - 32)
  if bytes.length < stateMagic.length + 32 ∨ bytes.take stateMagic.length ≠ stateMagic then
    .error (invalid "not a PTR raft state file")
  else if (sha body).bytes ≠ bytes.drop (bytes.length - 32) then
    .error (invalid "raft state file does not match its digest")
  else do
    let (image, rest) ← takeState (body.drop stateMagic.length)
    if rest ≠ [] then .error (invalid "raft state file has trailing bytes") else .ok image

attribute [local simp] bind_iff exact_u8 exact_u64 exact_bool and_assoc

theorem exact_ids : Exact takeIds putIds fun ids => ids.length < 2 ^ 32 := by
  intro bs ids rest
  simp only [takeIds, bind_iff, exact_u32, exact_replicate exact_u64]
  constructor
  · rintro ⟨n, mid, ⟨rfl, -⟩, rfl, hlength, -⟩
    simp [putIds, putCounted, hlength, putU32]
  · rintro ⟨rfl, h⟩
    exact ⟨⟨_, h⟩, _, ⟨append_assoc .., trivial⟩, rfl, rfl, by simp⟩

/-- The counts of a configuration fit their four bytes. -/
@[mk_iff]
structure ConfState.Fits (c : ConfState) : Prop where
  voters : c.voters.length < 2 ^ 32
  learners : c.learners.length < 2 ^ 32
  votersOutgoing : c.votersOutgoing.length < 2 ^ 32
  learnersNext : c.learnersNext.length < 2 ^ 32

theorem exact_confState : Exact takeConfState putConfState ConfState.Fits := by
  rintro bs ⟨⟩ rest
  simp [takeConfState, putConfState, exact_ids, ConfState.fits_iff, -Bool.exists_bool]

theorem exact_applied : Exact takeApplied putApplied fun _ => True := by
  rintro bs (_ | _) rest <;> 
    simp [takeApplied, putApplied, takeU64, appliedFrom, apply_ite check, ite_iff,
      check, Except.map]

theorem exact_state : Exact takeState stateFields fun i => i.confState.Fits := by
  rintro bs ⟨⟨⟩, _, ⟨⟩, _, _, _⟩ rest
  simp [takeState, takeHardState, takeU64, stateFields, putHardState, exact_confState,
    exact_applied, Digest.exact_read _ _ _ _]

@[simp] theorem putIds_length (ids : List U64) : (putIds ids).length = 4 + 8 * ids.length := by
  simp [putIds, putCounted, length_flatMap, mul_comm]

variable {sha}

theorem fits_of_encodeState (h : (encodeState sha i).length ≤ maxStateBytes) :
    i.confState.Fits := by
  simp only [encodeState, stateBody, stateFields, putConfState, length_append, putIds_length,
    maxStateBytes] at h
  constructor <;> omega

theorem readState_encodeState (h : (encodeState sha i).length ≤ maxStateBytes) :
    readState sha (some (encodeState sha i)) = .ok i := by
  have hbody : (encodeState sha i).length - 32 = (stateBody i).length := by simp [encodeState]
  have htake : (encodeState sha i).take ((encodeState sha i).length - 32) = stateBody i := by
    rw [hbody, encodeState, take_left]
  have hdrop : (encodeState sha i).drop ((encodeState sha i).length - 32) =
      (sha (stateBody i)).bytes := by
    rw [hbody, encodeState, drop_left]
  have hmagic : (encodeState sha i).take stateMagic.length = stateMagic := by
    rw [encodeState, stateBody, append_assoc, take_left]
  have hlen : ¬ (encodeState sha i).length < stateMagic.length + 32 := by
    simp only [encodeState, stateBody, length_append, Digest.bytes_length]
    omega
  have hfields : takeState ((stateBody i).drop stateMagic.length) = .ok (i, []) := by
    rw [stateBody]
    simpa using (exact_state (stateFields i ++ []) i []).mpr ⟨rfl, fits_of_encodeState h⟩
  rw [readState, bind_eq_ok]
  refine ⟨_, readBounded_some h, ?_⟩
  rw [if_neg (by rintro (h | h); exacts [hlen h, h hmagic]), htake, hdrop,
    if_neg (fun hne => hne rfl)]
  exact bind_eq_ok.mpr ⟨_, hfields, rfl⟩

/-- A state file that is read is one that was written. -/
theorem encodeState_of_readState {bs} (h : readState sha (some bs) = .ok i) :
    encodeState sha i = bs ∧ bs.length ≤ maxStateBytes := by
  simp only [readState, readBounded, bind_eq_ok, refuse_eq_ok, Except.ok.injEq, not_or, not_not]
    at h
  obtain ⟨_, ⟨hle, rfl⟩, ⟨hlen, hmagic⟩, hsha, ⟨image, rest⟩, hread, rfl, rfl⟩ := h
  have hfields := ((exact_state ..).mp hread).1
  have hhead : (bs.take (bs.length - 32)).take stateMagic.length = stateMagic := by
    rw [take_take, min_eq_left (by omega), hmagic]
  rw [encodeState, stateBody, ← append_nil (stateFields _), ← hfields]
  nth_rewrite 1 3 [← hhead]
  rw [take_append_drop, hsha, take_append_drop]
  exact ⟨rfl, not_lt.mp hle⟩

theorem eq_of_readState {image} (h : readState sha (some (encodeState sha i)) = .ok image) :
    image = i := by
  rw [readState_encodeState (encodeState_of_readState h).2] at h
  exact (Except.ok.inj h).symm

/-! ### Records of the log -/

section Records

variable (sha)

def recordBody (e : Entry) : Bytes :=
  recordMagic ++ putU64 e.index ++ putU64 e.term ++ [entryTypeCodes.code e.kind] ++
    putBytes e.context ++ putBytes e.data

def encodeRecord (e : Entry) : Bytes := recordBody e ++ (sha (recordBody e)).bytes

structure RecordFields where
  magic : Bytes
  index : U64
  term : U64
  code : UInt8
  context : Bytes
  data : Bytes

def RecordFields.bytes (f : RecordFields) : Bytes :=
  f.magic ++ putU64 f.index ++ putU64 f.term ++ [f.code] ++ putBytes f.context ++ putBytes f.data

def recordFields : Reader Unit RecordFields := do
  let magic ← take () recordMagic.length
  let index ← u64 ()
  let term ← u64 ()
  let code ← u8 ()
  let context ← bytes ()
  let data ← bytes ()
  pure ⟨magic, index, term, code, context, data⟩

/-- The end of `parse_record`, behind a digest that matches. -/
def recordEntry (f : RecordFields) (rest : Bytes) : Except IoError (Entry × Bytes) := do
  let kind ← entryTypeFromCode f.code
  .ok (⟨f.index, f.term, kind, f.context, f.data⟩, rest)

/-- `parse_record`: the record in front of `bs` and what is behind it.  Nothing
when the bytes are not a whole record. -/
def parseRecord (bs : Bytes) : Option (Except IoError (Entry × Bytes)) :=
  match recordFields bs with
  | .error _ => none
  | .ok (f, behind) =>
    if f.magic ≠ recordMagic then none
    else
      match Digest.read () behind with
      | .error _ => none
      | .ok (recorded, rest) =>
        if sha (bs.take (bs.length - behind.length)) ≠ recorded then none
        else some (recordEntry f rest)

structure Entry.Small (e : Entry) : Prop where
  data : e.data.length ≤ maxEntryBytes
  context : e.context.length ≤ maxEntryBytes

@[simp] theorem encodeRecord_length (e : Entry) : (encodeRecord sha e).length = recordLen e := by
  simp [encodeRecord, recordBody, recordLen]
  omega

theorem recordLen_pos (e : Entry) : 0 < recordLen e := by
  rw [recordLen]
  omega

variable {sha} {e : Entry}

theorem exact_recordFields : Exact recordFields RecordFields.bytes fun f =>
    f.magic.length = 8 ∧ f.context.length < 2 ^ 32 ∧ f.data.length < 2 ^ 32 := by
  rintro bs ⟨⟩ rest
  simp [recordFields, RecordFields.bytes, exact_bytes, exact_take]

theorem recordFields_recordBody (h : e.context.length < 2 ^ 32 ∧ e.data.length < 2 ^ 32)
    (rest : Bytes) :
    recordFields (recordBody e ++ rest) =
      .ok (⟨recordMagic, e.index, e.term, entryTypeCodes.code e.kind, e.context, e.data⟩, rest) :=
  (exact_recordFields ..).mpr ⟨rfl, recordMagic_length, h⟩

/-- **What is read as a record is one**, and a whole record is read back from in front of
anything. -/
theorem parseRecord_ok {bs rest} : parseRecord sha bs = some (.ok (e, rest)) ↔
    bs = encodeRecord sha e ++ rest ∧ e.context.length < 2 ^ 32 ∧ e.data.length < 2 ^ 32 := by
  constructor
  · intro h
    unfold parseRecord at h
    rcases hf : recordFields bs with _ | ⟨f, behind⟩ <;> simp only [hf, reduceCtorEq] at h
    obtain ⟨rfl, -, hshort⟩ := (exact_recordFields ..).mp hf
    rcases hd : Digest.read () behind with _ | ⟨recorded, rest'⟩ <;> simp [hd] at h
    obtain ⟨hmagic, rfl, h⟩ := h
    obtain ⟨rfl, -⟩ := (Digest.exact_read ..).mp hd
    obtain ⟨kind, hkind, h⟩ := bind_eq_ok.mp h
    cases h
    have hbytes : f.bytes = recordBody ⟨f.index, f.term, kind, f.context, f.data⟩ := by
      rw [RecordFields.bytes, recordBody, hmagic,
        entryTypeCodes.code_of_fromCode (by decide) (fromCode_of_ok hkind)]
    rw [hbytes, encodeRecord, append_assoc]
    exact ⟨rfl, hshort⟩
  · rintro ⟨rfl, h⟩
    rw [encodeRecord, append_assoc, parseRecord, recordFields_recordBody h]
    simp [recordEntry, entryTypeFromCode, CodeTable.fromCode_code]
    rfl

theorem Entry.Small.short (h : e.Small) : e.context.length < 2 ^ 32 ∧ e.data.length < 2 ^ 32 :=
  ⟨h.context.trans_lt (by decide), h.data.trans_lt (by decide)⟩

theorem parseRecord_encodeRecord (h : e.Small) (rest : Bytes) :
    parseRecord sha (encodeRecord sha e ++ rest) = some (.ok (e, rest)) :=
  parseRecord_ok.mpr ⟨rfl, h.short⟩

/-- **A proper part of a record is none.** -/
theorem parseRecord_torn (h : e.Small) {part} (hp : part <+: encodeRecord sha e)
    (hlt : part.length < recordLen e) : parseRecord sha part = none := by
  obtain ⟨more, hmore⟩ := hp
  have hpos : 0 < more.length := by
    have := congrArg length hmore
    rw [length_append, encodeRecord_length] at this
    omega
  rw [parseRecord]
  cases hf : recordFields part with
  | error => rfl
  | ok p =>
    obtain ⟨f, behind⟩ := p
    -- the fields were all there, so the digest behind them is what is cut
    have hlong := exact_recordFields.stable hf more
    rw [hmore, encodeRecord, recordFields_recordBody h.short] at hlong
    have hshort := congrArg length (Prod.mk.inj (Except.ok.inj hlong)).2
    rw [length_append, Digest.bytes_length] at hshort
    have hread : Digest.read () behind = .error () := by
      rw [Digest.read, dif_neg (by omega)]
    simp only [hread]
    split <;> rfl

theorem parseRecord_nil : parseRecord sha [] = none := rfl

end Records

/-! ### Logs -/

section Logs

variable (sha)

def records (es : List Entry) : Bytes := es.flatMap (encodeRecord sha)

def logBytes (es : List Entry) : Bytes := logMagic ++ records sha es

def offsetsFrom : Nat → List Entry → List Nat
  | _, [] => []
  | position, e :: es => position :: offsetsFrom (position + recordLen e) es

structure LogScan where
  entries : List Entry
  offsets : List Nat
  skipped : Bool

namespace LogScan

def empty : LogScan := ⟨[], [], false⟩

def last (snapshotIndex : U64) (scan : LogScan) : U64 :=
  match scan.entries.getLast? with
  | some e => e.index
  | none => snapshotIndex

def push (snapshotIndex : U64) (position : Nat) (e : Entry) (scan : LogScan) :
    Except IoError LogScan :=
  if e.index ≤ snapshotIndex ∧ scan.entries = [] then .ok { scan with skipped := true }
  else
    match U64.checkedAdd (scan.last snapshotIndex) 1 with
    | none => .error (invalid "raft log index is exhausted")
    | some expected =>
      if e.index ≠ expected then
        .error (invalid
          (s!"raft log jumps from {expected} to {e.index}, so a record is missing or " ++
            "duplicated"))
      else .ok ⟨scan.entries ++ [e], scan.offsets ++ [position], scan.skipped⟩

end LogScan

/-- The loop of `read_log`, with what is left of the file when it stops. -/
def scanLoop (snapshotIndex : U64) : Nat → Nat → Bytes → LogScan → Except IoError (LogScan × Bytes)
  | 0, _, rest, scan => .ok (scan, rest)
  | fuel + 1, position, rest, scan =>
    if rest = [] then .ok (scan, rest)
    else
      match parseRecord sha rest with
      | none => .ok (scan, rest)
      | some (.error e) => .error e
      | some (.ok (entry, behind)) => do
        let scan ← scan.push snapshotIndex position entry
        scanLoop snapshotIndex fuel (position + (rest.length - behind.length)) behind scan

def isRecord (bs : Bytes) : Bool :=
  match parseRecord sha bs with
  | some (.ok _) => true
  | _ => false

/-- `record_follows`: a record begins somewhere behind the first byte. -/
def recordFollows (rest : Bytes) : Bool :=
  rest.tail.tails.any fun t => recordMagic.isPrefixOf t && isRecord sha t

/-- `LogImage`, with the offset at which the file is to be cut. -/
structure LogImage where
  entries : List Entry
  offsets : List Nat
  skipped : Bool
  cut : Nat
  trimmed : Nat

/-- `read_log` up to the point where it cuts the file. -/
def scanLog (bytes : Bytes) (snapshotIndex commit : U64) : Except IoError LogImage :=
  if maxLogBytes < bytes.length then .error (invalid "raft log is over the size bound")
  else if bytes.length < logMagic.length ∨ bytes.take logMagic.length ≠ logMagic then
    .error (invalid "not a PTR raft log")
  else do
    let (scan, rest) ← scanLoop sha snapshotIndex bytes.length logMagic.length
      (bytes.drop logMagic.length) LogScan.empty
    let last := scan.last snapshotIndex
    let cut := bytes.length - rest.length
    if last < commit then
      .error (invalid
        (s!"raft log ends at {last}, below the committed index {commit}: committed " ++
          "entries are missing"))
    else if rest.all (· == 0) = false ∧ recordFollows sha rest then
      .error (invalid
        (s!"raft log is damaged at byte {cut} and valid records follow it: they may " ++
          "have been acknowledged, so nothing is cut"))
    else .ok ⟨scan.entries, scan.offsets, scan.skipped, cut, rest.length⟩

/-- **A record seems to follow** a torn one exactly if the record of some entry stands in
its bytes. -/
theorem recordFollows_iff {sha} {part : Bytes} (htorn : parseRecord sha part = none)
    (hshort : part.length < 2 ^ 32) :
    part.all (· == 0) = false ∧ recordFollows sha part ↔ ∃ e, encodeRecord sha e <:+: part := by
  constructor
  · rintro ⟨-, h⟩
    obtain ⟨t, ht, h⟩ := any_eq_true.mp h
    rw [Bool.and_eq_true, isRecord] at h
    obtain ⟨-, h⟩ := h
    split at h
    · next p hparse =>
      obtain ⟨hbytes, -⟩ := parseRecord_ok.mp hparse
      have hpart : t <:+ part := ((mem_tails ..).mp ht).trans (tail_suffix part)
      exact ⟨p.1, (hbytes ▸ (prefix_append _ _).isInfix).trans hpart.isInfix⟩
    · cases h
  · rintro ⟨e, before, behind, rfl⟩
    have hlen : recordLen e < 2 ^ 32 := by
      simp only [length_append, encodeRecord_length] at hshort
      omega
    rw [recordLen] at hlen
    have hparse : parseRecord sha (encodeRecord sha e ++ behind) = some (.ok (e, behind)) :=
      parseRecord_ok.mpr ⟨rfl, by omega, by omega⟩
    have hmagic : recordMagic <+: encodeRecord sha e ++ behind := by
      simp only [encodeRecord, recordBody, append_assoc]
      exact prefix_append _ _
    constructor
    · -- The magic is not zero.
      refine all_eq_false.mpr ⟨80, ?_, by decide⟩
      rw [append_assoc]
      exact mem_append_right _ (hmagic.subset (by decide))
    · cases before with
      | nil => simp [hparse] at htorn
      | cons b before =>
        refine any_eq_true.mpr ⟨encodeRecord sha e ++ behind, (mem_tails ..).mpr ?_, ?_⟩
        · simp
        · simp [isRecord, hparse, hmagic]

@[simp] theorem records_nil : records sha [] = [] := rfl

@[simp] theorem records_append (es fs : List Entry) :
    records sha (es ++ fs) = records sha es ++ records sha fs := flatMap_append

theorem records_cons (e : Entry) (es : List Entry) :
    records sha (e :: es) = encodeRecord sha e ++ records sha es := rfl

@[simp] theorem records_length (es : List Entry) :
    (records sha es).length = (es.map recordLen).sum := by
  simp [records, length_flatMap]

@[simp] theorem logBytes_length (es : List Entry) : (logBytes sha es).length = logLen es := by
  simp [logBytes, logLen]

theorem length_le_records (es : List Entry) : es.length ≤ (records sha es).length :=
  length_le_flatMap_of_pos (fun e => by simp [recordLen_pos e]) es

theorem offsetsFrom_append (n : Nat) (es fs : List Entry) :
    offsetsFrom n (es ++ fs) = offsetsFrom n es ++ offsetsFrom (n + (es.map recordLen).sum) fs := by
  induction es generalizing n with
  | nil => rfl
  | cons e es ih => simp [offsetsFrom, ih, add_assoc]

@[simp] theorem offsetsFrom_length (n : Nat) (es : List Entry) :
    (offsetsFrom n es).length = es.length := by
  induction es generalizing n with
  | nil => rfl
  | cons e es ih => simp [offsetsFrom, ih]

variable {sha} {snapshotIndex : U64} {scan : LogScan} {position : Nat} {part : Bytes}

theorem LogScan.last_val {es offsets skipped} (h : Contiguous snapshotIndex.val es) :
    (LogScan.last snapshotIndex ⟨es, offsets, skipped⟩).val = snapshotIndex.val + es.length := by
  rw [LogScan.last]
  cases hs : es.getLast? with
  | none => simp [getLast?_eq_none_iff.mp hs]
  | some => exact h.getLast hs

theorem LogScan.push_next {e} (h : e.index.val = (scan.last snapshotIndex).val + 1) :
    scan.push snapshotIndex position e =
      .ok ⟨scan.entries ++ [e], scan.offsets ++ [position], scan.skipped⟩ := by
  have hskip : ¬ (e.index ≤ snapshotIndex ∧ scan.entries = []) := by
    rintro ⟨hle, hnil⟩
    have hlast : scan.last snapshotIndex = snapshotIndex := by simp [LogScan.last, hnil]
    have hle' : e.index.val ≤ snapshotIndex.val := hle
    rw [hlast] at h
    omega
  have hlt : (scan.last snapshotIndex).val + (1 : U64).val < 2 ^ 64 := by
    rw [show (1 : U64).val = 1 from rfl]
    omega
  have hnext : U64.checkedAdd (scan.last snapshotIndex) 1 = some e.index := by
    rw [U64.checkedAdd, dif_pos hlt]
    exact congrArg some (Fin.ext h.symm)
  simp [LogScan.push, if_neg hskip, hnext]

theorem LogScan.push_covered {e} (hnil : scan.entries = []) (h : e.index ≤ snapshotIndex) :
    scan.push snapshotIndex position e = .ok { scan with skipped := true } := if_pos ⟨h, hnil⟩

theorem scanLoop_cons {fuel e rest next} (he : e.Small)
    (hpush : scan.push snapshotIndex position e = .ok next) :
    scanLoop sha snapshotIndex (fuel + 1) position (encodeRecord sha e ++ rest) scan =
      scanLoop sha snapshotIndex fuel (position + recordLen e) rest next := by
  rw [scanLoop, parseRecord_encodeRecord he]
  simp only [hpush, length_append, encodeRecord_length, Nat.add_sub_cancel]
  rfl

theorem scanLoop_stop {fuel} (hpart : parseRecord sha part = none) :
    scanLoop sha snapshotIndex fuel position part scan = .ok (scan, part) := by
  cases fuel with
  | zero => rfl
  | succ =>
    rw [scanLoop, hpart]
    split <;> rfl

theorem scanLoop_records {es} (hsmall : ∀ e ∈ es, e.Small) (hpart : parseRecord sha part = none)
    {fuel} (hes : Contiguous (scan.last snapshotIndex).val es) (hfuel : es.length ≤ fuel) :
    scanLoop sha snapshotIndex fuel position (records sha es ++ part) scan =
      .ok (⟨scan.entries ++ es, scan.offsets ++ offsetsFrom position es, scan.skipped⟩, part) := by
  induction es generalizing fuel position scan with
  | nil =>
    rw [records_nil, nil_append, scanLoop_stop hpart]
    simp [offsetsFrom]
  | cons e es ih =>
    obtain ⟨fuel, rfl⟩ : ∃ k, fuel = k + 1 := ⟨fuel - 1, by simp at hfuel; omega⟩
    have hlast : (LogScan.last snapshotIndex
        ⟨scan.entries ++ [e], scan.offsets ++ [position], scan.skipped⟩) = e.index := by
      simp [LogScan.last]
    rw [records_cons, append_assoc,
      scanLoop_cons (hsmall e (by simp)) (LogScan.push_next hes.1),
      ih (fun f hf => hsmall f (by simp [hf])) (by rw [hlast, hes.1]; exact hes.2)
        (by simpa using hfuel)]
    simp [offsetsFrom]

theorem scanLoop_covered {low} (hsmall : ∀ e ∈ low, e.Small)
    (hlow : ∀ e ∈ low, e.index ≤ snapshotIndex) {fuel rest} (skipped : Bool) :
    scanLoop sha snapshotIndex (fuel + low.length) position (records sha low ++ rest)
        ⟨[], [], skipped⟩ =
      scanLoop sha snapshotIndex fuel (position + (low.map recordLen).sum) rest
        ⟨[], [], skipped || !low.isEmpty⟩ := by
  induction low generalizing position skipped with
  | nil => simp
  | cons e low ih =>
    rw [records_cons, append_assoc, length_cons, ← add_assoc,
      scanLoop_cons (hsmall e (by simp)) (LogScan.push_covered rfl (hlow e (by simp))),
      ih (fun f hf => hsmall f (by simp [hf])) (fun f hf => hlow f (by simp [hf]))]
    simp [add_assoc]

/-- **A log of records with a torn one behind** is read as the records above the
snapshot, or refused: because it is too long, because it ends below the commit index, or
because a record seems to follow the torn one. -/
theorem scanLog_records {commit low high} (hsmall : ∀ e ∈ low ++ high, e.Small)
    (hlow : ∀ e ∈ low, e.index ≤ snapshotIndex) (hhigh : Contiguous snapshotIndex.val high)
    (hpart : parseRecord sha part = none) {image} :
    scanLog sha (logBytes sha (low ++ high) ++ part) snapshotIndex commit = .ok image ↔
      logLen (low ++ high) + part.length ≤ maxLogBytes ∧
      commit.val ≤ snapshotIndex.val + high.length ∧
      ¬ (part.all (· == 0) = false ∧ recordFollows sha part) ∧
      ⟨high, offsetsFrom (logLen low) high, !low.isEmpty, logLen (low ++ high), part.length⟩ =
        image := by
  have hlen : (logBytes sha (low ++ high) ++ part).length = logLen (low ++ high) + part.length := by
    simp
  have hdrop : (logBytes sha (low ++ high) ++ part).drop logMagic.length =
      records sha low ++ (records sha high ++ part) := by
    rw [logBytes, append_assoc, drop_left, records_append, append_assoc]
  obtain ⟨fuel, hfuel, hhl⟩ : ∃ fuel, (logBytes sha (low ++ high) ++ part).length =
    fuel + low.length ∧ high.length ≤ fuel := by
    have h1 := length_le_records sha low
    have h2 := length_le_records sha high
    refine ⟨(logBytes sha (low ++ high) ++ part).length - low.length, ?_, ?_⟩ <;>
      · rw [logBytes, records_append]
        simp only [length_append]
        omega
  have hscan : scanLoop sha snapshotIndex
      (logBytes sha (low ++ high) ++ part).length logMagic.length
      ((logBytes sha (low ++ high) ++ part).drop logMagic.length) LogScan.empty =
      .ok (⟨high, offsetsFrom (logLen low) high, !low.isEmpty⟩, part) := by
    have hhigh' : Contiguous (LogScan.last snapshotIndex ⟨[], [], !low.isEmpty⟩).val high := hhigh
    rw [hdrop, hfuel, LogScan.empty, scanLoop_covered (fun e he => hsmall e (by simp [he])) hlow,
      Bool.false_or, scanLoop_records (fun e he => hsmall e (by simp [he])) hpart hhigh' hhl]
    rfl
  have hmagic : ¬ ((logBytes sha (low ++ high) ++ part).length < logMagic.length ∨
      (logBytes sha (low ++ high) ++ part).take logMagic.length ≠ logMagic) := by
    simp [logBytes]
  simp only [scanLog, refuse_eq_ok, bind_eq_ok, hscan, hmagic, not_false_eq_true, true_and,
    Except.ok.injEq, exists_eq_left']
  rw [hlen, Nat.add_sub_cancel, not_lt, not_lt, Fin.le_def, LogScan.last_val hhigh]

end Logs

end Ptr.Raft
