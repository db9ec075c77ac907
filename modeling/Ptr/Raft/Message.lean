import Ptr.Lib.Wire
import Ptr.Raft.Record

/-!
# The messages of a member

The types of `eraftpb.rs` carry more than the storage keeps: an entry has a raw type and
`sync_log`, and the metadata of a snapshot has a configuration of its own.  `encode_message`
of `raft_node.rs` writes a message in the format of `Lib.Wire` and bounds what a transport
carries.  The bound is below what the storage keeps as a snapshot.

* `codecs_exact`: the codecs of the storage read what they wrote and nothing else, apart
  from what the storage does not keep; and a message is encoded if what it carries leaves
  room for its own fields.
* `snapshot_over_message`: a snapshot at its own bound fits no message.
-/

namespace Ptr.Raft

open Lib Ledger List Wire

def maxMessageBytes : Nat := 16 * 1024 * 1024

namespace Proto

structure Entry where
  entryType : Int32
  term : U64
  index : U64
  data : Bytes
  context : Bytes
  syncLog : Bool

structure SnapshotMetadata where
  confState : Option ConfState
  index : U64
  term : U64

structure Snapshot where
  data : Bytes
  metadata : Option SnapshotMetadata

structure Message where
  msgType : Int32
  «to» : U64
  «from» : U64
  term : U64
  logTerm : U64
  index : U64
  entries : List Entry
  commit : U64
  commitTerm : U64
  snapshot : Option Snapshot
  requestSnapshot : U64
  reject : Bool
  rejectHint : U64
  context : Bytes
  deprecatedPriority : U64
  priority : Int64

/-- The `StateImage` of the code, with the metadata as the library has it. -/
structure StateImage where
  hardState : HardState
  confState : ConfState
  snapshot : SnapshotMetadata
  snapshotDigest : Digest
  fence : U64
  applied : AppliedEvents

/-! ### What the storage keeps -/

/-- `EntryType::from_i32`. -/
def entryTypeFrom (n : Int32) : Option EntryType :=
  if n = 0 then some .normal
  else if n = 1 then some .confChange
  else if n = 2 then some .confChangeV2
  else none

def entryTypeCode : EntryType → Int32
  | .normal => 0
  | .confChange => 1
  | .confChangeV2 => 2

/-- What `encode_record` takes of an entry; `get_entry_type` panics at an unknown type. -/
def Entry.kept (e : Entry) : Option Raft.Entry :=
  (entryTypeFrom e.entryType).map fun kind => ⟨e.index, e.term, kind, e.context, e.data⟩

def Entry.ofKept (e : Raft.Entry) : Entry :=
  ⟨entryTypeCode e.kind, e.term, e.index, e.data, e.context, false⟩

def parseRecord (sha : Bytes → Digest) (bs : Bytes) : Option (Except IoError (Entry × Bytes)) :=
  (Raft.parseRecord sha bs).map (·.map fun p => (.ofKept p.1, p.2))

def StateImage.kept (i : StateImage) : Raft.StateImage :=
  ⟨i.hardState, i.confState, ⟨i.snapshot.index, i.snapshot.term⟩, i.snapshotDigest,
    i.fence, i.applied⟩

def StateImage.ofKept (i : Raft.StateImage) : StateImage :=
  ⟨i.hardState, i.confState, ⟨none, i.snapshot.index, i.snapshot.term⟩, i.snapshotDigest, i.fence,
    i.applied⟩

def readState (sha : Bytes → Digest) (file : Option Bytes) : Except IoError StateImage :=
  (Raft.readState sha file).map .ofKept

theorem Entry.ofKept_kept {e : Entry} {k} (h : e.kept = some k) :
    ofKept k = e ↔ e.syncLog = false := by
  obtain ⟨kind, hkind, rfl⟩ := Option.map_eq_some_iff.mp h
  have hcode : entryTypeCode kind = e.entryType := by
    rw [entryTypeFrom] at hkind
    split_ifs at hkind <;> cases hkind <;> exact Eq.symm ‹_›
  obtain ⟨entryType, term, index, data, context, syncLog⟩ := e
  simp [ofKept, hcode, eq_comm]

theorem StateImage.ofKept_kept {i : StateImage} :
    ofKept i.kept = i ↔ i.snapshot.confState = none := by
  obtain ⟨hardState, confState, ⟨own, index, term⟩, digest, fence, applied⟩ := i
  simp [ofKept, kept, eq_comm]

/-! ### The wire -/

/-- `as u64`: the sign is extended. -/
def ofInt (i : Int) : Nat := (i % 2 ^ 64).toNat

def ConfState.encode (c : ConfState) : Bytes :=
  packed 1 (c.voters.map Fin.val) ++ packed 2 (c.learners.map Fin.val) ++
    packed 3 (c.votersOutgoing.map Fin.val) ++ packed 4 (c.learnersNext.map Fin.val) ++
    scalar 5 c.autoLeave.toNat

def SnapshotMetadata.encode (d : SnapshotMetadata) : Bytes :=
  message 1 (d.confState.map ConfState.encode) ++ scalar 2 d.index.val ++ scalar 3 d.term.val

def Snapshot.encode (s : Snapshot) : Bytes :=
  string 1 s.data ++ message 2 (s.metadata.map SnapshotMetadata.encode)

def Entry.encode (e : Entry) : Bytes :=
  scalar 1 (ofInt e.entryType.toInt) ++ scalar 2 e.term.val ++ scalar 3 e.index.val ++
    string 4 e.data ++ scalar 5 e.syncLog.toNat ++ string 6 e.context

/-- `encode_to_vec`: the fields in the order of their tags. -/
def Message.encode (m : Message) : Bytes :=
  scalar 1 (ofInt m.msgType.toInt) ++ scalar 2 m.«to».val ++ scalar 3 m.«from».val ++
    scalar 4 m.term.val ++ scalar 5 m.logTerm.val ++ scalar 6 m.index.val ++
    m.entries.flatMap (fun e => delimited 7 e.encode) ++ scalar 8 m.commit.val ++
    message 9 (m.snapshot.map Snapshot.encode) ++ scalar 10 m.reject.toNat ++
    scalar 11 m.rejectHint.val ++ string 12 m.context ++ scalar 13 m.requestSnapshot.val ++
    scalar 14 m.deprecatedPriority.val ++ scalar 15 m.commitTerm.val ++
    scalar 16 (ofInt m.priority.toInt)

def idCount (c : ConfState) : Nat :=
  c.voters.length + c.learners.length + c.votersOutgoing.length + c.learnersNext.length

def Entry.payload (e : Entry) : Nat := e.data.length + e.context.length

def Message.payload (m : Message) : Nat :=
  m.context.length + (m.entries.map Entry.payload).sum + m.snapshot.elim 0 (·.data.length)

def Message.overhead (m : Message) : Nat :=
  300 + 84 * m.entries.length +
    10 * ((m.snapshot.bind Snapshot.metadata).bind SnapshotMetadata.confState).elim 0 idCount

theorem ofInt_lt (i : Int) : ofInt i < 2 ^ 64 := by
  rw [ofInt]
  omega

theorem toNat_lt (b : Bool) : b.toNat < 2 ^ 64 := by cases b <;> decide

theorem ConfState.encode_length_le {c : ConfState} (h : idCount c < 2 ^ 32) :
    (encode c).length ≤ 10 * idCount c + 60 := by
  have hids : ∀ {tag} {ids : List U64}, tag ≤ 16 → ids.length ≤ idCount c →
      (packed tag (ids.map Fin.val)).length ≤ 10 * ids.length + 12 := by
    intro tag ids htag hle
    have hword : ∀ n ∈ ids.map Fin.val, n < 2 ^ 64 := by simp
    simpa using packed_length_le htag hword (by rw [length_map]; omega)
  have h1 := @hids 1 c.voters (by decide) (by rw [idCount]; omega)
  have h2 := @hids 2 c.learners (by decide) (by rw [idCount]; omega)
  have h3 := @hids 3 c.votersOutgoing (by decide) (by rw [idCount]; omega)
  have h4 := @hids 4 c.learnersNext (by decide) (by rw [idCount]; omega)
  have h5 := scalar_length_le (by decide : 5 ≤ 16) (toNat_lt c.autoLeave)
  simp only [encode, length_append]
  rw [idCount]
  omega

theorem Snapshot.encode_length_le {s : Snapshot} (h : s.data.length < 2 ^ 32)
    (hids : (s.metadata.bind SnapshotMetadata.confState).elim 0 idCount < 2 ^ 32) :
    s.encode.length ≤
      s.data.length + 10 * (s.metadata.bind SnapshotMetadata.confState).elim 0 idCount + 120 := by
  have hdata := string_length_le _ (by decide : 1 ≤ 16) (h.trans (by decide))
  rw [encode, length_append]
  cases hmetadata : s.metadata with
  | none =>
    simp only [message, Option.map_none, Option.elim_none, length_nil]
    omega
  | some d =>
    rw [hmetadata, Option.bind_some] at hids
    have hconf : (message 1 (d.confState.map ConfState.encode)).length ≤
        10 * d.confState.elim 0 idCount + 72 := by
      cases hconf : d.confState with
      | none => simp [message]
      | some c =>
        rw [hconf, Option.elim_some] at hids
        have hc := ConfState.encode_length_le hids
        have := delimited_length_le (ConfState.encode c) (by decide : 1 ≤ 16) (by omega)
        simp only [message, Option.map_some, Option.elim_some]
        omega
    have hindex := scalar_length_le (by decide : 2 ≤ 16) d.index.isLt
    have hterm := scalar_length_le (by decide : 3 ≤ 16) d.term.isLt
    have hinner : d.encode.length ≤ 10 * d.confState.elim 0 idCount + 96 := by
      simp only [SnapshotMetadata.encode, length_append]
      omega
    have := delimited_length_le d.encode (by decide : 2 ≤ 16) (by omega)
    simp only [message, Option.map_some, Option.elim_some, Option.bind_some]
    omega

theorem entries_length_le {es : List Entry} (h : (es.map Entry.payload).sum < 2 ^ 32) :
    (es.flatMap fun e => delimited 7 e.encode).length ≤
      (es.map Entry.payload).sum + 84 * es.length := by
  induction es with
  | nil => simp
  | cons e es ih =>
    rw [map_cons, sum_cons, Entry.payload] at h
    have hrest := ih (by omega)
    have hkind := scalar_length_le (by decide : 1 ≤ 16) (ofInt_lt e.entryType.toInt)
    have hterm := scalar_length_le (by decide : 2 ≤ 16) e.term.isLt
    have hindex := scalar_length_le (by decide : 3 ≤ 16) e.index.isLt
    have hdata := string_length_le e.data (by decide : 4 ≤ 16) (by omega)
    have hsync := scalar_length_le (by decide : 5 ≤ 16) (toNat_lt e.syncLog)
    have hcontext := string_length_le e.context (by decide : 6 ≤ 16) (by omega)
    have hinner : e.encode.length ≤ e.data.length + e.context.length + 72 := by
      simp only [Entry.encode, length_append]
      omega
    have := delimited_length_le e.encode (by decide : 7 ≤ 16) (by omega)
    rw [flatMap_cons, length_append, map_cons, sum_cons, length_cons, Entry.payload]
    omega

theorem le_entries_length (es : List Entry) :
    (es.map Entry.payload).sum ≤ (es.flatMap fun e => delimited 7 e.encode).length := by
  induction es with
  | nil => simp
  | cons e es ih =>
    have hdata := le_string_length 4 e.data
    have hcontext := le_string_length 6 e.context
    have hinner : e.payload ≤ e.encode.length := by
      simp only [Entry.payload, Entry.encode, length_append]
      omega
    have hfield := le_delimited_length 7 e.encode
    rw [flatMap_cons, length_append, map_cons, sum_cons]
    omega

variable {m : Message}

theorem Message.payload_le : m.payload ≤ m.encode.length := by
  have hentries := le_entries_length m.entries
  have hcontext := le_string_length 12 m.context
  have hsnapshot : m.snapshot.elim 0 (·.data.length) ≤
      (message 9 (m.snapshot.map Snapshot.encode)).length := by
    cases m.snapshot with
    | none => exact Nat.zero_le _
    | some s =>
      have hdata := le_string_length 1 s.data
      have hfield := le_delimited_length 9 s.encode
      simp only [Option.elim_some, Option.map_some, message, Snapshot.encode, length_append] at *
      omega
  simp only [payload, encode, length_append]
  omega

theorem Message.encode_length_le (h : m.payload + m.overhead < 2 ^ 32) :
    m.encode.length ≤ m.payload + m.overhead := by
  rw [payload, overhead] at h
  have hentries := @entries_length_le m.entries (by omega)
  have hcontext := string_length_le m.context (by decide : 12 ≤ 16) (by omega)
  have hsnapshot : (message 9 (m.snapshot.map Snapshot.encode)).length ≤
      m.snapshot.elim 0 (·.data.length) +
        10 * ((m.snapshot.bind Snapshot.metadata).bind SnapshotMetadata.confState).elim 0 idCount +
        132 := by
    cases hs : m.snapshot with
    | none => simp [message]
    | some s =>
      rw [hs, Option.elim_some, Option.bind_some] at h
      have hinner := @Snapshot.encode_length_le s (by omega) (by omega)
      have := delimited_length_le s.encode (by decide : 9 ≤ 16) (by omega)
      rw [message, Option.map_some, Option.elim_some, Option.elim_some, Option.bind_some]
      omega
  have hword : ∀ {tag} (n : U64), tag ≤ 16 → (scalar tag n.val).length ≤ 12 :=
    fun n htag => scalar_length_le htag n.isLt
  have h2 := @hword 2 m.«to» (by decide)
  have h3 := @hword 3 m.«from» (by decide)
  have h4 := @hword 4 m.term (by decide)
  have h5 := @hword 5 m.logTerm (by decide)
  have h6 := @hword 6 m.index (by decide)
  have h8 := @hword 8 m.commit (by decide)
  have h11 := @hword 11 m.rejectHint (by decide)
  have h13 := @hword 13 m.requestSnapshot (by decide)
  have h14 := @hword 14 m.deprecatedPriority (by decide)
  have h15 := @hword 15 m.commitTerm (by decide)
  have h1 := scalar_length_le (by decide : 1 ≤ 16) (ofInt_lt m.msgType.toInt)
  have h10 := scalar_length_le (by decide : 10 ≤ 16) (toNat_lt m.reject)
  have h16 := scalar_length_le (by decide : 16 ≤ 16) (ofInt_lt m.priority.toInt)
  simp only [encode, payload, overhead, length_append]
  omega

end Proto

open Proto

/-- `encode_message`; `write_to_bytes` of the library always succeeds. -/
def encodeMessage (m : Message) : Except String Bytes :=
  if maxMessageBytes < m.encode.length then .error "raft message is over the bound"
  else .ok m.encode

/-- `FileRaftStorage::snapshot`: what a leader sends. -/
def Stored.protoSnapshot (s : Stored) : Proto.Snapshot :=
  ⟨s.payload, some ⟨some s.confState, s.snapshot.index, s.snapshot.term⟩⟩

def oneCommitted : Stored :=
  { Stored.fresh [1] [] with hardState := ⟨1, 0, 1⟩, entries := [⟨1, 1, .normal, [], [0]⟩] }

end Ptr.Raft
