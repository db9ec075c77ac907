import Std.Data.ExtTreeMap
import Ptr.Lib.Bytes
import Ptr.Lib.Checks

/-!
# The event bus in memory

Producers append records, and consumers read them behind the offset they have
committed.  Records that every consumer has committed are history, which a retention
policy bounds; only the others count against the capacity.  If these fill the capacity,
a publish is refused, or telemetry that nobody has committed yet is dropped to make
room.
-/

namespace Ptr.Events

open Lib

/-! ### Policies -/

inductive EventClass
  | projection | telemetry
  deriving DecidableEq

inductive Authority
  | authoritative | diagnostic
  deriving DecidableEq

def EventClass.authority : EventClass → Authority
  | .projection => .authoritative
  | .telemetry => .diagnostic

inductive BackpressurePolicy
  | reject | dropOldestTelemetry
  deriving DecidableEq

inductive Limit
  | records | bytes
  deriving DecidableEq

inductive Field
  | topic | key | payload | consumerName
  deriving DecidableEq

inductive BusError
  | full (limit : Limit) (capacity depth : Nat) (blockedBy : Option String)
  | unknownConsumer (consumer : String)
  | commitBeyondEnd (requested last : Nat)
  | truncated (requested lowWater : Nat)
  | fieldTooLong (field : Field) (len max : Nat)
  | consumerLimit (max : Nat)
  | clockRegression (current requested : Nat)
  deriving DecidableEq

/-- A policy for each class; projections are never dropped. -/
structure ClassPolicies where
  projection : BackpressurePolicy
  telemetry : BackpressurePolicy
  never : projection = .reject

def ClassPolicies.forClass (p : ClassPolicies) : EventClass → BackpressurePolicy
  | .projection => p.projection
  | .telemetry => p.telemetry

structure RetentionPolicy where
  maxRecords : Option Nat
  maxBytes : Option Nat
  maxAgeTicks : Option Nat

def maxRetentionRecords : Nat := 2 ^ 30

def maxRetentionBytes : Nat := 2 ^ 40

namespace RetentionPolicy

def isUnbounded (p : RetentionPolicy) : Bool := p.maxRecords.isNone && p.maxBytes.isNone

def ackedOnly : RetentionPolicy := ⟨some 0, none, none⟩

end RetentionPolicy

/-! ### Records -/

structure NewRecord where
  eventClass : EventClass
  topic : String
  key : String
  payload : Bytes

structure BusRecord where
  offset : Nat
  eventClass : EventClass
  authority : Authority
  tick : Nat
  topic : String
  key : String
  payload : Bytes
  deriving DecidableEq

def BusRecord.fromParts (offset tick : Nat) (n : NewRecord) : BusRecord :=
  ⟨offset, n.eventClass, n.eventClass.authority, tick, n.topic, n.key, n.payload⟩

def BusRecord.sizeBytes (r : BusRecord) : Nat :=
  r.topic.utf8ByteSize + r.key.utf8ByteSize + r.payload.length

def NewRecord.sizeBytes (n : NewRecord) : Nat :=
  n.topic.utf8ByteSize + n.key.utf8ByteSize + n.payload.length

def totalBytes (rs : List BusRecord) : Nat := (rs.map BusRecord.sizeBytes).sum

def maxFieldBytes : Nat := 256

def maxConsumers : Nat := 256

def maxBusRecordCapacity : Nat := 2 ^ 20

def checkLen (field : Field) (len max : Nat) : Except BusError Unit :=
  if max < len then .error (.fieldTooLong field len max) else .ok ()

def validateNew (n : NewRecord) (maxPayload : Nat) : Except BusError Unit := do
  checkLen .topic n.topic.utf8ByteSize maxFieldBytes
  checkLen .key n.key.utf8ByteSize maxFieldBytes
  checkLen .payload n.payload.length maxPayload

abbrev Consumers := Std.ExtTreeMap String Nat

def validateConsumer (committed : Consumers) (consumer : String) : Except BusError Unit := do
  checkLen .consumerName consumer.utf8ByteSize maxFieldBytes
  if consumer ∉ committed ∧ maxConsumers ≤ committed.size then .error (.consumerLimit maxConsumers)
  else .ok ()

structure ConsumerLag where
  consumer : String
  committed : Nat
  lag : Nat

def minByOffset : List (String × Nat) → Option (String × Nat)
  | [] => none
  | p :: ps =>
    match minByOffset ps with
    | some q => some (if q.2 < p.2 then q else p)
    | none => some p

def slowest (committed : Consumers) (last : Nat) : Option ConsumerLag :=
  ((minByOffset committed.toList).filter (·.2 < last)).map fun p => ⟨p.1, p.2, last - p.2⟩

/-! ### The bus -/

structure BusConfig where
  capacityRecords : Nat
  capacityBytes : Option Nat
  maxRecordBytes : Nat
  policies : ClassPolicies
  retention : RetentionPolicy

structure InMemoryBus where
  config : BusConfig
  records : List BusRecord
  next : Nat
  lowWater : Nat
  committed : Consumers
  tick : Nat
  retainedBytes : Nat
  dropped : Std.ExtTreeMap String Nat
  totalDropped : Nat

structure Compaction where
  removedRecords : Nat
  removedSegments : Nat
  lowWater : Nat

namespace InMemoryBus

/-- `with_config`: what is out of bounds is adjusted. -/
def withConfig (c : BusConfig) : InMemoryBus :=
  let retention := if c.retention.isUnbounded then .ackedOnly else c.retention
  let config : BusConfig := { c with
    capacityRecords := max 1 (min c.capacityRecords maxBusRecordCapacity)
    retention := { retention with
      maxRecords := retention.maxRecords.map (min · maxRetentionRecords)
      maxBytes := retention.maxBytes.map (min · maxRetentionBytes) } }
  ⟨config, [], 1, 0, ∅, 0, 0, ∅, 0⟩

variable (b : InMemoryBus)

def endOffset : Nat := b.next - 1

def floor : Nat := (b.committed.toList.map Prod.snd).min?.getD b.endOffset

/-- The length of the history.  The offsets ascend, so `partition_point` gives the
records up to the first above the floor. -/
def historyLen : Nat := (b.records.takeWhile (·.offset ≤ b.floor)).length

def depth : Nat := b.records.length - b.historyLen

def depthBytes : Nat := totalBytes (b.records.drop b.historyLen)

def refreshLowWater : InMemoryBus :=
  { b with lowWater := match b.records.head? with
      | some front => front.offset - 1
      | none => b.next - 1 }

/-- The loop of `compact`, over the records with the bytes retained and the number
removed so far. -/
def expire (p : RetentionPolicy) (tick : Nat) :
    Nat → Nat → List BusRecord → Nat → Nat → List BusRecord × Nat × Nat
  | 0, _, rs, retained, removed => (rs, retained, removed)
  | _ + 1, _, [], retained, removed => ([], retained, removed)
  | history + 1, historyBytes, front :: rs, retained, removed =>
    if p.maxRecords.any (· < history + 1) ∨ p.maxBytes.any (· < historyBytes) ∨
        p.maxAgeTicks.any (· < tick - front.tick) then
      expire p tick history (historyBytes - front.sizeBytes) rs
        (retained - front.sizeBytes) (removed + 1)
    else (front :: rs, retained, removed)

def compact : Compaction × InMemoryBus :=
  let (records, retained, removed) := expire b.config.retention b.tick b.historyLen
    (totalBytes (b.records.take b.historyLen)) b.records b.retainedBytes 0
  let b := { b with records := records, retainedBytes := retained }.refreshLowWater
  (⟨removed, 0, b.lowWater⟩, b)

def advanceTick (now : Nat) : Except BusError Compaction × InMemoryBus :=
  if now < b.tick then (.error (.clockRegression b.tick now), b)
  else
    let (compaction, b) := { b with tick := now }.compact
    (.ok compaction, b)

/-- `register`: an existing consumer's offset is replaced. -/
def register (consumer : String) (start : Nat) : Except BusError Unit × InMemoryBus :=
  if b.endOffset < start then (.error (.commitBeyondEnd start b.endOffset), b)
  else if start < b.lowWater then (.error (.truncated start b.lowWater), b)
  else match validateConsumer b.committed consumer with
    | .error e => (.error e, b)
    | .ok () => (.ok (), { b with
        committed := b.committed.insert consumer start
        dropped := b.dropped.insertIfNew consumer 0 })

def fullError (limit : Limit) : BusError :=
  let blockedBy := (slowest b.committed b.endOffset).map ConsumerLag.consumer
  match limit with
  | .records => .full limit b.config.capacityRecords b.depth blockedBy
  | .bytes => .full limit (b.config.capacityBytes.getD 0) b.depthBytes blockedBy

def checkRoom (size : Nat) : Except BusError Unit :=
  if b.config.capacityRecords ≤ b.depth then .error (b.fullError .records)
  else if b.config.capacityBytes.any (· < b.depthBytes + size) then .error (b.fullError .bytes)
  else .ok ()

def countDrop (offset : Nat) : Std.ExtTreeMap String Nat :=
  b.committed.toList.foldl
    (fun m p => if p.2 < offset then m.insert p.1 (m[p.1]?.getD 0 + 1) else m) b.dropped

def evictOldestUnackedTelemetry : Option InMemoryBus :=
  match (b.records.drop b.historyLen).findIdx? (·.eventClass = .telemetry) with
  | none => none
  | some i =>
    let index := b.historyLen + i
    match b.records[index]? with
    | none => none
    | some record => some { b with
        records := b.records.eraseIdx index
        retainedBytes := b.retainedBytes - record.sizeBytes
        dropped := b.countDrop record.offset
        totalDropped := b.totalDropped + 1 }.refreshLowWater

/-- The loop of `publish`.  Every eviction takes a record, so as many rounds as there are
records are enough. -/
def makeRoom (size : Nat) (drops : Bool) : Nat → InMemoryBus → Except BusError Unit × InMemoryBus
  | 0, b => (b.checkRoom size, b)
  | rounds + 1, b =>
    match b.checkRoom size with
    | .ok () => (.ok (), b)
    | .error full =>
      match if drops then b.evictOldestUnackedTelemetry else none with
      | some b => makeRoom size drops rounds b
      | none => (.error full, b)

def publish (b : InMemoryBus) (n : NewRecord) : Except BusError Nat × InMemoryBus :=
  match validateNew n b.config.maxRecordBytes with
  | .error e => (.error e, b)
  | .ok () =>
    let b := b.compact.2
    match makeRoom n.sizeBytes (b.config.policies.forClass n.eventClass = .dropOldestTelemetry)
      b.records.length b with
    | (.error e, b) => (.error e, b)
    | (.ok (), b) => (.ok b.next, { b with
        next := b.next + 1
        retainedBytes := b.retainedBytes + n.sizeBytes
        records := b.records ++ [BusRecord.fromParts b.next b.tick n] }.refreshLowWater)

def committedOf (b : InMemoryBus) (consumer : String) : Except BusError Nat :=
  match b.committed[consumer]? with
  | some offset => .ok offset
  | none => .error (.unknownConsumer consumer)

def after (b : InMemoryBus) (offset : Nat) (limit : Nat) : List BusRecord :=
  (b.records.filter (offset < ·.offset)).take limit

def poll (b : InMemoryBus) (consumer : String) (limit : Nat) :
    Except BusError (List BusRecord) := do
  let offset ← b.committedOf consumer
  .ok (b.after offset limit)

def commit (b : InMemoryBus) (consumer : String) (upto : Nat) :
    Except BusError Unit × InMemoryBus :=
  if b.endOffset < upto then (.error (.commitBeyondEnd upto b.endOffset), b)
  else match b.committed[consumer]? with
    | none => (.error (.unknownConsumer consumer), b)
    | some committed =>
      (.ok (), { b with committed := if committed < upto then b.committed.insert consumer upto
                                      else b.committed }.compact.2)

def replay (b : InMemoryBus) (offset : Nat) (limit : Nat) : Except BusError (List BusRecord) :=
  if b.endOffset < offset then .error (.commitBeyondEnd offset b.endOffset)
  else if offset < b.lowWater then .error (.truncated offset b.lowWater)
  else .ok (b.after offset limit)

end InMemoryBus

end Ptr.Events
