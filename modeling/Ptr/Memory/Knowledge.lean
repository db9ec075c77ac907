import Ptr.Lib.Checks
import Ptr.Lib.Search
import Ptr.Types

/-!
# The knowledge store

Knowledge is held in generations: an object is admitted under its id and its
generation, and one generation of an id is current.  A generation is invalidated
together with everything that depends on it.  Each operation checks everything
first, so an operation that is refused changes nothing.
-/

namespace Ptr.Memory

open Lib Std

abbrev KnowledgeObjectId := String
abbrev RawEventId := String
abbrev EntityId := String
abbrev RetrievalKey := String
abbrev EvidenceId := String

/-- A logical id and a generation, in this order. -/
abbrev KnowledgeKey := KnowledgeObjectId × Generation

inductive KnowledgeLifecycle
  | hot | warm | cold | pod | archived | invalidated
  deriving DecidableEq

inductive ConflictState
  | none | suspected | confirmed
  deriving DecidableEq

inductive Freshness
  | current | aging | stale
  deriving DecidableEq

inductive EventRole
  | system | user | assistant | tool
  deriving DecidableEq

/-- `Probability`: a finite `f32` in `[0, 1]`, by its bits. -/
structure Probability where
  bits : U32
  bounded : bits.val ≤ 0x3f800000 ∨ bits.val = 0x80000000
  deriving DecidableEq

structure Relation where
  predicate : String
  target : KnowledgeObjectId
  deriving DecidableEq

structure ProvenanceRef where
  source : EvidenceId
  note : Option String
  deriving DecidableEq

structure KnowledgeValidity where
  validFrom : Option Timestamp
  validUntil : Option Timestamp
  deriving DecidableEq

def KnowledgeValidity.isWellFormed (v : KnowledgeValidity) : Bool :=
  match v.validFrom, v.validUntil with
  | some start, some stop => start < stop
  | _, _ => true

structure ToolCall where
  name : String
  arguments : Bytes
  deriving DecidableEq

structure RawEvent where
  id : RawEventId
  session : SessionId
  role : EventRole
  content : Bytes
  timestamp : Timestamp
  digest : Digest
  toolCall : Option ToolCall
  toolResult : Option Bytes
  deriving DecidableEq

structure KnowledgeObject where
  id : KnowledgeObjectId
  «namespace» : NamespaceId
  entities : List EntityId
  relations : List Relation
  sources : List RawEventId
  provenance : List ProvenanceRef
  generation : Generation
  supersedes : Option KnowledgeKey
  dependencies : List KnowledgeKey
  confidence : Probability
  relevance : Probability
  freshness : Freshness
  conflict : ConflictState
  lifecycle : KnowledgeLifecycle
  retrievalKeys : List RetrievalKey
  tokenCost : U32
  validity : KnowledgeValidity
  deriving DecidableEq

def KnowledgeObject.key (o : KnowledgeObject) : KnowledgeKey := (o.id, o.generation)

structure LifecycleRecord where
  key : KnowledgeKey
  lifecycle : KnowledgeLifecycle
  revision : U64

inductive KnowledgeStoreError
  | invalidRawDigest (id : RawEventId)
  | invalidToolPair (id : RawEventId)
  | conflictingRawEvent (id : RawEventId)
  | unknownObject (id : KnowledgeObjectId)
  | invalidLifecycleTransition (src dst : KnowledgeLifecycle)
  | conflictingKnowledgeGeneration (key : KnowledgeKey)
  | unknownSource (id : RawEventId)
  | invalidDependency (id : KnowledgeObjectId)
  | invalidValidity (validFrom validUntil : Option Timestamp)

structure KnowledgeStore where
  raw : ExtTreeMap RawEventId RawEvent
  objects : ExtTreeMap KnowledgeKey KnowledgeObject
  current : ExtTreeMap KnowledgeObjectId Generation
  lifecycle : ExtTreeMap KnowledgeKey LifecycleRecord
  revisions : ExtTreeMap KnowledgeObjectId U64

namespace KnowledgeStore

abbrev Checked := Except KnowledgeStoreError

/-- `KnowledgeStore::default`. -/
def empty : KnowledgeStore := ⟨∅, ∅, ∅, ∅, ∅⟩

variable (s : KnowledgeStore)

/-- A generation without a record has the state of its object, and one that is not
known counts as invalidated. -/
def lifecycleOf (key : KnowledgeKey) : KnowledgeLifecycle :=
  match s.lifecycle[key]? with
  | some record => record.lifecycle
  | none =>
    match s.objects[key]? with
    | some o => o.lifecycle
    | none => .invalidated

def recordLifecycle (key : KnowledgeKey) (lifecycle : KnowledgeLifecycle) : KnowledgeStore :=
  let revision := U64.saturatingAdd (s.revisions.getD key.1 0) 1
  { s with
    revisions := s.revisions.insert key.1 revision
    lifecycle := s.lifecycle.insert key ⟨key, lifecycle, revision⟩ }

/-- `append_raw`; the result says whether the event is new. -/
def appendRaw (sha : Bytes → Digest) (s : KnowledgeStore) (e : RawEvent) :
    Checked (Bool × KnowledgeStore) :=
  if e.digest ≠ sha e.content then .error (.invalidRawDigest e.id)
  else if e.toolResult.isSome ∧ e.toolCall.isNone then .error (.invalidToolPair e.id)
  else match s.raw[e.id]? with
    | some existing => if existing = e then .ok (false, s) else .error (.conflictingRawEvent e.id)
    | none => .ok (true, { s with raw := s.raw.insert e.id e })

def checkValidity (o : KnowledgeObject) : Checked Unit :=
  if o.validity.isWellFormed then .ok ()
  else .error (.invalidValidity o.validity.validFrom o.validity.validUntil)

/-- `register_object`: the first generation of an id becomes current.  Two objects
agree if they agree in every field, the bits of their probabilities included, which
their digests spell out. -/
def registerObject (o : KnowledgeObject) : Checked KnowledgeStore := do
  checkValidity o
  match s.objects[o.key]? with
  | some existing => if existing ≠ o then .error (.conflictingKnowledgeGeneration o.key) else .ok s
  | none => .ok { s with
      objects := s.objects.insert o.key o
      current := s.current.insertIfNew o.id o.generation }

def checkSource (source : RawEventId) : Checked Unit :=
  if source ∈ s.raw then .ok () else .error (.unknownSource source)

def checkDependency (dependency : KnowledgeKey) : Checked Unit :=
  match s.objects[dependency]? with
  | none => .error (.invalidDependency dependency.1)
  | some o =>
    if s.lifecycleOf dependency = .invalidated then .error (.invalidDependency dependency.1)
    else if o.generation ≠ dependency.2 then .error (.invalidDependency dependency.1)
    else .ok ()

/-- Only generations above 1 have to supersede: the one right below, which is held. -/
def checkSupersedes (o : KnowledgeObject) : Checked Unit :=
  if 1 < o.generation then
    match o.supersedes with
    | none => .error (.invalidDependency o.id)
    | some superseded =>
      if superseded.1 ≠ o.id ∨ U64.checkedAdd superseded.2 1 ≠ some o.generation ∨
          superseded ∉ s.objects then
        .error (.invalidDependency o.id)
      else .ok ()
  else .ok ()

def admitObject (o : KnowledgeObject) : Checked KnowledgeStore := do
  checkValidity o
  o.sources.forM s.checkSource
  o.dependencies.forM s.checkDependency
  s.checkSupersedes o
  s.registerObject o

def dependents : ExtTreeMap KnowledgeKey (List KnowledgeKey) :=
  s.objects.map fun key _ => (s.objects.toList.filter fun p => key ∈ p.2.dependencies).map Prod.fst

/-- `invalidation_closure`: a generation and all that depend on it.  Every generation
after the first comes from the objects, so only the first can be unknown. -/
def invalidationClosure (key : KnowledgeKey) : Checked (ExtTreeSet KnowledgeKey) :=
  if key ∉ s.objects then .error (.unknownObject key.1) else .ok (search s.dependents ∅ [key])

def applyInvalidation (closure : ExtTreeSet KnowledgeKey) : KnowledgeStore :=
  closure.toList.foldl (fun s key => s.recordLifecycle key .invalidated) s

def checkLink (id : KnowledgeObjectId) (generation : Generation) (o : KnowledgeObject) :
    Checked Unit :=
  if 1 < generation then
    match o.supersedes with
    | none => .error (.invalidDependency id)
    | some superseded =>
      if U64.checkedAdd superseded.2 1 ≠ some generation then .error (.invalidDependency id)
      else .ok ()
  else .ok ()

/-- The generation that was current goes, with all that depend on it, unless the new
one is among them. -/
def supersede (key : KnowledgeKey) : Checked KnowledgeStore :=
  match (s.current[key.1]?).filter (· ≠ key.2) with
  | none => .ok s
  | some previous => do
    let cascade ← s.invalidationClosure (key.1, previous)
    if key ∈ cascade then .error (.invalidLifecycleTransition (s.lifecycleOf key) .hot)
    else .ok (s.applyInvalidation cascade)

def activateGeneration (id : KnowledgeObjectId) (generation : Generation) :
    Checked KnowledgeStore :=
  match s.objects[((id, generation) : KnowledgeKey)]? with
  | none => .error (.unknownObject id)
  | some o => do
    checkLink id generation o
    if s.lifecycleOf (id, generation) = .invalidated then
      .error (.invalidLifecycleTransition .invalidated .hot)
    else do
      let s ← s.supersede (id, generation)
      let s := { s with current := s.current.insert id generation }
      -- a record that exists, such as a demotion, is kept
      .ok (if (id, generation) ∈ s.lifecycle then s
        else s.recordLifecycle (id, generation) o.lifecycle)

def lifecycleAllowed : KnowledgeLifecycle → KnowledgeLifecycle → Bool
  | .hot, .warm | .warm, .cold | .cold, .pod | .pod, .archived => true
  | _, .invalidated => true
  | _, _ => false

def invalidateGeneration (key : KnowledgeKey) : Checked KnowledgeStore := do
  let closure ← s.invalidationClosure key
  .ok (s.applyInvalidation closure)

def transition (id : KnowledgeObjectId) (dst : KnowledgeLifecycle) : Checked KnowledgeStore :=
  match s.current[id]? with
  | none => .error (.unknownObject id)
  | some generation =>
    let src := s.lifecycleOf (id, generation)
    if src = dst then .ok s
    else if !lifecycleAllowed src dst then .error (.invalidLifecycleTransition src dst)
    else if dst = .invalidated then s.invalidateGeneration (id, generation)
    else .ok (s.recordLifecycle (id, generation) dst)

def invalidate (id : KnowledgeObjectId) : Checked KnowledgeStore :=
  match s.current[id]? with
  | none => .error (.unknownObject id)
  | some generation => s.invalidateGeneration (id, generation)

end KnowledgeStore

/-- `Op`: what the journal holds, without the three operations that a compaction writes. -/
inductive KnowledgeOp
  | raw (e : RawEvent)
  | register (o : KnowledgeObject)
  | admission (o : KnowledgeObject)
  | activate (id : KnowledgeObjectId) (generation : Generation)
  | transition (id : KnowledgeObjectId) (dst : KnowledgeLifecycle)
  | invalidate (id : KnowledgeObjectId)

/-- `apply_replay`. -/
def KnowledgeStore.apply (sha : Bytes → Digest) (s : KnowledgeStore) :
    KnowledgeOp → KnowledgeStore.Checked KnowledgeStore
  | .raw e => (s.appendRaw sha e).map Prod.snd
  | .register o => s.registerObject o
  | .admission o => s.admitObject o
  | .activate id generation => s.activateGeneration id generation
  | .transition id dst => s.transition id dst
  | .invalidate id => s.invalidate id

end Ptr.Memory
