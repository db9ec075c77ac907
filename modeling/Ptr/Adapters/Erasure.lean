import Ptr.Lib.Keyed
import Ptr.Lib.Levels
import Ptr.Lib.Saturation

/-!
# Adapter lineage and erasure

Each adapter of a base model names the adapters it was trained or merged from.
`register` takes an adapter only if those are there already, so no chain of names
comes back; `affected_by` repeats passes over the adapters until a set of them stops
growing.  After any calls that set holds exactly the adapters that descend from one
trained on a revoked input, and further calls only add to it.
-/

namespace Ptr.Adapters

open Lib Std Relation List

structure BaseModel where
  id : String
  revision : String
  deriving DecidableEq

def BaseModel.display (b : BaseModel) : String := b.id ++ "@" ++ b.revision

inductive Origin
  | trained (parent : Option String)
  | consolidated (sources : ExtTreeSet String)

def Origin.named : Origin → List String
  | trained parent => parent.toList
  | consolidated sources => sources.toList

def Origin.empty : Origin → Bool
  | trained _ => false
  | consolidated sources => sources.isEmpty

inductive AdapterStatus
  | candidate | gated | serving | retired
  deriving DecidableEq

def AdapterStatus.name : AdapterStatus → String
  | candidate => "candidate"
  | gated => "gated"
  | serving => "serving"
  | retired => "retired"

structure AdapterRecord where
  id : String
  base : BaseModel
  origin : Origin
  rank : Nat
  dataManifest : ExtTreeSet String
  status : AdapterStatus

structure GateReport where
  adapter : String
  passed : Bool

inductive LineageError
  | baseMismatch (expected actual : String)
  | duplicateAdapter (id : String)
  | empty (field : String)
  | unknownAdapter (id : String)
  | invalidParameter (field message : String)
  | invalidTransition (id source target : String)
  | gateFailed (id : String)

structure Lineage where
  base : BaseModel
  adapters : ExtTreeMap String AdapterRecord

namespace Lineage

def new (base : BaseModel) : Lineage := ⟨base, ∅⟩

def put (l : Lineage) (id : String) (record : AdapterRecord) : Lineage :=
  ⟨l.base, l.adapters.insert id record⟩

def register (l : Lineage) (record : AdapterRecord) : Except LineageError Lineage :=
  if record.base ≠ l.base then .error (.baseMismatch l.base.display record.base.display)
  else if record.id ∈ l.adapters then .error (.duplicateAdapter record.id)
  else if record.origin.empty then .error (.empty "consolidation sources")
  else match record.origin.named.find? (· ∉ l.adapters) with
    | some missing => .error (.unknownAdapter missing)
    | none =>
      if record.rank = 0 then
        .error (.invalidParameter "rank" "an adapter must have rank at least 1")
      else .ok (l.put record.id { record with status := .candidate })

def transition (l : Lineage) (id : String) (source target : AdapterStatus) :
    Except LineageError Lineage := do
  let record ← okOr l.adapters[id]? (.unknownAdapter id)
  if record.status ≠ source then .error (.invalidTransition id record.status.name target.name)
  else .ok (l.put id { record with status := target })

def gate (l : Lineage) (id : String) (report : GateReport) : Except LineageError Lineage := do
  let record ← okOr l.adapters[id]? (.unknownAdapter id)
  if record.status ≠ .candidate then
    .error (.invalidTransition id record.status.name AdapterStatus.gated.name)
  else if report.adapter ≠ id ∨ ¬ report.passed then .error (.gateFailed id)
  else l.transition id .candidate .gated

def serve (l : Lineage) (id : String) : Except LineageError Lineage :=
  l.transition id .gated .serving

def retire (l : Lineage) (id : String) : Except LineageError Lineage := do
  let record ← okOr l.adapters[id]? (.unknownAdapter id)
  if record.status = .retired then .error (.invalidTransition id "retired" "retired")
  else .ok (l.put id { record with status := .retired })

def records (l : Lineage) : List AdapterRecord := l.adapters.toList.map Prod.snd

def affectedBy (l : Lineage) (revoked : ExtTreeSet String) : ExtTreeSet String :=
  saturate AdapterRecord.id (·.origin.named) l.records
    (.ofList ((l.records.filter fun r => ∃ input ∈ r.dataManifest.toList, input ∈ revoked).map
      AdapterRecord.id))

inductive Call
  | register (record : AdapterRecord)
  | gate (id : String) (report : GateReport)
  | serve (id : String)
  | retire (id : String)

def call (l : Lineage) : Call → Except LineageError Lineage
  | .register record => l.register record
  | .gate id report => l.gate id report
  | .serve id => l.serve id
  | .retire id => l.retire id

def step (l : Lineage) (c : Call) : Lineage := (l.call c).toOption.getD l

def run (base : BaseModel) (calls : List Call) : Lineage := calls.foldl step (new base)

def Descends (l : Lineage) (id source : String) : Prop :=
  ∃ record, l.adapters[id]? = some record ∧ source ∈ record.origin.named

/-- An adapter that depends on a revoked input. -/
def Tainted (l : Lineage) (revoked : ExtTreeSet String) (id : String) : Prop :=
  ∃ source record, ReflTransGen l.Descends id source ∧ l.adapters[source]? = some record ∧
    ∃ input ∈ record.dataManifest, input ∈ revoked

structure Sound (l : Lineage) : Prop where
  keyed : ∀ {id : String} {record}, l.adapters[id]? = some record → record.id = id
  closed : ∀ {id source}, l.Descends id source → source ∈ l.adapters
  acyclic : ∀ id, ¬ TransGen l.Descends id id

def Declared (old new : AdapterRecord) : Prop :=
  new.id = old.id ∧ new.origin = old.origin ∧ new.dataManifest = old.dataManifest

variable {l l' : Lineage} {c : Call} {id : String} {revoked : ExtTreeSet String}

/-- What a call can do: it adds an adapter whose sources are there, or it changes the
status of one. -/
theorem call_ok (h : l.call c = .ok l') : ∃ id record, l' = l.put id record ∧
    (id ∉ l.adapters ∧ record.id = id ∧ (∀ source ∈ record.origin.named, source ∈ l.adapters) ∨
      ∃ old, l.adapters[id]? = some old ∧ Declared old record) := by
  have htransition : ∀ {id a b}, l.transition id a b = .ok l' → ∃ record, l' = l.put id record ∧
      ∃ old, l.adapters[id]? = some old ∧ Declared old record := by
    intro id a b h
    obtain ⟨old, hold, h⟩ := bind_eq_ok.mp h
    obtain ⟨-, h⟩ := refuse_eq_ok.mp h
    cases h
    exact ⟨_, rfl, old, okOr_eq_ok.mp hold, rfl, rfl, rfl⟩
  cases c with
  | register =>
    simp only [call, register, refuse_eq_ok] at h
    obtain ⟨-, hnew, -, h⟩ := h
    split at h
    · cases h
    · next hfind =>
      obtain ⟨-, h⟩ := refuse_eq_ok.mp h
      cases h
      rw [find?_eq_none] at hfind
      exact ⟨_, _, rfl, .inl ⟨hnew, rfl, fun source hsource => by simpa using hfind source hsource⟩⟩
  | gate id =>
    obtain ⟨old, hold, h⟩ := bind_eq_ok.mp h
    simp only [refuse_eq_ok] at h
    obtain ⟨record, hput, h⟩ := htransition h.2.2
    exact ⟨id, record, hput, .inr h⟩
  | serve id =>
    obtain ⟨record, hput, h⟩ := htransition h
    exact ⟨id, record, hput, .inr h⟩
  | retire id =>
    obtain ⟨old, hold, h⟩ := bind_eq_ok.mp h
    obtain ⟨-, h⟩ := refuse_eq_ok.mp h
    cases h
    exact ⟨id, _, rfl, .inr ⟨old, okOr_eq_ok.mp hold, rfl, rfl, rfl⟩⟩

theorem Sound.call (hs : l.Sound) (h : l.call c = .ok l') :
    l'.Sound ∧ Onward Declared l.adapters l'.adapters := by
  obtain ⟨new, record, rfl, hcase⟩ := call_ok h
  have hsteps : ∀ id source, (l.put new record).Descends id source → l.Descends id source ∨
      id = new ∧ source ∈ record.origin.named := by
    rintro id source ⟨r, hr, hsource⟩
    obtain ⟨rfl, rfl⟩ | ⟨-, hr⟩ := some_of_insert hr
    · exact .inr ⟨rfl, hsource⟩
    · exact .inl ⟨r, hr, hsource⟩
  have hid : record.id = new ∧ ∀ source ∈ record.origin.named, source ∈ l.adapters := by
    rcases hcase with ⟨-, h⟩ | ⟨old, hold, hid, horigin, -⟩
    · exact h
    · exact ⟨hid.trans (hs.keyed hold), fun source h => hs.closed ⟨old, hold, horigin ▸ h⟩⟩
  refine ⟨⟨fun hr => ?_, fun h => ?_, fun id h => ?_⟩, onward_insert fun old hold => ?_⟩
  · obtain ⟨rfl, rfl⟩ | ⟨-, hr⟩ := some_of_insert hr
    · exact hid.1
    · exact hs.keyed hr
  · refine ExtTreeMap.mem_insert.mpr (.inr ?_)
    rcases hsteps _ _ h with h | ⟨-, h⟩
    · exact hs.closed h
    · exact hid.2 _ h
  · obtain h | ⟨hto, source, hsource, h⟩ := transGen_of_added hsteps h
    · exact hs.acyclic id h
    rcases hcase with ⟨hnew, -⟩ | ⟨old, hold, -, horigin, -⟩
    -- a path from a source of a new adapter to it would end in one that names it
    · rcases (h.trans hto).cases_tail with rfl | ⟨last, -, hlast⟩
      · exact hnew (hid.2 _ hsource)
      · exact hnew (hs.closed hlast)
    · exact hs.acyclic new (.head' ⟨old, hold, horigin ▸ hsource⟩ (h.trans hto))
  · rcases hcase with ⟨hnew, -⟩ | ⟨old', hold', hd⟩
    · exact absurd (mem_of_some hold) hnew
    · cases hold.symm.trans hold'
      exact hd

theorem Sound.foldl_step (hs : l.Sound) (calls : List Call) :
    (calls.foldl step l).Sound ∧ Onward Declared l.adapters (calls.foldl step l).adapters := by
  induction calls generalizing l with
  | nil => exact ⟨hs, .refl⟩
  | cons c calls ih =>
    rw [foldl_cons, step]
    cases h : l.call c with
    | error => exact ih hs
    | ok =>
      obtain ⟨hs, hd⟩ := hs.call h
      obtain ⟨hs', hd'⟩ := ih hs
      exact ⟨hs',
        hd.trans (fun h h' => ⟨h'.1.trans h.1, h'.2.1.trans h.2.1, h'.2.2.trans h.2.2⟩) hd'⟩

theorem sound_run (base : BaseModel) (calls : List Call) : (run base calls).Sound := by
  refine (Sound.foldl_step ⟨fun h => ?_, fun h => ?_, fun id h => ?_⟩ calls).1
  · simp [new] at h
  · simp [Descends, new] at h
  · obtain ⟨_, h, -⟩ := TransGen.head'_iff.mp h
    simp [Descends, new] at h

theorem Tainted.mono (ho : Onward Declared l.adapters l'.adapters) (h : l.Tainted revoked id) :
    l'.Tainted revoked id := by
  have hkept : ∀ {id : String} {record}, l.adapters[id]? = some record →
      ∃ new, l'.adapters[id]? = some new ∧ Declared record new := by
    intro id record hr
    obtain ⟨new, hnew, rfl | hd⟩ := ho hr
    · exact ⟨new, hnew, rfl, rfl, rfl⟩
    · exact ⟨new, hnew, hd⟩
  obtain ⟨source, record, hpath, hr, input, hinput⟩ := h
  obtain ⟨new, hnew, -, -, hmanifest⟩ := hkept hr
  refine ⟨source, new, ReflTransGen.mono (fun a b ⟨r, hr, hb⟩ => ?_) _ _ hpath, hnew, input,
    hmanifest ▸ hinput⟩
  obtain ⟨new, hnew, -, horigin, -⟩ := hkept hr
  exact ⟨new, hnew, horigin ▸ hb⟩

theorem Sound.mem_affectedBy (hs : l.Sound) : id ∈ l.affectedBy revoked ↔ l.Tainted revoked id := by
  have hrecords : ∀ r, r ∈ l.records ↔ l.adapters[r.id]? = some r := by
    intro r
    simp only [records, mem_map, Prod.exists, exists_eq_right,
      ExtTreeMap.mem_toList_iff_getElem?_eq_some]
    refine ⟨fun ⟨id, h⟩ => ?_, fun h => ⟨_, h⟩⟩
    rwa [hs.keyed h]
  have hnamed : Named AdapterRecord.id (·.origin.named) l.records = Function.swap l.Descends := by
    funext a k
    refine propext ⟨fun ⟨r, hr, hk, ha⟩ => ⟨r, hk ▸ (hrecords r).mp hr, ha⟩, fun ⟨r, hr, ha⟩ => ?_⟩
    obtain rfl := hs.keyed hr
    exact ⟨r, (hrecords r).mpr hr, rfl, ha⟩
  rw [affectedBy, mem_saturate, hnamed]
  simp only [ExtTreeSet.mem_ofList, contains_iff_mem, mem_map, mem_filter, hrecords,
    decide_eq_true_eq, ExtTreeSet.mem_toList, reflTransGen_swap, Tainted]
  constructor
  · rintro ⟨_, ⟨r, ⟨hr, hinput⟩, rfl⟩, hpath⟩
    exact ⟨r.id, r, hpath, hr, hinput⟩
  · rintro ⟨source, r, hpath, hr, hinput⟩
    obtain rfl := hs.keyed hr
    exact ⟨r.id, ⟨r, ⟨hr, hinput⟩, rfl⟩, hpath⟩

/-- **Erasure reaches exactly the dependents**, after any calls, and further calls never
take an adapter out of the set. -/
theorem erasure_reaches_dependents (base : BaseModel) (calls : List Call) :
    (∀ id, ¬ TransGen (run base calls).Descends id id) ∧
    (∀ revoked id, id ∈ (run base calls).affectedBy revoked ↔ (run base calls).Tainted revoked id) ∧
    ∀ more revoked id, id ∈ (run base calls).affectedBy revoked →
      id ∈ (run base (calls ++ more)).affectedBy revoked := by
  have hs := sound_run base calls
  refine ⟨hs.acyclic, fun revoked id => hs.mem_affectedBy, fun more revoked id h => ?_⟩
  obtain ⟨hs', hdeclared⟩ := hs.foldl_step more
  rw [run, foldl_append]
  exact hs'.mem_affectedBy.mpr ((hs.mem_affectedBy.mp h).mono hdeclared)

end Lineage

end Ptr.Adapters
