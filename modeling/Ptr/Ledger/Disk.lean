import Ptr.Ledger.Integrity
import Ptr.Lib.Fault
import Ptr.Lib.DiskFile
import Ptr.Lib.Keyed

/-!
# The files of an acknowledged ledger

One directory with the logs of one path set, named by their compaction floor,
the protected anchor and the scratch file of its publication.  Each operation on
a file is one step that may fail or be interrupted.  A rename is atomic and
stays once it took effect; `published` remembers the contents that renames made
visible at the anchor's path, in order.
-/

namespace Ptr.Ledger

open Lib DiskFile

structure Disk where
  /-- `LogPaths::log_path`: the floor is the name. -/
  logs : Std.ExtTreeMap CommitIndex DiskFile
  anchor : Option DiskFile
  scratch : Option DiskFile
  published : List Bytes

/-- File steps, any of which may fail. -/
abbrev DiskProg := Prog Disk IoError

namespace Disk

def empty : Disk := ⟨∅, none, none, []⟩

def ioFailure : IoError := ⟨.other, "input/output error"⟩

def setLog (i : CommitIndex) (f : DiskFile) (d : Disk) : Disk :=
  { d with logs := d.logs.insert i f }

def mapLog (i : CommitIndex) (g : DiskFile → DiskFile) (d : Disk) : Disk :=
  match d.logs[i]? with
  | some f => d.setLog i (g f)
  | none => d

def eraseLog (i : CommitIndex) (d : Disk) : Disk := { d with logs := d.logs.erase i }

def install (d : Disk) : Disk :=
  match d.scratch with
  | some f => { d with anchor := some f, scratch := none, published := d.published ++ [f.content] }
  | none => d

/-! ### Steps -/

def atomic (g : Disk → Disk) : DiskProg Unit := Prog.atomic ioFailure g

def logStep (i : CommitIndex) (done : DiskFile → DiskFile) (part : Nat → DiskFile → DiskFile) :
    DiskProg Unit :=
  Prog.step ioFailure (mapLog i done) fun k => mapLog i (part k)

def writeAll (i : CommitIndex) (bs : Bytes) : DiskProg Unit :=
  logStep i (write bs) fun k => write (bs.take k)

def syncLog (i : CommitIndex) : DiskProg Unit := logStep i sync syncPart

def setLen (i : CommitIndex) (n : Nat) : DiskProg Unit :=
  logStep i (truncate n) fun k f => if k = 0 then f else f.truncate n

def createNew (i : CommitIndex) : DiskProg Unit := do
  let d ← Prog.get
  if (d.logs[i]?).isSome then Prog.throw ⟨.alreadyExists, "file exists"⟩
  else atomic (setLog i DiskFile.empty)

/-- A step that changes nothing: a lock, a read, a directory sync. -/
def touch : DiskProg Unit := atomic id

def removeFile (i : CommitIndex) : DiskProg Unit := atomic (eraseLog i)

def scratchStep (done : DiskFile → DiskFile) (part : Nat → DiskFile → DiskFile) :
    DiskProg Unit :=
  Prog.step ioFailure (fun d => { d with scratch := d.scratch.map done })
    fun k d => { d with scratch := d.scratch.map (part k) }

/-- `write_atomically`: write and synchronize the scratch file, rename it over
the anchor, synchronize the directory. -/
def writeAtomically (bytes : Bytes) : DiskProg Unit := do
  atomic fun d => { d with scratch := some DiskFile.empty }
  scratchStep (DiskFile.write bytes) fun k => DiskFile.write (bytes.take k)
  scratchStep DiskFile.sync DiskFile.syncPart
  atomic install
  touch

/-! ### What a step does to one log -/

@[simp] theorem getElem?_setLog_self (i : CommitIndex) (f : DiskFile) (d : Disk) :
    (d.setLog i f).logs[i]? = some f := by simp [setLog]

variable {r : Outcome IoError Unit} {d : Disk} {i : CommitIndex} {f : DiskFile}

theorem getElem?_setLog_ne {j} (h : j ≠ i) (f : DiskFile) (d : Disk) :
    (d.setLog i f).logs[j]? = d.logs[j]? :=
  getElem?_insert_ne h.symm

@[simp] theorem setLog_setLog (i : CommitIndex) (f g : DiskFile) (d : Disk) :
    (d.setLog i f).setLog i g = d.setLog i g := by
  simp only [setLog, Disk.mk.injEq, and_true]
  refine Std.ExtTreeMap.ext_getElem? fun j => ?_
  simp only [Std.ExtTreeMap.getElem?_insert]
  split <;> rfl

theorem setLog_eq_self (h : d.logs[i]? = some f) :
    d.setLog i f = d := by
  rw [setLog, insert_eq_self h]

theorem mapLog_of_some {g} (h : d.logs[i]? = some f) :
    d.mapLog i g = d.setLog i (g f) := by rw [mapLog, h]

section

variable {α : Type} {Q : α → Disk → Prop} {W : Option IoError → Disk → Prop}
  {done : DiskFile → DiskFile}
  {part : Nat → DiskFile → DiskFile} {k : Unit → DiskProg α}

/-- **A step on one log**: the log is changed wholly or in part, and nothing
else is. -/
theorem leads_logStep {Q : Unit → Disk → Prop} (hf : d.logs[i]? = some f)
    (hpart : ∀ n w, W w (d.setLog i (part n f))) (h : Q () (d.setLog i (done f))) :
    (logStep i done part).Leads d Q W := by
  rw [← mapLog_of_some hf] at h
  exact Prog.leads_step h fun n w => by rw [mapLog_of_some hf]; exact hpart n w

theorem leads_logStep_bind (hf : d.logs[i]? = some f) (hpart : ∀ n w, W w (d.setLog i (part n f)))
    (hk : (k ()).Leads (d.setLog i (done f)) Q W) : (logStep i done part >>= k).Leads d Q W := by
  refine (leads_logStep (Q := fun _ d' => d' = d.setLog i (done f)) hf hpart rfl).bind ?_
  rintro _ _ rfl
  exact hk

/-- A further step on a log. -/
theorem leads_setLog {Q : Unit → Disk → Prop} (hpart : ∀ n w, W w (d.setLog i (part n f)))
    (h : Q () (d.setLog i (done f))) : (logStep i done part).Leads (d.setLog i f) Q W :=
  leads_logStep (getElem?_setLog_self i f d) (by simpa using hpart) (by simpa using h)

theorem leads_setLog_bind (hpart : ∀ n w, W w (d.setLog i (part n f)))
    (hk : (k ()).Leads (d.setLog i (done f)) Q W) :
    (logStep i done part >>= k).Leads (d.setLog i f) Q W :=
  leads_logStep_bind (getElem?_setLog_self i f d) (by simpa using hpart) (by simpa using hk)

theorem leads_touch : touch.Leads d (fun _ d' => d' = d) fun _ d' => d' = d :=
  Prog.leads_atomic rfl (fun _ => rfl) fun _ => rfl

theorem leads_touch_bind (hW : ∀ w, W w d) (hk : (k ()).Leads d Q W) : (touch >>= k).Leads d Q W :=
  Prog.leads_atomic_bind hW hW hk

end

theorem touch_succeeds : touch.Succeeds d := Prog.succeeds_step ..

/-- The record `bytes` has become visible at the anchor's path. -/
def Published (bytes : Bytes) (d d' : Disk) : Prop :=
  d'.logs = d.logs ∧ d'.anchor = some (.synced bytes) ∧ d'.published = d.published ++ [bytes]

def Quiet (d d' : Disk) : Prop :=
  d'.logs = d.logs ∧ d'.anchor = d.anchor ∧ d'.published = d.published

/-- **A publication either becomes visible as a whole or leaves the anchor as it
was**, and an error does not say which. -/
theorem leads_writeAtomically {bytes} : (writeAtomically bytes).Leads d (fun _ => Published bytes d)
    fun _ d' => Quiet d d' ∨ Published bytes d d' := by
  have hquiet : ∀ s, Quiet d { d with scratch := s } := fun _ => ⟨rfl, rfl, rfl⟩
  refine Prog.leads_atomic_bind (fun _ => .inl (hquiet _)) (fun _ => .inl (hquiet _)) ?_
  refine Prog.leads_step_bind (fun _ _ => .inl (hquiet _))
    (Prog.leads_step_bind (fun _ _ => .inl (hquiet _)) ?_)
  -- the scratch file now holds exactly the record, synchronized
  have hnew :
      Published bytes d { d with scratch := some (DiskFile.empty.write bytes).sync }.install := by
    simp [Published, install, DiskFile.sync, DiskFile.empty]
  exact Prog.leads_atomic_bind (fun _ => .inl (hquiet _)) (fun _ => .inr hnew)
    (leads_touch.imp (fun _ _ h => h ▸ hnew) fun _ _ h => .inr (h ▸ hnew))

theorem writeAtomically_succeeds (bytes : Bytes) : (writeAtomically bytes).Succeeds d := by
  refine Prog.succeeds_bind (Prog.succeeds_step ..) fun _ _ _ => ?_
  refine Prog.succeeds_bind (Prog.succeeds_step ..) fun _ _ _ => ?_
  refine Prog.succeeds_bind (Prog.succeeds_step ..) fun _ _ _ => ?_
  exact Prog.succeeds_bind (Prog.succeeds_step ..) fun _ _ _ => touch_succeeds

end Disk

end Ptr.Ledger
