import Ptr.Raft.Durable

/-!
# Several writers on one raft directory

A directory may be shared by writers that do not know of each other: each has its
own copy of the state in memory, and the log file that it opened may have been
replaced under it.  What orders them is the fence in the state file, the highest
term that has claimed the storage, which every write reads from the disk first.

* `exec_along`: no operation takes the fence back, however it ends.
* `exec_refuses`: an operation that presents a term below the fence is refused,
  and nothing changes.
* `fence_keeps_out`: both, for any number of writers and any order of their
  operations.
-/

namespace Ptr.Raft

open Lib Ledger Files Prog RaftDisk Relation

variable {sha : Bytes → Digest} {c c' : Core} {d d' : RaftDisk}

/-! ### The fence does not go down -/

/-- A fence that was read before and one that is read after.  A state file that
cannot be read stays so. -/
def FenceLe (a b : Except IoError U64) : Prop := ∀ f', b = .ok f' → ∃ f, a = .ok f ∧ f ≤ f'

instance fenceLePreorder : IsPreorder (Except IoError U64) FenceLe where
  refl _ f h := ⟨f, h, le_refl f⟩
  trans _ _ _ hab hbc f h := by
    obtain ⟨g, hg, hgf⟩ := hbc f h
    obtain ⟨k, hk, hkg⟩ := hab g hg
    exact ⟨k, hk, hkg.trans hgf⟩

theorem fenceOnDisk_of_state (h : d'.file .state = d.file .state) :
    fenceOnDisk sha d' = fenceOnDisk sha d := by
  rw [fenceOnDisk, fenceOnDisk, h]

def Rising {α : Type} (sha : Bytes → Digest) (p : FileProg α) : Prop :=
  p.Along (fenceOnDisk sha) FenceLe

def Claims {α : Type} (sha : Bytes → Digest) (p : StorageProg α) : Prop :=
  p.Along (fun s => fenceOnDisk sha s.2) FenceLe

theorem Rising.onDisk {α : Type} {p : FileProg α} (hp : Rising sha p) : Claims sha (onDisk p) := by
  rintro ⟨c, d⟩ r s' he
  obtain ⟨d', hd, rfl⟩ := ends_zoom he
  exact hp d r d' hd

theorem claims_modifyCore (g : Core → Core) : Claims sha (modifyCore g) := along_modify fun _ => rfl

theorem Claims.orElse {p} (hp : Claims sha p) (g : Core → Core) :
    Claims sha (orElse g p) := Along.onErr hp fun _ => rfl

theorem claims_refuseIfPoisoned : Claims sha refuseIfPoisoned :=
  along_get.bind fun s => by
    cases s.1.health with
    | sound => exact along_pure ()
    | poisoned => exact along_throw _

theorem claims_fencedTo : Claims sha (fencedTo sha) :=
  along_get.bind fun _ => (along_ofExcept _).bind fun _ => (along_ofExcept _).bind fun _ =>
    along_pure _

/-- **The state file is replaced under the fence that it carries.** -/
theorem claims_persistState : Claims sha (persistState sha) := by
  rintro ⟨c, d⟩ r ⟨c', d'⟩ he
  have hwritten : ∀ {f d'}, Written sha c f d d' →
      FenceLe (fenceOnDisk sha d) (fenceOnDisk sha d') := by
    intro f d' hw f' hf'
    refine ⟨f, hw.fence, ?_⟩
    -- the file that was written has the larger of the two terms
    rw [fenceOnDisk, hw.state] at hf'
    obtain ⟨image, hread, hfence⟩ := bind_eq_ok.mp hf'
    rw [← Except.ok.inj hfence, eq_of_readState hread]
    exact le_max_left ..
  refine (leads_persistState.imp (fun _ _ h => ?_) fun _ _ h => ?_).always
    (S := fun s => FenceLe (fenceOnDisk sha d) (fenceOnDisk sha s.2)) he
  · obtain ⟨f, hw, -⟩ := h
    exact hwritten hw
  · rcases h with ⟨-, hsame⟩ | ⟨f, hw, -⟩
    · rw [fenceOnDisk_of_state (hsame Digest.zero).state]
      exact refl_of FenceLe _
    · exact hwritten hw

theorem claims_replaceState (g : Core → Core) : Claims sha (replaceState sha g) :=
  along_get.bind fun _ => (claims_modifyCore _).bind fun _ => claims_persistState.orElse _

theorem rising_writeFile {n} (hn : n.Scratch) (bs : Bytes) : Rising sha (writeFile n bs) :=
  along_of_leads fun _ => (leads_writeFile hn).imp
    (fun _ _ h => fenceOnDisk_of_state (h ▸ file_put_ne hn.1.symm))
    fun _ _ h => fenceOnDisk_of_state (h Digest.zero).state

theorem rising_writePayload (g : Digest) (bs : Bytes) : Rising sha (writePayload g bs) :=
  along_of_leads fun _ => leads_writePayload.imp
    (fun _ _ h => fenceOnDisk_of_state (h.others .state nofun nofun)) fun _ _ h => by
      rcases h with hsame | h
      · exact fenceOnDisk_of_state (hsame Digest.zero).state
      · exact fenceOnDisk_of_state (h.others .state nofun nofun)

theorem rising_syncDir : Rising sha syncDir :=
  along_of_leads fun _ => leads_syncDir.imp (fun _ _ h => by rw [h]) fun _ _ h => by rw [h]

theorem rising_removeOtherPayloads (g : Digest) : Rising sha (removeOtherPayloads g) :=
  along_of_leads fun _ => leads_removeOtherPayloads.imp (fun _ _ h => fenceOnDisk_of_state h.state)
    fun _ _ h => fenceOnDisk_of_state h.2.state

theorem fenceOnDisk_mapLog (g : DiskFile → DiskFile) (d : RaftDisk) :
    fenceOnDisk sha (d.mapLog g) = fenceOnDisk sha d := by
  rw [mapLog]
  split <;> rfl

theorem rising_logStep (done : DiskFile → DiskFile) (part : Nat → DiskFile → DiskFile) :
    Rising sha (logStep done part) :=
  along_step (fenceOnDisk_mapLog _) fun _ => fenceOnDisk_mapLog _

theorem rising_moveLog : Rising sha (allOrNothing ioFailure moveLog) :=
  along_allOrNothing fun d => fenceOnDisk_of_state <| by
    rw [moveLog]
    split
    · exact file_remove_ne FileName.noConfusion
    · rfl

theorem rising_rewriteLog (es : List Entry) : Rising sha (rewriteLog sha es) :=
  (rising_writeFile scratch_logRewrite _).bind fun _ => rising_moveLog.bind fun _ => rising_syncDir

theorem claims_append (es : List Entry) : Claims sha (Files.append sha es) := by
  refine claims_refuseIfPoisoned.bind fun _ => ?_
  cases es with
  | nil => exact along_pure ()
  | cons =>
    refine claims_fencedTo.bind fun _ => along_get.bind fun s => (along_ofExcept _).bind fun _ => ?_
    refine (along_ofExcept _).bind fun _ => Claims.orElse ?_ _
    have hshorten : ∀ keep start, Claims sha (shorten keep start) := fun keep start =>
      along_get.bind fun s => by
        split
        · exact (rising_logStep _ _).onDisk
        · exact along_pure ()
    refine (hshorten _ _).bind fun _ => (rising_logStep _ _).onDisk.bind fun _ => ?_
    exact (rising_logStep _ _).onDisk.bind fun _ => claims_modifyCore _

theorem claims_replaceSnapshot (next : Stored → Stored) (data : Bytes) {log}
    (hlog : Claims sha log) :
    Claims sha (replaceSnapshot sha next data log) := by
  refine claims_fencedTo.bind fun _ => (rising_writePayload _ _).onDisk.bind fun _ => ?_
  refine (claims_replaceState _).bind fun _ => (claims_modifyCore _).bind fun _ => ?_
  exact (rising_removeOtherPayloads _).onDisk.bind fun _ => hlog.orElse _

theorem claims_resetLog : Claims sha (resetLog sha) :=
  (rising_rewriteLog []).onDisk.bind fun _ => claims_modifyCore _

theorem claims_compactTo (index : U64) : Claims sha (compactTo sha index) :=
  along_get.bind fun s => by
    dsimp only
    split
    · exact along_pure ()
    split
    · exact along_throw _
    · refine (rising_writeFile scratch_logRewrite _).onDisk.bind fun _ => ?_
      refine rising_moveLog.onDisk.bind fun _ => (claims_modifyCore _).bind fun _ => ?_
      exact rising_syncDir.onDisk

theorem claims_recordSnapshotWithin (index : U64) (data : Bytes) (floor : CommitIndex) :
    Claims sha (Files.recordSnapshotWithin sha index data floor) :=
  claims_refuseIfPoisoned.bind fun _ => along_get.bind fun _ => (along_ofExcept _).bind fun _ =>
    claims_replaceSnapshot _ _ (claims_compactTo index)

/-- **No operation takes the fence back.** -/
theorem exec_along (op : Op) : Claims sha (op.exec sha) := by
  cases op with
  | append es => exact claims_append es
  | setHardState | setCommit | setAppliedEvents | setConfState => exact claims_replaceState _
  | applySnapshot =>
    exact claims_refuseIfPoisoned.bind fun _ => along_get.bind fun _ =>
      (along_ofExcept _).bind fun _ =>
      claims_replaceSnapshot _ _ claims_resetLog
  | recordSnapshotWithin index data floor => exact claims_recordSnapshotWithin index data floor
  | recordSnapshot index data =>
    exact claims_refuseIfPoisoned.bind fun _ => along_get.bind fun _ =>
      (along_ofExcept _).bind fun _ =>
      claims_recordSnapshotWithin index data _

/-! ### Openings -/

theorem rising_prepare : Rising sha prepare :=
  along_of_leads fun d => by
    have hstate : ∀ {d'}, Prepared d d' → fenceOnDisk sha d' = fenceOnDisk sha d := by
      rintro d' (hsame | ⟨-, hd⟩)
      · exact fenceOnDisk_of_state (hsame Digest.zero).state
      · exact fenceOnDisk_of_state hd.state
    exact leads_prepare.imp (fun _ _ h => hstate h.1) fun _ _ => hstate

theorem rising_reopen : Rising sha (reopen sha) := by
  have hread : Rising sha (readFiles sha) := by
    refine along_get.bind fun _ => (along_ofExcept _).bind fun _ =>
      (along_ofExcept _).bind fun _ => ?_
    refine (rising_removeOtherPayloads _).bind fun _ => (rising_logStep _ _).bind fun _ => ?_
    exact along_get.bind fun _ => (along_ofExcept _).bind fun _ => along_pure _
  refine hread.bind fun x => ?_
  have hcut : Rising sha (cutTail x.2.2) := by
    rw [cutTail]
    split
    · exact along_pure ()
    · exact (rising_logStep _ _).bind fun _ => rising_logStep _ _
  refine hcut.bind fun _ => ?_
  have hsettle : Rising sha (settleLog sha x.1.applied x.2.2) := by
    rw [settleLog]
    split
    · exact (rising_rewriteLog _).bind fun _ => along_pure _
    · exact along_pure _
  exact hsettle.bind fun _ => along_pure _

theorem rising_startFresh (voters learners : List U64) :
    Rising sha (startFresh sha voters learners) := by
  refine along_get.bind fun d => ?_
  split
  · exact along_throw _
  refine Along.bind ((rising_logStep _ _).bind fun _ => rising_logStep _ _) fun _ => ?_
  refine Along.bind ?_ fun _ => along_pure _
  intro d r d' he
  obtain ⟨r0, c', hper, -⟩ := ends_withLocal he
  exact claims_persistState _ r0 _ hper

/-- **Nor does an opening.** -/
theorem openStorage_along (voters learners : List U64) :
    Rising sha (openStorage sha voters learners) := by
  refine rising_prepare.bind fun _ => along_get.bind fun d => ?_
  cases d.file .state with
  | some => exact rising_reopen
  | none => exact rising_startFresh voters learners

/-! ### Writers behind the fence -/

/-- The term that an operation presents to the fence: the one that the writer is at
when its state is written. -/
def Op.presents (op : Op) (c : Core) : U64 :=
  match op with
  | .setHardState h => h.term
  | _ => c.held.hardState.term

theorem refuses_guarded {p : Unit → StorageProg Unit} (hp : (p ()).Refuses (c, d)) :
    (refuseIfPoisoned >>= p).Refuses (c, d) := by
  cases hc : c.health with
  | sound =>
    have hrun : (refuseIfPoisoned >>= p) (c, d) = p () (c, d) := by
      funext fs
      simp [refuseIfPoisoned, Bind.bind, Prog.bind, Prog.get, hc, Pure.pure, Prog.pure]
    intro fs
    rw [hrun]
    exact hp fs
  | poisoned =>
    refine Prog.Refuses.bind fun fs => ⟨storagePoisoned, ?_⟩
    simp [refuseIfPoisoned, Bind.bind, Prog.bind, Prog.get, hc, Prog.throw]

/-- **The fence refuses** a writer at a lower term. -/
theorem refuses_fencedTo {f} (hf : fenceOnDisk sha d = .ok f) (hc : c.held.hardState.term < f) :
    (fencedTo sha).Refuses (c, d) := by
  refine refuses_get_bind (refuses_ofExcept_bind fun g hg => ?_)
  obtain rfl := Except.ok.inj (hf.symm.trans hg)
  refine refuses_ofExcept_bind fun _ hx => ?_
  rw [Store.checkFence, if_pos hc] at hx
  cases hx

theorem refuses_replaceState {f : U64} {g} (hf : fenceOnDisk sha d = .ok f)
    (hg : (g c).health = c.health) (hc : (g c).held.hardState.term < f) :
    (replaceState sha g).Refuses (c, d) := by
  have hpersist : (persistState sha).Refuses (g c, d) :=
    refuses_guarded (refuses_fencedTo hf hc).bind
  intro fs
  obtain ⟨e, hrun⟩ := hpersist fs
  refine ⟨e, ?_⟩
  -- memory is put back as it was
  have hback : Core.restore c (g c) = c := by rw [Core.restore, hg]
  simp [replaceState, modifyCore, orElse, Bind.bind, Prog.bind, Prog.get, Prog.modify,
    Prog.onErr, hrun, hback]

theorem refuses_recordSnapshotWithin {f : U64} {index} {data : Bytes} {floor}
    (hf : fenceOnDisk sha d = .ok f) (hc : c.held.hardState.term < f) :
    (Files.recordSnapshotWithin sha index data floor).Refuses (c, d) :=
  refuses_guarded
    (refuses_get_bind (refuses_ofExcept_bind fun _ _ => (refuses_fencedTo hf hc).bind))

/-- **An operation below the fence is refused**, unless it has nothing to do. -/
theorem exec_refuses {op : Op} {f} (hf : fenceOnDisk sha d = .ok f) (hop : op.presents c < f)
    (hne : op ≠ .append []) : (op.exec sha).Refuses (c, d) := by
  cases op with
  | append es =>
    cases es with
    | nil => exact (hne rfl).elim
    | cons => exact refuses_guarded (refuses_fencedTo hf hop).bind
  | setHardState | setCommit | setAppliedEvents | setConfState =>
    exact refuses_replaceState hf rfl hop
  | applySnapshot =>
    exact refuses_guarded
      (refuses_get_bind (refuses_ofExcept_bind fun _ _ => (refuses_fencedTo hf hop).bind))
  | recordSnapshotWithin => exact refuses_recordSnapshotWithin hf hop
  | recordSnapshot =>
    exact refuses_guarded (refuses_get_bind
      (refuses_ofExcept_bind fun _ _ => refuses_recordSnapshotWithin hf hop))

theorem append_nil_unchanged {r} (he : ((Op.append []).exec sha).Ends (c, d) r (c', d')) :
    c' = c ∧ d' = d := by
  have hsame := leads_guarded (c := c) (d := d) (p := fun _ => Pure.pure ())
    (U := fun _ x => x = (c, d)) (W := fun _ x => x = (c, d)) (fun _ => leads_pure rfl) fun _ => rfl
  exact Prod.mk.inj (hsame.always he)

/-! ### Any number of writers -/

structure Shared where
  writers : List Core
  disk : RaftDisk

/-- The files as a writer sees them whose open log is `log`; a rename by another
writer may have taken that file out of the directory. -/
def RaftDisk.throughLog (d : RaftDisk) (log : Option DiskFile) : RaftDisk := { d with log := log }

/-- What can happen on a shared directory: a writer opens it, makes an operation that
returns or stops, or leaves.  The log that an operation works on is the one in the
directory or any other. -/
inductive SharedStep (sha : Bytes → Digest) : Shared → Shared → Prop
  | opened {s : Shared} {voters learners : List U64} {c : Core} {d' : RaftDisk} :
      (openStorage sha voters learners).Ends s.disk (.ok c) d' →
      SharedStep sha s ⟨s.writers ++ [c], d'⟩
  | openFailed {s : Shared} {voters learners : List U64} {r : Outcome IoError Core}
    {d' : RaftDisk} :
      (openStorage sha voters learners).Ends s.disk r d' → r.Failed →
      SharedStep sha s ⟨s.writers, d'⟩
  | called {s : Shared} {i : Nat} {op : Op} {r : Outcome IoError Unit} {c c' : Core} {d' : RaftDisk}
      {log log' : Option DiskFile} :
      s.writers[i]? = some c → (op.exec sha).Ends (c, s.disk.throughLog log) r (c', d') →
        r ≠ .crash → (log' = s.disk.log ∨ log' = d'.log) →
        SharedStep sha s ⟨s.writers.set i c', d'.throughLog log'⟩
  | stopped {s : Shared} {i : Nat} {op : Op} {c c' : Core} {d' : RaftDisk}
    {log log' : Option DiskFile} :
      s.writers[i]? = some c → (op.exec sha).Ends (c, s.disk.throughLog log) .crash (c', d') →
        (log' = s.disk.log ∨ log' = d'.log) →
        SharedStep sha s ⟨s.writers.eraseIdx i, d'.throughLog log'⟩
  | left {s : Shared} {i : Nat} : SharedStep sha s ⟨s.writers.eraseIdx i, s.disk⟩

theorem fence_throughLog {op : Op} {r} {log log' : Option DiskFile}
    (he : (op.exec sha).Ends (c, d.throughLog log) r (c', d')) :
    FenceLe (fenceOnDisk sha d) (fenceOnDisk sha (d'.throughLog log')) := exec_along op _ _ _ he

theorem SharedStep.fence {s s'} (hstep : SharedStep sha s s') :
    FenceLe (fenceOnDisk sha s.disk) (fenceOnDisk sha s'.disk) := by
  cases hstep with
  | opened he | openFailed he => exact openStorage_along _ _ _ _ _ he
  | called _ he | stopped _ he => exact fence_throughLog he
  | left => exact refl_of FenceLe _

theorem run_fence {s s'} (run : ReflTransGen (SharedStep sha) s s') :
    FenceLe (fenceOnDisk sha s.disk) (fenceOnDisk sha s'.disk) := by
  induction run with
  | refl => exact refl_of FenceLe _
  | tail _ hstep ih => exact trans_of FenceLe ih hstep.fence

/-- **The fence keeps out every writer behind it.**  Whatever the writers of a
directory do, the fence on the disk is never lower later on; and an operation of any
of them that presents a lower term changes no file and no memory and reports an
error, unless it is an append of nothing. -/
theorem fence_keeps_out {s s' : Shared} (run : ReflTransGen (SharedStep sha) s s') :
    (∀ f', fenceOnDisk sha s'.disk = .ok f' → ∃ f, fenceOnDisk sha s.disk = .ok f ∧ f ≤ f') ∧
    ∀ c ∈ s'.writers, ∀ (op : Op) (f : U64), fenceOnDisk sha s'.disk = .ok f → op.presents c < f →
      ∀ log r c' d', (op.exec sha).Ends (c, s'.disk.throughLog log) r (c', d') →
        c' = c ∧ d' = s'.disk.throughLog log ∧ (op ≠ .append [] → ∃ e, r = .err e) := by
  refine ⟨run_fence run, fun c _ op f hf hop log r c' d' he => ?_⟩
  by_cases hnil : op = .append []
  · subst hnil
    obtain ⟨rfl, rfl⟩ := append_nil_unchanged he
    exact ⟨rfl, rfl, fun h => (h rfl).elim⟩
  · have hlog : fenceOnDisk sha (s'.disk.throughLog log) = .ok f := hf
    obtain ⟨herr, hs⟩ := (exec_refuses hlog hop hnil).ends he
    obtain ⟨rfl, rfl⟩ := Prod.mk.inj hs
    exact ⟨rfl, rfl, fun _ => herr⟩

/-! ### Two writers -/

theorem second_writer {voters learners} {op : Op} {c₁ c₂ c₃} {d₁ d₂ d₃ : RaftDisk}
    (h₁ : (openStorage sha voters learners).Ends .empty (.ok c₁) d₁)
    (h₂ : (openStorage sha voters learners).Ends d₁ (.ok c₂) d₂)
    (h₃ : (op.exec sha).Ends (c₂, d₂) (.ok ()) (c₃, d₃)) :
    ReflTransGen (SharedStep sha) ⟨[], .empty⟩ ⟨[c₁, c₃], d₃⟩ := by
  have hcall : SharedStep sha ⟨[c₁, c₂], d₂⟩ ⟨[c₁, c₃], d₃⟩ :=
    @SharedStep.called sha ⟨[c₁, c₂], d₂⟩ 1 op _ c₂ c₃ d₃ d₂.log d₃.log rfl h₃ nofun (.inr rfl)
  exact ((ReflTransGen.single (.opened h₁)).tail (.opened h₂)).tail hcall

def rivals.second : Outcome IoError Core × RaftDisk × List Fault :=
  openStorage blankHash [1] [] torn.opened.2.1 []

def rivals.claim : Outcome IoError Unit × (Core × RaftDisk) × List Fault :=
  (Op.setHardState ⟨7, 0, 0⟩).exec blankHash (torn.core, rivals.second.2.1) []

def rivals.shared : Shared := ⟨[torn.core, rivals.claim.2.1.1], rivals.claim.2.1.2⟩

theorem rivals.run : ReflTransGen (SharedStep blankHash) ⟨[], .empty⟩ rivals.shared := by
  have hfirst : torn.opened.1 = .ok torn.core := by decide +kernel
  have hsecond : rivals.second.1 = .ok torn.core := by decide +kernel
  have hclaim : rivals.claim.1 = .ok () := by decide +kernel
  have hends : ((Op.setHardState ⟨7, 0, 0⟩).exec blankHash).Ends (torn.core, rivals.second.2.1)
      (.ok ()) (rivals.claim.2.1.1, rivals.claim.2.1.2) := by
    rw [Prod.mk.eta]
    exact ends_of_run rfl hclaim
  exact second_writer (ends_of_run rfl hfirst)
    (ends_of_run (x := rivals.second) rfl hsecond) hends

theorem rivals.fence : fenceOnDisk blankHash rivals.shared.disk = .ok 7 := by decide +kernel

/-- **Not every call of a writer behind the fence is refused.**  The first writer is
at term 0, and the fence at 7.  Its append of nothing returns, and its claim of
term 9 is accepted, which is how a writer catches up.  And the check is not one step
with the write: a state that was checked before the claim of term 7 and is written
after it takes the fence back. -/
theorem behind_the_fence :
    ReflTransGen (SharedStep blankHash) ⟨[], .empty⟩ rivals.shared ∧
    torn.core ∈ rivals.shared.writers ∧ torn.core.held.hardState.term < 7 ∧
    fenceOnDisk blankHash rivals.shared.disk = .ok 7 ∧
    ((Op.append []).exec blankHash (torn.core, rivals.shared.disk) []).1 = .ok () ∧
    ((Op.setHardState ⟨9, 0, 0⟩).exec blankHash (torn.core, rivals.shared.disk) []).1 = .ok () ∧
    (fencedTo blankHash (torn.core, rivals.second.2.1) []).1 = .ok 0 ∧
    fenceOnDisk blankHash (atomicWrite .stateTmp .state (encodeState blankHash (torn.core.image 0))
      rivals.shared.disk []).2.1 = .ok 0 :=
  ⟨rivals.run, .head _, by decide, rivals.fence, by decide +kernel, by decide +kernel, by
    decide +kernel,
    by decide +kernel⟩

theorem fence_keeps_out_rival :
    (∃ f, fenceOnDisk blankHash empty = .ok f ∧ f ≤ 7) ∧
    ∀ log r c' d', ((Op.setCommit 1).exec blankHash).Ends
      (torn.core, rivals.shared.disk.throughLog log) r (c', d') →
      c' = torn.core ∧ d' = rivals.shared.disk.throughLog log ∧ ∃ e, r = .err e := by
  have hfence := fence_keeps_out rivals.run
  refine ⟨hfence.1 7 rivals.fence, fun log r c' d' he => ?_⟩
  obtain ⟨hc, hd, hr⟩ :=
    hfence.2 torn.core (.head _) (.setCommit 1) 7 rivals.fence (by decide) log r c' d' he
  exact ⟨hc, hd, hr nofun⟩

end Ptr.Raft
