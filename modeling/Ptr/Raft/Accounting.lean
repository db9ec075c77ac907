import Ptr.Raft.Durable

/-!
# The count of ledger events below a snapshot

The state of a storage says how many ledger events its snapshot covers, and
`events_through` counts on from there over the entries above.  The entries below a
snapshot are gone, so the count cannot be checked later: it is right because every
operation keeps it so, through stops, power losses and reopenings.

* `run_follows`: the count of every storage is that of the log of the group.
* `Stored.Follows.eventsThrough_compact`: a recorded snapshot moves events from the
  entries to the count and changes no sum.
-/

namespace Ptr.Raft

open Lib Ledger Files Stored Relation List

variable {sha : Bytes → Digest} {L : List Entry} {h h' : Stored} {c : Core} {d : RaftDisk}
  {index term events : U64}
  {data : Bytes} {floor : CommitIndex}

/-- The operations of a member of a group that agreed on the log `L`: entries come
above the commit index, what is committed is in `L`, and an installed snapshot is
accounted for by the events of `L` that it covers. -/
def Op.Truthful (L : List Entry) : Op → Stored → Prop
  | .append es, h => ∀ first ∈ es.head?, h.hardState.commit < first.index
  | .setHardState hs, h => (h.withHardState hs).Agrees L
  | .setCommit commit, h => (h.withHardState { h.hardState with commit := commit }).Agrees L
  | .setAppliedEvents n, h => n.val = eventCount L h.snapshot.index.val
  | .applySnapshot snap, _ => snap.index.val ≤ L.length
  | _, _ => True

theorem Op.Leaves.follows {op : Op} (hf : h.Follows L) (hop : op.Truthful L h)
    (hl : op.Leaves h h') :
    h'.Follows L := by
  refine hl.rule (fun _ f ht => ht.claim f) hf ?_ (fun hs hset => ?_) ?_
    (fun _ => hf.sameLog ⟨rfl, rfl, rfl, rfl⟩) ?_ fun _ _ _ _ _ => hf.compact
  · rintro first rest n rfl hcheck
    exact hf.overwrite n hcheck (hop first rfl)
  · rcases hset with rfl | rfl
    · exact hf.recommit hop
    · exact hf.recommit ⟨hop.snapshot_le, hop.commit_le, hop.committed⟩
  · rintro n rfl
    exact hf.account hop
  · rintro snap rfl -
    exact follows_install hop

/-- The steps of a storage in such a group, without a collision of payload
digests. -/
def TruthfulStep (sha : Bytes → Digest) (L : List Entry) : StorageLife → StorageLife → Prop :=
  StorageStep sha fun op h => op.Truthful L h ∧ op.Distinct sha h

/-- **Every storage of the group follows its log.** -/
theorem run_follows (run : ReflTransGen (TruthfulStep sha L) (.off .empty) (.running c d))
    (hc : c.health = .sound) : Sound sha c d ∧ c.held.Follows L := by
  have hstarted : (StorageLife.running c d).Started sha (Follows L) :=
    run_started (fun _ _ ha => ha.2) (follows_fresh L)
      (fun _ _ _ hf ha hl => hl.follows hf ha.1) run
  rcases hstarted with ⟨_, ⟨⟩, -⟩ | hl
  exact hl.sound hc

/-- The count of a recorded snapshot and the entries that are left add up to what the
count and all entries were. -/
theorem Stored.Follows.eventsThrough_compact (hf : h.Follows L)
    (hcheck : h.checkRecord index data floor = .ok (term, events)) {i} (hi : index ≤ i) :
    (h.compact index term events data).eventsThrough i = h.eventsThrough i := by
  simp only [checkRecord, refuse_eq_ok, bind_eq_ok] at hcheck
  obtain ⟨hhigh, -, -, t, -, ev, hev, -, -, hres⟩ := hcheck
  obtain ⟨-, rfl⟩ := Prod.mk.inj (Except.ok.inj hres)
  replace hhigh : index.val ≤ h.hardState.commit.val := not_lt.mp hhigh
  replace hi : index.val ≤ i.val := hi
  have hlen := hf.length_le
  have hdrop :=
    hf.contiguous.drop (show index.val - h.snapshot.index.val ≤ h.entries.length by omega)
  have hsplit : h.entries.filter (fun e => e.index ≤ i) =
      h.entries.filter (fun e => e.index ≤ index) ++
      (h.entries.drop (index.val - h.snapshot.index.val)).filter fun e => e.index ≤ i := by
    rw [hf.contiguous.filter_le, hf.contiguous.filter_le, hdrop.filter_le, ← take_add]
    congr 1
    omega
  rw [eventsThrough] at hev
  split at hev
  · cases hev
  rename_i base happlied
  simp only at hev
  split at hev
  · simp [eventsThrough, Stored.compact, happlied, ← Except.ok.inj hev, hsplit,
      compact_drop hf.contiguous, add_assoc]
  · cases hev

/-- `h'` is `h` behind a snapshot at `index` whose floor is right: the sums are as they
were. -/
structure Stored.Recorded (h : Stored) (index : U64) (floor : CommitIndex) (h' : Stored) :
    Prop where
  floor : h.eventsThrough index = .ok floor
  events : ∀ i, index ≤ i → h'.eventsThrough i = h.eventsThrough i

theorem Stored.Follows.recorded (hf : h.Follows L)
    (hcheck : h.checkRecord index data floor = .ok (term, events)) (f : U64) :
    h.Recorded index floor ((h.compact index term events data).claim f) := by
  refine ⟨?_, fun i hi => hf.eventsThrough_compact hcheck hi⟩
  simp only [checkRecord, refuse_eq_ok, bind_eq_ok] at hcheck
  obtain ⟨-, -, -, t, -, ev, hev, hle, hge, -⟩ := hcheck
  rw [hev, le_antisymm (not_lt.mp hge) (not_lt.mp hle)]

/-- **The accounting of a storage.**  In every run of a group with the log `L`, the
count of a storage that works is the number of events of `L` below its snapshot.
Recording a snapshot changes no sum above it unless the storage is poisoned, and
drops entries, from memory or from the files, only if the floor is the count at its
position. -/
theorem events_accounted (run : ReflTransGen (TruthfulStep sha L) (.off .empty) (.running c d))
    (hc : c.health = .sound) :
    (∀ n, c.held.applied = .counted n → n.val = eventCount L c.held.snapshot.index.val) ∧
    ∀ index data floor, (Op.recordSnapshotWithin index data floor).Distinct sha c.held → ∀ r c' d',
      (Files.recordSnapshotWithin sha index data floor).Ends (c, d) r (c', d') →
        (r = .ok () → c.held.Recorded index floor c'.held) ∧
        (∀ e, r = .err e → c' = c ∨ c'.health = .poisoned) ∧
          Reopens sha (fun h => h = c.held ∨ c.held.Recorded index floor h) d' := by
  obtain ⟨hs, hf⟩ := run_follows run hc
  refine ⟨hf.counted, fun index data floor hdistinct r c' d' he => ?_⟩
  have hexec : ((Op.recordSnapshotWithin index data floor).exec sha).Ends (c, d) r (c', d') := he
  have hend := ended_exec hs hdistinct
  have hdone : ∀ h', (Op.recordSnapshotWithin index data floor).Completes c.held h' →
      c.held.Recorded index floor h' := by
    rintro _ ⟨s, he, rfl⟩
    obtain ⟨term, events, hcheck, -, hheld⟩ := Store.leads_recordSnapshotWithin.ok he
    rw [hheld]
    exact hf.recorded hcheck _
  refine ⟨?_, ?_, (reopens_exec hs hdistinct hexec).mono ?_⟩
  · rintro rfl
    exact hdone _ (hend.ok hexec).2
  · rintro e rfl
    exact ((hend.err hexec).2 rfl).imp_left And.left
  rintro h' (rfl | hl | ⟨_, _, _, ⟨⟩, -⟩)
  · exact .inl rfl
  · exact .inr (hdone _ hl)

/-! ### A snapshot of one event -/

theorem StorageStep.of_run {allowed} (op : Op) {s s'} (ha : allowed op s.1.held)
    (hok : (op.exec sha s []).1 = .ok ()) (hs : (op.exec sha s []).2.1 = s') :
    StorageStep sha allowed (.running s.1 s.2) (.running s'.1 s'.2) := by
  subst hs
  exact .called ha (Prog.ends_of_run rfl hok) nofun

def snapped.appended : Core × RaftDisk :=
  (Op.exec blankHash (.append [torn.first]) (torn.core, torn.opened.2.1) []).2.1

def snapped.ready : Core × RaftDisk :=
  (Op.exec blankHash (.setHardState ⟨1, 0, 1⟩) snapped.appended []).2.1

def snapped.recorded (fs : List Fault) : Outcome IoError Unit × (Core × RaftDisk) × List Fault :=
  Files.recordSnapshotWithin blankHash 1 [] 1 snapped.ready fs

theorem snapped.run :
    ReflTransGen (TruthfulStep blankHash [torn.first]) (.off .empty)
      (.running snapped.ready.1 snapped.ready.2) := by
  have happend : TruthfulStep blankHash [torn.first] (.running torn.core torn.opened.2.1)
      (.running snapped.appended.1 snapped.appended.2) := by
    refine .of_run (.append [torn.first]) (s := (torn.core, torn.opened.2.1)) ⟨?_, nofun⟩
      (by decide +kernel) rfl
    rintro first hfirst
    obtain rfl := Option.some.inj hfirst
    decide
  have hcommit : TruthfulStep blankHash [torn.first]
      (.running snapped.appended.1 snapped.appended.2) (.running snapped.ready.1 snapped.ready.2) :=
    .of_run (.setHardState ⟨1, 0, 1⟩) ⟨⟨by decide +kernel, by decide, by decide +kernel⟩, nofun⟩
      (by decide +kernel) rfl
  exact ((ReflTransGen.single torn.step).tail happend).tail hcommit

theorem events_accounted_snapped :
    snapped.ready.1.held.Recorded 1 1 (snapped.recorded []).2.1.1.held := by
  have hend : (Files.recordSnapshotWithin blankHash 1 [] 1).Ends (snapped.ready.1, snapped.ready.2)
      (.ok ()) ((snapped.recorded []).2.1.1, (snapped.recorded []).2.1.2) := by
    rw [Prod.mk.eta, Prod.mk.eta]
    exact Prog.ends_of_run rfl (by decide +kernel)
  have hsame : (Op.recordSnapshotWithin 1 [] 1).Distinct blankHash snapped.ready.1.held := by
    rintro _ ⟨⟩ -
    decide +kernel
  exact ((events_accounted snapped.run (by decide +kernel)).2 1 [] 1 hsame _ _ _ hend).1 rfl

/-- **A compaction that fails** leaves the entry in memory beside the count that has it:
the event is counted twice, by a storage that answers nothing any more. -/
theorem failed_compaction_counts_twice :
    ReflTransGen (TruthfulStep blankHash [torn.first]) (.off .empty)
      (.running snapped.ready.1 snapped.ready.2) ∧
      snapped.ready.1.health = .sound ∧ snapped.ready.1.held.eventsThrough 1 = .ok 1 ∧
      let failed := snapped.recorded (replicate 6 .none ++ [.fail 0])
      failed.1 = .err ioFailure ∧ failed.2.1.1.health = .poisoned ∧
        failed.2.1.1.held.eventsThrough 1 = .ok 2 :=
  ⟨snapped.run, by decide +kernel, by decide +kernel, by decide +kernel, by decide +kernel, by
    decide +kernel⟩

end Ptr.Raft
