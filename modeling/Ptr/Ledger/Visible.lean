import Mathlib.Data.List.Pairwise
import Ptr.Ledger.Acknowledged

/-!
# The anchor records that become visible

Runs of calls on one handle, where any step of a call may fail.  A call that
fails after its rename leaves the disk ahead of the handle.  `append_acknowledged`
fences the handle in that case and `compact` does not, so the next call starts
from a record that is no longer the one on disk.

* `visibleRecords_monotone`: while every call starts from the record on disk, or
  from a fenced handle, the visible records have rising epochs, and neither
  their covered index nor their floor falls.
* `visibleRecords_after_failed_cutover`: without that condition the floor falls
  under a reused epoch.
-/

namespace Ptr.Ledger

open Lib AcknowledgedLedger AnchorStore List

variable (sha : Bytes → Digest) (key : AnchorKey)

inductive Call
  | append (event : LedgerEvent)
  | compact (plan : CompactionPlan)

def Call.exec : Call → Prog (AcknowledgedLedger × Disk) AcknowledgedError Unit
  | .append event => do
    let _ ← appendAcknowledged sha key event
    pure ()
  | .compact plan => do
    let _ ← AcknowledgedLedger.compact sha key plan
    pure ()

def CallStep (s s' : AcknowledgedLedger × Disk) : Prop :=
  ∃ (c : Call) (r : _), (c.exec sha key).Ends s r s'

def visible (d : Disk) : Option ProtectedAnchor :=
  d.anchor.bind fun f => (authenticate sha key 0 f.content).toOption

def visibleRecords (d : Disk) : List ProtectedAnchor :=
  d.published.filterMap fun bytes => (authenticate sha key 0 bytes).toOption

/-- The handle is fenced or holds the record that is on disk. -/
def InStep (s : AcknowledgedLedger × Disk) : Prop :=
  s.1.fenced = true ∨ visible sha key s.2 = some s.1.anchors.current

def InStepCall (s s' : AcknowledgedLedger × Disk) : Prop := InStep sha key s ∧ CallStep sha key s s'

/-- The order in which records may follow each other on disk. -/
def Follows (a b : ProtectedAnchor) : Prop :=
  a.epoch < b.epoch ∧ a.log.index ≤ b.log.index ∧ a.base.index ≤ b.base.index

theorem Follows.trans {a b c} (h : Follows a b) (h' : Follows b c) : Follows a c :=
  ⟨h.1.trans h'.1, h.2.1.trans h'.2.1, h.2.2.trans h'.2.2⟩

/-! ### One call -/

variable {sha key} {h h' : AcknowledgedLedger} {d d' : Disk}

/-- **At most one record is published**, and it follows the one that the handle held. -/
def Publishes (sha : Bytes → Digest) (key : AnchorKey) (h : AcknowledgedLedger) (d d' : Disk) :
    Prop :=
  (d'.anchor = d.anchor ∧ d'.published = d.published) ∨
    (h.fenced = false ∧ ∃ next, Follows h.anchors.current next ∧ next.checkSelf sha = .ok () ∧
      d'.anchor = some (.synced (next.record sha key)) ∧
      d'.published = d.published ++ [next.record sha key])

theorem Publishes.of_installs {x next d₁} (hi : Installs sha key x h.anchors next d₁ d')
    (hf : h.fenced = false) (hbase : h.anchors.current.base.index ≤ next.base.index)
    (hpub : d₁.published = d.published) : Publishes sha key h d d' := by
  obtain ⟨hself, hepoch, hindex⟩ := checkCommit_ok hi.checked
  obtain ⟨-, ha, hp⟩ := hi.published
  exact .inr ⟨hf, next, ⟨hepoch, hindex, hbase⟩, hself, ha, by rw [hp, hpub]⟩

theorem Call.leads_exec {c : Call} :
    (c.exec sha key).Leads (h, d) (fun _ x => Publishes sha key h d x.2)
      fun _ x => Publishes sha key h d x.2 := by
  cases c with
  | append e =>
    refine (leads_appendAcknowledged (R := fun _ y => y.1.poisoned = false ∧ y.2.anchor = d.anchor ∧
      y.2.published = d.published) (fun _ _ => .inl ⟨rfl, rfl⟩)
      (fun _ => FileLedger.leads_appendDurable.imp ?_ ?_)
      fun hf i l d₁ hR => ⟨hR.1, leads_acknowledge.imp ?_ ?_⟩).bind fun _ _ h => Prog.leads_pure h
    · rintro i _ ⟨bs, a, f, -, -, rfl⟩
      exact ⟨rfl, rfl, rfl⟩
    · rintro w ⟨l, d'⟩ (⟨hd, -⟩ | ⟨bs, a, f, g, k, -, -, heq⟩)
      · obtain rfl : d' = d := hd
        exact .inl ⟨rfl, rfl⟩
      · cases heq
        exact .inl ⟨rfl, rfl⟩
    · rintro next y ⟨hi, -⟩
      exact .of_installs hi hf (le_of_eq (by rw [(acknowledged_ok hi.found).2.2.1])) hR.2.2
    · rintro w y ⟨-, ⟨-, ha, hp⟩ | ⟨next, hi⟩⟩
      · exact .inl ⟨ha.trans hR.2.1, hp.trans hR.2.2⟩
      · exact .of_installs hi hf (le_of_eq (by rw [(acknowledged_ok hi.found).2.2.1])) hR.2.2
  | compact plan =>
    refine (leads_compact (fun _ => .inl ⟨rfl, rfl⟩) fun bytes hf _ _ =>
      ⟨fun _ _ => .inl ⟨rfl, rfl⟩, fun p _ => leads_advanceCompacted.imp ?_ ?_⟩).bind
      fun _ _ h => Prog.leads_pure h
    · rintro next y ⟨hi, -⟩ o
      exact .of_installs hi hf (compacted_ok hi.found).2.2.2.2 rfl
    · rintro w y ⟨-, ⟨-, hquiet⟩ | ⟨next, hi⟩⟩
      · exact .inl hquiet
      · exact .of_installs hi hf (compacted_ok hi.found).2.2.2.2 rfl

theorem CallStep.publishes (hp : CallStep sha key (h, d) (h', d')) : Publishes sha key h d d' := by
  obtain ⟨c, r, hp⟩ := hp
  exact Call.leads_exec.elim (C := fun _ x => Publishes sha key h d x.2) hp

/-! ### Runs of calls -/

theorem visible_of_record {a} (hs : a.checkSelf sha = .ok ())
    (ha : d.anchor = some (.synced (a.record sha key))) : visible sha key d = some a := by
  simp [visible, ha, authenticate_record hs, Except.toOption]

theorem visibleRecords_snoc {a} (hs : a.checkSelf sha = .ok ())
    (hp : d'.published = d.published ++ [a.record sha key]) :
    visibleRecords sha key d' = visibleRecords sha key d ++ [a] := by
  simp [visibleRecords, hp, authenticate_record hs, Except.toOption]

theorem InStepCall.run_visible {s s'} (h₀ : visible sha key s.2 = some s.1.anchors.current)
    (run : Relation.ReflTransGen (InStepCall sha key) s s') :
    ∃ as, visibleRecords sha key s'.2 = visibleRecords sha key s.2 ++ as ∧
      visible sha key s'.2 = (s.1.anchors.current :: as).getLast? ∧
      (s.1.anchors.current :: as).Pairwise Follows := by
  induction run with
  | refl => exact ⟨[], by simp, by simpa using h₀, by simp⟩
  | @tail s1 s2 _ step ih =>
    obtain ⟨as, hrec, hvis, hpair⟩ := ih
    obtain ⟨hin, hstep⟩ := step
    rcases hstep.publishes with ⟨ha, hp⟩ | ⟨hf, next, hfol, hself, ha, hp⟩
    · refine ⟨as, ?_, ?_, hpair⟩
      · rw [← hrec, visibleRecords, visibleRecords, hp]
      · rw [← hvis, visible, visible, ha]
    · -- a handle that publishes is not fenced, so it held the last record
      have hcur : visible sha key s1.2 = some s1.1.anchors.current :=
        hin.resolve_left (by simp [hf])
      refine ⟨as ++ [next], ?_, ?_, ?_⟩
      · rw [visibleRecords_snoc hself hp, hrec, append_assoc]
      · rw [visible_of_record hself ha, ← cons_append, getLast?_concat]
      rw [← cons_append, pairwise_append]
      refine ⟨hpair, pairwise_singleton _ _, fun a ha b hb => ?_⟩
      rw [mem_singleton.mp hb]
      have hlast : (s.1.anchors.current :: as).getLast? = some s1.1.anchors.current := by
        rw [← hvis, hcur]
      obtain ⟨front, hfront⟩ := getLast?_eq_some_iff.mp hlast
      rw [hfront] at ha hpair
      rcases mem_append.mp ha with ha | ha
      · have := (pairwise_append.mp hpair).2.2 a ha _ (mem_singleton_self _)
        exact this.trans hfol
      · rw [mem_singleton.mp ha]
        exact hfol

/-- **Visible anchors are monotone** in every run whose calls start in step with
the disk: epochs rise strictly, and neither the covered index nor the floor
falls. -/
theorem visibleRecords_monotone {s s' : AcknowledgedLedger × Disk}
    (h₀ : visible sha key s.2 = some s.1.anchors.current)
    (run : Relation.ReflTransGen (InStepCall sha key) s s') :
    ∃ as, visibleRecords sha key s'.2 = visibleRecords sha key s.2 ++ as ∧
      (s.1.anchors.current :: as).Pairwise (fun a b =>
        a.epoch < b.epoch ∧ a.log.index ≤ b.log.index ∧ a.base.index ≤ b.base.index) ∧
      ∀ a ∈ s.1.anchors.current :: as, ∀ b ∈ s.1.anchors.current :: as,
        a ≠ b → a.epoch ≠ b.epoch := by
  obtain ⟨as, hrec, -, hpair⟩ := InStepCall.run_visible h₀ run
  refine ⟨as, hrec, hpair, ?_⟩
  have hne : (s.1.anchors.current :: as).Pairwise fun a b => a.epoch ≠ b.epoch :=
    hpair.imp fun h => h.1.ne
  have : Std.Symm fun a b : ProtectedAnchor => a.epoch ≠ b.epoch := ⟨fun _ _ h => h.symm⟩
  intro a ha b hb hab
  exact hne.forall ha hb hab

/-! ### Runs on given faults -/

def runCalls (sha : Bytes → Digest) (key : AnchorKey) :
    List (Call × List Fault) → AcknowledgedLedger × Disk → AcknowledgedLedger × Disk
  | [], s => s
  | (c, faults) :: rest, s => runCalls sha key rest (c.exec sha key s faults).2.1

def session (sha : Bytes → Digest) (key : AnchorKey) (calls : List (Call × List Fault)) :
    Option (AcknowledgedLedger × Disk) :=
  match create sha key Disk.empty [] with
  | (.ok h, d, _) => some (runCalls sha key calls (h, d))
  | _ => none

theorem created_of_session {s} (hs : session sha key [] = some s) :
    (create sha key).Ends Disk.empty (.ok s.1) s.2 := by
  unfold session at hs
  split at hs
  · rename_i h d fs hc
    cases hs
    exact ⟨[], fs, hc⟩
  · cases hs

/-- A hash for examples: only the length of its input counts. -/
def lengthHash (bytes : Bytes) : Digest := Digest.fill (UInt8.ofNat bytes.length)

def sampleEvent (n : U64) : LedgerEvent := .snapshotCommitted n 0

def samplePlan : CompactionPlan := ⟨⟨1, .fill 109⟩, ⟨2, .fill 109⟩, 1, 1⟩

/-- Two appends, a cutover, and a third append that stops inside its record. -/
def sampleCalls : List (Call × List Fault) :=
  [(.append (sampleEvent 1), []), (.append (sampleEvent 2), []), (.compact samplePlan, []),
    (.append (sampleEvent 3), [.none, .crash 50])]

def inStepCalls (sha : Bytes → Digest) (key : AnchorKey) :
    List (Call × List Fault) → AcknowledgedLedger × Disk → Bool
  | [], _ => true
  | (c, faults) :: rest, s =>
    (s.1.fenced || visible sha key s.2 = some s.1.anchors.current) &&
      inStepCalls sha key rest (c.exec sha key s faults).2.1

theorem run_of_inStepCalls {calls s} (h : inStepCalls sha key calls s = true) :
    Relation.ReflTransGen (InStepCall sha key) s (runCalls sha key calls s) := by
  induction calls generalizing s with
  | nil => exact .refl
  | cons call calls ih =>
    obtain ⟨c, faults⟩ := call
    rw [inStepCalls, Bool.and_eq_true, Bool.or_eq_true, decide_eq_true_iff] at h
    exact .head ⟨h.1, c, _, Prog.ends_run _ s faults⟩ (ih h.2)

theorem visibleRecords_monotone_cutover :
    ∃ s, session lengthHash (.fill 7) [] = some s ∧
      let s' := runCalls lengthHash (.fill 7) sampleCalls s
      (visibleRecords lengthHash (.fill 7) s'.2).map
        (fun a => (a.epoch, a.log.index, a.base.index)) =
        [(1, 0, 0), (2, 1, 0), (3, 2, 0), (4, 2, 1)] ∧
      ∃ as, visibleRecords lengthHash (.fill 7) s'.2 =
          visibleRecords lengthHash (.fill 7) s.2 ++ as ∧
        (s.1.anchors.current :: as).Pairwise (fun a b =>
          a.epoch < b.epoch ∧ a.log.index ≤ b.log.index ∧ a.base.index ≤ b.base.index) ∧
        ∀ a ∈ s.1.anchors.current :: as, ∀ b ∈ s.1.anchors.current :: as,
          a ≠ b → a.epoch ≠ b.epoch := by
  obtain ⟨s, hs⟩ : ∃ s, session lengthHash (.fill 7) [] = some s :=
    Option.isSome_iff_exists.mp (by decide +kernel)
  have hall : (session lengthHash (.fill 7) []).all (fun s =>
      visible lengthHash (.fill 7) s.2 = some s.1.anchors.current ∧
        inStepCalls lengthHash (.fill 7) sampleCalls s = true ∧
        (visibleRecords lengthHash (.fill 7) (runCalls lengthHash (.fill 7) sampleCalls s).2).map
          (fun a => (a.epoch, a.log.index, a.base.index)) =
            [(1, 0, 0), (2, 1, 0), (3, 2, 0), (4, 2, 1)]) = true := by
    decide +kernel
  rw [hs, Option.all_some, decide_eq_true_iff] at hall
  obtain ⟨hvis, hrun, hrecords⟩ := hall
  exact ⟨s, hs, hrecords, visibleRecords_monotone hvis (run_of_inStepCalls hrun)⟩

/-- Two appends, a cutover whose directory sync fails after the rename, and a
third append: the floor that became visible in epoch 4 is taken back by another
record of epoch 4. -/
theorem visibleRecords_after_failed_cutover :
    (session lengthHash (.fill 7)
      [(.append (sampleEvent 1), []), (.append (sampleEvent 2), []),
        (.compact samplePlan, replicate 10 .none ++ [.fail 0]),
        (.append (sampleEvent 3), [])]).map
      (fun s => (visibleRecords lengthHash (.fill 7) s.2).map fun a =>
        (a.epoch, a.log.index, a.base.index)) =
    some [(1, 0, 0), (2, 1, 0), (3, 2, 0), (4, 2, 1), (4, 3, 0)] := by
  decide +kernel

end Ptr.Ledger
