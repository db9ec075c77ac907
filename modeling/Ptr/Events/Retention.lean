import Ptr.Events.Trace

/-!
# What consumers of a bus can rely on

The mark and the offsets only rise, but for a consumer that is registered anew.  The
capacity bounds the records that are not acknowledged, and only where records are added:
a registration below the others' offsets takes history back into the account.

`Reads` is a consumer that commits what it polled, with operations of others between the
two.  It gets every projection up to the offset it has committed, and those behind it are
still there.
-/

namespace Ptr.Events

open Std InMemoryBus List

namespace Sound

variable {t : Trace} {b : InMemoryBus}

/-! ### What moves -/

theorem low_le_step (h : Sound t) (op : Op) : t.bus.lowWater ≤ (t.step op).bus.lowWater := by
  cases op with
  | poll | replay => exact le_rfl
  | compact => exact h.compact.2.low
  | register =>
    rw [Trace.step, InMemoryBus.register]
    repeat' split
    all_goals exact le_rfl
  | publish n =>
    obtain ⟨b, hfewer, hsound, ⟨e, hpublish⟩ | ⟨-, hpublish⟩⟩ := h.publish n
    · rw [Trace.step, hpublish]
      exact hfewer.low
    · rw [Trace.step, hpublish]
      exact Nat.le_trans hfewer.low (Nat.le_of_eq (hsound.low_push n).symm)
  | commit =>
    rw [Trace.step, InMemoryBus.commit]
    split
    · exact le_rfl
    split
    · exact le_rfl
    · exact (h.committing (by assumption) (by assumption)).compact.2.low
  | advanceTick now =>
    rw [Trace.step, InMemoryBus.advanceTick]
    split
    · exact le_rfl
    · exact (h.ticked now).compact.2.low

theorem committed_step (h : Sound t) {op consumer} (hop : op.moves ≠ some consumer) :
    (t.step op).bus.committed[consumer]? = t.bus.committed[consumer]? := by
  cases op with
  | poll | replay => rfl
  | compact => rw [Trace.step, h.compact.2.committed]
  | register other =>
    have hne : other ≠ consumer := fun heq => hop (by rw [heq]; rfl)
    rw [Trace.step, InMemoryBus.register]
    repeat' split
    all_goals first | rfl | skip
    exact Lib.getElem?_insert_ne hne
  | publish n =>
    obtain ⟨b, hfewer, -, ⟨e, hpublish⟩ | ⟨-, hpublish⟩⟩ := h.publish n
    all_goals
      rw [Trace.step, hpublish]
      exact congrArg (·[consumer]?) hfewer.committed
  | commit other =>
    have hne : other ≠ consumer := fun heq => hop (by rw [heq]; rfl)
    rw [Trace.step, InMemoryBus.commit]
    split
    · rfl
    split
    · rfl
    next old hold =>
    rw [(InMemoryBus.compact_spec _).1.committed]
    split
    · exact Lib.getElem?_insert_ne hne
    · rfl
  | advanceTick =>
    rw [Trace.step, InMemoryBus.advanceTick]
    split
    · rfl
    · exact congrArg (·[consumer]?) (InMemoryBus.compact_spec _).1.committed

theorem committed_commit {consumer old upto} (hold : t.bus.committed[consumer]? = some old)
    (hend : upto ≤ t.bus.endOffset) :
    (t.step (.commit consumer upto)).bus.committed[consumer]? = some (max old upto) := by
  rw [Trace.step, InMemoryBus.commit, if_neg (Nat.not_lt.mpr hend), hold]
  rw [(InMemoryBus.compact_spec _).1.committed]
  split
  · next hlt => rw [ExtTreeMap.getElem?_insert_self, max_eq_right (hlt.le)]
  · next hge => rw [hold, max_eq_left (Nat.not_lt.mp hge)]

/-- An offset falls only where its consumer is registered anew. -/
theorem committed_le_step (h : Sound t) {op consumer} (hop : op.registers ≠ some consumer) {old}
    (hold : t.bus.committed[consumer]? = some old) :
    ∃ later ≥ old, (t.step op).bus.committed[consumer]? = some later := by
  by_cases hmoves : op.moves = some consumer
  · cases op with
    | commit other upto =>
      cases hmoves
      by_cases hend : upto ≤ t.bus.endOffset
      · exact ⟨max old upto, le_max_left _ _, committed_commit hold hend⟩
      · rw [Trace.step, InMemoryBus.commit, if_pos (Nat.not_le.mp hend)]
        exact ⟨old, le_rfl, hold⟩
    | register => exact (hop hmoves).elim
    | publish | poll | compact | advanceTick | replay => cases hmoves
  · rw [h.committed_step hmoves]
    exact ⟨old, le_rfl, hold⟩

theorem run_le (h : Sound t) (ops : List Op) : t.bus.lowWater ≤ (t.run ops).bus.lowWater ∧
    ∀ (consumer : String) old, t.bus.committed[consumer]? = some old →
      (∀ op ∈ ops, op.registers ≠ some consumer) →
      ∃ later ≥ old, (t.run ops).bus.committed[consumer]? = some later := by
  induction ops generalizing t with
  | nil => exact ⟨le_rfl, fun _ old hold _ => ⟨old, le_rfl, hold⟩⟩
  | cons op ops ih =>
    obtain ⟨hlow, hcommitted⟩ := ih (h.step op)
    refine ⟨Nat.le_trans (h.low_le_step op) hlow, ?_⟩
    intro consumer old hold hops
    obtain ⟨mid, hmid, hstep⟩ := h.committed_le_step (hops op mem_cons_self) hold
    obtain ⟨later, hlater, hrun⟩ := hcommitted consumer mid hstep fun op hop =>
      hops op (mem_cons_of_mem _ hop)
    exact ⟨later, Nat.le_trans hmid hlater, hrun⟩

/-! ### Room -/

theorem capacity_publish (h : Sound t) {n offset} (hok : (t.bus.publish n).1 = .ok offset) :
    (t.bus.publish n).2.depth ≤ t.bus.config.capacityRecords ∧
      ∀ limit ∈ t.bus.config.capacityBytes, (t.bus.publish n).2.depthBytes ≤ limit := by
  obtain ⟨b, hfewer, hsound, ⟨e, hpublish⟩ | ⟨hroom, hpublish⟩⟩ := h.publish n
  · rw [hpublish] at hok
    cases hok
  rw [hpublish, depth_eq (hsound.push n).records, depthBytes_eq (hsound.push n).records]
  have hsub := hsound.unacked_push n
  have hrecords := depth_eq hsound.records
  have hbytesEq := depthBytes_eq hsound.records
  dsimp only at hsub hrecords hbytesEq ⊢
  rw [checkRoom] at hroom
  split at hroom
  · cases hroom
  next hdepth =>
  split at hroom
  · cases hroom
  next hbytes =>
  rw [hfewer.config] at hdepth
  rw [hfewer.config] at hbytes
  constructor
  · have hlength := hsub.length_le
    rw [length_append, length_singleton] at hlength
    omega
  · intro limit hlimit
    rw [Option.mem_def.mp hlimit, Option.any_some, decide_eq_true_eq] at hbytes
    have htotal := totalBytes_le hsub
    rw [totalBytes_append] at htotal
    have hsize : totalBytes [BusRecord.fromParts b.next b.tick n] = n.sizeBytes := by
      simp [totalBytes, BusRecord.sizeBytes, BusRecord.fromParts, NewRecord.sizeBytes]
    omega

theorem unacked_step (h : Sound t) {op} (hregister : op.registers = none)
    (hpublish : ∀ n, op ≠ .publish n) : (t.step op).bus.unacked.Sublist t.bus.unacked := by
  cases op with
  | register => cases hregister
  | publish n => exact (hpublish n rfl).elim
  | poll | replay => exact Sublist.refl _
  | compact => exact h.compact.2.unacked
  | commit =>
    rw [Trace.step, InMemoryBus.commit]
    split
    · exact Sublist.refl _
    next hend =>
    split
    · exact Sublist.refl _
    next old hold =>
    refine (h.committing hend hold).compact.2.unacked.trans
      (InMemoryBus.unacked_sublist ?_ (Sublist.refl _))
    exact InMemoryBus.floor_mono (le_rfl) h.within (t.bus.committing_le hold)
  | advanceTick now =>
    rw [Trace.step, InMemoryBus.advanceTick]
    split
    · exact Sublist.refl _
    · exact (h.ticked now).compact.2.unacked

/-- Only a registration takes the records not acknowledged above the capacity. -/
theorem capacity_step (h : Sound t) {op} (hop : op.registers = none) :
    (t.step op).bus.depth ≤ max t.bus.depth t.bus.config.capacityRecords ∧
      ∀ limit ∈ t.bus.config.capacityBytes, (t.step op).bus.depthBytes ≤
        max t.bus.depthBytes limit := by
  have hsub : (t.step op).bus.unacked.Sublist t.bus.unacked →
      (t.step op).bus.depth ≤ max t.bus.depth t.bus.config.capacityRecords ∧
        ∀ limit ∈ t.bus.config.capacityBytes, (t.step op).bus.depthBytes ≤
        max t.bus.depthBytes limit := by
    intro hsub
    rw [depth_eq (h.step op).records, depthBytes_eq (h.step op).records,
      depth_eq h.records, depthBytes_eq h.records]
    exact ⟨Nat.le_trans hsub.length_le (le_max_left _ _),
      fun limit _ => Nat.le_trans (totalBytes_le hsub) (le_max_left _ _)⟩
  by_cases hpublish : ∃ n, op = .publish n
  · obtain ⟨n, rfl⟩ := hpublish
    cases hok : (t.bus.publish n).1 with
    | ok =>
      have hcapacity := h.capacity_publish hok
      have hbus : (t.step (.publish n)).bus = (t.bus.publish n).2 := by
        rw [Trace.step]
        split <;> simp_all
      rw [hbus]
      exact ⟨Nat.le_trans hcapacity.1 (le_max_right _ _),
        fun limit hlimit => Nat.le_trans (hcapacity.2 limit hlimit) (le_max_right _ _)⟩
    | error e =>
      obtain ⟨b, hfewer, -, ⟨e, hpublish⟩ | ⟨-, hpublish⟩⟩ := h.publish n
      · refine hsub ?_
        rw [Trace.step, hpublish]
        exact hfewer.unacked
      · rw [hpublish] at hok
        cases hok
  · exact hsub (h.unacked_step hop fun n hn => hpublish ⟨n, hn⟩)

theorem allows_compact (h : Sound t) :
    t.bus.config.retention.Allows (t.bus.compact.2.records.take t.bus.compact.2.historyLen) := by
  obtain ⟨hsame, front, kept, rest, -, hresult, hfloor, hrest, hallows⟩ := t.bus.compact_spec
  have hhistory : t.bus.compact.2.records.take t.bus.compact.2.historyLen = kept := by
    rw [historyLen, hsame.floor, hresult, takeWhile_append_of_pos, hrest h.records]
    · have hnone : t.bus.unacked.takeWhile (·.offset ≤ t.bus.floor) = [] := by
        rw [takeWhile_eq_nil_iff]
        intro hlt
        have hmem := (mem_filter.mp (getElem_mem hlt)).2
        simpa using hmem
      rw [hnone, append_nil, take_left]
    · intro x hx
      exact decide_eq_true (hfloor x (mem_append_right _ hx))
  rw [hhistory]
  exact hallows

end Sound

/-! ### Consumers -/

/-- What is retained behind an offset is among the records read, or behind all of them
and over the limit. -/
theorem mem_after_or {b : InMemoryBus} (h : Ascends b.records) (limit : Nat) {offset}
    {x : BusRecord} (hx : x ∈ b.records) (hoffset : offset < x.offset) : x ∈ b.after offset limit ∨
      (b.after offset limit).length = limit ∧ ∀ y ∈ b.after offset limit, y.offset < x.offset := by
  have hfilter : x ∈ b.records.filter (offset < ·.offset) :=
    mem_filter.mpr ⟨hx, decide_eq_true hoffset⟩
  have hascends : Ascends (b.records.filter (offset < ·.offset)) := h.sublist filter_sublist
  rw [← take_append_drop limit (b.records.filter (offset < ·.offset))] at hfilter hascends
  rcases mem_append.mp hfilter with hgot | hrest
  · exact .inl hgot
  · have hmore := length_pos_of_mem hrest
    rw [length_drop] at hmore
    exact .inr ⟨length_take_of_le (by omega),
      fun y hy => (pairwise_append.mp hascends).2.2 y hy x hrest⟩

/-- The records polled ascend, and those up to the last of them are all among them. -/
theorem mem_after {b : InMemoryBus} (h : Ascends b.records) {offset limit} {last x : BusRecord}
    (hlast : (b.after offset limit).getLast? = some last) (hx : x ∈ b.records)
    (hoffset : offset < x.offset) (hle : x.offset ≤ last.offset) : x ∈ b.after offset limit := by
  rcases mem_after_or h limit hx hoffset with hgot | ⟨-, hbehind⟩
  · exact hgot
  · exact absurd (hbehind last (mem_of_getLast? hlast)) (Nat.not_lt.mpr hle)

/-- A consumer that registers, polls, and commits the last record of the batch it polled
last, among operations of others; with the records it got and the batch that it has not
committed. -/
inductive Reads (consumer : String) (start : Nat) : Trace → List BusRecord → List BusRecord → Prop
  | registers (c : BusConfig) (ops : List Op)
      (h : (((Trace.new c).run ops).bus.register consumer start).1 = .ok ()) :
      Reads consumer start (((Trace.new c).run ops).step (.register consumer start)) [] []
  | others {t : Trace} {got batch : List BusRecord} {op : Op} (h : Reads consumer start t got batch)
      (hop : op.moves ≠ some consumer) : Reads consumer start (t.step op) got batch
  | polls {t : Trace} {got batch batch' : List BusRecord} {limit : Nat}
      (h : Reads consumer start t got batch) (hpoll : t.bus.poll consumer limit = .ok batch') :
      Reads consumer start (t.step (.poll consumer limit)) got batch'
  | commits {t : Trace} {got batch : List BusRecord} {last : BusRecord}
      (h : Reads consumer start t got batch) (hlast : batch.getLast? = some last) :
      Reads consumer start (t.step (.commit consumer last.offset)) (got ++ batch) []

namespace Reads

variable {consumer : String} {start : Nat} {t : Trace} {got batch : List BusRecord}

theorem sound (h : Reads consumer start t got batch) : Sound t := by
  induction h with
  | registers c ops => exact ((Sound.new c).run ops).step _
  | others h hop ih | polls h hpoll ih | commits h hlast ih => exact ih.step _

theorem published_step (t : Trace) (op : Op) : t.published ⊆ (t.step op).published := by
  cases op with
  | publish n =>
    rw [Trace.step]
    split
    · exact subset_append_left _ _
    · exact Subset.refl _
  | register | poll | commit | compact | advanceTick | replay => exact Subset.refl _

/-- What comes to the records published lies at the next offset. -/
theorem mem_published_step {t op x} (hx : x ∈ (t.step op).published) (h : Sound t) :
    x ∈ t.published ∨ t.bus.next ≤ x.offset := by
  cases op with
  | publish n =>
    obtain ⟨b, hfewer, -, ⟨e, hpublish⟩ | ⟨-, hpublish⟩⟩ := h.publish n
    · rw [Trace.step, hpublish] at hx
      exact .inl hx
    rw [Trace.step, hpublish] at hx
    rcases mem_append.mp hx with hx | hx
    · exact .inl hx
    · rw [mem_singleton.mp hx, ← hfewer.next]
      exact .inr (le_rfl)
  | register | poll | commit | compact | advanceTick | replay => exact .inl hx

/-- The records between two offsets: every projection behind `low` and up to `high` is
among `rs`. -/
def Covers (t : Trace) (low high : Nat) (rs : List BusRecord) : Prop :=
  ∀ x ∈ t.published, x.eventClass = .projection → low < x.offset → x.offset ≤ high → x ∈ rs

theorem Covers.step {low high op rs} (h : Covers t low high rs) (hs : Sound t)
    (hhigh : high < t.bus.next) : Covers (t.step op) low high rs := by
  intro x hx hclass hlow hle
  rcases mem_published_step hx hs with hx | hnext
  · exact h x hx hclass hlow hle
  · omega

/-- **A consumer that commits what it polls** got every projection up to its offset, and
its batch holds those from there up to its last record. -/
theorem complete (h : Reads consumer start t got batch) : ∃ after,
    t.bus.committed[consumer]? = some after ∧ Covers t start after got ∧
      ∀ last, batch.getLast? = some last →
        last ∈ t.published ∧ after < last.offset ∧ Covers t after last.offset batch := by
  induction h with
  | registers c ops h =>
    refine ⟨start, ?_, fun x _ _ hlt hle => by omega, fun _ hlast => by cases hlast⟩
    rw [Trace.step]
    rw [register] at h ⊢
    split at h
    · cases h
    next hend =>
    split at h
    · cases h
    next hlow =>
    rw [if_neg hend, if_neg hlow]
    split at h
    · cases h
    · exact ExtTreeMap.getElem?_insert_self
  | others h hop ih =>
    obtain ⟨after, hafter, hgot, hbatch⟩ := ih
    refine ⟨after, by rw [h.sound.committed_step hop, hafter],
      hgot.step h.sound (h.sound.within consumer after hafter), fun last hlast => ?_⟩
    obtain ⟨hmem, hlt, hcovers⟩ := hbatch last hlast
    exact ⟨published_step _ _ hmem, hlt, hcovers.step h.sound (h.sound.below last hmem)⟩
  | @polls t got batch batch' limit h hpoll ih =>
    obtain ⟨after, hafter, hgot, -⟩ := ih
    refine ⟨after, hafter, hgot, fun last hlast => ?_⟩
    obtain rfl : t.bus.after after limit = batch' := by
      rw [poll, committedOf, hafter] at hpoll
      exact Except.ok.inj hpoll
    obtain ⟨hmem, hlt⟩ := mem_filter.mp (mem_of_mem_take (mem_of_getLast? hlast))
    refine ⟨h.sound.sub.subset hmem, of_decide_eq_true hlt, fun x hx hclass hlow hle => ?_⟩
    exact mem_after h.sound.records hlast
      (h.sound.behind consumer after hafter x hx hclass hlow) hlow hle
  | @commits t got batch last h hlast ih =>
    obtain ⟨after, hafter, hgot, hbatch⟩ := ih
    obtain ⟨hmem, hlt, hcovers⟩ := hbatch last hlast
    have hend : last.offset ≤ t.bus.endOffset := Nat.le_sub_one_of_lt (h.sound.below last hmem)
    refine ⟨last.offset, ?_, fun x hx hclass hstart hle => ?_, fun _ hnone => by cases hnone⟩
    · rw [Sound.committed_commit hafter hend, max_eq_right hlt.le]
    · by_cases hbefore : x.offset ≤ after
      · exact mem_append_left _ (hgot x hx hclass hstart hbefore)
      · exact mem_append_right _ (hcovers x hx hclass (Nat.not_le.mp hbefore) hle)

end Reads

/-- **A bus loses no projection.**  In every run: the projections above the mark are
retained; a poll gives the retained records behind the consumer's offset in order, and a
consumer that commits what it polls has got every projection up to its offset and finds
the others retained; the mark and the offsets do not fall but by a registration; a
publication accepted leaves the records not acknowledged within the capacity, which
nothing but a registration takes them above; and a compaction leaves a history within the
limits. -/
theorem bus_loses_no_projection (c : BusConfig) (ops : List Op) :
    let t := (Trace.new c).run ops
    (∀ x ∈ t.published, x.eventClass = .projection → t.bus.lowWater < x.offset →
      x ∈ t.bus.records) ∧
    (∀ (consumer : String) offset limit, t.bus.committed[consumer]? = some offset →
      t.bus.poll consumer limit = .ok ((t.bus.records.filter (offset < ·.offset)).take limit) ∧
        Ascends ((t.bus.records.filter (offset < ·.offset)).take limit)) ∧
    (∀ (consumer : String) start got batch, Reads consumer start t got batch →
      ∃ offset, t.bus.committed[consumer]? = some offset ∧ ∀ x ∈ t.published, x.eventClass =
      .projection → start < x.offset → if x.offset ≤ offset then x ∈ got else x ∈ t.bus.records) ∧
    (∀ more, t.bus.lowWater ≤ (t.run more).bus.lowWater ∧
      ∀ (consumer : String) old, t.bus.committed[consumer]? = some old →
      (∀ op ∈ more, op.registers ≠ some consumer) →
      ∃ later ≥ old, (t.run more).bus.committed[consumer]? = some later) ∧
    (∀ n offset, (t.bus.publish n).1 = .ok offset →
      (t.bus.publish n).2.depth ≤ t.bus.config.capacityRecords ∧
      ∀ limit ∈ t.bus.config.capacityBytes, (t.bus.publish n).2.depthBytes ≤ limit) ∧
    (∀ op, op.registers = none →
      (t.step op).bus.depth ≤ max t.bus.depth t.bus.config.capacityRecords ∧
      ∀ limit ∈ t.bus.config.capacityBytes, (t.step op).bus.depthBytes ≤
      max t.bus.depthBytes limit) ∧
    t.bus.config.retention.Allows (t.bus.compact.2.records.take t.bus.compact.2.historyLen) := by
  intro t
  have h : Sound t := (Sound.new c).run ops
  refine ⟨h.above, ?_, ?_, h.run_le, fun n offset hok => h.capacity_publish hok,
    fun op hop => h.capacity_step hop, h.allows_compact⟩
  · intro consumer offset limit hoffset
    refine ⟨?_, (h.records.sublist filter_sublist).sublist (take_sublist _ _)⟩
    rw [poll, committedOf, hoffset]
    rfl
  · intro consumer start got batch hreads
    obtain ⟨offset, hoffset, hgot, -⟩ := hreads.complete
    refine ⟨offset, hoffset, fun x hx hclass hstart => ?_⟩
    split
    · next hle => exact hgot x hx hclass hstart hle
    · next hgt => exact h.behind consumer offset hoffset x hx hclass (Nat.not_le.mp hgt)

/-- **A replay skips no projection.**  In every run: the records of a replay were published
in that order, and a projection behind the offset is among them or behind all of them and
over the limit; an offset that lies below the mark is refused from then on; and a replay
from the offset of a consumer is what the consumer polls. -/
theorem replay_skips_no_projection (c : BusConfig) (ops : List Op) (offset limit : Nat) :
    let t := (Trace.new c).run ops
    (∀ rs, t.bus.replay offset limit = .ok rs → rs.Sublist t.published ∧
      (∀ x ∈ rs, offset < x.offset) ∧ ∀ x ∈ t.published, x.eventClass = .projection →
      offset < x.offset → x ∈ rs ∨ rs.length = limit ∧ ∀ y ∈ rs, y.offset < x.offset) ∧
    (offset < t.bus.lowWater →
      ∀ more, ∃ low, (t.run more).bus.replay offset limit = .error (.truncated offset low)) ∧
    ∀ consumer : String, t.bus.committed[consumer]? = some offset → t.bus.lowWater ≤ offset →
      t.bus.poll consumer limit = t.bus.replay offset limit := by
  intro t
  have h : Sound t := (Sound.new c).run ops
  refine ⟨fun rs hrs => ?_, fun hlow more => ?_, fun consumer hoffset hlow => ?_⟩
  · simp only [replay, Lib.refuse_eq_ok, Nat.not_lt] at hrs
    obtain ⟨-, hlow, ⟨⟩⟩ := hrs
    refine ⟨((take_sublist _ _).trans filter_sublist).trans h.sub, fun x hx => ?_,
      fun x hx hclass hoffset => ?_⟩
    · exact of_decide_eq_true (mem_filter.mp (mem_of_mem_take hx)).2
    · exact mem_after_or h.records limit (h.above x hx hclass (by omega)) hoffset
  · have hlater := (h.run_le more).1
    have hend : (t.run more).bus.lowWater ≤ (t.run more).bus.endOffset := by
      have hrun := h.run more
      rw [hrun.low]
      exact lowOf_le hrun.records (fun x hx => hrun.below x (hrun.sub.subset hx)) (nil_sublist _)
    rw [replay, if_neg (by omega), if_pos (by omega)]
    exact ⟨_, rfl⟩
  · have hwithin := h.within consumer offset hoffset
    rw [poll, committedOf, hoffset, replay, if_neg (by rw [endOffset]; omega),
      if_neg (Nat.not_lt.mpr hlow)]
    rfl

/-- A bus for one record that keeps two of history. -/
def tightConfig : BusConfig :=
  { capacityRecords := 1, capacityBytes := none, maxRecordBytes := 64,
    policies := { projection := .reject, telemetry := .reject, never := rfl },
    retention := { maxRecords := some 2, maxBytes := none, maxAgeTicks := none } }

def note : NewRecord := { eventClass := .projection, topic := "t", key := "k", payload := [1] }

/-- Three publications that nobody waits for, and then somebody who reads from the
start. -/
def lateReader : List Op :=
  [.publish note, .publish note, .publish note, .register "late" 0]

/-- **History is not counted, and counts again.**  Three records are retained with a
capacity of one, and all three are unacknowledged after the registration. -/
theorem retained_above_capacity :
    ((Trace.new tightConfig).run lateReader).bus.config.capacityRecords = 1 ∧
      ((Trace.new tightConfig).run lateReader).bus.records.length = 3 ∧
      ((Trace.new tightConfig).run lateReader).bus.depth = 3 := by
  decide +kernel

/-! ### A publication that is refused -/

theorem filter_compact (b : InMemoryBus) {offset} (hle : b.floor ≤ offset) :
    b.compact.2.records.filter (offset < ·.offset) = b.records.filter (offset < ·.offset) := by
  obtain ⟨-, front, kept, rest, hrecords, hresult, hfloor, -⟩ := b.compact_spec
  have hfront : front.filter (offset < ·.offset) = [] := by
    refine filter_eq_nil_iff.mpr fun x hx => ?_
    have hx := hfloor x (mem_append_left _ hx)
    simp only [decide_eq_true_eq]
    omega
  rw [hresult, hrecords, filter_append front, hfront, nil_append]

theorem validateNew_error {n maxPayload e} (h : validateNew n maxPayload = .error e) :
    ∃ field len max, e = .fieldTooLong field len max := by
  simp only [validateNew, checkLen] at h
  split at h
  · exact ⟨_, _, _, (Except.error.inj h).symm⟩
  split at h
  · exact ⟨_, _, _, (Except.error.inj h).symm⟩
  split at h
  · exact ⟨_, _, _, (Except.error.inj h).symm⟩
  · cases h

def InMemoryBus.roomFor (b : InMemoryBus) (n : NewRecord) : Except BusError Unit × InMemoryBus :=
  makeRoom n.sizeBytes (b.compact.2.config.policies.forClass n.eventClass = .dropOldestTelemetry)
    b.compact.2.records.length b.compact.2

/-- A publication to a full bus ends where it could not make room. -/
theorem publish_full {b : InMemoryBus} {n : NewRecord} {limit capacity depth blockedBy}
    (hfull : (b.publish n).1 = .error (.full limit capacity depth blockedBy)) :
    (b.publish n).2 = (b.roomFor n).2 ∧ ∃ e, (b.roomFor n).1 = .error e := by
  revert hfull
  rw [InMemoryBus.publish]
  split
  · next hvalid =>
    intro h
    obtain ⟨_, _, _, rfl⟩ := validateNew_error hvalid
    cases h
  dsimp only
  split
  · next e b' hmade => exact fun _ => ⟨(congrArg Prod.snd hmade).symm, e, congrArg Prod.fst hmade⟩
  · exact fun h => by cases h

theorem makeRoom_keeps {b : InMemoryBus} (size rounds : Nat) {drops}
    (h : drops = true → b.evictOldestUnackedTelemetry = none) :
    (makeRoom size drops rounds b).2 = b := by
  have hnone : (if drops then b.evictOldestUnackedTelemetry else none) = none := by
    split
    · next hdrops => exact h hdrops
    · rfl
  cases rounds with
  | zero => rfl
  | succ =>
    rw [makeRoom, hnone]
    split <;> rfl

theorem makeRoom_drops {b b' : InMemoryBus} {size rounds e} (hrounds : rounds ≠ 0)
    (hevict : b.evictOldestUnackedTelemetry = some b')
    (hfull : (makeRoom size true rounds b).1 = .error e) :
    b.totalDropped < (makeRoom size true rounds b).2.totalDropped := by
  cases rounds with
  | zero => exact absurd rfl hrounds
  | succ rounds =>
    rw [makeRoom, if_pos rfl, hevict] at hfull ⊢
    split at hfull
    · cases hfull
    refine (makeRoom_spec (P := fun b' => b.totalDropped < b'.totalDropped) (fun b₁ b₂ h₁ h₂ => ?_)
      size true rounds ?_).1
    · rw [totalDropped_evict h₂]
      omega
    · rw [totalDropped_evict hevict]
      omega

/-- **A full bus drops nothing for a record it refuses** exactly if the record's class may
not drop or there is no unacknowledged telemetry.  Then the records not acknowledged, the
counters of drops and what every consumer polls next stay as they are. -/
theorem full_drops_nothing (c : BusConfig) (ops : List Op) (n : NewRecord) {limit : Limit}
    {capacity depth : Nat} {blockedBy : Option String}
    (hfull : (((Trace.new c).run ops).bus.publish n).1 =
      .error (.full limit capacity depth blockedBy)) : let b := ((Trace.new c).run ops).bus
    ((b.publish n).2.unacked = b.unacked ∧ (b.publish n).2.dropped = b.dropped ∧
      (b.publish n).2.totalDropped = b.totalDropped ∧
      ∀ consumer limit, (b.publish n).2.poll consumer limit = b.poll consumer limit) ↔
    (b.config.policies.forClass n.eventClass = .reject ∨
      ∀ x ∈ b.unacked, x.eventClass ≠ .telemetry) := by
  intro b
  have hcompact := ((Sound.new c).run ops).compact.1
  have hsame : b.SameBus b.compact.2 := b.compact_spec.1
  have hunacked : b.compact.2.unacked = b.unacked := by
    rw [unacked, hsame.floor, filter_compact b (Nat.le_refl _)]
    rfl
  have hnone := hunacked ▸ evict_eq_none hcompact.records
  obtain ⟨hbus, e, hroom⟩ := publish_full hfull
  rw [hbus]
  rw [roomFor, hsame.config] at hroom ⊢
  constructor
  · rintro ⟨-, -, htotal, -⟩
    by_contra hnot
    obtain ⟨hpolicy, htelemetry⟩ := not_or.mp hnot
    have hdrops : decide (b.config.policies.forClass n.eventClass = .dropOldestTelemetry) =
        true := by
      cases h : b.config.policies.forClass n.eventClass with
      | reject => exact absurd h hpolicy
      | dropOldestTelemetry => rfl
    rw [hdrops] at hroom htotal
    obtain ⟨b', hevict⟩ := Option.ne_none_iff_exists'.mp (mt hnone.mp htelemetry)
    obtain ⟨-, _, _, _, hrecords, -⟩ := evict_spec hevict
    have hlt := makeRoom_drops (by rw [hrecords]; simp) hevict hroom
    rw [htotal] at hlt
    exact lt_irrefl _ hlt
  · intro hkeep
    rw [makeRoom_keeps _ _ fun hdrops => hkeep.elim
      (fun h => by rw [h] at hdrops; cases hdrops) hnone.mpr]
    refine ⟨hunacked, rfl, rfl, fun consumer limit => ?_⟩
    rw [poll, poll, committedOf, committedOf, hsame.committed]
    cases hoffset : b.committed[consumer]? with
    | none => rfl
    | some offset =>
      exact congrArg (fun rs => Except.ok (rs.take limit)) (filter_compact b (floor_le hoffset))

def smallConfig : BusConfig := { tightConfig with
  capacityRecords := 2
  capacityBytes := some 8
  policies := { projection := .reject, telemetry := .dropOldestTelemetry, never := rfl } }

def fullBus : InMemoryBus :=
  ((Trace.new smallConfig).run [.register "reader" 0, .publish { note with
  eventClass := .telemetry }, .publish { note with payload := [1, 2, 3] }]).bus

def longNote : NewRecord := { note with eventClass := .telemetry, payload := [1, 2, 3] }

/-- **An eviction that does not help.**  The telemetry makes room for one record but not for
its bytes; the publication is refused and the telemetry is gone. -/
theorem full_bus_drops_for_refused :
    (fullBus.publish longNote).1 = .error (.full .bytes 8 5 (some "reader")) ∧
      fullBus.unacked.length = 2 ∧ (fullBus.publish longNote).2.unacked.length = 1 ∧
      fullBus.totalDropped = 0 ∧ (fullBus.publish longNote).2.totalDropped = 1 ∧
      (fullBus.publish longNote).2.poll "reader" 1 ≠ fullBus.poll "reader" 1 := by
  decide +kernel

/-- A projection is refused by the same bus and leaves it as it is. -/
theorem full_drops_nothing_projection :
    (fullBus.publish note).1 = .error (.full .records 2 2 (some "reader")) ∧
      (fullBus.publish note).2.unacked = fullBus.unacked ∧
      (fullBus.publish note).2.dropped = fullBus.dropped ∧
      (fullBus.publish note).2.totalDropped = fullBus.totalDropped ∧
      ∀ consumer limit, (fullBus.publish note).2.poll consumer limit =
        fullBus.poll consumer limit := by
  have hfull : (fullBus.publish note).1 = .error (.full .records 2 2 (some "reader")) := by
    decide +kernel
  exact ⟨hfull, (full_drops_nothing smallConfig _ note hfull).mpr (.inl rfl)⟩

end Ptr.Events
