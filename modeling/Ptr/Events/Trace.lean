import Ptr.Events.Compaction

/-!
# A bus and what was published on it

`Trace` is a bus together with everything that was ever published on it.  The projections
above the low-water mark, and those behind any consumer's offset, are all still retained
(`Sound`), whatever the operations.
-/

namespace Ptr.Events

open Lib InMemoryBus BusRecord List

/-! ### Traces -/

structure Trace where
  bus : InMemoryBus
  published : List BusRecord

inductive Op
  | register (consumer : String) (start : Nat)
  | publish (n : NewRecord)
  | poll (consumer : String) (limit : Nat)
  | commit (consumer : String) (upto : Nat)
  | compact
  | advanceTick (now : Nat)
  | replay (offset limit : Nat)

def Op.registers : Op → Option String
  | .register consumer _ => some consumer
  | _ => none

def Op.moves : Op → Option String
  | .register consumer _ | .commit consumer _ => some consumer
  | _ => none

namespace Trace

def new (c : BusConfig) : Trace := ⟨.withConfig c, []⟩

def step (t : Trace) : Op → Trace
  | .register consumer start => ⟨(t.bus.register consumer start).2, t.published⟩
  | .publish n =>
    match t.bus.publish n with
    | (.ok offset, b) => ⟨b, t.published ++ [fromParts offset b.tick n]⟩
    | (.error _, b) => ⟨b, t.published⟩
  | .commit consumer upto => ⟨(t.bus.commit consumer upto).2, t.published⟩
  | .compact => ⟨t.bus.compact.2, t.published⟩
  | .advanceTick now => ⟨(t.bus.advanceTick now).2, t.published⟩
  | .poll _ _ | .replay _ _ => t

def run (t : Trace) (ops : List Op) : Trace := ops.foldl step t

end Trace

/-- What is still there of what was published. -/
structure Sound (t : Trace) : Prop where
  sub : t.bus.records.Sublist t.published
  ascends : Ascends t.published
  below : ∀ x ∈ t.published, x.offset < t.bus.next
  first : 1 ≤ t.bus.next
  low : t.bus.lowWater = lowOf t.bus.records t.bus.next
  above : ∀ x ∈ t.published, x.eventClass = .projection → t.bus.lowWater < x.offset →
    x ∈ t.bus.records
  behind : ∀ (consumer : String) after, t.bus.committed[consumer]? = some after → ∀ x ∈ t.published,
    x.eventClass = .projection → after < x.offset → x ∈ t.bus.records
  within : ∀ (consumer : String) after, t.bus.committed[consumer]? = some after → after < t.bus.next

namespace Sound

variable {t : Trace} {b : InMemoryBus}

theorem records (h : Sound t) : Ascends t.bus.records := h.ascends.sublist h.sub

theorem new (c : BusConfig) : Sound (.new c) where
  sub := Sublist.slnil
  ascends := Pairwise.nil
  below _ hx := by cases hx
  first := Nat.le_refl 1
  low := rfl
  above _ hx := by cases hx
  behind _ _ _ _ hx := by cases hx
  within consumer after h := by simp [Trace.new, withConfig] at h

variable (h : Sound t)

include h

theorem low_le (hsame : t.bus.SameBus b) (hsub : b.records.Sublist t.bus.records) :
    t.bus.lowWater ≤ b.lowWater := by
  rw [h.low, hsame.low, hsame.next]
  exact lowOf_le h.records (fun x hx => h.below x (h.sub.subset hx)) hsub

theorem fewer (hsame : t.bus.SameBus b) (hsub : b.records.Sublist t.bus.records) : t.bus.Fewer b :=
  ⟨hsame.config, hsame.next, hsame.committed, hsub, h.low_le hsame hsub⟩

/-- Records go, but a projection only if it is below the new mark and committed by
everyone. -/
theorem shrink (hsame : t.bus.SameBus b) (hsub : b.records.Sublist t.bus.records)
    (hlost : ∀ x ∈ t.bus.records, x.eventClass = .projection →
      x ∈ b.records ∨ x.offset ≤ lowOf b.records t.bus.next ∧ x.offset ≤ t.bus.floor) :
    Sound ⟨b, t.published⟩ := by
  have hlow := h.low_le hsame hsub
  refine ⟨hsub.trans h.sub, h.ascends, ?_, ?_, hsame.low, ?_, ?_, ?_⟩
  · intro x hx
    rw [hsame.next]
    exact h.below x hx
  · rw [hsame.next]
    exact h.first
  · intro x hx hclass habove
    rcases hlost x (h.above x hx hclass (lt_of_le_of_lt hlow habove)) hclass with hkept | ⟨hle, -⟩
    · exact hkept
    · rw [hsame.low, hsame.next] at habove
      omega
  · intro consumer after hafter x hx hclass hlt
    rw [hsame.committed] at hafter
    rcases hlost x (h.behind consumer after hafter x hx hclass hlt) hclass with hkept | ⟨-, hle⟩
    · exact hkept
    · have hfloor := floor_le hafter
      omega
  · intro consumer after hafter
    rw [hsame.committed] at hafter
    rw [hsame.next]
    exact h.within consumer after hafter

theorem compact : Sound ⟨t.bus.compact.2, t.published⟩ ∧ t.bus.Fewer t.bus.compact.2 := by
  obtain ⟨hsame, front, kept, rest, hrecords, hresult, hfloor, -, -⟩ := t.bus.compact_spec
  have hsub : t.bus.compact.2.records.Sublist t.bus.records := by
    rw [hresult, hrecords]
    exact sublist_append_right _ _
  refine ⟨h.shrink hsame hsub ?_, h.fewer hsame hsub⟩
  intro x hx _
  have hascends := h.records
  have hbelow : ∀ x ∈ t.bus.records, x.offset < t.bus.next := fun x hx =>
    h.below x (h.sub.subset hx)
  rw [hrecords] at hx hascends hbelow
  rw [hresult]
  rcases mem_append.mp hx with hx | hx
  · exact .inr ⟨le_lowOf hascends hbelow hx, hfloor x (mem_append_left _ hx)⟩
  · exact .inl hx

theorem evict (hevict : t.bus.evictOldestUnackedTelemetry = some b) :
    Sound ⟨b, t.published⟩ ∧ t.bus.Fewer b := by
  obtain ⟨hsame, front, y, rest, hrecords, hresult, htelemetry, -⟩ := evict_spec hevict
  have hsub : b.records.Sublist t.bus.records := by
    rw [hresult, hrecords]
    exact Sublist.append_left (sublist_cons_self y rest) front
  refine ⟨h.shrink hsame hsub ?_, h.fewer hsame hsub⟩
  intro x hx hclass
  rw [hrecords] at hx
  rw [hresult]
  rcases mem_append.mp hx with hx | hx
  · exact .inl (mem_append_left _ hx)
  rcases mem_cons.mp hx with rfl | hx
  · rw [htelemetry] at hclass
    cases hclass
  · exact .inl (mem_append_right _ hx)

/-- The offsets of consumers move, none of them below the mark unless it was there. -/
theorem recommit {committed}
    (hmoved : ∀ (consumer : String) after, committed[consumer]? = some after → after < t.bus.next ∧
      (t.bus.lowWater ≤ after ∨ ∃ old ≤ after, t.bus.committed[consumer]? = some old)) :
    Sound ⟨{ t.bus with committed := committed }, t.published⟩ := by
  refine ⟨h.sub, h.ascends, h.below, h.first, h.low, h.above, ?_,
    fun consumer after hafter => (hmoved consumer after hafter).1⟩
  intro consumer after hafter x hx hclass hlt
  rcases (hmoved consumer after hafter).2 with hlow | ⟨old, hle, hold⟩
  · exact h.above x hx hclass (lt_of_le_of_lt hlow hlt)
  · exact h.behind consumer old hold x hx hclass (lt_of_le_of_lt hle hlt)

theorem low_push (n : NewRecord) : (t.bus.push n).lowWater = t.bus.lowWater := by
  rw [h.low]
  show lowOf (t.bus.records ++ [fromParts t.bus.next t.bus.tick n]) (t.bus.next + 1) = _
  cases t.bus.records with
  | nil | cons => rfl

theorem unacked_push (n : NewRecord) :
    (t.bus.push n).unacked.Sublist (t.bus.unacked ++ [fromParts t.bus.next t.bus.tick n]) := by
  have hfloor : t.bus.floor ≤ (t.bus.push n).floor :=
    floor_mono (Nat.le_succ _) h.within fun _ offset hoffset => ⟨offset, le_rfl, hoffset⟩
  show ((t.bus.records ++ [fromParts t.bus.next t.bus.tick n]).filter _).Sublist _
  rw [filter_append]
  refine Sublist.append (monotone_filter_right _ fun x hx => ?_) filter_sublist
  rw [decide_eq_true_eq] at hx ⊢
  omega

/-- A record is appended at the next offset. -/
theorem push (n : NewRecord) :
    Sound ⟨t.bus.push n, t.published ++ [fromParts t.bus.next t.bus.tick n]⟩ := by
  have hadded : ∀ {P : BusRecord → Prop} {rs : List BusRecord}, (∀ x ∈ rs, P x) →
      P (fromParts t.bus.next t.bus.tick n) →
      ∀ x ∈ rs ++ [fromParts t.bus.next t.bus.tick n], P x := by
    intro P rs hrs hnew
    rw [forall_mem_append, forall_mem_singleton]
    exact ⟨hrs, hnew⟩
  have hlast : fromParts t.bus.next t.bus.tick n ∈ t.bus.records ++
      [fromParts t.bus.next t.bus.tick n] :=
    mem_append_right _ (mem_singleton_self _)
  refine ⟨Sublist.append h.sub (Sublist.refl _), ?_, ?_, Nat.le_add_left 1 _, rfl, ?_, ?_, ?_⟩
  · exact pairwise_append.mpr ⟨h.ascends, pairwise_singleton _ _, fun x hx y hy => by
      rw [mem_singleton.mp hy]
      exact h.below x hx⟩
  · exact hadded (fun x hx => Nat.lt_succ_of_lt (h.below x hx)) (Nat.lt_succ_self _)
  · refine hadded (fun x hx hclass habove => ?_) fun _ _ => hlast
    rw [h.low_push] at habove
    exact mem_append_left _ (h.above x hx hclass habove)
  · intro consumer after hafter
    exact hadded (fun x hx hclass hlt =>
      mem_append_left _ (h.behind consumer after hafter x hx hclass hlt)) fun _ _ => hlast
  · intro consumer after hafter
    exact Nat.lt_succ_of_lt (h.within consumer after hafter)

/-- **A publication** removes records, and then appends one if there is room. -/
theorem publish (n : NewRecord) : ∃ b, t.bus.Fewer b ∧ Sound ⟨b, t.published⟩ ∧
    ((∃ e, t.bus.publish n = (.error e, b)) ∨
      b.checkRoom n.sizeBytes = .ok () ∧ t.bus.publish n = (.ok b.next, b.push n)) := by
  rw [InMemoryBus.publish]
  cases validateNew n t.bus.config.maxRecordBytes with
  | error e => exact ⟨t.bus, .refl _, h, .inl ⟨e, rfl⟩⟩
  | ok u =>
    obtain ⟨hcompact, hfewer⟩ := h.compact
    have hroom := InMemoryBus.makeRoom_spec (P := fun b => t.bus.Fewer b ∧ Sound ⟨b, t.published⟩)
      (fun b b' hb hevict => ⟨hb.1.trans (hb.2.evict hevict).2, (hb.2.evict hevict).1⟩) n.sizeBytes
      (t.bus.compact.2.config.policies.forClass n.eventClass = .dropOldestTelemetry)
      t.bus.compact.2.records.length ⟨hfewer, hcompact⟩
    dsimp only at hroom ⊢
    generalize InMemoryBus.makeRoom n.sizeBytes _ t.bus.compact.2.records.length t.bus.compact.2 =
      made at hroom ⊢
    obtain ⟨result, b⟩ := made
    refine ⟨b, hroom.1.1, hroom.1.2, ?_⟩
    cases result with
    | error e => exact .inl ⟨e, rfl⟩
    | ok => exact .inr ⟨hroom.2 rfl, rfl⟩

theorem register (consumer : String) (start : Nat) :
    Sound ⟨(t.bus.register consumer start).2, t.published⟩ := by
  rw [InMemoryBus.register]
  split
  · exact h
  split
  · exact h
  next hend hstart =>
  split
  · exact h
  rw [InMemoryBus.endOffset] at hend
  have hfirst := h.first
  have hmoved :
      Sound ⟨{ t.bus with committed := t.bus.committed.insert consumer start }, t.published⟩ := by
    refine h.recommit fun other after hafter => ?_
    obtain ⟨-, rfl⟩ | ⟨-, hafter⟩ := some_of_insert hafter
    · exact ⟨by omega, .inl (by omega)⟩
    · exact ⟨h.within other after hafter, .inr ⟨after, le_rfl, hafter⟩⟩
  exact ⟨hmoved.sub, hmoved.ascends, hmoved.below, hmoved.first, hmoved.low, hmoved.above,
    hmoved.behind, hmoved.within⟩

theorem committing {consumer upto old} (hend : ¬ t.bus.endOffset < upto)
    (hold : t.bus.committed[consumer]? = some old) :
    Sound ⟨{ t.bus with
      committed := if old < upto then t.bus.committed.insert consumer upto else t.bus.committed },
      t.published⟩ := by
  rw [endOffset] at hend
  have hfirst := h.first
  refine h.recommit fun other after hafter =>
    ⟨?_, .inr (t.bus.committing_le hold other after hafter)⟩
  split at hafter
  · obtain ⟨-, rfl⟩ | ⟨-, hafter⟩ := some_of_insert hafter
    · omega
    · exact h.within other after hafter
  · exact h.within other after hafter

theorem commit (consumer : String) (upto : Nat) :
    Sound ⟨(t.bus.commit consumer upto).2, t.published⟩ := by
  rw [InMemoryBus.commit]
  split
  · exact h
  next hend =>
  split
  · exact h
  next old hold => exact (h.committing hend hold).compact.1

theorem ticked (now : Nat) : Sound ⟨{ t.bus with tick := now }, t.published⟩ :=
  ⟨h.sub, h.ascends, h.below, h.first, h.low, h.above, h.behind, h.within⟩

theorem advanceTick (now : Nat) : Sound ⟨(t.bus.advanceTick now).2, t.published⟩ := by
  rw [InMemoryBus.advanceTick]
  split
  · exact h
  · exact (h.ticked now).compact.1

/-- **Every operation keeps what has to stay.** -/
theorem step (op : Op) : Sound (t.step op) := by
  cases op with
  | register consumer start => exact h.register consumer start
  | poll | replay => exact h
  | commit consumer upto => exact h.commit consumer upto
  | compact => exact h.compact.1
  | advanceTick now => exact h.advanceTick now
  | publish n =>
    obtain ⟨b, -, hsound, ⟨e, hpublish⟩ | ⟨-, hpublish⟩⟩ := h.publish n
    · rw [Trace.step, hpublish]
      exact hsound
    · rw [Trace.step, hpublish]
      exact hsound.push n

/-- **Every run keeps what has to stay.** -/
theorem run (ops : List Op) : Sound (t.run ops) := by
  induction ops generalizing t with
  | nil => exact h
  | cons op ops ih => exact ih (h.step op)

end Sound

end Ptr.Events
