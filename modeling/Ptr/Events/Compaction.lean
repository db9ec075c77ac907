import Mathlib.Algebra.Order.BigOperators.Group.List
import Mathlib.Data.List.TakeWhile
import Ptr.Events.Bus
import Ptr.Lib.Keyed

/-!
# What goes from a bus

A compaction removes a front of the records that every consumer has committed, and an
eviction one telemetry record that is not acknowledged.  The low-water mark lies in front
of what is left, so it never falls, and the records not acknowledged get fewer
(`InMemoryBus.Fewer`).
-/

namespace Ptr.Events

open Lib List

/-! ### Sorted records -/

def Ascends (rs : List BusRecord) : Prop := rs.Pairwise fun a b => a.offset < b.offset

theorem dropWhile_eq_filter {rs} (h : Ascends rs) (floor : Nat) :
    rs.dropWhile (·.offset ≤ floor) = rs.filter (floor < ·.offset) := by
  induction rs with
  | nil => rfl
  | cons x rs ih =>
    have hx := pairwise_cons.mp h
    rw [dropWhile_cons, filter_cons]
    by_cases hle : x.offset ≤ floor
    · rw [if_pos (by simpa using hle), if_neg (by simpa using hle), ih hx.2]
    have hall : rs.filter (floor < ·.offset) = rs := by
      refine filter_eq_self.mpr fun y hy => ?_
      have hlt := hx.1 y hy
      exact decide_eq_true (by omega)
    rw [if_neg (by simpa using hle), if_pos (by simpa using hle), hall]

theorem drop_takeWhile {α : Type} (p : α → Bool) (l : List α) :
    l.drop (l.takeWhile p).length = l.dropWhile p := by
  have hsplit : l.takeWhile p ++ l.dropWhile p = l := takeWhile_append_dropWhile
  calc l.drop (l.takeWhile p).length
    _ = (l.takeWhile p ++ l.dropWhile p).drop (l.takeWhile p).length := by rw [hsplit]
    _ = l.dropWhile p := drop_left

def lowOf (rs : List BusRecord) (next : Nat) : Nat :=
  match rs.head? with
  | some front => front.offset - 1
  | none => next - 1

theorem lowOf_le {rs rs' next} (h : Ascends rs) (hbelow : ∀ x ∈ rs, x.offset < next)
    (hsub : rs'.Sublist rs) : lowOf rs next ≤ lowOf rs' next := by
  cases rs with
  | nil =>
    rw [sublist_nil.mp hsub]
  | cons x rs =>
    have hfirst : ∀ y ∈ x :: rs, x.offset ≤ y.offset := by
      intro y hy
      rcases mem_cons.mp hy with rfl | hy
      · exact le_rfl
      · exact le_of_lt (rel_of_pairwise_cons h hy)
    cases rs' with
    | nil => exact Nat.sub_le_sub_right (le_of_lt (hbelow x mem_cons_self)) 1
    | cons y => exact Nat.sub_le_sub_right (hfirst y (hsub.subset mem_cons_self)) 1

theorem le_lowOf {front rest next} (h : Ascends (front ++ rest))
    (hbelow : ∀ x ∈ front ++ rest, x.offset < next) {x} (hx : x ∈ front) :
    x.offset ≤ lowOf rest next := by
  cases rest with
  | nil => exact Nat.le_sub_one_of_lt (hbelow x (mem_append_left _ hx))
  | cons y =>
    exact Nat.le_sub_one_of_lt ((pairwise_append.mp h).2.2 x hx y mem_cons_self)

/-! ### What the loops do -/

def RetentionPolicy.Allows (p : RetentionPolicy) (history : List BusRecord) : Prop :=
  (∀ limit ∈ p.maxRecords, history.length ≤ limit) ∧ ∀ limit ∈ p.maxBytes,
    totalBytes history ≤ limit

theorem totalBytes_cons (x : BusRecord) (rs : List BusRecord) :
    totalBytes (x :: rs) = x.sizeBytes + totalBytes rs := by
  simp [totalBytes]

theorem totalBytes_append (rs rs' : List BusRecord) :
    totalBytes (rs ++ rs') = totalBytes rs + totalBytes rs' := by
  simp [totalBytes]

theorem totalBytes_le {rs rs'} (h : rs'.Sublist rs) : totalBytes rs' ≤ totalBytes rs :=
  (h.map _).sum_le_sum fun _ _ => Nat.zero_le _

/-- The loop of a compaction drops a front of the history, until what is left of it is
within the limits. -/
theorem expire_spec (p : RetentionPolicy) (tick : Nat) (history rest : List BusRecord)
    (retained removed : Nat) :
    ∃ front kept, history = front ++ kept ∧ p.Allows kept ∧
      (InMemoryBus.expire p tick history.length (totalBytes history)
        (history ++ rest) retained removed).1 = kept ++ rest := by
  induction history generalizing retained removed with
  | nil =>
    refine ⟨[], [], rfl, ⟨fun _ _ => bot_le, fun _ _ => bot_le⟩, ?_⟩
    cases rest <;> rfl
  | cons x history ih =>
    rw [cons_append, length_cons, InMemoryBus.expire]
    split
    · obtain ⟨front, kept, rfl, hallows, hexpire⟩ := ih (retained - x.sizeBytes) (removed + 1)
      refine ⟨x :: front, kept, rfl, hallows, ?_⟩
      rw [totalBytes_cons, Nat.add_sub_cancel_left]
      exact hexpire
    · next hlimits =>
      rw [not_or, not_or] at hlimits
      refine ⟨[], x :: history, rfl, ⟨?_, ?_⟩, rfl⟩
      · intro limit hlimit
        have hrecords := hlimits.1
        rw [Option.mem_def.mp hlimit, Option.any_some, decide_eq_true_eq, not_lt] at hrecords
        exact hrecords
      · intro limit hlimit
        have hbytes := hlimits.2.1
        rw [Option.mem_def.mp hlimit, Option.any_some, decide_eq_true_eq, not_lt] at hbytes
        exact hbytes

namespace InMemoryBus

variable {b b' b'' : InMemoryBus}

def unacked (b : InMemoryBus) : List BusRecord := b.records.filter (b.floor < ·.offset)

theorem unacked_eq (h : Ascends b.records) : b.records.drop b.historyLen = b.unacked := by
  rw [historyLen, drop_takeWhile, dropWhile_eq_filter h]
  rfl

theorem depth_eq (h : Ascends b.records) : b.depth = b.unacked.length := by
  rw [← unacked_eq h, length_drop]
  rfl

theorem depthBytes_eq (h : Ascends b.records) : b.depthBytes = totalBytes b.unacked := by
  rw [← unacked_eq h]
  rfl

/-- What stays when records go: all but the records, their bytes and the mark. -/
structure SameBus (b b' : InMemoryBus) : Prop where
  config : b'.config = b.config
  next : b'.next = b.next
  committed : b'.committed = b.committed
  tick : b'.tick = b.tick
  low : b'.lowWater = lowOf b'.records b'.next

theorem SameBus.floor (h : SameBus b b') : b'.floor = b.floor := by
  rw [InMemoryBus.floor, InMemoryBus.floor, endOffset, endOffset, h.committed, h.next]

/-- **A compaction** removes a front of the history. -/
theorem compact_spec (b : InMemoryBus) :
    SameBus b b.compact.2 ∧ ∃ front kept rest, b.records = front ++ (kept ++ rest) ∧
      b.compact.2.records = kept ++ rest ∧
      (∀ x ∈ front ++ kept, x.offset ≤ b.floor) ∧ (Ascends b.records → rest = b.unacked) ∧
      b.config.retention.Allows kept := by
  have hsplit : b.records.takeWhile (·.offset ≤ b.floor) ++
      b.records.dropWhile (·.offset ≤ b.floor) = b.records :=
    takeWhile_append_dropWhile
  have htake : b.records.take b.historyLen = b.records.takeWhile (·.offset ≤ b.floor) := by
    conv_lhs => rw [← hsplit]
    exact take_left' rfl
  obtain ⟨front, kept, hhistory, hallows, hexpire⟩ := expire_spec b.config.retention b.tick
    (b.records.takeWhile (·.offset ≤ b.floor))
    (b.records.dropWhile (·.offset ≤ b.floor)) b.retainedBytes 0
  rw [hsplit] at hexpire
  refine ⟨⟨rfl, rfl, rfl, rfl, rfl⟩, front, kept, b.records.dropWhile (·.offset ≤ b.floor), ?_, ?_,
    ?_, ?_, hallows⟩
  · rw [← append_assoc, ← hhistory, hsplit]
  · show (expire b.config.retention b.tick b.historyLen
      (totalBytes (b.records.take b.historyLen)) b.records b.retainedBytes 0).1 = _
    rw [htake]
    exact hexpire
  · intro x hx
    rw [← hhistory] at hx
    simpa using mem_takeWhile_imp hx
  · intro h
    exact dropWhile_eq_filter h b.floor

/-- **An eviction** removes one telemetry record that is not acknowledged. -/
theorem evict_spec (h : b.evictOldestUnackedTelemetry = some b') :
    SameBus b b' ∧ ∃ front x rest, b.records = front ++ x :: rest ∧ b'.records = front ++ rest ∧
      x.eventClass = .telemetry ∧ (Ascends b.records → x ∈ b.unacked) := by
  rw [evictOldestUnackedTelemetry] at h
  split at h
  · cases h
  next i hi =>
  dsimp only at h
  split at h
  · cases h
  next x hx =>
  cases h
  obtain ⟨hlt, htelemetry, -⟩ := List.findIdx?_eq_some_iff_getElem.mp hi
  obtain ⟨-, rfl⟩ := List.getElem?_eq_some_iff.mp hx
  have hget : (b.records.drop b.historyLen)[i] = b.records[b.historyLen + i] := List.getElem_drop
  refine ⟨⟨rfl, rfl, rfl, rfl, rfl⟩, b.records.take (b.historyLen + i), b.records[b.historyLen + i],
    b.records.drop (b.historyLen + i + 1), ?_, ?_, ?_, ?_⟩
  · rw [List.getElem_cons_drop, List.take_append_drop]
  · exact List.eraseIdx_eq_take_drop_succ _ _
  · simpa using htelemetry
  · intro hsorted
    rw [← unacked_eq hsorted, ← hget]
    exact List.getElem_mem hlt

theorem evict_eq_none (h : Ascends b.records) :
    b.evictOldestUnackedTelemetry = none ↔ ∀ x ∈ b.unacked, x.eventClass ≠ .telemetry := by
  rw [← unacked_eq h, evictOldestUnackedTelemetry]
  split
  · next hnone => simpa [List.findIdx?_eq_none_iff] using hnone
  next i hi =>
  obtain ⟨hlt, htelemetry, -⟩ := List.findIdx?_eq_some_iff_getElem.mp hi
  have hin : b.historyLen + i < b.records.length := by
    rw [length_drop] at hlt
    omega
  dsimp only
  rw [List.getElem?_eq_getElem hin]
  refine iff_of_false (by simp) fun hall => ?_
  exact hall _ (List.getElem_mem hlt) (by simpa using htelemetry)

theorem totalDropped_evict (h : b.evictOldestUnackedTelemetry = some b') :
    b'.totalDropped = b.totalDropped + 1 := by
  rw [evictOldestUnackedTelemetry] at h
  split at h
  · cases h
  dsimp only at h
  split at h
  · cases h
  · cases h
    rfl

/-- What evictions keep, the whole loop keeps; if it succeeds there is room. -/
theorem makeRoom_spec {P : InMemoryBus → Prop}
    (hstep : ∀ b b', P b → b.evictOldestUnackedTelemetry = some b' → P b') (size : Nat)
    (drops : Bool) (rounds : Nat) {b} (hb : P b) :
    P (makeRoom size drops rounds b).2 ∧
      ((makeRoom size drops rounds b).1 = .ok () →
        (makeRoom size drops rounds b).2.checkRoom size = .ok ()) := by
  induction rounds generalizing b with
  | zero => exact ⟨hb, id⟩
  | succ rounds ih =>
    rw [makeRoom]
    split
    · next hroom => exact ⟨hb, fun _ => hroom⟩
    split
    · next hevict =>
      split at hevict
      · exact ih (hstep b _ hb hevict)
      · cases hevict
    · exact ⟨hb, fun h => by cases h⟩

/-! ### The floor -/

theorem floor_le {consumer : String} {offset} (h : b.committed[consumer]? = some offset) :
    b.floor ≤ offset := by
  refine min?_getD_le_of_mem (mem_map.mpr ⟨(consumer, offset), ?_, rfl⟩)
  exact Std.ExtTreeMap.mem_toList_iff_getElem?_eq_some.mpr h

theorem floor_cases (b : InMemoryBus) :
    b.floor = b.endOffset ∨ ∃ consumer : String, b.committed[consumer]? = some b.floor := by
  cases hmin : (b.committed.toList.map Prod.snd).min? with
  | none =>
    left
    rw [floor, hmin]
    rfl
  | some =>
    obtain ⟨p, hp, rfl⟩ := mem_map.mp (min?_mem hmin)
    refine .inr ⟨p.1, ?_⟩
    rw [floor, hmin]
    exact Std.ExtTreeMap.mem_toList_iff_getElem?_eq_some.mp hp

/-- The floor rises with the offsets of the consumers and with the end. -/
theorem floor_mono (hend : b.next ≤ b'.next)
    (hin : ∀ (consumer : String) offset, b.committed[consumer]? = some offset → offset < b.next)
    (hkeys : ∀ (consumer : String) offset, b'.committed[consumer]? = some offset →
      ∃ old ≤ offset, b.committed[consumer]? = some old) : b.floor ≤ b'.floor := by
  rcases floor_cases b' with hfloor | ⟨consumer, hfloor⟩
  · rw [hfloor, endOffset]
    rcases floor_cases b with hold | ⟨consumer, hold⟩
    · rw [hold, endOffset]
      omega
    · have hlt := hin consumer _ hold
      omega
  · obtain ⟨old, hle, hold⟩ := hkeys consumer _ hfloor
    exact le_trans (floor_le hold) hle

/-! ### Fewer records -/

structure Fewer (b b' : InMemoryBus) : Prop where
  config : b'.config = b.config
  next : b'.next = b.next
  committed : b'.committed = b.committed
  records : b'.records.Sublist b.records
  low : b.lowWater ≤ b'.lowWater

theorem Fewer.refl (b : InMemoryBus) : Fewer b b := ⟨rfl, rfl, rfl, Sublist.refl _, Nat.le_refl _⟩

theorem Fewer.trans (h : Fewer b b') (h' : Fewer b' b'') : Fewer b b'' where
  config := h'.config.trans h.config
  next := h'.next.trans h.next
  committed := h'.committed.trans h.committed
  records := h'.records.trans h.records
  low := Nat.le_trans h.low h'.low

/-- No record comes to those not acknowledged as long as the floor does not fall. -/
theorem unacked_sublist (hfloor : b.floor ≤ b'.floor) (hsub : b'.records.Sublist b.records) :
    b'.unacked.Sublist b.unacked := by
  refine (monotone_filter_right b'.records fun x hx => ?_).trans (hsub.filter _)
  rw [decide_eq_true_eq] at hx ⊢
  omega

theorem Fewer.unacked (h : Fewer b b') : b'.unacked.Sublist b.unacked := by
  refine unacked_sublist (le_of_eq ?_) h.records
  rw [floor, floor, endOffset, endOffset, h.committed, h.next]

theorem committing_le (b : InMemoryBus) {consumer upto old}
    (hold : b.committed[consumer]? = some old) :
    ∀ (other : String) after,
      (if old < upto then b.committed.insert consumer upto else b.committed)[other]? = some after →
      ∃ before ≤ after, b.committed[other]? = some before := by
  intro other after hafter
  split at hafter
  · next hlt =>
    obtain ⟨rfl, rfl⟩ | ⟨-, hafter⟩ := some_of_insert hafter
    · exact ⟨old, hlt.le, hold⟩
    · exact ⟨after, le_rfl, hafter⟩
  · exact ⟨after, le_rfl, hafter⟩

def push (b : InMemoryBus) (n : NewRecord) : InMemoryBus :=
  { b with
    next := b.next + 1
    retainedBytes := b.retainedBytes + n.sizeBytes
    records := b.records ++ [BusRecord.fromParts b.next b.tick n] }.refreshLowWater

end InMemoryBus

end Ptr.Events
