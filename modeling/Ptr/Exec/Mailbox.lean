import Mathlib.Logic.Relation
import Mathlib.Tactic.Common

/-!
# The bounded mailbox

A mutex guards the queue and the closed flag of a mailbox.  Its depth, its peak and a
mirror of the flag are atomics that a reader loads without the lock.  A run interleaves
any number of senders, the one receiver and closings; the steps of a critical section are
the accesses that another thread can tell apart, in the order of the source.

`mailbox_delivery`: what was received and what is queued is what was sent, in that order,
within the capacity, and a depth that is loaded is never above a peak loaded after it.
-/

namespace Ptr.Exec

open Relation

variable {T : Type}

inductive SendError (T : Type)
  | full (value : T)
  | closed (value : T)

structure State (T : Type) where
  queue : List T
  closed : Bool

structure Shared (T : Type) where
  capacity : Nat
  state : State T
  /-- The mirror of the length of the queue, stored only under the lock. -/
  depth : Nat
  peak : Nat
  closed : Bool

/-- What the thread that has the lock does next. -/
inductive Section (T : Type)
  | send (value : T)
  | raisePeak (value : T) (depth : Nat)
  | storeDepth (value : T) (depth : Nat)
  | close
  | storeClosed
  | receive
  | storeReceived (value : T) (depth : Nat)
  | drop
  | dropClosed
  | dropDepth
  | dropQueue

/-- A mailbox with its handles, and what its calls have returned so far. -/
structure World (T : Type) where
  shared : Shared T
  inside : Option (Section T)
  senders : Nat
  owner : Bool
  sent : List T
  refused : List (SendError T)
  received : List T
  ended : Bool

namespace World

def bounded (capacity : Nat) : World T :=
  ⟨⟨capacity, ⟨[], false⟩, 0, 0, false⟩, none, 0, true, [], [], [], false⟩

variable (w : World T)

/-- The next access of the thread that has the lock: `try_send`, `close`, `receive` and the
drop of the receiving end. -/
def advance : Section T → World T
  | .send value =>
    if w.shared.state.closed then { w with inside := none, refused := w.refused ++ [.closed value] }
    else if w.shared.capacity ≤ w.shared.state.queue.length then
      { w with inside := none, refused := w.refused ++ [.full value] }
    else
      { w with
        shared.state.queue := w.shared.state.queue ++ [value]
        inside := some (.raisePeak value (w.shared.state.queue ++ [value]).length) }
  | .raisePeak value depth =>
    { w with shared.peak := max w.shared.peak depth, inside := some (.storeDepth value depth) }
  | .storeDepth value depth =>
    { w with shared.depth := depth, inside := none, sent := w.sent ++ [value] }
  | .close => { w with shared.state.closed := true, inside := some .storeClosed }
  | .storeClosed => { w with shared.closed := true, inside := none }
  | .receive =>
    match w.shared.state.queue with
    | value :: queue =>
      { w with shared.state.queue := queue, inside := some (.storeReceived value queue.length) }
    | [] => { w with inside := none, ended := w.ended || w.shared.state.closed }
  | .storeReceived value depth =>
    { w with shared.depth := depth, inside := none, received := w.received ++ [value] }
  | .drop => { w with shared.state.closed := true, inside := some .dropClosed }
  | .dropClosed => { w with shared.closed := true, inside := some .dropDepth }
  | .dropDepth => { w with shared.depth := 0, inside := some .dropQueue }
  | .dropQueue => { w with shared.state.queue := [], inside := none, owner := false }

def May : Section T → Prop
  | .send _ | .close => w.owner = true ∨ 0 < w.senders
  | .receive | .drop => w.owner = true
  | _ => False

/-- The value of a send that is in the queue and has not returned. -/
def sending : List T :=
  match w.inside with
  | some (.raisePeak value _) | some (.storeDepth value _) => [value]
  | _ => []

def receiving : List T :=
  match w.inside with
  | some (.storeReceived value _) => [value]
  | _ => []

/-- How far the gauges are behind the queue. -/
def Behind : Prop :=
  match w.inside with
  | some (.raisePeak _ depth) => depth = w.shared.state.queue.length ∧ w.shared.state.closed = false
  | some (.storeDepth _ depth) =>
    depth = w.shared.state.queue.length ∧ depth ≤ w.shared.peak ∧ w.shared.state.closed = false
  | some (.storeReceived _ depth) => depth = w.shared.state.queue.length ∧ depth ≤ w.shared.peak
  | _ => w.shared.state.queue.length ≤ w.shared.peak

structure Sound (w : World T) : Prop where
  room : w.shared.state.queue.length ≤ w.shared.capacity
  order : w.owner = true → w.sent ++ w.sending = w.received ++ w.receiving ++ w.shared.state.queue
  gauges : w.shared.depth ≤ w.shared.peak
  behind : w.Behind
  ended : w.ended = true → w.shared.state.queue = [] ∧ w.shared.state.closed = true

end World

inductive Step : World T → World T → Prop
  | lock {w : World T} (s : Section T) : w.inside = none → w.May s →
  Step w { w with inside := some s }
  | advance {w : World T} (s : Section T) : w.inside = some s → Step w (w.advance s)
  | clone {w : World T} : w.owner = true ∨ 0 < w.senders →
    Step w { w with senders := w.senders + 1 }
  | dropSender {w : World T} : 0 < w.senders → Step w { w with senders := w.senders - 1 }

namespace World

variable {w w' : World T}

theorem sound_bounded (capacity : Nat) : (bounded capacity : World T).Sound where
  room := Nat.zero_le _
  order _ := rfl
  gauges := Nat.le_refl 0
  behind := Nat.le_refl 0
  ended := nofun

/-- A closed mailbox takes no value, so none is on its way. -/
theorem Sound.sending_closed (h : w.Sound) (hclosed : w.shared.state.closed = true) :
    w.sending = [] := by
  have hbehind := h.behind
  unfold Behind at hbehind
  unfold sending
  split at hbehind <;> simp_all

theorem Sound.advance {s} (h : w.Sound) (hs : w.inside = some s) : (w.advance s).Sound := by
  obtain ⟨⟨capacity, ⟨queue, closed⟩, depth, peak, mirror⟩, inside, senders, owner, sent, refused,
    received, ended⟩ := w
  subst hs
  obtain ⟨hroom, horder, hgauges, hbehind, hended⟩ := h
  cases s with
  | send value =>
    rw [World.advance]
    split
    · exact ⟨hroom, horder, hgauges, hbehind, hended⟩
    next hclosed =>
    split
    · exact ⟨hroom, horder, hgauges, hbehind, hended⟩
    next hfull =>
    refine ⟨?_, fun howner => ?_, hgauges, ⟨rfl, Bool.eq_false_iff.mpr hclosed⟩,
      fun he => absurd (hended he).2 hclosed⟩
    · rw [List.length_append]
      exact Nat.lt_of_not_le hfull
    · have hsame : sent ++ [] = received ++ [] ++ queue := horder howner
      rw [List.append_nil] at hsame
      show sent ++ [value] = received ++ [] ++ (queue ++ [value])
      rw [hsame, List.append_assoc]
  | raisePeak =>
    obtain ⟨hdepth, hopen⟩ := hbehind
    exact ⟨hroom, horder, Nat.le_trans hgauges (Nat.le_max_left _ _),
      ⟨hdepth, Nat.le_max_right _ _, hopen⟩, hended⟩
  | storeDepth value =>
    obtain ⟨hdepth, hpeak, -⟩ := hbehind
    refine ⟨hroom, fun howner => ?_, hpeak, le_of_eq_of_le hdepth.symm hpeak, hended⟩
    show sent ++ [value] ++ [] = _
    rw [List.append_nil]
    exact horder howner
  | close | drop => exact ⟨hroom, horder, hgauges, hbehind, fun he => ⟨(hended he).1, rfl⟩⟩
  | storeClosed | dropClosed => exact ⟨hroom, horder, hgauges, hbehind, hended⟩
  | receive =>
    cases queue with
    | nil =>
      refine ⟨hroom, horder, hgauges, hbehind, fun he => ⟨rfl, ?_⟩⟩
      rcases Bool.or_eq_true_iff.mp he with he | hclosed
      · exact (hended he).2
      · exact hclosed
    | cons value queue =>
      refine ⟨Nat.le_of_succ_le hroom, fun howner => ?_, hgauges,
        ⟨rfl, Nat.le_of_succ_le hbehind⟩, ?_⟩
      · have hsame : sent ++ [] = received ++ [] ++ value :: queue := horder howner
        show sent ++ [] = received ++ [value] ++ queue
        rw [hsame, List.append_nil, List.append_assoc]
        rfl
      · intro he
        cases (hended he).1
  | storeReceived value =>
    obtain ⟨hdepth, hpeak⟩ := hbehind
    refine ⟨hroom, fun howner => ?_, hpeak, le_of_eq_of_le hdepth.symm hpeak, hended⟩
    show _ = received ++ [value] ++ [] ++ queue
    rw [List.append_nil]
    exact horder howner
  | dropDepth => exact ⟨hroom, horder, Nat.zero_le _, hbehind, hended⟩
  | dropQueue =>
    exact ⟨Nat.zero_le _, nofun, hgauges, Nat.zero_le _, fun he => ⟨rfl, (hended he).2⟩⟩

theorem Sound.step (h : w.Sound) (hstep : Step w w') : w'.Sound := by
  cases hstep with
  | advance s hs => exact h.advance hs
  | clone | dropSender => exact ⟨h.room, h.order, h.gauges, h.behind, h.ended⟩
  | lock s hfree hmay =>
    obtain ⟨hroom, horder, hgauges, hbehind, hended⟩ := h
    unfold sending receiving at horder
    unfold Behind at hbehind
    rw [hfree] at horder hbehind
    -- no value is on its way at the start of a section
    cases s with
    | send | close | receive | drop => exact ⟨hroom, horder, hgauges, hbehind, hended⟩
    | _ => exact hmay.elim

/-- What a step never takes back. -/
structure Onward (w w' : World T) : Prop where
  peak : w.shared.peak ≤ w'.shared.peak
  capacity : w'.shared.capacity = w.shared.capacity
  closed : w.shared.state.closed = true → w'.shared.state.closed = true
  sent : w.shared.state.closed = true → w'.sent = w.sent

theorem Onward.refl (w : World T) : Onward w w := ⟨Nat.le_refl _, rfl, id, fun _ => rfl⟩

theorem Sound.onward (h : w.Sound) (hstep : Step w w') : Onward w w' := by
  cases hstep with
  | lock | clone | dropSender => exact ⟨Nat.le_refl _, rfl, id, fun _ => rfl⟩
  | advance s hs =>
    cases s with
    | send =>
      rw [World.advance]
      split
      · exact ⟨Nat.le_refl _, rfl, id, fun _ => rfl⟩
      split <;> exact ⟨Nat.le_refl _, rfl, id, fun _ => rfl⟩
    | raisePeak => exact ⟨Nat.le_max_left _ _, rfl, id, fun _ => rfl⟩
    | storeDepth =>
      refine ⟨Nat.le_refl _, rfl, id, fun hclosed => ?_⟩
      have hnone := h.sending_closed hclosed
      rw [sending, hs] at hnone
      cases hnone
    | close | drop => exact ⟨Nat.le_refl _, rfl, fun _ => rfl, fun _ => rfl⟩
    | receive =>
      rw [World.advance]
      split <;> exact ⟨Nat.le_refl _, rfl, id, fun _ => rfl⟩
    | _ => exact ⟨Nat.le_refl _, rfl, id, fun _ => rfl⟩

theorem Sound.run (h : w.Sound) (hrun : ReflTransGen Step w w') : w'.Sound ∧ Onward w w' := by
  induction hrun with
  | refl => exact ⟨h, .refl w⟩
  | tail _ hstep ih =>
    obtain ⟨hsound, hpast⟩ := ih
    have hnext := hsound.onward hstep
    refine ⟨hsound.step hstep, Nat.le_trans hpast.peak hnext.peak,
      hnext.capacity.trans hpast.capacity, ?_, ?_⟩
    · exact fun hclosed => hnext.closed (hpast.closed hclosed)
    · exact fun hclosed => (hnext.sent (hpast.closed hclosed)).trans (hpast.sent hclosed)

end World

/-- **Delivery.**  In every run of a mailbox whose receiving end is there: what was received
and what is queued is what was sent, in that order; the queue fits the capacity; a receive
says `Closed` only of a closed and empty queue, with everything received that was ever sent;
nothing is sent after the close; and a depth that was loaded is not above a peak that is
loaded later. -/
theorem mailbox_delivery {capacity : Nat} {w : World T}
    (hrun : ReflTransGen Step (.bounded capacity) w) :
    (w.owner = true → w.sent ++ w.sending = w.received ++ w.receiving ++ w.shared.state.queue) ∧
    w.shared.state.queue.length ≤ capacity ∧
    (w.ended = true → w.shared.state.queue = [] ∧ w.shared.state.closed = true ∧
      (w.owner = true → w.sent = w.received ++ w.receiving)) ∧
    ∀ w', ReflTransGen Step w w' →
      (w.shared.state.closed = true → w'.sent = w.sent) ∧ w.shared.depth ≤ w'.shared.peak := by
  obtain ⟨hsound, hpast⟩ := (World.sound_bounded capacity).run hrun
  refine ⟨hsound.order, le_of_le_of_eq hsound.room hpast.capacity, fun he => ?_, fun w' hrun' => ?_⟩
  · obtain ⟨hempty, hclosed⟩ := hsound.ended he
    refine ⟨hempty, hclosed, fun howner => ?_⟩
    have horder := hsound.order howner
    rw [hsound.sending_closed hclosed, hempty, List.append_nil, List.append_nil] at horder
    exact horder
  · have hnext := (hsound.run hrun').2
    exact ⟨hnext.sent, Nat.le_trans hsound.gauges hnext.peak⟩

def drained : World Nat :=
  ⟨⟨1, ⟨[], true⟩, 0, 1, true⟩, none, 0, true, [7], [], [7], true⟩

theorem mailbox_delivery_drained :
    drained.ended = true ∧ drained.shared.state.queue = [] ∧ drained.sent = [7] := by
  have hlock : ReflTransGen Step (.bounded 1) _ := .single (.lock (.send 7) rfl (.inl rfl))
  have hsend := ((hlock.tail (.advance _ rfl)).tail (.advance _ rfl)).tail (.advance _ rfl)
  have hclose :=
    ((hsend.tail (.lock .close rfl (.inl rfl))).tail (.advance _ rfl)).tail (.advance _ rfl)
  have hreceive :=
    ((hclose.tail (.lock .receive rfl rfl)).tail (.advance _ rfl)).tail (.advance _ rfl)
  have hend := (hreceive.tail (.lock .receive rfl rfl)).tail (.advance _ rfl)
  have hrun : ReflTransGen Step (.bounded 1) drained := hend
  obtain ⟨-, -, hended, -⟩ := mailbox_delivery hrun
  exact ⟨rfl, (hended rfl).1, (hended rfl).2.2 rfl⟩

end Ptr.Exec
