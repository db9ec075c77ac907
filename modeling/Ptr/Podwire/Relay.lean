import Ptr.Lib.Checks
import Ptr.Types
import Mathlib.Data.List.Dedup

/-!
# Relayed requests

A Pod that gets a request may send it on (`forwardTo`).  The binding of the next hop counts
down the hop limit, remembers every Pod the request has been at and never gains time.

* `Relayed`: what a chain of hops keeps of the binding it began with.
* `relay_bounded`: no Pod twice, fewer hops than the first limit, no later deadline.
-/

namespace Ptr.Podwire

open Lib List

inductive FrameError
  | invalidField (field : String)
  deriving DecidableEq

/-- The addresses, the budget and the time of a request.  The protocol only travels along. -/
structure PodAddressBinding (π : Type) where
  source : Option PodAddress
  destination : PodRevisionAddress
  traceId : TraceId
  hopLimit : Nat
  visited : List PodAddress
  protocol : Option π
  mesh : Option MeshEndpointBinding
  deadline : Option Timestamp
  originTs : Option Timestamp

namespace PodAddressBinding

variable {π : Type} (b : PodAddressBinding π)

def narrowedDeadline (requested : Timestamp) : Timestamp :=
  match b.deadline with
  | some current => min current requested
  | none => requested

def ensureDeadlineWithin (parent : PodAddressBinding π) : Except FrameError Unit :=
  match parent.deadline, b.deadline with
  | none, _ => .ok ()
  | some _, none => .error (.invalidField "deadline")
  | some parent, some own => if parent < own then .error (.invalidField "deadline") else .ok ()

def checkDeadline : Option Timestamp → Option Timestamp → Except FrameError Unit
  | none, none => .ok ()
  | some deadline, some origin =>
    if deadline = 0 ∨ origin = 0 ∨ deadline ≤ origin then .error (.invalidField "deadline")
    else .ok ()
  | _, _ => .error (.invalidField "deadline")

def checkVisited (a : PodAddress) : Except FrameError Unit := do
  a.validate.mapError fun _ => .invalidField "visited"
  if a = b.destination.address then .error (.invalidField "visited") else .ok ()

def checkSource : Except FrameError Unit :=
  match b.source with
  | none => .ok ()
  | some source => do
    source.validate.mapError fun _ => .invalidField "source"
    if source.project ≠ b.destination.address.project ∨
        source.namespace ≠ b.destination.address.namespace then
      .error (.invalidField "address_scope")
    else .ok ()

def validate : Except FrameError Unit := do
  b.destination.validate.mapError fun _ => .invalidField "destination"
  if b.traceId.isEmpty then .error (.invalidField "trace_id")
  else if b.hopLimit = 0 then .error (.invalidField "hop_limit")
  else do
    checkDeadline b.deadline b.originTs
    if 64 < b.visited.length then .error (.invalidField "visited")
    else do
      b.visited.forM b.checkVisited
      if b.visited.dedup.length ≠ b.visited.length then .error (.invalidField "visited")
      else b.checkSource

def trail : List PodAddress :=
  (match b.source with
    | some source => if source ∈ b.visited then b.visited else b.visited ++ [source]
    | none => b.visited) ++ [b.destination.address]

def forwardTo (destination : PodRevisionAddress) (requested : Option Timestamp) (now : Timestamp) :
    Except FrameError (PodAddressBinding π) :=
  if b.hopLimit ≤ 1 then .error (.invalidField "hop_limit")
  else if destination.address ∈ b.trail then .error (.invalidField "visited")
  else do
    let deadline := match b.deadline, requested with
      | some _, some requested => some (b.narrowedDeadline requested)
      | none, some requested => some requested
      | current, none => current
    let next : PodAddressBinding π :=
      { b with
        source := some b.destination.address
        destination
        hopLimit := b.hopLimit - 1
        visited := b.trail
        deadline
        originTs := deadline.map fun _ => b.originTs.getD now }
    next.validate
    next.ensureDeadlineWithin b
    .ok next

structure Hop where
  destination : PodRevisionAddress
  requested : Option Timestamp
  now : Timestamp

def relay (hops : List Hop) : Except FrameError (PodAddressBinding π) :=
  hops.foldlM (fun b hop => b.forwardTo hop.destination hop.requested hop.now) b

def destinations (hops : List Hop) : List PodAddress := hops.map (·.destination.address)

variable {b} {m next : PodAddressBinding π} {hops : List Hop}

/-! ### One hop -/

theorem validate_ok (h : b.validate = .ok ()) :
    0 < b.hopLimit ∧ (b.deadline.isSome = b.originTs.isSome) ∧ b.visited.length ≤ 64 ∧
      (b.visited ++ [b.destination.address]).Nodup ∧ ∀ source, b.source = some source →
        source.project = b.destination.address.project ∧
        source.namespace = b.destination.address.namespace := by
  simp only [validate, bind_unit_eq_ok, refuse_eq_ok, forM_eq_ok, checkVisited, not_lt, not_not]
    at h
  obtain ⟨-, -, hhops, htime, hlength, hvisited, hdedup, hsource⟩ := h
  refine ⟨Nat.pos_of_ne_zero hhops, ?_, hlength, ?_, fun source hs => ?_⟩
  · cases hd : b.deadline <;> cases ho : b.originTs <;> simp_all [checkDeadline]
  · have hnodup : b.visited.Nodup := by
      rw [← (dedup_sublist _).eq_of_length hdedup]
      exact nodup_dedup _
    rw [← concat_eq_append]
    exact hnodup.concat fun hmem => (hvisited _ hmem).2.1 rfl
  · simp only [checkSource, hs, bind_unit_eq_ok, refuse_eq_ok, not_or, not_not] at hsource
    exact hsource.2.1

theorem trail_of_visited {source : PodAddress} (hs : b.source = some source)
    (hmem : source ∈ b.visited) : b.trail = b.visited ++ [b.destination.address] := by
  rw [trail, hs]
  simp only [if_pos hmem]

/-- **What a hop keeps**: it leaves from the destination, with one hop less and no more time. -/
theorem forwardTo_ok {destination requested now} (hv : b.validate = .ok ())
    (h : b.forwardTo destination requested now = .ok next) :
    next.validate = .ok () ∧ next.destination = destination ∧
      next.source = some b.destination.address ∧
      next.visited = b.trail ∧ next.hopLimit + 1 = b.hopLimit ∧
      ∀ t, b.deadline = some t → ∃ t' ≤ t, next.deadline = some t' ∧
      next.originTs = b.originTs := by
  simp only [forwardTo, refuse_eq_ok, bind_unit_eq_ok, Except.ok.injEq] at h
  obtain ⟨hhops, -, hvalid, -, rfl⟩ := h
  refine ⟨hvalid, rfl, rfl, rfl, by simp only; omega, fun t ht => ?_⟩
  obtain ⟨o, ho⟩ : ∃ o, b.originTs = some o := by
    rw [← Option.isSome_iff_exists, ← (validate_ok hv).2.1, ht]
    rfl
  cases requested with
  | none => exact ⟨t, le_rfl, by simp [ht], by simp [ht, ho]⟩
  | some r => exact ⟨min t r, min_le_left _ _, by simp [ht, narrowedDeadline], by simp [ht, ho]⟩

/-! ### Chains of hops -/

structure Relayed (b : PodAddressBinding π) (hops : List Hop) (m : PodAddressBinding π) : Prop where
  valid : m.validate = .ok ()
  trail : m.trail = b.trail ++ destinations hops
  sent : hops ≠ [] → m.trail = m.visited ++ [m.destination.address]
  hops : m.hopLimit + hops.length = b.hopLimit
  project : m.destination.address.project = b.destination.address.project
  «namespace» : m.destination.address.namespace = b.destination.address.namespace
  deadline : ∀ t, b.deadline = some t → ∃ t' ≤ t, m.deadline = some t' ∧ m.originTs = b.originTs

theorem Relayed.forwardTo {hop : Hop} (hm : Relayed b hops m)
    (h : m.forwardTo hop.destination hop.requested hop.now = .ok next) :
    Relayed b (hops ++ [hop]) next := by
  obtain ⟨hvalid, hdest, hsource, hvisited, hleft, htime⟩ := forwardTo_ok hm.valid h
  have hscope := (validate_ok hvalid).2.2.2.2 _ hsource
  -- the sender of the next hop is the destination of this one, so it is on the trail
  have htrail : next.trail = next.visited ++ [next.destination.address] :=
    trail_of_visited hsource (by rw [hvisited]; exact mem_append_right _ mem_cons_self)
  refine ⟨hvalid, ?_, fun _ => htrail, ?_, hscope.1.symm.trans hm.project,
    hscope.2.symm.trans hm.namespace, fun t ht => ?_⟩
  · rw [htrail, hvisited, hm.trail, hdest]
    simp [destinations]
  · rw [length_append, ← hm.hops]
    simp only [length_singleton]
    omega
  · obtain ⟨t₁, hle, hd, ho⟩ := hm.deadline t ht
    obtain ⟨t₂, hle', hd', ho'⟩ := htime t₁ hd
    exact ⟨t₂, hle'.trans hle, hd', ho'.trans ho⟩

theorem relayed_of_relay (hv : b.validate = .ok ()) (h : b.relay hops = .ok m) :
    Relayed b hops m := by
  refine foldlM_along (P := Relayed b) h ?_ fun done s hop _ s' hs hstep => hs.forwardTo hstep
  exact ⟨hv, by simp [destinations], fun hne => absurd rfl hne, rfl, rfl, rfl,
    fun t ht => ⟨t, le_rfl, ht, rfl⟩⟩

/-- **A relayed request never loops and never gains time.**  In every chain from a valid
binding, after any of its hops: the binding is valid and in the scope of the first
destination, no Pod of the path comes twice, the hops are fewer than the first limit and at
most 64, and a deadline stays, with its origin, and is never moved back. -/
theorem relay_bounded {more : List Hop} {last : PodAddressBinding π} (hv : b.validate = .ok ())
    (h : b.relay (hops ++ more) = .ok last) :
    ∃ m, b.relay hops = .ok m ∧ m.relay more = .ok last ∧ m.validate = .ok () ∧
      m.destination.address.project = b.destination.address.project ∧
      m.destination.address.namespace = b.destination.address.namespace ∧
      (hops ≠ [] → (b.trail ++ destinations hops).Nodup) ∧ hops.length < b.hopLimit ∧
      hops.length ≤ 64 ∧
      ∀ t, m.deadline = some t → ∃ t' ≤ t, last.deadline = some t' ∧
      last.originTs = m.originTs := by
  rw [relay, List.foldlM_append, bind_eq_ok] at h
  obtain ⟨m, hm, hlast⟩ := h
  have hr := relayed_of_relay hv hm
  obtain ⟨hpos, -, hlength, hnodup, -⟩ := validate_ok hr.valid
  refine ⟨m, hm, hlast, hr.valid, hr.project, hr.namespace, fun hne => ?_, ?_, ?_,
    (relayed_of_relay hr.valid hlast).deadline⟩
  · rw [← hr.trail, hr.sent hne]
    exact hnodup
  · have := hr.hops
    omega
  · by_cases hne : hops = []
    · rw [hne]
      exact bot_le
    -- every hop but the last one is on the visited list, behind the first destination
    have := congrArg List.length ((hr.sent hne).symm.trans hr.trail)
    simp only [List.length_append, destinations, List.length_map, trail, List.length_singleton]
      at this
    omega

def pod (id : PodId) : PodAddress := ⟨"p", "n", id⟩

/-- A request that was at `a`, which sent it to `b`. -/
def sampleBinding : PodAddressBinding Unit :=
  ⟨some (pod "a"), ⟨pod "b", .fill 1, 0⟩, "t", 3, [pod "a"], none, none, some 9, some 1⟩

def sampleHop : Hop := ⟨⟨pod "c", .fill 1, 0⟩, some 12, 2⟩

theorem relay_bounded_sample : sampleBinding.validate = .ok () ∧
    ∃ last, sampleBinding.relay ([sampleHop] ++ []) = .ok last ∧
      (sampleBinding.trail ++ destinations [sampleHop]).Nodup := by
  have hv : sampleBinding.validate = .ok () := by decide +kernel
  obtain ⟨last, hlast⟩ : ∃ last, sampleBinding.relay ([sampleHop] ++ []) = .ok last := ⟨_, rfl⟩
  obtain ⟨_, -, -, -, -, -, hnodup, -⟩ := relay_bounded hv hlast
  exact ⟨hv, last, hlast, hnodup (List.cons_ne_nil _ _)⟩

/-- **A source on the visited list** comes twice if it is counted on its own: the sender of
a relayed request is always there. -/
theorem relayed_source_visited :
    sampleBinding.validate = .ok () ∧ (sampleBinding.relay [sampleHop]).isOk = true ∧
      ¬ (sampleBinding.source.toList ++ sampleBinding.visited ++
        sampleBinding.destination.address :: destinations [sampleHop]).Nodup := by
  decide +kernel

end PodAddressBinding

end Ptr.Podwire
