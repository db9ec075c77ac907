import Ptr.Runtime.Kept

/-!
# What the records determine

The generations, the heads, the taint and the obligations of a runtime are what its
records make of nothing, one after the other.  This holds of every runtime and all of
its records (`lives_follows`), also of the records below a snapshot, and each record was
accepted by what the records before it had left (`AcceptedAfter`).  So two runtimes with
the same records agree, whatever restarts lie between.
-/

namespace Ptr.Runtime

open Lib Ledger Semdb

variable {ρ τ : Type} {R : Rules ρ τ} {F : ExpertFormat ρ} {G : ExpertReader ρ}

def headsOf (log : List CommittedEvent) : PodHeads :=
  log.foldl (fun heads c => heads.apply c.event) ∅

def taintOf (log : List CommittedEvent) : Taint := log.foldl (fun t c => t.applyEvent c.event) ∅

def obligationsOf (log : List CommittedEvent) : Obligations := log.foldl Obligations.apply .empty

section Append

variable (log : List CommittedEvent) (c : CommittedEvent)

theorem headsOf_append : headsOf (log ++ [c]) = (headsOf log).apply c.event := by
  rw [headsOf, List.foldl_append]
  rfl

theorem taintOf_append : taintOf (log ++ [c]) = (taintOf log).applyEvent c.event := by
  rw [taintOf, List.foldl_append]
  rfl

theorem obligationsOf_append : obligationsOf (log ++ [c]) = (obligationsOf log).apply c := by
  rw [obligationsOf, List.foldl_append]
  rfl

end Append

def Obligations.Accepts (sha : Bytes → Digest) (o : Obligations) : LedgerEvent → Prop
  | .effectAttempted a => o.validateAttempt a = .ok ()
  | .effectSettled attempt response digest => o.validateSettled sha attempt response digest = .ok ()
  | .effectReconciled attempt _ _ => o.isUnsettled attempt = true
  | _ => True

structure AcceptedAfter (sha : Bytes → Digest) (before : List CommittedEvent) (c : CommittedEvent) :
    Prop where
  index : c.index.val = before.length + 1
  encodable : checkEncodable c.event = .ok ()
  generations : (lifecycleOf before).Accepts c.event
  head : ∀ a, c.event = .podHeadAdvanced a →
    (headsOf before).validateAdvance (lifecycleOf before) a = .ok ()
  taint : ∀ subjects change, c.event = .kvTaintCommitted subjects change →
    (taintOf before).validate subjects change = .ok ()
  effects : (obligationsOf before).Accepts sha c.event

namespace PtrRuntime

variable {r r' : PtrRuntime ρ τ} {c : CommittedEvent} {log : List CommittedEvent}

structure Follows (R : Rules ρ τ) (log : List CommittedEvent) (r : PtrRuntime ρ τ) : Prop where
  lifecycle : r.history.lifecycle = lifecycleOf log
  heads : r.history.podHeads = headsOf log
  taint : r.history.taint = taintOf log
  obligations : r.history.obligations = obligationsOf log
  counted : r.base.val + r.ledger.length = log.length
  accepted : EachAfter (AcceptedAfter R.sha) log

theorem effects_of_valid (h : r.validateLifecycleEvent R c.event = .ok ()) :
    r.history.obligations.Accepts R.sha c.event := by
  obtain ⟨index, e⟩ := c
  cases e with
  | effectAttempted | effectSettled => exact h
  | effectReconciled attempt =>
    have h : (if !r.history.obligations.isUnsettled attempt then _ else _) = Except.ok () := h
    rw [refuse_eq_ok, Bool.not_eq_true', Bool.not_eq_false] at h
    exact h.1
  | _ => exact trivial

theorem Takes.follows (htakes : r.Takes R c r') (hkept : r.Kept) (h : r.Follows R log) :
    r'.Follows R (log ++ [c]) := by
  obtain ⟨semantic, next, -, happlies, hresult⟩ := htakes.applies hkept.synced
  have hlife : next.lifecycle = r.history.lifecycle.apply c.event := by
    rcases happlies.lifecycle with hlife | hinvalid
    · exact hlife
    · exact absurd htakes.valid hinvalid
  -- Only the materialized state differs between a record that failed and one that did not.
  have hparts : r'.history.lifecycle = next.lifecycle ∧ r'.history.podHeads = next.podHeads ∧
      r'.history.taint = next.taint ∧ r'.history.obligations = next.obligations := by
    rcases hresult with ⟨-, -, hhistory⟩ | hhistory
    · rw [hhistory]
      exact ⟨rfl, rfl, rfl, rfl⟩
    · rw [hhistory]
      exact ⟨rfl, rfl, rfl, rfl⟩
  refine ⟨?_, ?_, ?_, ?_, ?_, ?_⟩
  · rw [hparts.1, hlife, h.lifecycle, lifecycleOf_append]
  · rw [hparts.2.1, happlies.podHeads, h.heads, headsOf_append]
  · rw [hparts.2.2.1, happlies.taint, h.taint, taintOf_append]
  · rw [hparts.2.2.2, happlies.obligations, h.obligations, obligationsOf_append]
  · rw [htakes.base, htakes.ledger, List.length_append, List.length_append, ← h.counted, add_assoc]
  rw [eachAfter_append_singleton]
  refine ⟨h.accepted, ?_, htakes.encodable, ?_, ?_, ?_, ?_⟩
  · rw [nextIndex_val htakes.index, h.counted]
  · rw [← h.lifecycle]
    exact accepts_of_valid htakes.valid
  · intro a he
    rw [← h.lifecycle, ← h.heads]
    exact (htakes.head_valid he).2
  · intro subjects change he
    rw [← h.taint]
    exact htakes.taint_valid he
  · rw [← h.obligations]
    exact effects_of_valid htakes.valid

theorem Follows.untouched (h : r.Follows R log) (hsame : Untouched r r') : r'.Follows R log := by
  obtain ⟨hbase, hledger, -, g, s, hhistory⟩ := hsame
  refine ⟨?_, ?_, ?_, ?_, by rw [hbase, hledger]; exact h.counted, h.accepted⟩
  · rw [hhistory]
    exact h.lifecycle
  · rw [hhistory]
    exact h.heads
  · rw [hhistory]
    exact h.taint
  · rw [hhistory]
    exact h.obligations

theorem not_fenced_of_export {s} (h : r.exportCompactedSnapshot R F = .ok s) :
    r.isFenced = false := by
  rw [exportCompactedSnapshot] at h
  split at h
  · cases h
  obtain ⟨floor, hfloor, -⟩ := bind_eq_ok.mp h
  rw [journalAnchor, refuse_eq_ok, Bool.not_eq_true] at hfloor
  exact hfloor.1

theorem lives_follows (h : Lives R F G log r) : r.Follows R log := by
  have hboth : r.Kept ∧ r.Follows R log := by
    refine lives_invariant (P := fun log r => r.Kept ∧ r.Follows R log) ?_ ?_ ?_ ?_ h
    · rintro log r c r' ⟨hkept, hr⟩ htakes
      exact ⟨htakes.kept hkept, htakes.follows hkept hr⟩
    · intro owner boundary
      exact ⟨kept_new R owner boundary, rfl, rfl, rfl, rfl, rfl, eachAfter_nil⟩
    · rintro log r r' ⟨hkept, hr⟩ hsame
      exact ⟨hkept.untouched hsame, hr.untouched hsame⟩
    · rintro log r s owner boundary r' ⟨hkept, hr⟩ hexport hok
      obtain ⟨experts, rfl⟩ := restored_of_export hkept hexport hok
      have hcertain := certain_of_not_fenced (not_fenced_of_export hexport)
      refine ⟨hkept.restored R owner boundary experts, hr.lifecycle, hr.heads, hr.taint,
        hr.obligations, ?_, hr.accepted⟩
      exact (hkept.synced hcertain).trans hr.counted
  exact hboth.2

end PtrRuntime

end Ptr.Runtime
