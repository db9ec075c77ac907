import Mathlib.Data.List.Chain
import Ptr.Runtime.Folded

/-!
# The heads of the pods

A head is moved by a record that names the head it expects.  The accepted records of
one identity form a chain (`HeadChain`): each expects what the one before it set, and
the generations rise.  A head answers only while its generation is live, not revoked
and committed by its own project.
-/

namespace Ptr.Runtime

open Lib Ledger Semdb List

variable {ρ τ : Type} {R : Rules ρ τ} {F : ExpertFormat ρ} {G : ExpertReader ρ}

inductive PodHeadStatus
  | live (head : PodRevisionAddress)
  | revoked (head : PodRevisionAddress)
  | stale (head : PodRevisionAddress)

namespace PtrRuntime

variable (r : PtrRuntime ρ τ)

/-- `pod_head_is_current`: the capsule must have been committed by the project of the
head, whatever its name says. -/
def podHeadIsCurrent (head : PodRevisionAddress) : Bool :=
  let target := podLifecycleTarget head
  r.history.lifecycle.capsuleProjects[target]? = some head.address.project &&
    !r.history.lifecycle.isRevoked target head.generation &&
    r.history.lifecycle.liveGeneration target = some head.generation

def podHead (project : ProjectId) (identity : PodIdentity) : Option PodRevisionAddress :=
  (r.history.podHeads[(project, identity)]?).filter r.podHeadIsCurrent

def podHeadStatus (project : ProjectId) (identity : PodIdentity) : Option PodHeadStatus :=
  (r.history.podHeads[(project, identity)]?).map fun head =>
    let target := podLifecycleTarget head
    if r.history.lifecycle.isRevoked target head.generation then .revoked head
    else if r.history.lifecycle.liveGeneration target = some head.generation then .live head
    else .stale head

def currentPodHeads : List ((ProjectId × PodIdentity) × PodRevisionAddress) :=
  r.history.podHeads.toList.filter fun p => r.podHeadIsCurrent p.2

structure Answers (r : PtrRuntime ρ τ) (head : PodRevisionAddress) : Prop where
  live : r.history.lifecycle.liveGeneration (podLifecycleTarget head) = some head.generation
  unrevoked : r.history.lifecycle.isRevoked (podLifecycleTarget head) head.generation = false
  committed : r.history.lifecycle.capsuleProjects[podLifecycleTarget head]? =
    some head.address.project

theorem podHeadIsCurrent_iff {r : PtrRuntime ρ τ} {head} :
    r.podHeadIsCurrent head = true ↔ r.Answers head := by
  simp only [podHeadIsCurrent, Bool.and_eq_true, decide_eq_true_eq, Bool.not_eq_true']
  exact ⟨fun h => ⟨h.2, h.1.2, h.1.1⟩, fun h => ⟨⟨h.committed, h.unrevoked⟩, h.live⟩⟩

end PtrRuntime

/-! ### The records of one identity -/

def advanceOf (key : ProjectId × PodIdentity) (c : CommittedEvent) : Option PodHeadAdvance :=
  match c.event with
  | .podHeadAdvanced a => if (a.project, a.identity) = key then some a else none
  | _ => none

def advances (key : ProjectId × PodIdentity) (log : List CommittedEvent) : List PodHeadAdvance :=
  log.filterMap (advanceOf key)

def Moved (a b : PodHeadAdvance) : Prop := b.old = some a.new ∧ a.new.generation < b.new.generation

structure HeadChain (key : ProjectId × PodIdentity) (log : List CommittedEvent) : Prop where
  chain : (advances key log).IsChain Moved
  first : ∀ a ∈ (advances key log).head?, a.old = none
  last : (headsOf log)[key]? = (advances key log).getLast?.map PodHeadAdvance.new
  project : ∀ a ∈ advances key log, a.new.address.project = key.1

theorem validateAdvance_ok {heads : PodHeads} {l} {a : PodHeadAdvance}
    (h : heads.validateAdvance l a = .ok ()) :
    a.new.address.project = a.project ∧ heads[(a.project, a.identity)]? = a.old ∧
      ∀ old ∈ a.old, old.generation < a.new.generation := by
  rw [PodHeads.validateAdvance, refuse_eq_ok] at h
  obtain ⟨-, h⟩ := h
  cases hfind : (a.new :: a.old.toList).find? fun x => x.address.project ≠ a.project with
  | some => simp only [hfind, reduceCtorEq] at h
  | none =>
    simp only [hfind, refuse_eq_ok, not_not] at h
    obtain ⟨hheads, h⟩ := h
    have hproject := find?_eq_none.mp hfind a.new mem_cons_self
    refine ⟨by simpa using hproject, hheads, ?_⟩
    intro old hold
    cases hfilter : a.old.filter fun old => decide (a.new.generation ≤ old.generation) with
    | some => simp only [hfilter, reduceCtorEq] at h
    | none =>
      rw [hold] at hfilter
      simpa using hfilter

theorem headsOf_advance (log : List CommittedEvent) (c : CommittedEvent)
    (key : ProjectId × PodIdentity) :
    (headsOf (log ++ [c]))[key]? = ((advanceOf key c).map PodHeadAdvance.new).or
      (headsOf log)[key]? := by
  rw [headsOf_append]
  obtain ⟨index, e⟩ := c
  cases e with
  | podHeadAdvanced a =>
    simp only [PodHeads.apply, advanceOf, Std.ExtTreeMap.getElem?_insert,
      Std.LawfulEqOrd.compare_eq_iff_eq]
    split <;> rfl
  | _ => rfl

theorem advances_append (key : ProjectId × PodIdentity) (log more : List CommittedEvent) :
    advances key (log ++ more) = advances key log ++ advances key more := filterMap_append

theorem headChain_nil (key : ProjectId × PodIdentity) : HeadChain key [] where
  chain := IsChain.nil
  first a h := by cases h
  last := by simp [headsOf, advances]
  project a h := by cases h

theorem HeadChain.append {key : ProjectId × PodIdentity} {sha} {log : List CommittedEvent} {c}
    (h : HeadChain key log) (hc : AcceptedAfter sha log c) : HeadChain key (log ++ [c]) := by
  have hone : advances key [c] = (advanceOf key c).toList := by
    rw [advances, List.filterMap_cons]
    cases advanceOf key c <;> rfl
  cases hmove : advanceOf key c with
  | none =>
    have hsame : advances key (log ++ [c]) = advances key log := by
      rw [advances_append, hone, hmove, Option.toList_none, List.append_nil]
    have hlast := headsOf_advance log c key
    rw [hmove] at hlast
    exact ⟨by rw [hsame]; exact h.chain, by rw [hsame]; exact h.first, by
      rw [hsame, hlast]; exact h.last,
      by rw [hsame]; exact h.project⟩
  | some a =>
    -- The new record moves this head, so it was checked against what the last one set.
    have hevent : c.event = .podHeadAdvanced a ∧ (a.project, a.identity) = key := by
      obtain ⟨index, e⟩ := c
      cases e with
      | podHeadAdvanced =>
        simp only [advanceOf, Option.ite_none_right_eq_some, Option.some.injEq] at hmove
        exact ⟨by rw [hmove.2], hmove.2 ▸ hmove.1⟩
      | _ => cases hmove
    obtain ⟨hproject, hheads, hrises⟩ := validateAdvance_ok (hc.head a hevent.1)
    rw [hevent.2, h.last] at hheads
    have hadded : advances key (log ++ [c]) = advances key log ++ [a] := by
      rw [advances_append, hone, hmove, Option.toList_some]
    refine ⟨?_, ?_, ?_, ?_⟩
    · rw [hadded]
      refine h.chain.append (List.IsChain.singleton a) ?_
      rintro x hx y ⟨⟩
      rw [Option.mem_def.mp hx] at hheads
      exact ⟨hheads.symm, hrises x.new hheads.symm⟩
    · rw [hadded]
      cases hlist : advances key log with
      | nil =>
        rintro b ⟨⟩
        rw [hlist] at hheads
        exact hheads.symm
      | cons =>
        intro x hx
        exact h.first x (by rw [hlist]; exact hx)
    · rw [headsOf_advance, hmove, hadded, List.getLast?_append]
      rfl
    · rw [hadded, List.forall_mem_append, List.forall_mem_singleton]
      exact ⟨h.project, by rw [hproject, ← hevent.2]⟩

theorem headChain_of_accepted {sha log} (h : EachAfter (AcceptedAfter sha) log)
    (key : ProjectId × PodIdentity) : HeadChain key log := by
  induction log using reverseRecOn with
  | nil => exact headChain_nil key
  | append_singleton log c ih =>
    rw [eachAfter_append_singleton] at h
    exact (ih h.1).append h.2

theorem pairwise_of_moved {l : List PodHeadAdvance} (h : l.IsChain Moved) :
    l.Pairwise fun a b => a.new.generation < b.new.generation := by
  exact isChain_iff_pairwise.mp (h.imp fun _ _ hab => hab.2)

/-- With more records, a head is the same or of a later generation. -/
theorem HeadChain.later {key : ProjectId × PodIdentity} {log more} (h : HeadChain key log)
    (h' : HeadChain key (log ++ more)) {head : PodRevisionAddress}
    (hhead : (headsOf log)[key]? = some head) :
    ∃ head', (headsOf (log ++ more))[key]? = some head' ∧
      (head' = head ∨ head.generation < head'.generation) := by
  rw [h.last, Option.map_eq_some_iff] at hhead
  obtain ⟨a, ha, rfl⟩ := hhead
  have hrises := pairwise_of_moved h'.chain
  rw [h'.last]
  rw [advances_append] at hrises ⊢
  rw [getLast?_append]
  cases hlast : (advances key more).getLast? with
  | none => exact ⟨a.new, by rw [ha]; rfl, .inl rfl⟩
  | some b =>
    exact ⟨b.new, rfl, .inr ((pairwise_append.mp hrises).2.2 a (mem_of_getLast? ha) b
      (mem_of_getLast? hlast))⟩

/-! ### Every runtime -/

namespace PtrRuntime

variable {r : PtrRuntime ρ τ} {log : List CommittedEvent}

theorem podHead_eq_some {project : ProjectId} {identity} {head : PodRevisionAddress} :
    r.podHead project identity = some head ↔
      r.history.podHeads[(project, identity)]? = some head ∧ r.Answers head := by
  rw [podHead, Option.filter_eq_some_iff, podHeadIsCurrent_iff]

/-- **Pod heads form one chain.**  In every runtime and over all of its records, across
any restarts: the moves of one identity form a chain, the head is what the last of them
set, a head answers only while it is live and unrevoked in its own project, and the
heads rebuilt from the materialized values are the ones held.  A runtime with more
records has the same head or a later one. -/
theorem pod_heads_form_chains (R : Rules ρ τ) (F : ExpertFormat ρ) (G : ExpertReader ρ)
    {log : List CommittedEvent} {r : PtrRuntime ρ τ} (h : Lives R F G log r) :
    (∀ key, (advances key log).IsChain Moved ∧ (∀ a ∈ (advances key log).head?, a.old = none) ∧
      r.history.podHeads[key]? = (advances key log).getLast?.map PodHeadAdvance.new) ∧
    (∀ project identity head, r.podHead project identity = some head →
      r.history.podHeads[(project, identity)]? = some head ∧ head.address.project = project ∧
      r.Answers head) ∧
    (∀ head, r.podHeadIsCurrent head = true → r.Answers head) ∧
    PodHeads.fromMaterialized r.history.state.values = .ok r.history.podHeads ∧
    ∀ more r', Lives R F G (log ++ more) r' → ∀ (key : ProjectId × PodIdentity) head,
      r.history.podHeads[key]? = some head →
      ∃ head', r'.history.podHeads[key]? = some head' ∧
      (head' = head ∨ head.generation < head'.generation) := by
  have hfollows := lives_follows h
  have hchain : ∀ key, HeadChain key log := headChain_of_accepted hfollows.accepted
  refine ⟨?_, ?_, fun head => podHeadIsCurrent_iff.mp, heads_rebuilt (lives_kept h).whole, ?_⟩
  · intro key
    exact ⟨(hchain key).chain, (hchain key).first, by rw [hfollows.heads]; exact (hchain key).last⟩
  · intro project identity head hhead
    obtain ⟨hheld, hanswers⟩ := podHead_eq_some.mp hhead
    refine ⟨hheld, ?_, hanswers⟩
    rw [hfollows.heads, (hchain _).last, Option.map_eq_some_iff] at hheld
    obtain ⟨a, ha, rfl⟩ := hheld
    exact (hchain (project, identity)).project a (mem_of_getLast? ha)
  · intro more r' h' key head hhead
    have hfollows' := lives_follows h'
    rw [hfollows.heads] at hhead
    rw [hfollows'.heads]
    exact (hchain key).later (headChain_of_accepted hfollows'.accepted key) hhead

/-- **The same records give the same answers.**  Two runtimes that hold the same records,
each by calls, replays and snapshots of its own, agree on the generations, the taint, the
obligations and the heads, and a head that answers in one is live in the other. -/
theorem same_records_agree (R : Rules ρ τ) (F : ExpertFormat ρ) (G : ExpertReader ρ)
    {log : List CommittedEvent} {r r' : PtrRuntime ρ τ} (h : Lives R F G log r)
    (h' : Lives R F G log r') :
    r.history.lifecycle = r'.history.lifecycle ∧ r.history.taint = r'.history.taint ∧
    r.history.obligations = r'.history.obligations ∧ r.currentPodHeads = r'.currentPodHeads ∧
    ∀ project identity, r.podHeadStatus project identity = r'.podHeadStatus project identity ∧
      ∀ head, r.podHead project identity = some head →
      r'.podHeadStatus project identity = some (.live head) := by
  have hfollows := lives_follows h
  have hfollows' := lives_follows h'
  have hlifecycle := hfollows.lifecycle.trans hfollows'.lifecycle.symm
  have hheads := hfollows.heads.trans hfollows'.heads.symm
  have hstatus : ∀ project identity, r.podHeadStatus project identity =
      r'.podHeadStatus project identity := by
    intro project identity
    rw [podHeadStatus, podHeadStatus, hlifecycle, hheads]
  refine ⟨hlifecycle, hfollows.taint.trans hfollows'.taint.symm,
    hfollows.obligations.trans hfollows'.obligations.symm, ?_,
    fun project identity => ⟨hstatus project identity, fun head hhead => ?_⟩⟩
  · simp only [currentPodHeads, podHeadIsCurrent, hlifecycle, hheads]
  · obtain ⟨hheld, hanswers⟩ := podHead_eq_some.mp hhead
    rw [← hstatus]
    simp [podHeadStatus, hheld, hanswers.live, hanswers.unrevoked]

end PtrRuntime

def podRevision (generation : Generation) : PodRevisionAddress :=
  ⟨⟨"p", "n", "x"⟩, Digest.fill 1, generation⟩

/-- A runtime that moved a head twice and made its generation live. -/
def headRun : PtrRuntime Unit Unit :=
  plainRuntime.run plainRules [.commit (.podHeadAdvanced ⟨"p", "i", none, podRevision 1⟩),
    .commit (.podHeadAdvanced ⟨"p", "i", some (podRevision 1), podRevision 2⟩),
    .commit (.capsuleCommitted "p" "pod:p/n/x" 2)]

theorem headRun_owned : headRun.Owned plainRules := ⟨_, _, _, rfl⟩

theorem headRun_heads :
    headRun.podHead "p" "i" = some (podRevision 2) ∧ headRun.Answers (podRevision 2) ∧
      PodHeads.fromMaterialized headRun.history.state.values = .ok headRun.history.podHeads := by
  have hlives := PtrRuntime.lives_of_owned plainFormat plainReader headRun_owned
  obtain ⟨-, hanswers, -, hrebuilt, -⟩ :=
    PtrRuntime.pod_heads_form_chains plainRules plainFormat plainReader hlives
  have hhead : headRun.podHead "p" "i" = some (podRevision 2) := by decide +kernel
  exact ⟨hhead, (hanswers "p" "i" _ hhead).2.2, hrebuilt⟩

/-- The head of the run on a host that replayed its records. -/
theorem headRun_replayed :
    ∃ r, PtrRuntime.replay plainRules 1 ⟨false, false, false⟩ headRun.ledger = .ok r ∧
      r.podHeadStatus "p" "i" = some (.live (podRevision 2)) := by
  have hok : (PtrRuntime.replay plainRules 1 ⟨false, false, false⟩ headRun.ledger).isOk = true := by
    decide +kernel
  cases hr : PtrRuntime.replay plainRules 1 ⟨false, false, false⟩ headRun.ledger with
  | error => rw [hr] at hok; cases hok
  | ok r =>
    have hagree := PtrRuntime.same_records_agree plainRules plainFormat plainReader
      (PtrRuntime.lives_of_owned _ _ headRun_owned) (.replay (by decide +kernel) hr)
    exact ⟨r, rfl, (hagree.2.2.2.2 "p" "i").2 _ (by decide +kernel)⟩

end Ptr.Runtime
