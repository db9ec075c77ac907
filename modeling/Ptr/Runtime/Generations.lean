import Ptr.Lib.After
import Ptr.Runtime.Moves

/-!
# Generations never come back

Live generations rise and tombstones stay: `Later` is that order on lifecycles, and
every record that passed its validation moves up in it (`later_apply`).  The
lifecycle of a runtime is the fold of its ledger (`GenerationLog`), so the order
holds between any two runtimes of which one has the records of the other, however
they came to be: by calls, by a replay, or by calls after a replay.

* `Later.never_live`: what was revoked or superseded is never live again.
* `not_revoked_of_accepts`: no record makes a revoked generation live.
* `kind_apply`: a record about one kind of target leaves the other kinds.
-/

namespace Ptr.Runtime

open Lib Ledger Semdb PtrRuntime

variable {ρ τ : Type} {R : Rules ρ τ} {l l' : Lifecycle} {r : PtrRuntime ρ τ}

namespace Lifecycle

/-! ### The order -/

structure Later (l l' : Lifecycle) : Prop where
  live : ∀ target g, l.liveGeneration target = some g →
    ∃ g', l'.liveGeneration target = some g' ∧ g ≤ g'
  revoked : ∀ target g, l.isRevoked target g = true → l'.isRevoked target g = true

theorem Later.refl (l : Lifecycle) : Later l l := ⟨fun _ g h => ⟨g, h, le_refl g⟩, fun _ _ h => h⟩

theorem Later.trans {m} (h : Later l m) (h' : Later m l') : Later l l' := by
  refine ⟨?_, fun target g hg => h'.revoked target g (h.revoked target g hg)⟩
  intro target g hg
  obtain ⟨g1, hg1, hle1⟩ := h.live target g hg
  obtain ⟨g2, hg2, hle2⟩ := h'.live target g1 hg1
  exact ⟨g2, hg2, le_trans hle1 hle2⟩

def Gone (l : Lifecycle) (target : String) (g : Generation) : Prop :=
  l.generationValidity target g = some .revoked ∨ l.generationValidity target g = some .superseded

variable {g : Generation} {target : String} {e : LedgerEvent} {capsule : CapsuleId}

theorem gone_iff :
    l.Gone target g ↔ l.isRevoked target g = true ∨ ∃ live, l.liveGeneration target = some live ∧
      g < live := by
  rw [Gone, generationValidity]
  cases hrevoked : l.isRevoked target g with
  | true => simp
  | false =>
    cases hlive : l.liveGeneration target with
    | none => simp
    | some live =>
      rcases lt_trichotomy g live with hlt | heq | hgt
      · simp [Ne.symm (hlt.ne)]
      · simp [heq]
      · simp [hgt.ne]

theorem Later.gone (h : Later l l') (hg : l.Gone target g) : l'.Gone target g := by
  rw [gone_iff] at hg ⊢
  rcases hg with hrevoked | ⟨live, hlive, hlt⟩
  · exact .inl (h.revoked target g hrevoked)
  · obtain ⟨live', hlive', hle⟩ := h.live target live hlive
    exact .inr ⟨live', hlive', lt_of_lt_of_le hlt hle⟩

theorem Gone.not_live (h : l.Gone target g) :
    l.generationValidity target g ≠ some .live := by
  rcases h with h | h <;> simp [h]

theorem Later.never_live (h : Later l l') (hg : l.Gone target g) :
    l'.generationValidity target g ≠ some .live :=
  (h.gone hg).not_live

/-! ### One record -/

theorem liveGeneration_set (l : Lifecycle) (target : String) (g : Generation) (t : String) :
    (l.setLiveGeneration target g).liveGeneration t = if target = t then some g
      else l.liveGeneration t := by
  rw [liveGeneration, setLiveGeneration, Std.ExtTreeMap.getElem?_insert]
  simp only [Std.LawfulEqOrd.compare_eq_iff_eq]
  rfl

theorem isRevoked_revoke (l : Lifecycle) (target : String) (g : Generation) (t : String)
    (g' : Generation) :
    (l.revoke target g).isRevoked t g' = (decide ((target, g) = (t, g')) || l.isRevoked t g') := by
  rw [isRevoked, revoke, isRevoked]
  rw [Bool.eq_iff_iff]
  simp

theorem validateActivation_ok :
    l.validateActivation target g = .ok () ↔
      (∀ live, l.liveGeneration target = some live → live ≤ g) ∧ l.isRevoked target g = false := by
  rw [validateActivation]
  cases hlive : l.liveGeneration target with
  | none | some => simp

theorem later_setLiveGeneration (h : l.validateActivation target g = .ok ()) :
    Later l (l.setLiveGeneration target g) := by
  refine ⟨?_, fun _ _ h => h⟩
  intro t live hlive
  rw [liveGeneration_set]
  by_cases ht : target = t
  · subst ht
    exact ⟨g, if_pos rfl, (validateActivation_ok.mp h).1 live hlive⟩
  · exact ⟨live, by rw [if_neg ht, hlive], le_refl live⟩

theorem later_revoke (l : Lifecycle) (target : String) (g : Generation) :
    Later l (l.revoke target g) := by
  refine ⟨fun _ live h => ⟨live, h, le_refl live⟩, ?_⟩
  intro t g' h
  rw [isRevoked_revoke, h, Bool.or_true]

def Accepts (l : Lifecycle) : LedgerEvent → Prop
  | .capsuleCommitted project capsule g => l.validateCapsule project capsule g = .ok ()
  | .capsuleSuperseded capsule old new => l.validateSupersession capsule old new = .ok ()
  | .hardConstraintCommitted key g => l.validateActivation (constraintTarget key) g = .ok ()
  | .procedurePromoted id g => l.validateActivation (procedureTarget id) g = .ok ()
  | _ => True

def activation : LedgerEvent → Option (String × Generation)
  | .capsuleCommitted _ capsule g => some (capsule, g)
  | .capsuleSuperseded capsule _ new => some (capsule, new)
  | .hardConstraintCommitted key g => some (constraintTarget key, g)
  | .procedurePromoted id g => some (procedureTarget id, g)
  | _ => none

theorem validateCapsule_ok {project} (h : l.validateCapsule project capsule g = .ok ()) :
    (hasPrefix "constraint:" capsule = false ∧ hasPrefix "procedure:" capsule = false) ∧
      l.validateActivation capsule g = .ok () := by
  rw [validateCapsule, refuse_eq_ok, not_or, Bool.not_eq_true, Bool.not_eq_true] at h
  obtain ⟨hreserved, h⟩ := h
  obtain ⟨-, h⟩ := bind_unit_eq_ok.mp h
  exact ⟨hreserved, (bind_unit_eq_ok.mp h).2⟩

theorem validateSupersession_ok {old new} (h : l.validateSupersession capsule old new = .ok ()) :
    capsule ∈ l.capsuleProjects ∧ l.validateActivation capsule new = .ok () := by
  rw [validateSupersession, refuse_eq_ok, not_or, not_not] at h
  exact ⟨h.1.1, h.2⟩

theorem validateActivation_of_accepts (h : l.Accepts e) (he : activation e = some (target, g)) :
    l.validateActivation target g = .ok () := by
  cases e with
  | capsuleCommitted => cases he; exact (validateCapsule_ok h).2
  | capsuleSuperseded => cases he; exact (validateSupersession_ok h).2
  | hardConstraintCommitted | procedurePromoted => cases he; exact h
  | _ => cases he

theorem not_revoked_of_accepts (h : l.Accepts e) (he : activation e = some (target, g)) :
    l.isRevoked target g = false :=
  (validateActivation_ok.mp (validateActivation_of_accepts h he)).2

theorem later_apply (h : l.Accepts e) : Later l (l.apply e) := by
  cases e with
  | capsuleCommitted =>
    have hset := later_setLiveGeneration (validateCapsule_ok h).2
    exact ⟨hset.live, hset.revoked⟩
  | capsuleSuperseded => exact later_setLiveGeneration (validateSupersession_ok h).2
  | hardConstraintCommitted | procedurePromoted => exact later_setLiveGeneration h
  | revoked subject g => exact later_revoke l subject g
  | procedureRevoked id g => exact later_revoke l (procedureTarget id) g
  | inputInvalidated i =>
    rw [apply]
    split
    · exact later_revoke l i.input i.generation
    · exact .refl l
  | _ => exact .refl l

/-! ### Kinds of targets -/

inductive TargetKind
  | capsule | constraint | procedure

/-- Two prefixes are reserved; every other name is a capsule's. -/
def kindOf (target : String) : TargetKind :=
  if hasPrefix "constraint:" target then .constraint
  else if hasPrefix "procedure:" target then .procedure
  else .capsule

def recordKind : LedgerEvent → Option TargetKind
  | .capsuleCommitted .. | .capsuleSuperseded .. => some .capsule
  | .hardConstraintCommitted .. => some .constraint
  | .procedurePromoted .. | .procedureRevoked .. => some .procedure
  | .revoked subject _ => some (kindOf subject)
  | .inputInvalidated i => some (kindOf i.input)
  | _ => none

theorem kindOf_constraintTarget (key : String) : kindOf (constraintTarget key) = .constraint :=
  if_pos (hasPrefix_append _ key)

theorem kindOf_procedureTarget (id : String) : kindOf (procedureTarget id) = .procedure := by
  have hother : hasPrefix "constraint:" (procedureTarget id) = false := by
    rw [hasPrefix, procedureTarget, String.toList_append]
    rfl
  rw [kindOf, if_neg (by rw [hother]; exact Bool.false_ne_true)]
  exact if_pos (hasPrefix_append _ id)

def CapsulesOnly (l : Lifecycle) : Prop := ∀ target ∈ l.capsuleProjects, kindOf target = .capsule

theorem kindOf_capsule {project} (h : l.validateCapsule project capsule g = .ok ()) :
    kindOf capsule = .capsule := by
  obtain ⟨⟨hconstraint, hprocedure⟩, -⟩ := validateCapsule_ok h
  rw [kindOf, hconstraint, hprocedure]
  rfl

theorem capsulesOnly_apply (hl : l.CapsulesOnly) (h : l.Accepts e) : (l.apply e).CapsulesOnly := by
  cases e with
  | capsuleCommitted project capsule =>
    intro target htarget
    have hmem : target ∈ l.capsuleProjects.insert capsule project := htarget
    rw [mem_insert_or] at hmem
    rcases hmem with rfl | hmem
    · exact kindOf_capsule h
    · exact hl target hmem
  | inputInvalidated =>
    rw [apply]
    split
    · exact hl
    · exact hl
  | _ => exact hl

def SameTarget (l l' : Lifecycle) (target : String) : Prop :=
  l'.liveGeneration target = l.liveGeneration target ∧
    ∀ g, l'.isRevoked target g = l.isRevoked target g

theorem sameTarget_setLiveGeneration {t} (h : kindOf target ≠ kindOf t) :
    SameTarget l (l.setLiveGeneration target g) t := by
  refine ⟨?_, fun _ => rfl⟩
  rw [liveGeneration_set, if_neg]
  rintro rfl
  exact h rfl

theorem sameTarget_revoke {t} (h : kindOf target ≠ kindOf t) :
    SameTarget l (l.revoke target g) t := by
  refine ⟨rfl, ?_⟩
  intro g'
  rw [isRevoked_revoke, decide_eq_false, Bool.false_or]
  intro heq
  cases heq
  exact h rfl

theorem kind_apply (hl : l.CapsulesOnly) (h : l.Accepts e) {t}
    (ht : recordKind e ≠ some (kindOf t)) :
    SameTarget l (l.apply e) t := by
  cases e with
  | capsuleCommitted project capsule g =>
    have hkind := kindOf_capsule h
    have hset : SameTarget l (l.setLiveGeneration capsule g) t :=
      sameTarget_setLiveGeneration (fun heq => ht (by rw [← heq, hkind]; rfl))
    exact ⟨hset.1, hset.2⟩
  | capsuleSuperseded capsule =>
    have hkind := hl capsule (validateSupersession_ok h).1
    exact sameTarget_setLiveGeneration (fun heq => ht (by rw [← heq, hkind]; rfl))
  | hardConstraintCommitted =>
    exact sameTarget_setLiveGeneration (fun heq => ht (by rw [← heq, kindOf_constraintTarget]; rfl))
  | procedurePromoted =>
    exact sameTarget_setLiveGeneration (fun heq => ht (by rw [← heq, kindOf_procedureTarget]; rfl))
  | revoked => exact sameTarget_revoke (fun heq => ht (by rw [← heq]; rfl))
  | procedureRevoked =>
    exact sameTarget_revoke (fun heq => ht (by rw [← heq, kindOf_procedureTarget]; rfl))
  | inputInvalidated =>
    rw [apply]
    split
    · exact sameTarget_revoke (fun heq => ht (by rw [← heq]; rfl))
    · exact ⟨rfl, fun _ => rfl⟩
  | _ => exact ⟨rfl, fun _ => rfl⟩

end Lifecycle

/-! ### The ledger -/

open Lifecycle

def lifecycleOf (events : List CommittedEvent) : Lifecycle :=
  events.foldl (fun l c => l.apply c.event) .empty

theorem lifecycleOf_append (events : List CommittedEvent) (c : CommittedEvent) :
    lifecycleOf (events ++ [c]) = (lifecycleOf events).apply c.event := by
  rw [lifecycleOf, List.foldl_append]
  rfl

structure GenerationLog (r : PtrRuntime ρ τ) : Prop where
  lifecycle : r.history.lifecycle = lifecycleOf r.ledger
  accepted : EachAfter (fun before c => (lifecycleOf before).Accepts c.event) r.ledger

theorem accepts_of_valid {e} (h : r.validateLifecycleEvent R e = .ok ()) :
    r.history.lifecycle.Accepts e := by
  cases e with
  | capsuleCommitted | capsuleSuperseded | hardConstraintCommitted | procedurePromoted => exact h
  | _ => exact trivial

theorem GenerationLog.extend {r' : PtrRuntime ρ τ} {c} (h : GenerationLog r)
    (hvalid : r.validateLifecycleEvent R c.event = .ok ()) (hledger : r'.ledger = r.ledger ++ [c])
    (hlife : r'.history.lifecycle = r.history.lifecycle.apply c.event) : GenerationLog r' := by
  refine ⟨?_, ?_⟩
  · rw [hlife, hledger, lifecycleOf_append, h.lifecycle]
  · rw [hledger, eachAfter_append_singleton]
    exact ⟨h.accepted, h.lifecycle ▸ accepts_of_valid hvalid⟩

namespace PtrRuntime

theorem generationLog_of_arises {r : PtrRuntime ρ τ} (h : r.Arises R) : GenerationLog r := by
  refine arises_invariant ?_ ?_ ?_ ?_ h
  · intro r r' hr hq
    exact ⟨by rw [hq.lifecycle, hq.ledger]; exact hr.lifecycle, by
      rw [hq.ledger]; exact hr.accepted⟩
  · intro r c semantic hr happends
    refine hr.extend happends.valid (completed_appended c semantic).2 ?_
    rw [completed_history]
    exact lifecycle_applyCommitted semantic happends.valid
  · intro owner boundary
    exact ⟨rfl, eachAfter_nil⟩
  · intro r c r' hr hreplays
    obtain ⟨semantic, -, happly⟩ := hreplays.applied
    have hlife :=
      lifecycle_applyCommitted (r := { r with ledger := r.ledger ++ [c] }) semantic hreplays.valid
    rw [happly] at hlife
    exact hr.extend hreplays.valid hreplays.process.ledger hlife

end PtrRuntime

theorem later_lifecycleOf {events more}
    (h : EachAfter (fun before c => (lifecycleOf before).Accepts c.event) (events ++ more)) :
    Later (lifecycleOf events) (lifecycleOf (events ++ more)) := by
  induction more using List.reverseRecOn with
  | nil => rw [List.append_nil]; exact .refl _
  | append_singleton more c ih =>
    rw [← List.append_assoc, eachAfter_append_singleton] at h
    rw [← List.append_assoc, lifecycleOf_append]
    exact (ih h.1).trans (later_apply h.2)

theorem capsulesOnly_lifecycleOf {events}
    (h : EachAfter (fun before c => (lifecycleOf before).Accepts c.event) events) :
    (lifecycleOf events).CapsulesOnly := by
  induction events using List.reverseRecOn with
  | nil =>
    intro target htarget
    exact absurd htarget (by simp [lifecycleOf, Lifecycle.empty])
  | append_singleton events c ih =>
    rw [eachAfter_append_singleton] at h
    rw [lifecycleOf_append]
    exact capsulesOnly_apply (ih h.1) h.2

/-! ### Grants -/

/-- What is gone is denied, wherever the check of the generation is on. -/
theorem PtrRuntime.denied_of_gone {a} (h : r.history.lifecycle.Gone a.target a.generation)
    (hcheck : hardBoundary a.effect = true ∨ r.boundary.requireLiveGeneration = true) :
    ∃ denial, r.authorizationDecision a = .deny denial := by
  have hstale : PermissionSet.generationDenial (r.authorizationOf a r.boundary) =
      some (.staleGeneration a.target a.generation
      (r.history.lifecycle.liveGeneration a.target)) := by
    rw [PermissionSet.generationDenial, if_pos (by simpa [authorizationOf] using hcheck), if_pos]
    · rfl
    · rw [gone_iff] at h
      rcases h with hrevoked | ⟨live, hlive, hlt⟩
      · simp [authorizationOf, hrevoked]
      · simp [authorizationOf, hlive, Ne.symm (hlt.ne)]
  rw [authorizationDecision, PermissionSet.authorize]
  split
  · exact ⟨_, rfl⟩
  · rw [hstale]
    exact ⟨_, rfl⟩

theorem PtrRuntime.commit_refused {e} (h : r.validateLifecycleEvent R e ≠ .ok ()) :
    ∃ error, r.commit R e = (.error error, r) := by
  cases hchecks : r.commitChecks R e with
  | error error => exact ⟨error, by rw [commit, hchecks]⟩
  | ok => exact absurd (commitChecks_ok hchecks).2.2.1 h

/-- **Generation safety.**  Let one runtime have the records of another.  Live
generations did not go back; what was revoked or superseded is not live and, where
the check of the generation is on, not granted; no record makes a revoked generation
live; and one more record about one kind of target leaves the other kinds. -/
theorem generation_safety (R : Rules ρ τ) {r r' : PtrRuntime ρ τ} (hr : r.Arises R)
    (hr' : r'.Arises R) (hlater : r.ledger <+: r'.ledger) :
    (∀ target g, r.history.lifecycle.liveGeneration target = some g →
      ∃ g', r'.history.lifecycle.liveGeneration target = some g' ∧ g ≤ g') ∧
    (∀ target g, r.history.lifecycle.Gone target g →
      r'.history.lifecycle.generationValidity target g ≠ some .live ∧
      ∀ a : ActionIr, a.target = target → a.generation = g →
        hardBoundary a.effect = true ∨ r'.boundary.requireLiveGeneration = true →
        ∃ denial, r'.authorizationDecision a = .deny denial) ∧
    (∀ e target g, activation e = some (target, g) →
      r'.history.lifecycle.isRevoked target g = true →
      (∃ error, r'.commit R e = (.error error, r')) ∧
      ∀ index, ∃ error, r'.replayRecord R ⟨index, e⟩ = .error error) ∧
    ∀ c, r'.ledger = r.ledger ++ [c] → ∀ target, recordKind c.event ≠ some (kindOf target) →
      SameTarget r.history.lifecycle r'.history.lifecycle target := by
  have hlog := generationLog_of_arises hr
  have hlog' := generationLog_of_arises hr'
  have horder : Later r.history.lifecycle r'.history.lifecycle := by
    obtain ⟨more, hmore⟩ := hlater
    rw [hlog.lifecycle, hlog'.lifecycle, ← hmore]
    exact later_lifecycleOf (by rw [hmore]; exact hlog'.accepted)
  refine ⟨horder.live, ?_, ?_, ?_⟩
  · intro target g hg
    refine ⟨horder.never_live hg, ?_⟩
    rintro a rfl rfl hcheck
    exact denied_of_gone (horder.gone hg) hcheck
  · intro e target g he hrevoked
    have hinvalid : r'.validateLifecycleEvent R e ≠ .ok () := by
      intro hvalid
      rw [not_revoked_of_accepts (accepts_of_valid hvalid) he] at hrevoked
      cases hrevoked
    refine ⟨commit_refused hinvalid, ?_⟩
    intro index
    cases hreplay : r'.replayRecord R ⟨index, e⟩ with
    | error error => exact ⟨error, rfl⟩
    | ok => exact absurd (replayRecord_ok hreplay).valid hinvalid
  · intro c hc target hkind
    have haccepted := hlog'.accepted
    rw [hc, eachAfter_append_singleton] at haccepted
    rw [hlog.lifecycle, hlog'.lifecycle, hc, lifecycleOf_append]
    exact kind_apply (capsulesOnly_lifecycleOf hlog.accepted) haccepted.2 hkind

/-- A runtime whose boundary does not ask for a live generation, after a capsule was
committed and its generation revoked. -/
def relaxedRun : PtrRuntime Unit Unit :=
  (new plainRules 0 ⟨false, false, true⟩).run plainRules
    [.commit (.capsuleCommitted "p" "c" 1), .commit (.revoked "c" 1)]

def readRevoked : ActionIr where
  operation := "get"
  target := "c"
  capability := "k"
  effect := .read
  inputType := "t"
  generation := 1
  revision := 0
  payload := []

/-- **A revoked generation is granted to a reader** where the boundary does not ask for
a live one, and a supersession may name it as the generation it replaces. -/
theorem revoked_generation_granted :
    relaxedRun.Arises plainRules ∧ relaxedRun.history.lifecycle.generationValidity "c" 1 =
      some .revoked ∧
      relaxedRun.authorizationDecision readRevoked = .allow ⟨"c", 0, 1, "k", .read⟩ ∧
      (relaxedRun.commit plainRules (.capsuleSuperseded "c" 1 2)).1 = .ok 3 := by
  refine ⟨arises_run (.new _ _) _, ?_, ?_, ?_⟩
  · decide +kernel
  · decide +kernel
  · decide +kernel

/-- One more record on top of the revocation. -/
theorem generation_safety_of_relaxedRun :
    relaxedRun.history.lifecycle.Gone "c" 1 ∧
      (relaxedRun.run plainRules
        [.commit (.capsuleSuperseded "c" 1 2)]).history.lifecycle.generationValidity "c" 1 ≠
        some .live := by
  have harises : relaxedRun.Arises plainRules := arises_run (.new _ _) _
  have hgone : relaxedRun.history.lifecycle.Gone "c" 1 := .inl (by decide +kernel)
  exact ⟨hgone, ((generation_safety plainRules harises (arises_run harises _)
    (run_ledger [.commit (.capsuleSuperseded "c" 1 2)])).2.1 "c" 1 hgone).1⟩

end Ptr.Runtime
