import Mathlib.Data.List.Nodup
import Ptr.Memory.Knowledge

/-!
# Retention decisions

A model scores the candidates and a controller decides what is kept of each.  The scores
are checked as a set, by the ids they carry, and used by their positions: a score that
stands at another candidate's place is not that candidate's, and the candidate is kept
as if nothing were known of it.
-/

namespace Ptr.Memory

open Lib List

inductive RetentionAction
  | keepVerbatim | keepStructured | dropResult | dropCall | demoteToPod | archive | recall
  | recompute | invalidate
  deriving DecidableEq

structure RetentionCandidate where
  objectId : KnowledgeObjectId
  sourceEvents : List RawEventId
  tokenCost : U32
  pinned : Bool

inductive RetentionReason
  | pinned | classifier | dependency | invalidated | fallback

structure RetentionScore where
  objectId : KnowledgeObjectId
  keepCall : Probability
  keepResult : Probability
  deriving DecidableEq

structure RetentionDecision where
  objectId : KnowledgeObjectId
  action : RetentionAction
  classifierScore : Probability
  reason : RetentionReason
  policyVersion : String
  dependencies : List KnowledgeObjectId

structure RetentionState where
  goal : String
  candidates : List RetentionCandidate

inductive RetentionError
  | candidateScoreMismatch (expected actual : KnowledgeObjectId)
  | duplicateCandidate (id : KnowledgeObjectId)
  | scoreCountMismatch (candidates scores : Nat)
  | unknownScore (id : KnowledgeObjectId)
  | modelFailure
  deriving DecidableEq

def Probability.one : Probability := ⟨⟨0x3f800000, by decide⟩, .inl (Nat.le_refl _)⟩

/-- Where a probability lies.  The bits of the floats from zero on are in the order of their
values, and the other zero is zero. -/
def Probability.rank (p : Probability) : Nat := if p.bits.val = 0x80000000 then 0 else p.bits.val

theorem Probability.rank_le_one (p : Probability) : p.rank ≤ one.rank := by
  show (if _ then _ else _) ≤ 0x3f800000
  split
  · exact bot_le
  · next hne => exact p.bounded.resolve_right hne

/-! ### Scores -/

def validateCandidates (ids : List KnowledgeObjectId) :
    List RetentionCandidate → Except RetentionError Unit
  | [] => .ok ()
  | c :: cs =>
    if c.objectId ∈ ids then .error (.duplicateCandidate c.objectId)
    else validateCandidates (c.objectId :: ids) cs

def validateScores (candidates : List RetentionCandidate) (scored : List KnowledgeObjectId) :
    List RetentionScore → Except RetentionError Unit
  | [] => .ok ()
  | s :: ss =>
    if s.objectId ∈ scored ∨ ∀ c ∈ candidates, c.objectId ≠ s.objectId then
      .error (.unknownScore s.objectId)
    else validateScores candidates (s.objectId :: scored) ss

abbrev RetentionModel := RetentionState → Except String (List RetentionScore)

def scoreCandidates (model : RetentionModel) (state : RetentionState) :
    Except RetentionError (List RetentionScore) := do
  validateCandidates [] state.candidates
  let scores ← (model state).mapError fun _ => .modelFailure
  if scores.length ≠ state.candidates.length then
    .error (.scoreCountMismatch state.candidates.length scores.length)
  else do
    validateScores state.candidates [] scores
    .ok scores

/-! ### Decisions -/

/-- `decide`: the result decides first, then the call. -/
def decideRetention (c : RetentionCandidate) (s : RetentionScore) (threshold : Probability)
    (version : String) : Except RetentionError RetentionDecision :=
  if s.objectId ≠ c.objectId then .error (.candidateScoreMismatch c.objectId s.objectId)
  else if c.pinned then .ok ⟨c.objectId, .keepVerbatim, .one, .pinned, version, []⟩
  else
    let action := if threshold.rank ≤ s.keepResult.rank then .keepVerbatim
      else if threshold.rank ≤ s.keepCall.rank then .dropResult
      else .dropCall
    .ok ⟨c.objectId, action, s.keepResult, .classifier, version, []⟩

structure RetentionController where
  model : RetentionModel
  threshold : Probability
  policyVersion : String

namespace RetentionController

def decision (k : RetentionController) (c : RetentionCandidate) (s : RetentionScore) :
    RetentionDecision :=
  match decideRetention c s k.threshold k.policyVersion with
  | .ok d => d
  | .error _ => ⟨c.objectId, .keepVerbatim, .one, .fallback, k.policyVersion, []⟩

def scores (k : RetentionController) (state : RetentionState) : List RetentionScore :=
  match scoreCandidates k.model state with
  | .ok scores => scores
  | .error _ => state.candidates.map fun c => ⟨c.objectId, .one, .one⟩

def decideAll (k : RetentionController) (state : RetentionState) : List RetentionDecision :=
  zipWith k.decision state.candidates (k.scores state)

variable {k : RetentionController} {state : RetentionState} {c : RetentionCandidate}
  {s : RetentionScore}

theorem length_scores : (k.scores state).length = state.candidates.length := by
  rw [scores]
  split
  · next scores hok =>
    obtain ⟨-, hok⟩ := bind_unit_eq_ok.mp hok
    obtain ⟨_, -, hok⟩ := bind_eq_ok.mp hok
    obtain ⟨hlength, hok⟩ := refuse_eq_ok.mp hok
    obtain ⟨-, hok⟩ := bind_unit_eq_ok.mp hok
    cases hok
    exact not_not.mp hlength
  · exact length_map _

theorem decideAll_getElem? {i : Nat} (hc : state.candidates[i]? = some c) :
    ∃ s, (k.scores state)[i]? = some s ∧ (k.decideAll state)[i]? = some (k.decision c s) := by
  obtain ⟨hi, -⟩ := List.getElem?_eq_some_iff.mp hc
  rw [← length_scores] at hi
  refine ⟨_, getElem?_eq_getElem hi, ?_⟩
  rw [decideAll, getElem?_zipWith, hc, getElem?_eq_getElem]

theorem decision_keeps (h : c.pinned = true ∨ s.keepResult = .one) :
    (k.decision c s).action = .keepVerbatim := by
  rw [decision, decideRetention]
  by_cases hid : s.objectId = c.objectId
  · rw [if_neg (not_not.mpr hid)]
    cases hpin : c.pinned with
    | true => rfl
    | false =>
      rw [h.resolve_left (by rw [hpin]; exact Bool.false_ne_true)]
      exact if_pos k.threshold.rank_le_one
  · rw [if_pos hid]

end RetentionController

theorem nodup_of_validateCandidates {ids cs} (h : validateCandidates ids cs = .ok ()) :
    (cs.map RetentionCandidate.objectId).Nodup ∧ ∀ c ∈ cs, c.objectId ∉ ids := by
  induction cs generalizing ids with
  | nil => exact ⟨.nil, fun _ hc => absurd hc not_mem_nil⟩
  | cons c cs ih =>
    obtain ⟨hnew, h⟩ := refuse_eq_ok.mp h
    obtain ⟨hnodup, hrest⟩ := ih h
    refine ⟨nodup_cons.mpr ⟨fun hmem => ?_, hnodup⟩, fun d hd => ?_⟩
    · obtain ⟨d, hd, heq⟩ := mem_map.mp hmem
      exact hrest d hd (heq ▸ mem_cons_self)
    · rcases mem_cons.mp hd with rfl | hd
      · exact hnew
      · exact fun hmem => hrest d hd (mem_cons_of_mem _ hmem)

theorem decision_reason {k : RetentionController} {c s} :
    (k.decision c s).reason = .fallback ↔ s.objectId ≠ c.objectId := by
  rw [RetentionController.decision, decideRetention]
  by_cases hid : s.objectId = c.objectId
  · rw [if_neg (not_not.mpr hid)]
    cases c.pinned with
    | true | false => simp [hid]
  · rw [if_pos hid]
    simp [hid]

/-- **Decisions follow the candidate** exactly if the model returns its scores in the order
of the candidates: then each is decided by the one score that carries its id.  And in any
order a candidate that is pinned, or that has no score, is kept verbatim. -/
theorem retention_follows_candidate (k : RetentionController) (state : RetentionState) :
    (∀ scores, scoreCandidates k.model state = .ok scores →
      (scores.map RetentionScore.objectId = state.candidates.map RetentionCandidate.objectId ↔
        ∀ (i : Nat) c, state.candidates[i]? = some c → ∃ s ∈ scores, s.objectId = c.objectId ∧
          (∀ t ∈ scores, t.objectId = c.objectId → t = s) ∧
          (k.decideAll state)[i]? = some (k.decision c s))) ∧
    ∀ (i : Nat) c, state.candidates[i]? = some c →
      (c.pinned = true ∨ ∀ scores, scoreCandidates k.model state ≠ .ok scores) →
      ∃ d, (k.decideAll state)[i]? = some d ∧ d.action = .keepVerbatim := by
  refine ⟨fun scores hok => ?_, fun i c hc h => ?_⟩
  · have hscores : k.scores state = scores := by rw [RetentionController.scores, hok]
    constructor
    · intro halign i c hc
      obtain ⟨s, hs, hdecide⟩ := RetentionController.decideAll_getElem? hc
      rw [hscores] at hs
      have hid : s.objectId = c.objectId := by
        have hat := congrArg (·[i]?) halign
        simpa [hs, hc] using hat
      have hnodup : (scores.map RetentionScore.objectId).Nodup := by
        rw [halign]
        exact (nodup_of_validateCandidates (bind_unit_eq_ok.mp hok).1).1
      refine ⟨s, mem_of_getElem? hs, hid, fun t ht heq => ?_, hdecide⟩
      exact inj_on_of_nodup_map hnodup ht (mem_of_getElem? hs) (heq.trans hid.symm)
    · -- A score out of its place shows in the reason of the decision.
      intro hfollows
      refine List.ext_getElem? fun i => ?_
      rw [getElem?_map, getElem?_map]
      cases hc : state.candidates[i]? with
      | none =>
        rw [getElem?_eq_none_iff, ← RetentionController.length_scores (k := k), hscores] at hc
        rw [getElem?_eq_none hc]
        rfl
      | some c =>
        obtain ⟨s, hs, hdecide⟩ := RetentionController.decideAll_getElem? (k := k) hc
        obtain ⟨own, -, hown, -, hfollow⟩ := hfollows i c hc
        have hsame : k.decision c s = k.decision c own :=
          Option.some.inj (hdecide.symm.trans hfollow)
        have hid : s.objectId = c.objectId := by
          by_contra hne
          exact decision_reason.mp (hsame ▸ decision_reason.mpr hne) hown
        rw [hscores] at hs
        rw [hs, Option.map_some, Option.map_some, hid]
  · obtain ⟨s, hs, hdecide⟩ := RetentionController.decideAll_getElem? hc
    refine ⟨_, hdecide, RetentionController.decision_keeps (h.imp_right fun hnone => ?_)⟩
    rw [RetentionController.scores] at hs
    split at hs
    · next scores hok => exact absurd hok (hnone scores)
    · rw [getElem?_map, hc] at hs
      cases hs
      rfl

/-! ### Scores in another order -/

def twoCandidates : RetentionState := ⟨"", [⟨"a", [], 0, false⟩, ⟨"b", [], 0, false⟩]⟩

def twoScores : List RetentionScore := [⟨"a", ⟨1, by decide⟩, ⟨1, by decide⟩⟩, ⟨"b", .one, .one⟩]

def returning (scores : List RetentionScore) : RetentionController :=
  ⟨fun _ => .ok scores, .one, "v"⟩

/-- **The same scores in another order** pass the check and keep what they would drop. -/
theorem permuted_scores_change_decision :
    scoreCandidates (returning twoScores).model twoCandidates = .ok twoScores ∧
      scoreCandidates (returning twoScores.reverse).model twoCandidates = .ok twoScores.reverse ∧
      ((returning twoScores).decideAll twoCandidates).map (·.action) = [.dropCall, .keepVerbatim] ∧
      ((returning twoScores.reverse).decideAll twoCandidates).map (·.action) =
        [.keepVerbatim, .keepVerbatim] := by
  decide +kernel

theorem retention_follows_candidate_two :
    ∃ s ∈ twoScores, s.objectId = "a" ∧ ((returning twoScores).decideAll twoCandidates)[0]? =
      some ((returning twoScores).decision ⟨"a", [], 0, false⟩ s) := by
  obtain ⟨s, hs, hid, -, hdecide⟩ :=
    ((retention_follows_candidate (returning twoScores) twoCandidates).1 twoScores
      (by decide +kernel)).mp rfl 0 ⟨"a", [], 0, false⟩ rfl
  exact ⟨s, hs, hid, hdecide⟩

end Ptr.Memory
