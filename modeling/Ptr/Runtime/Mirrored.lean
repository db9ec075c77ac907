import Ptr.Runtime.Lives

/-!
# Registries and their entries

Every value that a record sets stands under a name that begins with the kind of the
record (`entryHeads`), so the entries of the pod heads, of the taint and of the merged
branches are set by their own records only.  With that every record leaves the heads and
the taint as their entries say (`Takes.mirrors`).
-/

namespace Ptr.Runtime

open Lib Ledger Semdb List

variable {ρ τ : Type} {R : Rules ρ τ} {F : ExpertFormat ρ} {G : ExpertReader ρ}
  {values : Std.ExtTreeMap String String} {subjects : List TaintSubject} {change : KvTaintChange}

/-! ### The names of the values -/

def apart (pre head : String) : Bool := !hasPrefix pre head && !hasPrefix head pre

theorem hasPrefix_iff {pre text} : hasPrefix pre text = true ↔ pre.toList <+: text.toList := by
  rw [hasPrefix, isPrefixOf_iff_prefix]

theorem not_hasPrefix_of_apart {pre head key} (h : apart pre head = true)
    (hkey : hasPrefix head key = true) : hasPrefix pre key = false := by
  rw [Bool.eq_false_iff]
  intro hpre
  rw [apart, Bool.and_eq_true, Bool.not_eq_true', Bool.not_eq_true', Bool.eq_false_iff,
    Bool.eq_false_iff, Ne, Ne, hasPrefix_iff, hasPrefix_iff] at h
  rcases prefix_or_prefix_of_prefix (hasPrefix_iff.mp hpre) (hasPrefix_iff.mp hkey) with hp | hp
  · exact h.1 hp
  · exact h.2 hp

def entryHeads : LedgerEvent → List String
  | .semanticDeltaCommitted .. => ["semdb:", "branch-merge:"]
  | .capsuleCommitted .. | .capsuleSuperseded .. => ["capsule:"]
  | .revoked .. | .procedureRevoked .. => ["revoked:"]
  | .hardConstraintCommitted .. => ["constraint:"]
  | .verifierAttested .. => ["verifier:"]
  | .procedurePromoted .. => ["procedure:"]
  | .snapshotCommitted .. => ["snapshot:"]
  | .effectAttempted _ | .effectSettled .. | .effectReconciled .. => ["effect:"]
  | .protectedStateCommitted _ => ["protected:"]
  | .meshTunnelLifecycle _ => ["mesh:"]
  | .executionManifestAdmitted _ | .executionManifestRevoked .. => ["execution-manifest:"]
  | .expertStructuralCommitted _ | .expertFenceCommitted _ | .expertAuthorityChanged _ => ["expert"]
  | .inputInvalidated _ => ["revoked:", "expert"]
  | .kvTaintCommitted .. => ["kv-taint:"]
  | .egressRefused _ => ["egress-refus"]
  | .podHeadAdvanced _ => ["pod-head:"]
  | _ => []

theorem hasPrefix_append_right {pre a} (h : hasPrefix pre a = true) (b : String) : hasPrefix pre
    (a ++ b) = true := by
  rw [hasPrefix_iff] at h ⊢
  rw [String.toList_append]
  exact h.trans (prefix_append _ _)

def HeadedBy (heads : List String) (entries : List (String × String)) : Prop :=
  ∀ p ∈ entries, ∃ head ∈ heads, hasPrefix head p.1 = true

theorem named_nil (heads : List String) : HeadedBy heads [] := fun _ h => by cases h

theorem named_cons {heads k v entries head} (hhead : head ∈ heads) (hk : hasPrefix head k = true)
    (h : HeadedBy heads entries) : HeadedBy heads
    ((k, v) :: entries) := by
  intro p hp
  rcases mem_cons.mp hp with rfl | hp
  · exact ⟨head, hhead, hk⟩
  · exact h p hp

theorem named_semanticEntries (index : CommitIndex) (revision : Revision)
    (origin : SemanticOrigin) :
    HeadedBy ["semdb:", "branch-merge:"] (semanticEntries index revision origin) := by
  have hrevision : hasPrefix "semdb:" "semdb:revision" = true := by decide
  have hmarker : hasPrefix "semdb:" attestedMarker = true := by decide
  cases origin with
  | legacy => exact named_cons mem_cons_self hrevision (named_nil _)
  | merge =>
    refine named_cons mem_cons_self hrevision (named_cons mem_cons_self hmarker ?_)
    refine named_cons (mem_cons_of_mem _ mem_cons_self) ?_ (named_nil _)
    exact hasPrefix_append_right (hasPrefix_append_right (hasPrefix_append _ _) _) _
  | _ => exact named_cons mem_cons_self hrevision (named_cons mem_cons_self hmarker (named_nil _))

theorem named_expertInputKey (identity : String) (generation : Generation) :
    hasPrefix "expert" (expertInputKey identity generation) = true := by
  have hhead : hasPrefix "expert" "expert-input:" = true := by decide
  exact hasPrefix_append_right
    (hasPrefix_append_right
    (hasPrefix_append_right (hasPrefix_append_right (hasPrefix_append_right hhead _) _) _) _) _

theorem named_invalidationEntries (i : InputInvalidation) : HeadedBy ["revoked:", "expert"]
    (invalidationEntries i) := by
  have hexpert : "expert" ∈ ["revoked:", "expert"] := mem_cons_of_mem _ mem_cons_self
  unfold invalidationEntries
  split
  · exact named_cons mem_cons_self (hasPrefix_append _ _)
      (named_cons hexpert (named_expertInputKey _ _) (named_nil _))
  · exact named_cons hexpert (named_expertInputKey _ _) (named_nil _)

theorem named_refusalKey (source : EgressRefusalSource) :
    hasPrefix "egress-refus" (refusalKey source) = true := by
  have hpod : hasPrefix "egress-refus" "egress-refused:" = true := by decide
  cases source with
  | pod =>
    exact hasPrefix_append_right
      (hasPrefix_append_right
      (hasPrefix_append_right (hasPrefix_append_right (hasPrefix_append_right hpod _) _) _) _) _
  | overflow => decide

theorem hasPrefix_two (pre a b : String) : hasPrefix pre (pre ++ a ++ b) = true :=
  hasPrefix_append_right (hasPrefix_append pre a) b

theorem named_projectionEntries (R : Rules ρ τ) (c : CommittedEvent) :
    HeadedBy (entryHeads c.event) (projectionEntries R.expertEntries c) := by
  obtain ⟨index, e⟩ := c
  cases e with
  | semanticDeltaCommitted base revision encoded origin =>
    exact named_semanticEntries index revision origin
  | capsuleCommitted | effectReconciled =>
    exact named_cons mem_cons_self (hasPrefix_two _ _ _)
      (named_cons mem_cons_self (hasPrefix_two _ _ _) (named_nil _))
  | capsuleSuperseded | procedurePromoted | effectSettled | executionManifestAdmitted
  | executionManifestRevoked =>
    exact named_cons mem_cons_self (hasPrefix_two _ _ _) (named_nil _)
  | revoked | verifierAttested =>
    exact named_cons mem_cons_self (hasPrefix_append _ _) (named_nil _)
  | procedureRevoked =>
    have hhead : hasPrefix "revoked:" "revoked:procedure:" = true := by decide
    exact named_cons mem_cons_self (hasPrefix_append_right hhead _) (named_nil _)
  | hardConstraintCommitted =>
    exact named_cons mem_cons_self (hasPrefix_append _ _) (named_nil _)
  | snapshotCommitted =>
    exact named_cons mem_cons_self
      (by decide : hasPrefix "snapshot:" "snapshot:last_revision" = true)
      (named_cons mem_cons_self (by decide : hasPrefix "snapshot:" "snapshot:covers_commit" = true)
      (named_nil _))
  | effectAttempted =>
    exact named_cons mem_cons_self (hasPrefix_two _ _ _)
      (named_cons mem_cons_self (hasPrefix_two _ _ _)
      (named_cons mem_cons_self (hasPrefix_two _ _ _) (named_nil _)))
  | protectedStateCommitted s =>
    have hname :
        hasPrefix "protected:" ("protected:" ++ toString s.domain.toNat ++ ":" ++ s.logicalId) =
        true :=
      hasPrefix_append_right (hasPrefix_two _ _ _) _
    exact named_cons mem_cons_self (hasPrefix_append_right hname _) (named_cons mem_cons_self
      (hasPrefix_append_right hname _)
      (named_cons mem_cons_self (hasPrefix_append_right hname _) (named_nil _)))
  | meshTunnelLifecycle e =>
    have hname : hasPrefix "mesh:" ("mesh:" ++ e.networkId ++ ":" ++ e.peerId) = true :=
      hasPrefix_append_right (hasPrefix_two _ _ _) _
    exact named_cons mem_cons_self (hasPrefix_append_right hname _)
      (named_cons mem_cons_self (hasPrefix_append_right hname _) (named_nil _))
  | expertStructuralCommitted s =>
    intro p hp
    exact ⟨"expert", mem_cons_self, R.expertEntries_named s.project s.record p hp⟩
  | expertFenceCommitted =>
    have hhead : hasPrefix "expert" "expert:" = true := by decide
    exact named_cons mem_cons_self
      (hasPrefix_append_right (hasPrefix_append_right (hasPrefix_append_right hhead _) _) _)
      (named_nil _)
  | inputInvalidated i => exact named_invalidationEntries i
  | expertAuthorityChanged =>
    have hhead : hasPrefix "expert" "expert-authority:" = true := by decide
    exact named_cons mem_cons_self (hasPrefix_append_right hhead _) (named_nil _)
  | kvTaintCommitted =>
    intro p hp
    obtain ⟨x, -, rfl⟩ := mem_map.mp hp
    exact ⟨"kv-taint:", mem_cons_self, hasPrefix_append_right (hasPrefix_two _ _ _) _⟩
  | egressRefused => exact named_cons mem_cons_self (named_refusalKey _) (named_nil _)
  | podHeadAdvanced =>
    exact named_cons mem_cons_self (hasPrefix_append_right (hasPrefix_two _ _ _) _) (named_nil _)
  | _ => exact named_nil _

theorem not_hasPrefix_projection (R : Rules ρ τ) {pre c}
    (h : (entryHeads c.event).all (apart pre) = true) {p}
    (hp : p ∈ projectionEntries R.expertEntries c) : hasPrefix pre p.1 = false := by
  obtain ⟨head, hhead, hstart⟩ := named_projectionEntries R c p hp
  exact not_hasPrefix_of_apart (all_eq_true.mp h head hhead) hstart

/-! ### Entries of merged branches -/

/-- An entry in the form that a snapshot asks for, if it is about a merged branch. -/
def Canonical (p : String × String) : Prop :=
  hasPrefix mergedBranchPrefix p.1 = true → (mergedBranchOf p.1).isSome = true ∧
    (parseMergedBranchEntry p.2).isSome = true

theorem MergesCanonical.set (h : MergesCanonical values) {entries : List (String × String)}
    (hentries : ∀ p ∈ entries, Canonical p) :
    MergesCanonical (entries.foldl (fun m p => m.insert p.1 p.2) values) := by
  induction entries generalizing values with
  | nil => exact h
  | cons p entries ih =>
    rw [forall_mem_cons] at hentries
    refine ih ?_ hentries.2
    intro k v hv hstart
    obtain ⟨rfl, rfl⟩ | ⟨-, hv⟩ := some_of_insert hv
    · exact hentries.1 hstart
    · exact h k v hv hstart

theorem canonical_of_other {p} (h : hasPrefix mergedBranchPrefix p.1 = false) : Canonical p := by
  intro hstart
  rw [h] at hstart
  cases hstart

theorem colon_not_mem_decimal (n : U64) : ':' ∉ (decimal n).toList := by
  intro hmem
  exact absurd (isDigit_of_mem_decimal hmem) (by decide)

theorem mergedBranchKey_eq (branch : String) :
    mergedBranchKey branch = mergedBranchPrefix ++ toString branch.utf8ByteSize ++ ":" ++ branch :=
  rfl

theorem mergedBranchOf_key {branch} (h : branch.utf8ByteSize < 2 ^ 64) :
    mergedBranchOf (mergedBranchKey branch) = some branch := by
  have hkey : (mergedBranchKey branch).toList =
      mergedBranchPrefix.toList ++
      ((decimal ⟨branch.utf8ByteSize, h⟩).toList ++ [':'] ++ branch.toList) := by
    have hcolon : ":".toList = [':'] := by decide
    simp [mergedBranchKey_eq, decimal]
  have hstrip := stripPrefix_eq_some.mpr hkey
  have hsplit : splitOnce [':']
      ((decimal ⟨branch.utf8ByteSize, h⟩).toList ++ [':'] ++ branch.toList) =
      some ((decimal ⟨branch.utf8ByteSize, h⟩).toList, branch.toList) :=
    splitOnce_append (colon_not_mem_decimal _)
  rw [mergedBranchOf, hstrip]
  simp only [Option.bind_eq_bind, Option.bind_some, hsplit, parseNumber_decimal,
    String.ofList_toList, if_pos]

theorem parseMergedBranchEntry_entry (index : CommitIndex) (plan : Digest) :
    parseMergedBranchEntry (mergedBranchEntry index plan) = some (index, plan) := by
  have hsplit : splitOnce [':'] (mergedBranchEntry index plan).toList =
      some ((decimal index).toList, (hexDigest plan).toList) := by
    have hentry : (mergedBranchEntry index plan).toList =
        (decimal index).toList ++ [':'] ++ (hexDigest plan).toList := by
      simp [mergedBranchEntry]
    rw [hentry]
    exact splitOnce_append (colon_not_mem_decimal index)
  rw [parseMergedBranchEntry, hsplit]
  simp [parseNumber_decimal, parseHexDigest_hexDigest]

theorem mergeRule_eq_ok {sha base encoded d m} :
    mergeRule sha values base encoded d m = .ok () ↔
      writtenIngressKey d = none ∧
      (validProvenance m.branch = true ∧ validProvenance m.author = true) ∧
      authorityRule m.authority = .ok () ∧ checkAttestationRules m.verification = .ok () ∧
      d.dependencies = ∅ ∧ (∀ key ∈ m.rebased, key ∉ d.removals ∧ isIngressKey key = false) ∧
      mergePlanDigest sha m.branch base encoded m.dependencies m.rebased = m.plan ∧
      mergedBranchKey m.branch ∉ values := by
  simp only [mergeRule, throw_if_eq_ok, bind_unit_eq_ok, throw_unless_eq_ok]
  simp

/-- A merge that is allowed names its branch in a short text. -/
theorem length_of_merge {sha index base encoded d m}
    (h : validateSemanticOrigin sha values index base encoded d (.merge m) = .ok ()) :
    m.branch.utf8ByteSize ≤ maxProvenanceText := by
  have hrule : mergeRule sha values base encoded d m = .ok () := mapError_eq_ok.mp h
  have hbranch := (mergeRule_eq_ok.mp hrule).2.1.1
  rw [validProvenance, Bool.and_eq_true, decide_eq_true_eq] at hbranch
  exact hbranch.2

/-! ### Taint and heads -/

theorem checkKvTaint_ok (h : checkKvTaint subjects change = .ok ()) :
    (∀ x ∈ subjects, x.2 ≠ Digest.zero) ∧ change.digestsOk = true := by
  simp only [checkKvTaint, refuse_eq_ok, Bool.not_eq_true', Bool.not_eq_false, Bool.and_eq_true,
    all_eq_true, decide_eq_true_eq] at h
  exact h.2.2.1

/-- A subject that no digest of a change excludes is read back from its key. -/
theorem readTaint_subject {x} (hx : x.2 ≠ Digest.zero) {d} (hd : d ≠ Digest.zero) :
    readTaint (taintKey x) (taintEntry (.record d d)) = .ok (some (x, ⟨d, d⟩)) :=
  readTaint_entry hx (by simp [KvTaintChange.digestsOk, hd])

theorem under_taintKey (x : TaintSubject) : taintFormat.under (taintFormat.key x) = true := by
  exact hasPrefix_append_right (hasPrefix_two _ _ _) _

theorem under_podHeadKey (x : ProjectId × PodIdentity) :
    podHeadFormat.under (podHeadFormat.key x) = true := by
  exact hasPrefix_append_right (hasPrefix_two _ _ _) _

theorem insertIfNew_same {t : Taint} {x} {e : TaintEntry} (h : ∀ e', t[x]? = some e' → e' = e) :
    t.insertIfNew x e = t.insert x e := by
  apply Std.ExtTreeMap.ext_getElem?
  intro y
  rw [Std.ExtTreeMap.getElem?_insertIfNew, Std.ExtTreeMap.getElem?_insert]
  by_cases hxy : compare x y = .eq
  · obtain rfl := Std.LawfulEqOrd.eq_of_compare hxy
    split
    · rfl
    next hmem =>
    have hx : x ∈ t := by
      by_contra hx
      exact hmem ⟨hxy, hx⟩
    obtain ⟨e', he'⟩ := mem_iff_some.mp hx
    rw [he', h e' he']
  · rw [if_neg hxy, if_neg fun hmem => hxy hmem.1]

theorem Taint.apply_cons (t : Taint) (x : TaintSubject) (subjects : List TaintSubject)
    (change : KvTaintChange) :
    t.apply (x :: subjects) change = (t.apply [x] change).apply subjects change := rfl

theorem reflects_apply {t : Taint} (h : taintFormat.Reflects values t)
    (hzero : ∀ x ∈ subjects, x.2 ≠ Digest.zero) (hdigests : change.digestsOk = true)
    (hfree : ∀ report recipe, change = .record report recipe → ∀ x ∈ subjects, ∀ e, t[x]? = some e →
      e = ⟨report, recipe⟩) :
    taintFormat.Reflects
      ((subjects.map fun s => (taintKey s, taintEntry change)).foldl
        (fun m p => m.insert p.1 p.2) values)
      (t.apply subjects change) := by
  induction subjects generalizing values t with
  | nil => exact h
  | cons x subjects ih =>
    rw [forall_mem_cons] at hzero
    rw [Taint.apply_cons]
    have hread : taintFormat.read (taintFormat.key x) (taintEntry change) = _ :=
      readTaint_entry hzero.1 hdigests
    cases change with
    | record report recipe =>
      have hx := hfree report recipe rfl x mem_cons_self
      have hone : t.apply [x] (.record report recipe) = t.insert x ⟨report, recipe⟩ :=
        insertIfNew_same hx
      rw [hone]
      refine ih (h.insert (under_taintKey x) hread) hzero.2 ?_
      rintro _ _ ⟨⟩ y hy e he
      obtain ⟨-, rfl⟩ | ⟨-, he⟩ := some_of_insert he
      · rfl
      · exact hfree report recipe rfl y (mem_cons_of_mem _ hy) e he
    | clear recipe =>
      have hrecipe : recipe ≠ Digest.zero := by
        simp only [KvTaintChange.digestsOk, Bool.and_eq_true, decide_eq_true_eq] at hdigests
        exact hdigests.1
      have hsubject : taintFormat.read (taintFormat.key x) _ = _ :=
        readTaint_subject hzero.1 hrecipe
      refine ih (h.erase hsubject hread) hzero.2 ?_
      rintro _ _ ⟨⟩

theorem size_apply_le (t : Taint) (subjects : List TaintSubject) (change : KvTaintChange) :
    (t.apply subjects change).size ≤ t.size + match change with
      | .record _ _ => subjects.length
      | .clear _ _ => 0 := by
  induction subjects generalizing t with
  | nil => exact Nat.le_add_right _ _
  | cons x subjects ih =>
    rw [Taint.apply_cons]
    have hrest := ih (t.apply [x] change)
    cases change with
    | record report recipe =>
      have hone : (t.apply [x] (.record report recipe)).size ≤ t.size + 1 :=
        Std.ExtTreeMap.size_insertIfNew_le
      simp only [length_cons] at hrest ⊢
      omega
    | clear recipe recompute =>
      have hone : (t.apply [x] (.clear recipe recompute)).size ≤ t.size :=
        Std.ExtTreeMap.size_erase_le
      simp only at hrest ⊢
      omega

/-- A valid record finds its subjects fresh and has room for them. -/
theorem validate_taint_ok {t : Taint} (h : t.validate subjects change = .ok ()) :
    checkKvTaint subjects change = .ok () ∧ match change with
      | .record _ _ => (∀ x ∈ subjects, x ∉ t) ∧ t.size + subjects.length ≤ maxLiveTaintSubjects
      | .clear recipe _ => ∀ x ∈ subjects, ∃ e, t[x]? = some e ∧ e.recipeDigest = recipe := by
  obtain ⟨hencodable, h⟩ := refuse_eq_ok.mp h
  rw [Bool.not_eq_true', Bool.not_eq_false, isOk_iff, checkEncodable_eq_ok] at hencodable
  refine ⟨hencodable.1, ?_⟩
  cases change with
  | record =>
    simp only [refuse_eq_ok, any_eq_true, not_exists, not_and, not_lt] at h
    exact ⟨h.1, h.2.1⟩
  | clear =>
    intro x hx
    have hone := forM_eq_ok.mp h x hx
    rw [Taint.checkClear] at hone
    cases hentry : t[x]? with
    | none => simp [hentry] at hone
    | some e =>
      simp only [hentry, refuse_eq_ok, not_not] at hone
      exact ⟨e, rfl, hone.1⟩

theorem validateAdvance_address {heads : PodHeads} {l} {a : PodHeadAdvance}
    (h : heads.validateAdvance l a = .ok ()) : a.new.validate = .ok () := by
  rw [PodHeads.validateAdvance, refuse_eq_ok, not_or] at h
  rw [Bool.not_eq_true', Bool.not_eq_false, isOk_iff] at h
  exact h.1.1

namespace PtrRuntime

variable {r r' : PtrRuntime ρ τ} {c : CommittedEvent}

theorem canonical_projection {semantic} (h : r.Readied R c.event semantic) :
    ∀ p ∈ projectionEntries R.expertEntries c, Canonical p := by
  intro p hp
  obtain ⟨index, e⟩ := c
  cases h with
  | @change origin d encoded prepared _ decode hprepared changes allowed kept =>
    have hrevision : hasPrefix mergedBranchPrefix "semdb:revision" = false := by decide
    have hmarker : hasPrefix mergedBranchPrefix attestedMarker = false := by decide
    cases origin with
    | merge =>
      have hlength := length_of_merge allowed
      have hkey := mergedBranchOf_key (lt_of_le_of_lt hlength (by decide))
      simp only [projectionEntries, semanticEntries, reduceCtorEq, if_false, cons_append,
        nil_append, mem_cons, not_mem_nil, or_false] at hp
      rcases hp with rfl | rfl | rfl
      · exact canonical_of_other hrevision
      · exact canonical_of_other hmarker
      · intro _
        rw [hkey, parseMergedBranchEntry_entry]
        exact ⟨rfl, rfl⟩
    | legacy =>
      simp only [projectionEntries, semanticEntries, if_true, append_nil, mem_singleton] at hp
      subst hp
      exact canonical_of_other hrevision
    | _ =>
      simp only [projectionEntries, semanticEntries, reduceCtorEq, if_false, cons_append,
        nil_append, mem_cons, not_mem_nil, or_false] at hp
      rcases hp with rfl | rfl
      · exact canonical_of_other hrevision
      · exact canonical_of_other hmarker
  | nothing other =>
    refine canonical_of_other (not_hasPrefix_projection R ?_ hp)
    cases e with
    | semanticDeltaCommitted => cases other
    | _ => rfl

/-! ### One more record -/

def Synced (r : PtrRuntime ρ τ) : Prop :=
  r.uncertain = false → r.history.state.lastApplied.val = r.base.val + r.ledger.length

/-- A record that is kept a second time in the values. -/
def mirrored : LedgerEvent → Bool
  | .podHeadAdvanced _ | .kvTaintCommitted .. => true
  | _ => false

theorem applyEvent_mirrored (R : Rules ρ τ) (r : PtrRuntime ρ τ) (semantic : Option PreparedDelta)
    (h : mirrored c.event = true) :
    (r.applyEvent R c semantic).1 = .ok () := by
  obtain ⟨index, e⟩ := c
  cases e with
  | podHeadAdvanced | kvTaintCommitted => rfl
  | _ => cases h

/-- What is left of a record: all of it, or what it did before it failed. -/
theorem Takes.applies (h : r.Takes R c r') (hsynced : r.Synced) :
    ∃ semantic next, r.Readied R c.event semantic ∧ Applies R r c semantic next ∧
      (r'.uncertain = true ∧ mirrored c.event = false ∧ r'.history = next ∨
        r'.history = { next with
          state := ⟨(next.state.set (projectionEntries R.expertEntries c)).values, c.index⟩ }) := by
  obtain ⟨uncertain, semantic, hreadied, hresult⟩ := h.applied
  obtain ⟨hobligations, hscopes, hlifecycle, hlast, hsemdb, hheads, htaint, hvalues⟩ :=
    applies_applyEvent (r.holding c uncertain) c semantic
  refine ⟨semantic, _, hreadied,
    ⟨hobligations, hscopes, hlifecycle, hlast, hsemdb, hheads, htaint, hvalues⟩, ?_⟩
  rcases hresult with ⟨e, next, herror, hhistory, hmark⟩ | ⟨next, hok, hhistory⟩
  · refine .inl ⟨hmark, ?_, ?_⟩
    · rw [Bool.eq_false_iff]
      intro hm
      have happlied := applyEvent_mirrored R (r.holding c uncertain) semantic hm
      rw [herror] at happlied
      cases happlied
    · rw [hhistory, herror]
  · refine .inr ?_
    have hindex : c.index.val = next.history.state.lastApplied.val + 1 := by
      rw [hok] at hlast
      rw [hlast, nextIndex_val h.index, ← hsynced h.certain]
      rfl
    rw [hhistory, hok, apply_next R.expertEntries hindex]

theorem Takes.synced (h : r.Takes R c r') (hsynced : r.Synced) : r'.Synced := by
  intro hcertain
  obtain ⟨semantic, next, -, -, ⟨hmark, -, -⟩ | hhistory⟩ := h.applies hsynced
  · rw [hmark] at hcertain
    cases hcertain
  · rw [hhistory, h.base, h.ledger, length_append]
    exact nextIndex_val h.index

theorem applies_entries {semantic next} (h : Applies R r c semantic next) :
    ∃ extra : List (String × String), (∀ p ∈ extra, hasPrefix "expert" p.1 = true) ∧
      next.state.values = extra.foldl (fun m p => m.insert p.1 p.2) r.history.state.values := by
  rcases h.values with hsame | ⟨plan, hplan, hstate⟩
  · exact ⟨[], forall_mem_nil _, hsame⟩
  · exact ⟨plan.entries, R.expertPlan_named _ _ _ _ hplan, by rw [hstate]; rfl⟩

/-- The entries of a valid record, and the heads it leaves. -/
theorem heads_projection {values} {heads : PodHeads} (h : podHeadFormat.Reflects values heads)
    (hvalid : ∀ a, c.event = .podHeadAdvanced a → checkPodHeadAdvanced a = .ok () ∧
      a.new.validate = .ok ()) :
    podHeadFormat.Reflects
      ((projectionEntries R.expertEntries c).foldl (fun m p => m.insert p.1 p.2) values)
      (heads.apply c.event) := by
  obtain ⟨index, e⟩ := c
  cases e with
  | podHeadAdvanced a =>
    obtain ⟨hcheck, haddress⟩ := hvalid a rfl
    have hread : podHeadFormat.read (podHeadFormat.key (a.project, a.identity))
        (podHeadEntry a.new) = _ :=
      readPodHead_entry hcheck haddress
    change podHeadFormat.Reflects
      (values.insert (podHeadFormat.key (a.project, a.identity)) (podHeadEntry a.new))
      (heads.insert (a.project, a.identity) a.new)
    exact h.insert (under_podHeadKey (a.project, a.identity)) hread
  | _ => exact h.set_other fun p hp => not_hasPrefix_projection R rfl hp

/-- The entries of a valid record, and the taint it leaves. -/
theorem taint_projection {values : Std.ExtTreeMap String String} {t : Taint}
    (h : taintFormat.Reflects values t)
    (hvalid : ∀ subjects change, c.event = .kvTaintCommitted subjects change →
      t.validate subjects change = .ok ()) :
    taintFormat.Reflects
      ((projectionEntries R.expertEntries c).foldl (fun m p => m.insert p.1 p.2) values)
      (t.applyEvent c.event) := by
  obtain ⟨index, e⟩ := c
  cases e with
  | kvTaintCommitted subjects change =>
    obtain ⟨hcheck, hfresh⟩ := validate_taint_ok (hvalid subjects change rfl)
    obtain ⟨hzero, hdigests⟩ := checkKvTaint_ok hcheck
    refine reflects_apply h hzero hdigests ?_
    rintro report recipe rfl x hx e he
    exact absurd (mem_of_some he) (hfresh.1 x hx)
  | _ => exact h.set_other fun p hp => not_hasPrefix_projection R rfl hp

theorem room_projection {t : Taint} (h : t.size ≤ maxLiveTaintSubjects)
    (hvalid : ∀ subjects change, c.event = .kvTaintCommitted subjects change →
      t.validate subjects change = .ok ()) :
    (t.applyEvent c.event).size ≤ maxLiveTaintSubjects := by
  obtain ⟨index, e⟩ := c
  cases e with
  | kvTaintCommitted subjects change =>
    have hroom := (validate_taint_ok (hvalid subjects change rfl)).2
    have hsize := size_apply_le t subjects change
    cases change with
    | record => exact le_trans hsize hroom.2
    | clear => exact le_trans hsize h
  | _ => exact h

/-- The values agree with the heads, the taint and the form of a snapshot. -/
structure Mirrors (h : History ρ τ) : Prop where
  merges : MergesCanonical h.state.values
  heads : podHeadFormat.Reflects h.state.values h.podHeads
  taint : taintFormat.Reflects h.state.values h.taint
  room : h.taint.size ≤ maxLiveTaintSubjects

theorem mirrors_empty (R : Rules ρ τ) (owner : Nat) : Mirrors (History.empty R owner) where
  merges k v h := by simp [History.empty, MaterializedState.empty] at h
  heads := EntryFormat.reflects_empty
  taint := EntryFormat.reflects_empty
  room := by simp [History.empty]

theorem Takes.head_valid (h : r.Takes R c r') {a} (he : c.event = .podHeadAdvanced a) :
    checkPodHeadAdvanced a = .ok () ∧
      r.history.podHeads.validateAdvance r.history.lifecycle a = .ok () := by
  have hencodable := h.encodable
  have hvalid := h.valid
  rw [he] at hencodable hvalid
  exact ⟨(checkEncodable_eq_ok.mp hencodable).1, hvalid⟩

theorem Takes.taint_valid (h : r.Takes R c r') {subjects change}
    (he : c.event = .kvTaintCommitted subjects change) :
    r.history.taint.validate subjects change = .ok () := by
  have hvalid := h.valid
  rw [he] at hvalid
  exact hvalid

theorem Takes.mirrors (h : r.Takes R c r') (hsynced : r.Synced) (hr : Mirrors r.history) :
    Mirrors r'.history := by
  obtain ⟨semantic, next, hreadied, happlies, hresult⟩ := h.applies hsynced
  obtain ⟨extra, hextra, hvalues⟩ := applies_entries happlies
  have hother : ∀ pre, apart pre "expert" = true → ∀ p ∈ extra, hasPrefix pre p.1 = false :=
    fun pre hapart p hp => not_hasPrefix_of_apart hapart (hextra p hp)
  have hmerges : MergesCanonical next.state.values := by
    rw [hvalues]
    exact hr.merges.set fun p hp => canonical_of_other (hother _ (by decide) p hp)
  have hheads : podHeadFormat.Reflects next.state.values r.history.podHeads := by
    rw [hvalues]
    exact hr.heads.set_other (hother _ (by decide))
  have htaint : taintFormat.Reflects next.state.values r.history.taint := by
    rw [hvalues]
    exact hr.taint.set_other (hother _ (by decide))
  rcases hresult with ⟨-, hplain, hhistory⟩ | hhistory
  · -- A record that can fail changes neither the heads nor the taint.
    have hsame : next.podHeads = r.history.podHeads ∧ next.taint = r.history.taint := by
      rw [happlies.podHeads, happlies.taint]
      cases hevent : c.event with
      | podHeadAdvanced | kvTaintCommitted => rw [hevent] at hplain; cases hplain
      | _ => exact ⟨rfl, rfl⟩
    rw [hhistory]
    exact ⟨hmerges, hsame.1 ▸ hheads, hsame.2 ▸ htaint, hsame.2 ▸ hr.room⟩
  · rw [hhistory]
    refine ⟨hmerges.set (canonical_projection hreadied), ?_, ?_, ?_⟩
    · rw [happlies.podHeads]
      refine heads_projection hheads ?_
      intro a he
      exact ⟨(h.head_valid he).1, validateAdvance_address (h.head_valid he).2⟩
    · rw [happlies.taint]
      exact taint_projection htaint fun _ _ => h.taint_valid
    · rw [happlies.taint]
      exact room_projection hr.room fun _ _ => h.taint_valid

end PtrRuntime

end Ptr.Runtime
