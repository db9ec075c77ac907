import Ptr.Runtime.EffectFence

/-!
# The execution section of a runtime always fits

The account of the section reserves the room of the settlement with each attempt.  An
attempt is recorded only while nothing is unsettled, so its settlement takes what it
reserved (`fits_settle`), and every other record that grows the section was checked.
-/

namespace Ptr.Runtime

open Lib Ledger Semdb ScopeRegistry List
open Std.ExtTreeMap (size_insert ext_getElem? contains_eq_isSome_getElem?)

variable {ρ τ : Type} {R : Rules ρ τ}

def settledBytes (settled : Std.ExtTreeMap String SettledOutcome) : Nat :=
  (settled.toList.map fun p => settledEntryBytes p.1 p.2).sum

def settlementReservations (o : Obligations) : Nat :=
  (o.unsettled.toList.map fun p => (reservedSettlement p.2 o.settled).1).sum

theorem executionSection_reserve (o : Obligations) (g : ScopeRegistry) :
    (executionSection o g true).bytes = (executionSection o g false).bytes +
      settlementReservations o := by
  simp only [executionSection, settlementReservations]
  simp
  omega

theorem not_overflow_of_fits {o g} (h : (executionSection o g true).fits = true) :
    executionSectionOverflow o g = none := by
  have hbytes := executionSection_reserve o g
  rw [executionSectionOverflow, if_pos]
  rw [SectionUse.fits_iff] at h ⊢
  have hcount : (executionSection o g false).settled ≤ (executionSection o g true).settled :=
    Nat.add_le_add_left (countP_mono_left (by simp)) _
  simp only [executionSection] at h hbytes hcount ⊢
  omega

section Parts

variable {settled : Std.ExtTreeMap String SettledOutcome} {g : ScopeRegistry}
  {attempt : CommitIndex}
  {u : UnsettledEffect} {key : String} {outcome : SettledOutcome}

theorem executionSection_none : executionSection ⟨∅, settled⟩ g true =
    ⟨16 + settledBytes settled + g.snapshotBytes, 0, settled.size, g.scopes.size⟩ := by
  simp [executionSection, settledBytes]

theorem executionSection_one :
    executionSection ⟨(∅ : Std.ExtTreeMap CommitIndex UnsettledEffect).insert attempt u,
      settled⟩ g true =
      ⟨16 + settledBytes settled + g.snapshotBytes +
        (unsettledEntryBytes u + (reservedSettlement u settled).1), 1,
        settled.size + (if (reservedSettlement u settled).2 then 1 else 0), g.scopes.size⟩ := by
  rw [executionSection, SectionUse.mk.injEq]
  simp only [toList_singleton, settledBytes, map_cons, map_nil, sum_cons, sum_nil, if_true,
    countP_singleton, Bool.true_and]
  refine ⟨by omega, ?_, trivial, trivial⟩
  rw [← Std.ExtTreeMap.length_toList, toList_singleton, length_singleton]

theorem settledBytes_insert :
    settledBytes (settled.insert key outcome) + (settled[key]?.map (settledEntryBytes key)).getD 0 =
      settledBytes settled + settledEntryBytes key outcome := by
  cases hold : settled[key]? with
  | none =>
    have hnew : key ∉ settled := by simp [mem_iff_some, hold]
    simp only [settledBytes, sum_toList_insert _ hnew, Option.map_none, Option.getD_none]
    omega
  | some => exact sum_toList_update (fun p => settledEntryBytes p.1 p.2) hold

/-- Without a response a settlement takes no more than its attempt reserved. -/
theorem settledEntryBytes_outcome {s} (hkey : u.key = some key)
    (h : ∀ response, s ≠ .applied (some response)) :
    settledEntryBytes key (u.outcome attempt s) ≤
      (reservedSettlement u settled).1 + (settled[key]?.map (settledEntryBytes key)).getD 0 := by
  have hentry : settledEntryBytes key (u.outcome attempt s) ≤
      4 + key.utf8ByteSize + 8 + 8 + identityBytes u.identity := by
    cases s with
    | notApplied =>
      simp only [UnsettledEffect.outcome, settledEntryBytes]
      omega
    | applied response =>
      cases response with
      | none =>
        simp only [UnsettledEffect.outcome, settledEntryBytes]
        omega
      | some response => exact absurd rfl (h response)
  cases hold : settled[key]? with
  | none =>
    simp only [reservedSettlement, hkey, hold]
    omega
  | some =>
    simp only [reservedSettlement, hkey, hold, Option.map_some, Option.getD_some]
    omega

theorem size_insert_settled (hkey : u.key = some key) : (settled.insert key outcome).size =
    settled.size + (if (reservedSettlement u settled).2 then 1 else 0) := by
  rw [size_insert, contains_eq_isSome_getElem?]
  cases hold : settled[key]? with
  | none | some => simp [reservedSettlement, hkey, hold]

end Parts

variable {o : Obligations} {g g' : ScopeRegistry} {attempt : CommitIndex} {u : UnsettledEffect}

theorem Obligations.Single.unsettled_eq (h : o.Single) (hu : o.unsettled[attempt]? = some u) :
    o.unsettled = (∅ : Std.ExtTreeMap CommitIndex UnsettledEffect).insert attempt u := by
  have hheld : ∀ i v, o.unsettled[i]? = some v → o.isUnsettled i = true := by
    intro i v hv
    rw [isUnsettled, contains_eq_isSome_getElem?, hv, Option.isSome_some]
  refine ext_getElem? fun i => ?_
  rw [Std.ExtTreeMap.getElem?_insert]
  by_cases hi : compare attempt i = .eq
  · rw [if_pos hi, ← Std.LawfulEqOrd.eq_of_compare hi, hu]
  rw [if_neg hi]
  cases hv : o.unsettled[i]? with
  | none => rfl
  | some v =>
    rw [Std.LawfulEqOrd.compare_eq_iff_eq] at hi
    exact absurd (h attempt i (hheld attempt u hu) (hheld i v hv)) hi

/-- **A settlement fits**: with a response because that was checked, and without one
because its attempt reserved the room. -/
theorem fits_settle {s} (hsingle : o.Single) (hfits : (executionSection o g true).fits = true)
    (hresponse : ∀ response, s = .applied (some response) →
      ∀ bytes ∈ sectionBytesAfterSettlement o g attempt response.length, bytes ≤ maxSectionBytes) :
    (executionSection (o.settle attempt s) g true).fits = true := by
  rw [Obligations.settle]
  cases hu : o.unsettled[attempt]? with
  | none => exact hfits
  | some u =>
    obtain ⟨unsettled, settled⟩ := o
    obtain rfl := hsingle.unsettled_eq hu
    have herased :
        ((∅ : Std.ExtTreeMap CommitIndex UnsettledEffect).insert attempt u).erase attempt = ∅ := by
      refine ext_getElem? fun i => ?_
      rw [Std.ExtTreeMap.getElem?_erase, Std.ExtTreeMap.getElem?_insert]
      split
      · rfl
      · rfl
    have hbefore := @executionSection_one settled g attempt u
    rw [hbefore, SectionUse.fits_iff] at hfits
    simp only [herased, executionSection_none, SectionUse.fits_iff]
    cases hkey : u.key with
    | none =>
      simp only at hfits ⊢
      omega
    | some key =>
      have hsum := @settledBytes_insert settled key (u.outcome attempt s)
      have hsize := @size_insert_settled settled u key (u.outcome attempt s) hkey
      have hroom : 16 + settledBytes (settled.insert key (u.outcome attempt s)) + g.snapshotBytes ≤
          maxSectionBytes := by
        by_cases hretained : ∃ response, s = .applied (some response)
        · obtain ⟨response, rfl⟩ := hretained
          have hbytes := hresponse response rfl
          simp only [sectionBytesAfterSettlement, hu, hkey, hbefore, bind, Option.bind,
            Option.mem_def, Option.some.injEq, forall_eq'] at hbytes
          have hentry : settledEntryBytes key (u.outcome attempt (.applied (some response))) =
              4 + key.utf8ByteSize + 8 + (8 + identityBytes u.identity + 4 + response.length) := rfl
          omega
        · have hentry := @settledEntryBytes_outcome settled attempt u key s hkey
            fun response hs => hretained ⟨response, hs⟩
          simp only at hfits
          omega
      simp only at hfits ⊢
      omega

theorem fits_of_check {u : SectionUse} (h : u.check = .ok ()) : u.fits = true := by
  rw [SectionUse.check, ite_eq_left_iff] at h
  exact by_contra fun hno => nomatch h hno

/-- A scope that is created takes the bytes and the item that were checked, and one that
is moved takes nothing. -/
theorem fits_scope {e : ScopeLifecycleEvent} (hg : ScopesAccounted g)
    (hfits : (executionSection o g true).fits = true)
    (hroom : checkExecutionSectionGrowth o g (.scopeLifecycle e) = .ok ())
    (hok : g.applyCommitted e = .ok g') : (executionSection o g' true).fits = true := by
  rcases applyCommitted_cases hok with rfl | ⟨hcreates, rfl⟩ | ⟨s, htransits, rfl⟩
  · exact hfits
  · have hgrowth : g.account e = g.snapshotBytes + g.growthBytes e := by
      rw [account, growthBytes, if_neg (not_not_intro hcreates.kind)]
      have hoverhead : 0 < scopeBlockOverhead := by decide
      cases hempty : g.scopes.isEmpty with
      | true =>
        rw [hg.none hempty, if_pos rfl]
        omega
      | false =>
        have hbytes := hg.bytes hempty
        rw [if_neg (by omega)]
        omega
    have hpositive : g.growthBytes e ≠ 0 := by
      rw [growthBytes, if_neg (not_not_intro hcreates.kind), compactedScopeEntryBytes]
      omega
    have hsize : ((g.create e).record e).scopes.size = g.scopes.size + 1 := by
      show (g.scopes.insert e.scopeId _).size = _
      rw [size_insert, if_neg]
      exact hcreates.fresh
    have hbytes : ((g.create e).record e).snapshotBytes = g.snapshotBytes + g.growthBytes e :=
      hgrowth
    rw [checkExecutionSectionGrowth, if_neg hpositive] at hroom
    have hchecked := fits_of_check hroom
    simp only [SectionUse.fits_iff, executionSection] at hchecked ⊢
    omega
  · have hsize : ((g.move e.scopeId s (stateFromKind e.kind)).record e).scopes.size =
        g.scopes.size := by
      show (g.scopes.insert e.scopeId _).size = _
      rw [size_insert, contains_eq_isSome_getElem?, htransits.scope]
      rfl
    rw [executionSection, hsize]
    exact hfits

namespace PtrRuntime

variable {r r' : PtrRuntime ρ τ} {c : CommittedEvent}

structure Budgeted (r : PtrRuntime ρ τ) : Prop where
  exportable : r.Exportable
  single : r.history.obligations.Single
  fits : (executionSection r.history.obligations r.history.scopes true).fits = true

theorem fits_obligations (h : r.Budgeted) (happends : r.Appends R c) :
    (executionSection (r.history.obligations.apply c) r.history.scopes true).fits = true := by
  have hroom := happends.room
  obtain ⟨index, e⟩ := c
  cases e with
  | effectAttempted a =>
    have hfence := happends.settles rfl
    rw [isFenced, Bool.or_eq_false_iff, Bool.not_eq_false', Std.ExtTreeMap.isEmpty_iff] at hfence
    have hchecked := fits_of_check hroom
    generalize r.history.obligations = o at hfence hchecked ⊢
    obtain ⟨unsettled, settled⟩ := o
    obtain rfl : unsettled = ∅ := hfence.2
    show (executionSection ⟨Std.ExtTreeMap.insert ∅ index (unsettledBy a index),
        settled⟩ r.history.scopes true).fits = true
    rw [executionSection_one]
    exact hchecked
  | effectSettled =>
    refine fits_settle h.single h.fits ?_
    intro bytes hbytes
    cases hbytes
    intro n hn
    rw [checkExecutionSectionGrowth, Option.mem_def.mp hn] at hroom
    exact not_lt.mp (refuse_eq_ok.mp hroom).1
  | effectReconciled attempt applied =>
    refine fits_settle h.single h.fits ?_
    intro bytes hbytes
    cases applied with
    | true => cases hbytes
    | false => cases hbytes
  | _ => exact h.fits

theorem budgeted_append (semantic : Option PreparedDelta) (h : r.Budgeted)
    (happends : r.Appends R c) :
    (completed ((r.begun c).applyCommitted R c semantic)).Budgeted := by
  refine ⟨h.exportable.append semantic happends, ?_, ?_⟩ <;>
    rw [completed_history, obligations_applyCommitted]
  · exact happends.single h.single
  rcases scopes_applyCommitted (R := R) (r.begun c) c semantic with hsame | ⟨e, he, hok⟩
  · rw [hsame]
    exact fits_obligations (r := r) h happends
  · have hkept : (r.begun c).history.obligations.apply c = r.history.obligations := by
      rw [Obligations.apply, he]
      rfl
    rw [hkept]
    exact fits_scope h.exportable.scopes h.fits (he ▸ happends.room) hok

theorem budgeted_quiet (h : r.Budgeted) (hq : Quiet r r') : r'.Budgeted :=
  ⟨h.exportable.quiet hq, by rw [hq.obligations]; exact h.single, by
    rw [hq.obligations, hq.scopes]; exact h.fits⟩

theorem budgeted_moves (hr : r.Budgeted) (h : r.MovesTo R r') : r'.Budgeted := by
  refine moves_invariant ?_ h hr
  intro s s' hs hmove
  rcases moves_cases hmove with ⟨c, semantic, happends, rfl⟩ | hq
  · exact budgeted_append semantic hs happends
  · exact budgeted_quiet hs hq

theorem budgeted_of_owned (h : r.Owned R) : r.Budgeted := by
  refine owned_invariant (fun _ _ => budgeted_quiet)
    (fun _ _ semantic => budgeted_append semantic) ?_ h
  intro owner boundary
  refine ⟨exportable_new R owner boundary, fun a b ha => ?_, ?_⟩
  · simp [new, History.empty, Obligations.empty, Obligations.isUnsettled] at ha
  · show (executionSection ⟨∅, ∅⟩ .empty true).fits = true
    decide

def settlesBare : LedgerEvent → Bool
  | .effectSettled _ none _ | .effectReconciled .. => true
  | _ => false

/-- A settlement without a response is refused for other reasons only: a commit that is
uncertain, an attempt that is not unsettled, or a record that is not written. -/
theorem commitSettlement_room {e} (he : settlesBare e = true) (bytes items : Nat) :
    (r.commitSettlement R e).1 ≠ .error (.executionSectionFull bytes items) := by
  have hvalid : r.validateLifecycleEvent R e ≠ .error (.executionSectionFull bytes items) := by
    cases e with
    | effectSettled attempt response =>
      cases response with
      | some => cases he
      | none =>
        rw [validateLifecycleEvent, Obligations.validateSettled]
        split <;> simp
    | effectReconciled =>
      rw [validateLifecycleEvent]
      split <;> simp
    | _ => cases he
  have happly : ∀ (s : PtrRuntime ρ τ) index, ∃ next, s.applyCommitted R ⟨index, e⟩ none =
      (.ok (), next) := by
    intro s index
    cases e with
    | effectSettled | effectReconciled => exact ⟨_, rfl⟩
    | _ => cases he
  have hroom : checkExecutionSectionGrowth r.history.obligations r.history.scopes e = .ok () := by
    cases e with
    | effectSettled attempt response =>
      cases response with
      | some => cases he
      | none => rfl
    | effectReconciled => rfl
    | _ => cases he
  rw [commitSettlement]
  split
  · simp
  split
  · next error herror =>
    rw [herror] at hvalid
    simpa using hvalid
  · rw [hroom]
    dsimp only
    rw [appendChecked]
    split
    · simp
    split
    · simp
    next index _ =>
    obtain ⟨next, hnext⟩ := happly (r.begun ⟨index, e⟩) index
    rw [hnext]
    simp

/-- **The execution section of a runtime that wrote all its records itself always fits.**
The account without reservations is the length of what is written, that and the
reservations are within the bounds, and a settlement without a response is never refused
for lack of room and leaves a section that fits. -/
theorem execution_section_fits (R : Rules ρ τ) (hr : r.Owned R) :
    (∃ bytes, writeSection (executionItems r.history.obligations r.history.scopes) = .ok bytes ∧
      (executionSection r.history.obligations r.history.scopes false).bytes = bytes.length ∧
      bytes.length + settlementReservations r.history.obligations ≤ maxSectionBytes) ∧
    r.history.obligations.unsettled.size ≤ maxSectionItems ∧
      r.history.obligations.settled.size ≤ maxSectionItems ∧
    r.history.scopes.scopes.size ≤ maxSectionItems ∧
    executionSectionOverflow r.history.obligations r.history.scopes = none ∧
    ∀ e, settlesBare e = true →
      (∀ bytes items, (r.commitSettlement R e).1 ≠ .error (.executionSectionFull bytes items)) ∧
      executionSectionOverflow (r.commitSettlement R e).2.history.obligations
        (r.commitSettlement R e).2.history.scopes = none := by
  have hbudget := budgeted_of_owned hr
  have hfits := hbudget.fits
  obtain ⟨bytes, hbytes, -⟩ :=
    execution_written hbudget.exportable.obligations hbudget.exportable.scopes
    (not_overflow_of_fits hfits)
  have hlength : (executionSection r.history.obligations r.history.scopes false).bytes =
      bytes.length := by
    rw [← itemsLength_execution hbudget.exportable.scopes]
    rw [writeSection, ItemFormat.putAll_eq_ok (bot_le)] at hbytes
    rw [← hbytes.2.2]
    rfl
  have hreserve := executionSection_reserve r.history.obligations r.history.scopes
  simp only [SectionUse.fits, Bool.and_eq_true, decide_eq_true_eq] at hfits
  obtain ⟨⟨⟨hsum, hunsettled⟩, hsettled⟩, hscopes⟩ := hfits
  refine ⟨⟨bytes, hbytes, hlength, by omega⟩, hunsettled, le_trans (Nat.le_add_right _ _) hsettled,
    hscopes, not_overflow_of_fits hbudget.fits, fun e he => ⟨commitSettlement_room he, ?_⟩⟩
  have hsettles : isSettlement e = true := by
    cases e with
    | effectSettled | effectReconciled => rfl
    | _ => cases he
  exact not_overflow_of_fits (budgeted_moves hbudget (commitSettlement_moves hsettles)).fits

end PtrRuntime

/-- An effect whose executor was lost holds its room until it is reconciled. -/
theorem unsettledRun_fits : 0 < settlementReservations unsettledRun.history.obligations ∧
    ∃ bytes, writeSection
      (executionItems unsettledRun.history.obligations unsettledRun.history.scopes) = .ok bytes ∧
      bytes.length + settlementReservations unsettledRun.history.obligations ≤ maxSectionBytes := by
  obtain ⟨⟨bytes, hbytes, -, hfits⟩, -⟩ := PtrRuntime.execution_section_fits plainRules
    ⟨0, _, [_, _, _], rfl⟩
  exact ⟨by decide +kernel, bytes, hbytes, hfits⟩

end Ptr.Runtime
