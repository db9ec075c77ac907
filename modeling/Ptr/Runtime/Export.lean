import Ptr.Ledger.LogCodec
import Ptr.Runtime.ExpertBlocks
import Ptr.Runtime.TierJournal

/-!
# When a runtime can be compacted

The execution section is written whenever its account fits: the account is the
length of what is written, and the rules for new records keep every text of it within
the writer's bounds.  The other sections have no such rules.  A capsule committed
under a project with an empty name is accepted, and then no snapshot of the runtime
can be written (`empty_project_not_exported`).

`Exportable` is what holds of every runtime that wrote all its records itself.
-/

namespace Ptr.Runtime

open Lib Ledger Semdb CommittedEvent List

variable {ρ τ : Type} {R : Rules ρ τ}

/-! ### The length of an execution section -/

theorem itemsLength_identity (i : ActionIdentity) :
    itemsLength (putIdentity i) = identityBytes i := by
  simp [putIdentity, identityBytes]
  omega

theorem itemsLength_unsettled (p : CommitIndex × UnsettledEffect) :
    itemsLength (unsettledItems p) = unsettledEntryBytes p.2 := by
  cases hkey : p.2.key with
  | none | some =>
    simp [unsettledItems, unsettledEntryBytes, putOptional, hkey, itemsLength_identity]
    omega

theorem itemsLength_settled (p : String × SettledOutcome) :
    itemsLength (settledItems p) = settledEntryBytes p.1 p.2 := by
  cases houtcome : p.2 with
  | applied | appliedWithoutResponse =>
    simp [settledItems, settledEntryBytes, houtcome, itemsLength_identity]
    omega
  | notApplied => simp [settledItems, settledEntryBytes, houtcome]

def scopeWeight (leases : Std.ExtTreeMap ScopeId ScopeLeaseBinding) (p : ScopeId × ExecutionScope) :
    Nat :=
  compactedScopeEntryBytes p.1 p.2.parent p.2.session p.2.project p.2.deadline
    ((leases[p.1]?).getD {})

theorem itemsLength_optional {α : Type} (f : α → Item) (x : Option α) :
    itemsLength (putOptional f x) =
      8 + (x.map fun a => (sectionFormat.bytes (f a)).length).getD 0 := by
  cases x with
  | none | some => simp [putOptional]

theorem itemsLength_fixed {α : Type} {f n} (h : ∀ a, (sectionFormat.bytes (f a)).length = n)
    (x : Option α) : itemsLength (putOptional f x) = 8 + (x.map fun _ => n).getD 0 := by
  rw [itemsLength_optional]
  simp [h]

theorem itemsLength_scope (g : ScopeRegistry) (p : ScopeId × ExecutionScope) :
    itemsLength (scopeItems g p) = scopeWeight g.leases p := by
  have hdeadline := itemsLength_fixed (α := Timestamp) length_number p.2.deadline
  have hepoch := itemsLength_fixed length_number ((g.leases[p.1]?).getD {}).placementEpoch
  have hgeneration :=
    itemsLength_fixed (α := Generation) length_number ((g.leases[p.1]?).getD {}).generation
  have htoken := itemsLength_fixed (f := fun t => .raw (putU128 t)) (fun t => putU128_length t)
    ((g.leases[p.1]?).getD {}).fencingToken
  simp only [scopeItems, scopeWeight, compactedScopeEntryBytes, itemsLength_append,
    itemsLength_cons, itemsLength_nil, length_field, length_number, itemsLength_optional .field]
  omega

/-! ### The account of the scopes -/

/-- The registry's own account is the length of the scope block. -/
structure ScopesAccounted (g : ScopeRegistry) : Prop where
  none : g.scopes.isEmpty = true → g.snapshotBytes = 0
  bytes : g.scopes.isEmpty = false →
    g.snapshotBytes = scopeBlockOverhead + (g.scopes.toList.map (scopeWeight g.leases)).sum
  revision : g.scopes.isEmpty = false → g.lastRevision.isSome = true

theorem scopesAccounted_empty : ScopesAccounted .empty where
  none _ := rfl
  bytes h := by simp [ScopeRegistry.empty] at h
  revision h := by simp [ScopeRegistry.empty] at h

theorem isEmpty_insert {α β : Type} [Ord α] [Std.TransOrd α] (m : Std.ExtTreeMap α β) (k : α)
    (v : β) : (m.insert k v).isEmpty = false := by
  simp

/-- The lease of a new scope changes no other scope. -/
theorem sum_scopeWeight_insert {g : ScopeRegistry} {id} {lease : ScopeLeaseBinding}
    (h : id ∉ g.scopes) :
    g.scopes.toList.map (scopeWeight (g.leases.insert id lease)) =
      g.scopes.toList.map (scopeWeight g.leases) := by
  refine map_congr_left ?_
  rintro ⟨k, scope⟩ hmem
  rw [Std.ExtTreeMap.mem_toList_iff_getElem?_eq_some] at hmem
  have hne : id ≠ k := by
    rintro rfl
    exact h (mem_of_some hmem)
  rw [scopeWeight, scopeWeight, getElem?_insert_ne hne]

theorem ScopesAccounted.create {g : ScopeRegistry} {e} (h : ScopesAccounted g)
    (hnew : e.scopeId ∉ g.scopes) : ScopesAccounted ((g.create e).record e) where
  none hempty := by
    have := isEmpty_insert g.scopes e.scopeId
      ⟨e.scopeId, e.parentId, e.sessionId, e.projectId, e.createdAt, e.deadline, .created, false⟩
    exact absurd (this.symm.trans hempty) (by simp)
  revision _ := rfl
  bytes _ := by
    have hweight : scopeWeight (g.leases.insert e.scopeId e.lease)
        (e.scopeId, ⟨e.scopeId, e.parentId, e.sessionId, e.projectId, e.createdAt, e.deadline,
          .created, false⟩) =
        compactedScopeEntryBytes e.scopeId e.parentId e.sessionId e.projectId
        e.deadline e.lease := by
      rw [scopeWeight, Std.ExtTreeMap.getElem?_insert_self, Option.getD_some]
    have hold : max g.snapshotBytes scopeBlockOverhead =
        scopeBlockOverhead + (g.scopes.toList.map (scopeWeight g.leases)).sum := by
      cases hempty : g.scopes.isEmpty with
      | true =>
        rw [h.none hempty]
        have hnil : g.scopes.toList = [] := by
          rw [Std.ExtTreeMap.isEmpty_iff] at hempty
          rw [← length_eq_zero_iff, Std.ExtTreeMap.length_toList, hempty]
          exact Std.ExtTreeMap.size_empty
        rw [hnil]
        simp
      | false =>
        rw [h.bytes hempty]
        omega
    show g.account e = _
    rw [ScopeRegistry.account]
    show _ = scopeBlockOverhead + ((g.scopes.insert e.scopeId _).toList.map
      (scopeWeight (g.leases.insert e.scopeId e.lease))).sum
    rw [sum_toList_insert _ hnew, sum_scopeWeight_insert hnew]
    omega

theorem ScopesAccounted.move {g e scope next} (h : ScopesAccounted g)
    (hscope : g.scopes[e.scopeId]? = some scope) :
    ScopesAccounted ((g.move e.scopeId scope next).record e) where
  none hempty := by
    have := isEmpty_insert g.scopes e.scopeId
      { scope with
      state := next, cancellationRequested := scope.cancellationRequested ||
      ScopeRegistry.cancels next }
    exact absurd (this.symm.trans hempty) (by simp)
  revision _ := rfl
  bytes _ := by
    have hheld : g.scopes.isEmpty = false := by
      rw [Bool.eq_false_iff]
      intro hempty
      rw [Std.ExtTreeMap.isEmpty_iff] at hempty
      rw [hempty] at hscope
      simp at hscope
    -- A transition keeps everything that the weight of a scope reads.
    have hsum : ((g.move e.scopeId scope next).scopes.toList.map (scopeWeight g.leases)).sum =
        (g.scopes.toList.map (scopeWeight g.leases)).sum :=
      sum_toList_replace hscope rfl
    exact (h.bytes hheld).trans (congrArg (scopeBlockOverhead + ·) hsum.symm)

theorem scopesAccounted_apply {g g' e} (h : ScopesAccounted g) (hok : g.applyCommitted e = .ok g') :
    ScopesAccounted g' := by
  rcases ScopeRegistry.applyCommitted_cases hok with rfl | ⟨hcreates, rfl⟩ | ⟨s, htransits, rfl⟩
  · exact h
  · exact h.create hcreates.fresh
  · exact h.move htransits.scope

/-! ### The execution section -/

structure AttemptFits (u : UnsettledEffect) : Prop where
  key : ∀ key, u.key = some key → validKey key = true
  target : validAttemptField u.target = true
  operation : validAttemptField u.operation = true

def OutcomeFits : SettledOutcome → Prop
  | .applied _ _ response => response.length ≤ maxRetainedResponse
  | _ => True

structure ObligationsFit (o : Obligations) : Prop where
  attempts : ∀ (i : CommitIndex) u, o.unsettled[i]? = some u → AttemptFits u
  keys : ∀ (key : String) outcome, o.settled[key]? = some outcome →
    validKey key = true ∧ OutcomeFits outcome

theorem length_magics : (utf8 "PTREX002").length = 8 ∧ (utf8 "PTREX003").length = 8 ∧
    (utf8 "PTRSC001").length = 8 := by decide +kernel

theorem itemsLength_execution {o g} (hg : ScopesAccounted g) :
    itemsLength (executionItems o g) = (executionSection o g false).bytes := by
  have hunsettled : (o.unsettled.toList.map fun p => itemsLength (unsettledItems p)) =
      o.unsettled.toList.map fun p => unsettledEntryBytes p.2 :=
    map_congr_left fun p _ => itemsLength_unsettled p
  have hsettled : (o.settled.toList.map fun p => itemsLength (settledItems p)) =
      o.settled.toList.map fun p => settledEntryBytes p.1 p.2 :=
    map_congr_left fun p _ => itemsLength_settled p
  cases hempty : g.scopes.isEmpty with
  | true =>
    simp only [executionItems, executionSection, hempty, if_true, itemsLength_append,
      itemsLength_cons, itemsLength_flatMap, hunsettled, hsettled, length_raw, hg.none,
      length_magics.1]
    simp
    omega
  | false =>
    obtain ⟨revision, hrevision⟩ := Option.isSome_iff_exists.mp (hg.revision hempty)
    have hscopes : (g.scopes.toList.map fun p => itemsLength (scopeItems g p)) =
        g.scopes.toList.map (scopeWeight g.leases) :=
      map_congr_left fun p _ => itemsLength_scope g p
    simp only [executionItems, executionSection, hempty, Bool.false_eq_true, if_false, scopeBlock,
      hrevision, putOptional, itemsLength_append, itemsLength_cons, itemsLength_flatMap, hunsettled,
      hsettled, hscopes, length_raw, hg.bytes, scopeBlockOverhead, length_magics.2.1,
      length_magics.2.2]
    simp
    omega

/-- Whether an item is within its own bounds, its length apart. -/
def Writable : Item → Prop
  | .field _ => True
  | i => sectionFormat.allowed i = true

theorem writable_text {s} (h : !s.isEmpty && s.utf8ByteSize ≤ maxStringBytes) :
    Writable (.text s) := h

theorem writable_key {key} (h : validKey key = true) : Writable (.text key) := by
  simp only [validKey, validIdentifier, Bool.and_eq_true, decide_eq_true_eq] at h
  exact writable_text (by simp only [Bool.and_eq_true, decide_eq_true_eq]; exact ⟨h.1.1.1.1, h.2⟩)

theorem writable_attemptField {s} (h : validAttemptField s = true) : Writable (.text s) := by
  simp only [validAttemptField, Bool.and_eq_true, decide_eq_true_eq] at h
  exact writable_text (by simp only [Bool.and_eq_true, decide_eq_true_eq]; exact h)

theorem writable_identity (i : ActionIdentity) : ∀ x ∈ putIdentity i, Writable x := by
  simp [putIdentity, Writable, sectionFormat]

theorem writable_optional {α : Type} {f : α → Item} {o} (h : ∀ a, o = some a → Writable (f a)) :
    ∀ x ∈ putOptional f o, Writable x := by
  cases o with
  | none => simp [putOptional, Writable, sectionFormat]
  | some a =>
    simp only [putOptional, forall_mem_cons]
    exact ⟨rfl, h a rfl, forall_mem_nil _⟩

theorem writable_unsettled {p} (h : AttemptFits p.2) : ∀ x ∈ unsettledItems p, Writable x := by
  simp only [unsettledItems, forall_mem_append, forall_mem_cons]
  exact ⟨⟨⟨⟨rfl, rfl, forall_mem_nil _⟩, writable_optional fun key hkey =>
      writable_key (h.key key hkey)⟩, writable_attemptField h.target,
      writable_attemptField h.operation, rfl, forall_mem_nil _⟩, writable_identity _⟩

theorem writable_settled {p} (hkey : validKey p.1 = true) (hout : OutcomeFits p.2) :
    ∀ x ∈ settledItems p, Writable x := by
  rw [settledItems, forall_mem_cons]
  refine ⟨writable_key hkey, ?_⟩
  cases houtcome : p.2 with
  | applied =>
    rw [houtcome] at hout
    simp only [forall_mem_append, forall_mem_cons]
    exact ⟨⟨⟨rfl, rfl, forall_mem_nil _⟩, writable_identity _⟩, decide_eq_true hout,
      forall_mem_nil _⟩
  | appliedWithoutResponse =>
    simp only [forall_mem_append, forall_mem_cons]
    exact ⟨⟨rfl, rfl, forall_mem_nil _⟩, writable_identity _⟩
  | notApplied => exact forall_mem_singleton.mpr rfl

theorem writable_scope (g : ScopeRegistry) (p : ScopeId × ExecutionScope) :
    ∀ x ∈ scopeItems g p, Writable x := by
  simp only [scopeItems, forall_mem_append, forall_mem_cons]
  and_intros
  all_goals first
    | exact trivial
    | exact rfl
    | exact forall_mem_nil _
    | refine writable_optional fun _ _ => ?_
  all_goals first
    | exact trivial
    | exact rfl

theorem allowed_of_writable {items} (hfits : itemsLength items ≤ maxSectionBytes) {x}
    (hx : x ∈ items) (hw : Writable x) : sectionFormat.allowed x = true := by
  cases x with
  | field =>
    obtain ⟨before, after, rfl⟩ := append_of_mem hx
    rw [itemsLength_append, itemsLength_cons, length_field] at hfits
    refine decide_eq_true ?_
    have : maxSectionBytes = 8388608 := rfl
    omega
  | raw | count | text | blob | number => exact hw

theorem writeSection_ok {items} (hw : ∀ x ∈ items, Writable x)
    (hfits : itemsLength items ≤ maxSectionBytes) :
    ∃ bs, writeSection items = .ok bs ∧ bs.length ≤ maxSectionBytes := by
  obtain ⟨bs, hbs⟩ :=
    writeSection_iff.mpr ⟨fun x hx => allowed_of_writable hfits hx (hw x hx), hfits⟩
  exact ⟨bs, hbs, length_writeSection hbs⟩

theorem execution_written {o g} (ho : ObligationsFit o) (hg : ScopesAccounted g)
    (hfits : executionSectionOverflow o g = none) :
    ∃ bs, writeSection (executionItems o g) = .ok bs ∧ bs.length ≤ maxSectionBytes := by
  have huse : (executionSection o g false).fits = true := by
    rw [executionSectionOverflow] at hfits
    by_contra hno
    rw [if_neg hno] at hfits
    cases hfits
  rw [SectionUse.fits_iff] at huse
  obtain ⟨⟨⟨hbytes, hunsettled⟩, hsettled⟩, hscopes⟩ := huse
  refine writeSection_ok ?_ (by rw [itemsLength_execution hg]; exact hbytes)
  have hcount : ∀ n, n ≤ maxSectionItems → Writable (.count n) := fun _ h => decide_eq_true h
  have hkeys : o.settled.size ≤ maxSectionItems := le_trans (Nat.le_add_right _ _) hsettled
  have hblock : ∀ x ∈ scopeBlock g, Writable x := by
    intro x hx
    simp only [scopeBlock, cons_append, mem_cons, mem_append, mem_flatMap] at hx
    rcases hx with rfl | rfl | ⟨p, -, hx⟩ | hx
    · exact rfl
    · exact hcount _ hscopes
    · exact writable_scope g p x hx
    · exact writable_optional (f := .number) (fun _ _ => rfl) x hx
  intro x hx
  simp only [executionItems, cons_append, append_assoc, mem_cons, mem_append,
    mem_flatMap] at hx
  rcases hx with rfl | rfl | ⟨⟨i, u⟩, hp, hx⟩ | rfl | ⟨⟨key, outcome⟩, hp, hx⟩ | hx
  · exact rfl
  · exact hcount _ hunsettled
  · rw [Std.ExtTreeMap.mem_toList_iff_getElem?_eq_some] at hp
    exact writable_unsettled (ho.attempts i u hp) x hx
  · exact hcount _ hkeys
  · rw [Std.ExtTreeMap.mem_toList_iff_getElem?_eq_some] at hp
    exact writable_settled (ho.keys key outcome hp).1 (ho.keys key outcome hp).2 x hx
  · split at hx
    · cases hx
    · exact hblock x hx

/-! ### What a runtime keeps of its own records -/

theorem obligationsFit_empty : ObligationsFit .empty where
  attempts i u h := by simp [Obligations.empty] at h
  keys key outcome h := by simp [Obligations.empty] at h

theorem ObligationsFit.recordAttempt {o u} (h : ObligationsFit o) (hu : AttemptFits u) :
    ObligationsFit (o.recordAttempt u) where
  attempts i v hv := by
    obtain ⟨-, rfl⟩ | ⟨-, hv⟩ := some_of_insert hv
    · exact hu
    · exact h.attempts i v hv
  keys := h.keys

theorem ObligationsFit.settle {o attempt s} (h : ObligationsFit o)
    (hs : ∀ response, s = .applied (some response) → response.length ≤ maxRetainedResponse) :
    ObligationsFit (o.settle attempt s) := by
  rw [Obligations.settle]
  cases hu : o.unsettled[attempt]? with
  | none => exact h
  | some u =>
    have hout : OutcomeFits (u.outcome attempt s) := by
      cases s with
      | notApplied => exact trivial
      | applied response =>
        cases response with
        | none => exact trivial
        | some response => exact hs response rfl
    refine ⟨?_, ?_⟩
    · intro i v hv
      exact h.attempts i v (some_of_erase hv).2
    · intro key outcome hkey
      cases hk : u.key with
      | none =>
        simp only [hk] at hkey
        exact h.keys key outcome hkey
      | some own =>
        simp only [hk] at hkey
        obtain ⟨rfl, rfl⟩ | ⟨-, hkey⟩ := some_of_insert hkey
        · exact ⟨(h.attempts attempt u hu).key own hk, hout⟩
        · exact h.keys key outcome hkey

theorem attemptFits_of_new {a index} (h : validateNewAttempt a = .ok ()) :
    AttemptFits (unsettledBy a index) := by
  rw [validateNewAttempt] at h
  cases hkey : a.key.filter fun key => !validKey key with
  | some => simp [hkey] at h
  | none =>
    simp only [hkey, refuse_eq_ok, Bool.not_eq_true', Bool.not_eq_false] at h
    refine ⟨?_, h.1, h.2.1⟩
    intro key hk
    have hsome : a.key = some key := hk
    rw [hsome, Option.filter_eq_none_iff] at hkey
    simpa using hkey key rfl

theorem response_of_settled {o : Obligations} {sha} {attempt : CommitIndex} {response}
    {digest : Digest} (h : o.validateSettled sha attempt (some response) digest = .ok ()) :
    response.length ≤ maxRetainedResponse := by
  rw [Obligations.validateSettled, refuse_eq_ok] at h
  obtain ⟨-, h⟩ := h
  simp only [refuse_eq_ok, not_or] at h
  exact not_lt.mp h.1.1

namespace PtrRuntime

structure Exportable (r : PtrRuntime ρ τ) : Prop where
  base : r.base = 0
  numbered : r.ledger = number 0 (r.ledger.map event)
  encodable : ∀ c ∈ r.ledger, checkEncodable c.event = .ok ()
  applied : r.uncertain = false → r.history.state.lastApplied.val = r.ledger.length
  obligations : ObligationsFit r.history.obligations
  scopes : ScopesAccounted r.history.scopes

variable {r : PtrRuntime ρ τ} {c : CommittedEvent}

theorem Exportable.encodable_events (h : r.Exportable) :
    ∀ e ∈ r.ledger.map event, checkEncodable e = .ok () := by
  intro e he
  obtain ⟨c, hc, rfl⟩ := mem_map.mp he
  exact h.encodable c hc

theorem exportable_new (R : Rules ρ τ) (owner : Nat) (boundary : ActionBoundaryConfig) :
    (new R owner boundary).Exportable where
  base := rfl
  numbered := rfl
  encodable c hc := by cases hc
  applied _ := rfl
  obligations := obligationsFit_empty
  scopes := scopesAccounted_empty

theorem obligationsFit_apply (h : ObligationsFit r.history.obligations) (happends : r.Appends R c) :
    ObligationsFit (r.history.obligations.apply c) := by
  obtain ⟨index, e⟩ := c
  cases e with
  | effectAttempted => exact h.recordAttempt (attemptFits_of_new (happends.fresh rfl))
  | effectSettled =>
    refine h.settle ?_
    intro bytes hbytes
    cases hbytes
    exact response_of_settled happends.valid
  | effectReconciled attempt applied =>
    refine h.settle ?_
    intro bytes hbytes
    cases applied with
    | true => cases hbytes
    | false => cases hbytes
  | _ => exact h

theorem nextIndex_val {index} (h : r.nextIndex = some index) :
    index.val = r.base.val + r.ledger.length + 1 := by
  rw [nextIndex] at h
  split at h
  · rw [← Option.some.inj h]
  · cases h

theorem numbered_append {ledger} (h : ledger = number 0 (ledger.map event))
    (hindex : c.index.val = ledger.length + 1) :
    ledger ++ [c] = number 0 ((ledger ++ [c]).map event) := by
  have hlast : 0 + Fin.ofNat (2 ^ 64) (ledger.map event).length + 1 = c.index := by
    apply Fin.ext
    simp only [Fin.val_add, Fin.val_ofNat, Fin.val_one, length_map, Fin.val_zero]
    omega
  rw [map_append, number_append, ← h, map_singleton, number, number, hlast]

theorem apply_next {s : MaterializedState} (entries : ProjectId → Bytes → List (String × String))
    (h : c.index.val = s.lastApplied.val + 1) :
    s.apply entries c = { s.set (projectionEntries entries c) with lastApplied := c.index } := by
  have hnext : c.index = U64.saturatingAdd s.lastApplied 1 := by
    apply Fin.ext
    rw [U64.saturatingAdd_val]
    · exact h
    · have := c.index.isLt
      exact h ▸ this
  rw [MaterializedState.apply, if_pos ⟨by rw [Fin.lt_def]; omega, hnext⟩]

/-- A record that the runtime appends keeps the runtime exportable, applied or not. -/
theorem Exportable.append (semantic : Option PreparedDelta) (h : r.Exportable)
    (happends : r.Appends R c) :
    (completed ((r.begun c).applyCommitted R c semantic)).Exportable := by
  obtain ⟨hbase, hledger⟩ := completed_appended (R := R) (r := r) c semantic
  have hindex := nextIndex_val happends.index
  rw [h.base, Fin.val_zero, zero_add] at hindex
  obtain ⟨next, happlies, hresult⟩ := applies_applyCommitted (R := R) (r.begun c) c semantic
  refine ⟨hbase.trans h.base, ?_, ?_, ?_, ?_, ?_⟩
  · rw [hledger]
    exact numbered_append h.numbered hindex
  · rw [hledger]
    intro x hx
    rcases mem_append.mp hx with hx | hx
    · exact h.encodable x hx
    · rw [mem_singleton.mp hx]
      exact happends.encodable
  · intro hcertain
    rw [completed_history, hledger, length_append, length_singleton, ← hindex]
    rcases hresult with ⟨⟨e, herror⟩, -⟩ | hhistory
    · -- The mark set before the append is still there.
      rw [completed_uncertain herror, (sameProcess_applyCommitted (r.begun c) c semantic).uncertain]
        at hcertain
      cases hcertain
    · rw [hhistory]
      have hlast : next.state.lastApplied.val = r.ledger.length := by
        rw [happlies.lastApplied]
        exact h.applied happends.certain
      rw [apply_next R.expertEntries (by rw [hlast]; exact hindex)]
  · rw [completed_history, obligations_applyCommitted]
    exact obligationsFit_apply (r := r) h.obligations happends
  · rw [completed_history]
    rcases scopes_applyCommitted (R := R) (r.begun c) c semantic with hsame | ⟨e, -, hok⟩
    · rw [hsame]
      exact h.scopes
    · exact scopesAccounted_apply h.scopes hok

theorem Exportable.quiet {r'} (h : r.Exportable) (hq : Quiet r r') : r'.Exportable := by
  refine ⟨hq.base.trans h.base, ?_, ?_, ?_, hq.obligations ▸ h.obligations, hq.scopes ▸ h.scopes⟩
  · rw [hq.ledger]
    exact h.numbered
  · rw [hq.ledger]
    exact h.encodable
  · intro hcertain
    rw [hq.state, hq.ledger]
    exact h.applied (hq.certain hcertain)

theorem exportable_of_owned (h : r.Owned R) : r.Exportable :=
  owned_invariant (fun _ _ => Exportable.quiet) (fun _ _ semantic h => h.append semantic)
    (exportable_new R) h

/-! ### The other sections -/

end PtrRuntime

def groundBytes (p : String × SemanticValue) : Nat :=
  textBytes p.1 + 1 + match p.2 with
    | .text text => textBytes text
    | .payload q => textBytes q.typeId + textBytes q.source + (4 + q.bytes.length)

def inputsBytes (p : String × Std.ExtTreeSet String) : Nat :=
  textBytes p.1 + countedBytes textBytes p.2.toList

/-- What the writer of a delta asks of the maps of a semantic state. -/
structure SemanticFits (s : SemanticState) : Prop where
  ground : s.ground.size ≤ maxDeltaItems
  values : ∀ p ∈ s.ground.toList, ValidKey p.1 ∧ p.2.Valid
  inputs : s.dependencies.inputs.size ≤ maxDeltaItems
  keys : ∀ p ∈ s.dependencies.inputs.toList,
    ValidKey p.1 ∧ p.2.size ≤ maxDeltaItems ∧ ∀ k ∈ p.2.toList, ValidKey k
  bytes : 12 + countedBytes groundBytes s.ground.toList +
    countedBytes inputsBytes s.dependencies.inputs.toList ≤ maxDeltaBytes

theorem length_putCounted {α : Type} {put : α → Bytes} {w : α → Nat} (h : ∀ a, (put a).length = w a)
    (as : List α) : (putCounted put as).length = countedBytes w as := by
  rw [putCounted, length_append, leBytes_length, length_flatMap, countedBytes,
    map_congr_left fun a _ => h a]

theorem length_putString (s : String) : (putString s).length = textBytes s := by
  simp [putString, textBytes]

theorem length_image (h : SemanticHost) : h.exportState.image.length =
    12 + countedBytes groundBytes h.state.ground.toList +
      countedBytes inputsBytes h.state.dependencies.inputs.toList := by
  have hground : ∀ p, (putUpsert p).length = groundBytes p := by
    rintro ⟨k, v⟩
    cases v with
    | text | payload =>
      simp [putUpsert, putValue, groundBytes, textBytes]
      omega
  have hinputs : ∀ p, (putDependency p).length = inputsBytes p := by
    intro p
    rw [putDependency, length_append, length_putString,
      length_putCounted length_putString, inputsBytes]
  have hnone : (∅ : Std.ExtTreeSet String).toList = [] := eq_nil_iff_forall_not_mem.mpr (by simp)
  simp only [SemanticDelta.image, SemanticHost.exportState, length_append,
    length_putCounted hground, length_putCounted hinputs, hnone]
  simp [putCounted, Semdb.magic]
  omega

/-- The semantic section is written exactly if the maps of the state are within their bounds. -/
theorem semantic_written {h : SemanticHost} :
    (∃ bs, h.exportState.encode = .ok bs ∧ bs.length ≤ maxSectionBytes) ↔ SemanticFits h.state := by
  constructor
  · rintro ⟨bs, hencode, -⟩
    obtain ⟨hvalid, hlength, -⟩ := SemanticDelta.encode_eq_ok.mp hencode
    rw [length_image] at hlength
    exact ⟨hvalid.upserts_count, hvalid.upserts_valid, hvalid.dependencies_count,
      hvalid.dependencies_valid, hlength⟩
  · intro hfits
    have hlength : h.exportState.image.length ≤ maxDeltaBytes := by
      rw [length_image]
      exact hfits.bytes
    have hvalid : h.exportState.Valid :=
      ⟨rfl, hfits.ground, hfits.values, bot_le, by simp [SemanticHost.exportState],
        hfits.inputs, hfits.keys⟩
    refine ⟨_, SemanticDelta.encode_eq_ok.mpr ⟨hvalid, hlength, rfl⟩, hlength.trans ?_⟩
    decide

/-- What the writer of the lifecycle section asks of the maps of a history. -/
structure LifecycleFits (h : History ExpertRegistryProjection τ) : Prop where
  values : Listed NameFits h.state.values.toList
  generations : Listed (TextFits ·.1) h.lifecycle.liveGenerations.toList
  projects : Listed NameFits h.lifecycle.capsuleProjects.toList
  revoked : Listed (TextFits ·.1) h.lifecycle.revokedList
  experts : h.experts.Fits
  bytes : 16 + countedBytes nameBytes h.state.values.toList +
    countedBytes keyBytes h.lifecycle.liveGenerations.toList +
    countedBytes nameBytes h.lifecycle.capsuleProjects.toList +
    countedBytes keyBytes h.lifecycle.revokedList + h.experts.bytes ≤ maxSectionBytes

theorem lifecycleItems_counted (h : History ExpertRegistryProjection τ) :
    lifecycleItems expertFormat h = .raw h.experts.layout.lifecycleMagic ::
      (counted putName h.state.values.toList ++
      counted putKey h.lifecycle.liveGenerations.toList ++
        counted putName h.lifecycle.capsuleProjects.toList ++
      counted putKey h.lifecycle.revokedList ++ .raw (utf8 "PTREG001") :: h.experts.items) := by
  simp only [lifecycleItems, counted, Std.ExtTreeMap.length_toList, Lifecycle.revokedList,
    Std.ExtTreeSet.length_toList]
  simp only [cons_append, nil_append, append_assoc]
  rfl

theorem ExpertLayout.length_lifecycleMagic (layout : ExpertLayout) :
    layout.lifecycleMagic.length = 8 := by
  cases layout <;> decide +kernel

/-- The lifecycle section is written exactly if the maps of the history are within their bounds. -/
theorem lifecycle_written {h : History ExpertRegistryProjection τ} :
    (∃ bs, writeSection (lifecycleItems expertFormat h) = .ok bs) ↔ LifecycleFits h := by
  have hregistry : (utf8 "PTREG001").length = 8 := by decide +kernel
  rw [writeSection_iff, lifecycleItems_counted]
  simp only [allowed_cons, allowed_raw, allowed_append, allowed_counted, allowed_name, allowed_key,
    true_and, ExpertRegistryProjection.allowed_items, itemsLength_cons, itemsLength_append,
    itemsLength_counted itemsLength_name, itemsLength_counted itemsLength_key,
    ExpertRegistryProjection.itemsLength_items, length_raw,
    ExpertLayout.length_lifecycleMagic, hregistry]
  constructor
  · rintro ⟨⟨⟨⟨⟨hvalues, hgenerations⟩, hprojects⟩, hrevoked⟩, hexperts⟩, hbytes⟩
    exact ⟨hvalues, hgenerations, hprojects, hrevoked, hexperts, by omega⟩
  · rintro ⟨hvalues, hgenerations, hprojects, hrevoked, hexperts, hbytes⟩
    exact ⟨⟨⟨⟨⟨hvalues, hgenerations⟩, hprojects⟩, hrevoked⟩, hexperts⟩, by omega⟩

namespace PtrRuntime

variable {r : PtrRuntime ρ τ} {c : CommittedEvent}

/-! ### The export -/

theorem journalAnchor_ok (h : r.Exportable) (hfence : r.isFenced = false)
    (hcount : r.ledger.length ≤ maxRecords)
    (hbytes : logLength (r.ledger.map event) ≤ maxLogBytes) :
    ∃ a, r.journalAnchor R = .ok a ∧ a.index.val = r.ledger.length := by
  obtain ⟨bs, t, hchain, hlength⟩ := exists_chain (a := .empty R.sha) h.encodable_events
    (by show 0 + _ ≤ _; rw [length_map]; omega)
  have hwritten : encodeLogFrom R.sha r.ledger (.empty R.sha) = .ok (logMagic ++ bs) := by
    rw [h.numbered]
    exact encodeLogFrom_chain hchain (by rw [length_map]; exact hcount)
      (by rw [hlength]; exact hbytes)
  obtain ⟨p, hread, hanchor, -⟩ := decodeLogFrom_chain hchain (by rw [hlength]; exact hbytes)
  refine ⟨p.anchor, ?_, ?_⟩
  · rw [journalAnchor, if_neg (by rw [hfence]; exact Bool.false_ne_true), hwritten]
    show Except.bind (Except.mapError _ (decodeLogFrom R.sha (logMagic ++ bs) _)) _ = _
    rw [hread]
    rfl
  · rw [hanchor, hchain.index, length_map]
    exact zero_add _

theorem bounds_of_journalAnchor {a} (h : r.Exportable) (ha : r.journalAnchor R = .ok a) :
    r.ledger.length ≤ maxRecords ∧ logLength (r.ledger.map event) ≤ maxLogBytes := by
  rw [journalAnchor, refuse_eq_ok] at ha
  obtain ⟨bytes, hbytes, -⟩ := bind_eq_ok.mp ha.2
  have hwritten := mapError_eq_ok.mp hbytes
  obtain ⟨bs, t, hchain, rfl, hlength⟩ := encodeLogFrom_ok hwritten
  rw [encodeLogFrom, refuse_eq_ok] at hwritten
  have hcount : r.ledger.length ≤ maxRecords := not_lt.mp hwritten.1
  obtain ⟨bs', t', hchain', hlength'⟩ := exists_chain (a := .empty R.sha) h.encodable_events
    (by show 0 + _ ≤ _; rw [length_map]; omega)
  obtain ⟨rfl, -⟩ := hchain.unique hchain'
  exact ⟨hcount, hlength' ▸ hlength⟩

/-- What the export asks of the parts that no commit accounts for: of the log, of the maps
of the semantic state and of the maps of the lifecycle. -/
structure Carries (r : PtrRuntime ExpertRegistryProjection τ) : Prop where
  records : r.ledger.length ≤ maxRecords
  log : logLength (r.ledger.map event) ≤ maxLogBytes
  semantic : SemanticFits r.history.semdb.state
  lifecycle : LifecycleFits r.history

section

variable {R : Rules ExpertRegistryProjection τ} {r : PtrRuntime ExpertRegistryProjection τ}

theorem Carries.export (hexportable : r.Exportable) (hfence : r.isFenced = false)
    (hfits : executionSectionOverflow r.history.obligations r.history.scopes = none)
    (hcarries : r.Carries) : ∃ s, r.exportCompactedSnapshot R expertFormat = .ok s := by
  obtain ⟨floor, hfloor, hindex⟩ :=
    journalAnchor_ok (R := R) hexportable hfence hcarries.records hcarries.log
  obtain ⟨semantic, hsemantic, hsemanticLength⟩ := semantic_written.mpr hcarries.semantic
  obtain ⟨execution, hexecution, hexecutionLength⟩ :=
    execution_written hexportable.obligations hexportable.scopes hfits
  obtain ⟨lifecycle, hlifecycle⟩ := lifecycle_written.mpr hcarries.lifecycle
  have hlifecycleLength := length_writeSection hlifecycle
  have hstate : r.history.state.lastApplied = floor.index := by
    apply Fin.ext
    rw [hindex]
    exact hexportable.applied (certain_of_not_fenced hfence)
  have hlengths : ¬ (maxSectionBytes < semantic.length ∨ maxSectionBytes < lifecycle.length ∨
      maxSectionBytes < execution.length) := by
    omega
  rw [exportCompactedSnapshot, hfits]
  simp only [hfloor, hsemantic, hlifecycle, hexecution, bind, Except.bind, Except.mapError, hstate,
    ne_eq, if_neg hlengths]
  exact ⟨_, rfl⟩

theorem carries_of_export {s} (hexportable : r.Exportable)
    (h : r.exportCompactedSnapshot R expertFormat = .ok s) : r.Carries := by
  rw [exportCompactedSnapshot] at h
  split at h
  · cases h
  obtain ⟨floor, hfloor, h⟩ := bind_eq_ok.mp h
  rw [refuse_eq_ok] at h
  obtain ⟨semantic, hsemantic, h⟩ := bind_eq_ok.mp h.2
  obtain ⟨lifecycle, hlifecycle, h⟩ := bind_eq_ok.mp h
  obtain ⟨execution, -, h⟩ := bind_eq_ok.mp h
  rw [refuse_eq_ok, not_or] at h
  have hbounds := bounds_of_journalAnchor hexportable hfloor
  exact ⟨hbounds.1, hbounds.2, semantic_written.mp
    ⟨semantic, mapError_eq_ok.mp hsemantic, not_lt.mp h.1.1⟩,
    lifecycle_written.mp ⟨lifecycle, hlifecycle⟩⟩

/-- **When a runtime that wrote all its records itself exports a snapshot**: if it is
not fenced and its execution section fits, then exactly if the log, the semantic state and
the lifecycle, of which no commit keeps an account, are within the bounds of their writers. -/
theorem export_succeeds_iff (R : Rules ExpertRegistryProjection τ)
    {r : PtrRuntime ExpertRegistryProjection τ} (hr : r.Owned R) (hfence : r.isFenced = false)
    (hfits : executionSectionOverflow r.history.obligations r.history.scopes = none) :
    (∃ s, r.exportCompactedSnapshot R expertFormat = .ok s) ↔ r.Carries := by
  have hexportable := exportable_of_owned hr
  constructor
  · rintro ⟨s, hs⟩
    exact carries_of_export hexportable hs
  · intro hcarries
    exact hcarries.export hexportable hfence hfits

end

end PtrRuntime

/-- A hash that is constant, manifests that cannot be read and experts that no record changes,
with the registry and the journal as they are. -/
def registryRules : Rules ExpertRegistryProjection TierJournalProjection :=
  Rules.journaled
    { plainRules with
      expertsNew := {}
      expertCheck := fun _ _ _ => .ok ()
      expertPlan := fun _ x _ => .ok ⟨x, []⟩
      expertPlan_named := fun _ _ _ _ h p hp => by
        cases h
        cases hp }
    ⟨plainRules.sha, fun _ => .error .rootDigestMismatch⟩

def capsuleRun (project : ProjectId) : PtrRuntime ExpertRegistryProjection TierJournalProjection :=
  (PtrRuntime.new registryRules 0 ⟨true, true, true⟩).run registryRules
    [.commit (.capsuleCommitted project "c" 1)]

theorem capsuleRun_owned (project : ProjectId) : (capsuleRun project).Owned registryRules :=
  ⟨_, _, _, rfl⟩

/-- **A project with an empty name**: the capsule is committed, nothing is fenced, the
execution section fits, and the lifecycle section cannot be written. -/
theorem empty_project_not_exported :
    (capsuleRun "").Owned registryRules ∧ (capsuleRun "").ledger.length = 1 ∧
      (capsuleRun "").isFenced = false ∧
      executionSectionOverflow (capsuleRun "").history.obligations
      (capsuleRun "").history.scopes = none ∧
      (capsuleRun "").exportCompactedSnapshot registryRules expertFormat =
        .error (.compacted .sectionLimit) := by
  refine ⟨capsuleRun_owned "", ?_, ?_, ?_, ?_⟩
  · decide +kernel
  · decide +kernel
  · decide +kernel
  · decide +kernel

theorem capsuleRun_exported :
    (capsuleRun "p").isFenced = false ∧
      executionSectionOverflow (capsuleRun "p").history.obligations
      (capsuleRun "p").history.scopes = none ∧ (capsuleRun "p").Carries := by
  have hfence : (capsuleRun "p").isFenced = false := by decide +kernel
  have hfits : executionSectionOverflow (capsuleRun "p").history.obligations
      (capsuleRun "p").history.scopes = none := by
    decide +kernel
  have hexport : ((capsuleRun "p").exportCompactedSnapshot registryRules expertFormat).isOk =
      true := by decide +kernel
  refine ⟨hfence, hfits,
    (PtrRuntime.export_succeeds_iff registryRules (capsuleRun_owned "p") hfence hfits).mp ?_⟩
  cases h : (capsuleRun "p").exportCompactedSnapshot registryRules expertFormat with
  | error => rw [h] at hexport; cases hexport
  | ok s => exact ⟨s, rfl⟩

def plainFormat : ExpertFormat Unit where
  layout _ := .evidence
  items _ := [.count 0, .raw (utf8 "PTREV001"), .count 0, .count 0]

end Ptr.Runtime
