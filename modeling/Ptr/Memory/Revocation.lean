import Ptr.Memory.Store

/-!
# A revocation reaches every dependent

`Marked` is what the operations keep: a live record names, among its markers, every
revoked record it derives from over any number of steps, and an authoritative record
has no marker.  `Effect` says what one operation does to the records, and one lemma
carries `Marked` through it.

A retired record takes no markers.  So a record may be derived from one that was
retired before its ancestor was revoked, and then it inherits nothing
(`retired_parent_hides_revocation`).  In a run that derives from a retired record only
if it names every revoked ancestor it has, the invariant holds.
-/

open Relation

namespace Ptr.Memory

open Lib List

namespace MemoryState

variable {s s' : MemoryState} {k id : MemoryRecordId} {r r' : MemoryRecord} {limits : MemoryLimits}
  {f : MemoryRecord → MemoryRecord} {d : MemoryDelta} {ids markers : List MemoryRecordId}
  {contradictions : List Contradiction} {rs : List MemoryRecord} {horizon : Revision}
    {policy : ConsolidationPolicy}
  {parent : MemoryRecordId} {dst : RecordState} {root : MemoryRecord}

/-! ### Ancestry -/

def DerivedFrom (s : MemoryState) (a b : MemoryRecordId) : Prop :=
  ∃ r, s.records[a]? = some r ∧ b ∈ r.derivedFrom

def Revoked (s : MemoryState) (a : MemoryRecordId) : Prop :=
  ∃ r, s.records[a]? = some r ∧ r.state = .revoked

theorem derivedFrom_of_any {a b} (h : (s.records[a]?).any (b ∈ ·.derivedFrom) = true) :
    s.DerivedFrom a b := by
  obtain ⟨r, hr, hb⟩ := (Option.any_eq_true _ _).mp h
  exact ⟨r, hr, of_decide_eq_true hb⟩

theorem revoked_of_any {a} (h : (s.records[a]?).any (·.state = .revoked) = true) : s.Revoked a := by
  obtain ⟨r, hr, hstate⟩ := (Option.any_eq_true _ _).mp h
  exact ⟨r, hr, of_decide_eq_true hstate⟩

/-- A record at `p` names every revoked record it derives from. -/
def Tells (s : MemoryState) (p : MemoryRecordId) (r : MemoryRecord) : Prop :=
  ∀ a, TransGen s.DerivedFrom p a → s.Revoked a → a ∈ r.revokedAncestors

structure Marked (s : MemoryState) : Prop where
  keyed : ∀ {k : MemoryRecordId} {r : MemoryRecord}, s.records[k]? = some r → r.id = k
  parents : ∀ {a b}, s.DerivedFrom a b → b ∈ s.records
  marked : ∀ {k : MemoryRecordId} {r : MemoryRecord}, s.records[k]? = some r →
    r.state.isLive → s.Tells k r
  plain : ∀ {k : MemoryRecordId} {r : MemoryRecord}, s.records[k]? = some r →
    r.state = .authoritative → r.revokedAncestors = []
  supported : ∀ {k : MemoryRecordId} {r : MemoryRecord}, s.records[k]? = some r →
    r.state = .authoritative → r.hasCommittedSupport s.horizon

theorem marked_empty : empty.Marked where
  keyed h := by simp [empty] at h
  parents := by rintro a b ⟨r, hr, -⟩; simp [empty] at hr
  marked h := by simp [empty] at h
  plain h := by simp [empty] at h
  supported h := by simp [empty] at h

theorem require_eq_ok : s.require id = .ok r ↔ s.records[id]? = some r := by
  rw [require]
  cases s.records[id]? <;> simp

theorem mem_children (hs : s.Marked) {c node} : c ∈ s.children node ↔ s.DerivedFrom c node := by
  simp only [children, mem_flatMap, mem_map, mem_filter, decide_eq_true_eq]
  constructor
  · rintro ⟨⟨k, r⟩, hmem, b, ⟨hnode, rfl⟩, rfl⟩
    have hr := Std.ExtTreeMap.mem_toList_iff_getElem?_eq_some.mp hmem
    exact ⟨r, by rwa [hs.keyed hr], hnode⟩
  · rintro ⟨r, hr, hnode⟩
    exact ⟨(c, r), Std.ExtTreeMap.mem_toList_iff_getElem?_eq_some.mpr hr, node,
      ⟨hnode, rfl⟩, hs.keyed hr⟩

/-- The closure holds all that derives from the root, the root apart. -/
theorem mem_dependentsClosure (hs : s.Marked) (h : s.dependentsClosure limits id = .ok ids) :
    id ∉ ids ∧ ∀ k, ReflTransGen s.DerivedFrom k id → k = id ∨ k ∈ ids := by
  have hb : bounded limits.maxRevocationVisited limits.maxRevocationDepth s.children id =
      .ok ids := by
    rw [dependentsClosure] at h
    split at h
    · cases h; assumption
    · cases h
    · cases h
  have heq : (fun a b => b ∈ s.children a) = Function.swap s.DerivedFrom := by
    funext a b
    exact propext (mem_children hs)
  obtain ⟨hroot, hall⟩ := mem_of_bounded hb
  rw [heq] at hall
  exact ⟨hroot, fun k hk => hall k (reflTransGen_swap.mpr hk)⟩

/-! ### What a delta does to the records -/

theorem records_commit {changed} (h : (s.apply (s.delta changed horizon)).records[k]? = some r') :
    (∃ r ∈ changed, r.id = k ∧ r' = { r with updatedAt := s.clock + 1 }) ∨
      s.records[k]? = some r' ∧ ∀ r ∈ changed, r.id ≠ k := by
  rcases insertAll_some h with ⟨hmem, hk⟩ | ⟨hold, hne⟩
  · obtain ⟨r, hr, rfl⟩ := mem_map.mp hmem
    exact .inl ⟨r, hr, hk, rfl⟩
  · refine .inr ⟨hold, fun r hr => ?_⟩
    exact hne { r with updatedAt := s.clock + 1 } (mem_map.mpr ⟨r, hr, rfl⟩)

/-- How one record may change: it stays revoked, it does not come back to life, and a
live record loses markers of unrevoked records only. -/
structure Evolves (s : MemoryState) (r r' : MemoryRecord) : Prop where
  id : r'.id = r.id
  revoked : r.state = .revoked → r'.state = .revoked
  live : r'.state.isLive → r.state.isLive
  markers : r'.state.isLive → ∀ a ∈ r.revokedAncestors, a ∈ r'.revokedAncestors ∨ ¬ s.Revoked a

theorem evolves_refl (s : MemoryState) (r : MemoryRecord) : Evolves s r r :=
  ⟨rfl, fun h => h, fun h => h, fun _ _ h => .inl h⟩

/-- What an operation may make of the record at `k`: only `x` may be new or gain
parents, and `new` says which. -/
structure Change (s : MemoryState) (horizon : U64) (x : MemoryRecordId)
    (new : MemoryRecordId → Prop) (k : MemoryRecordId) (r' : MemoryRecord) : Prop where
  evolves : (k = x ∧ x ∉ s.records ∧ r'.id = k) ∨ ∃ r, s.records[k]? = some r ∧ Evolves s r r'
  edges : ∀ b ∈ r'.derivedFrom, s.DerivedFrom k b ∨ k = x ∧ new b
  plain : r'.state = .authoritative → r'.revokedAncestors = []
  supported : r'.state = .authoritative → r'.hasCommittedSupport horizon

/-- What an operation does to the records and to what is said of revoked ones. -/
structure Effect (s s' : MemoryState) (x : MemoryRecordId) (new : MemoryRecordId → Prop) :
    Prop where
  kept : ∀ k ∈ s.records, k ∈ s'.records
  changes : ∀ {k : MemoryRecordId} {r' : MemoryRecord}, s'.records[k]? = some r' →
    Change s s'.horizon x new k r'
  parents : ∀ {p}, new p → ∃ r, s.records[p]? = some r ∧ r.state ≠ .revoked ∧ s.Tells p r
  revoked : ∀ {a}, s'.Revoked a → s.Revoked a ∨ (∀ p, ¬ new p) ∧
    ∀ (y : MemoryRecordId) (r' : MemoryRecord), s'.records[y]? = some r' → r'.state.isLive →
    ReflTransGen s.DerivedFrom y a → a ∈ r'.revokedAncestors
  flagged : ∀ {y : MemoryRecordId} {r' : MemoryRecord}, s'.records[y]? = some r' → r'.state.isLive →
    ReflTransGen s.DerivedFrom y x → ∀ (p : MemoryRecordId) (rp : MemoryRecord), new p →
      s.records[p]? = some rp → ∀ a ∈ rp.revokedAncestors, a ∈ r'.revokedAncestors

theorem Effect.edges {x new} (e : Effect s s' x new) (a b : MemoryRecordId)
    (h : s'.DerivedFrom a b) :
    s.DerivedFrom a b ∨ a = x ∧ new b := by
  obtain ⟨r', hr', hb⟩ := h
  exact (e.changes hr').edges b hb

theorem Effect.revoked_kept {x new} (e : Effect s s' x new) {a} (h : s.Revoked a) :
    s'.Revoked a := by
  obtain ⟨r, hr, hrevoked⟩ := h
  obtain ⟨r', hr'⟩ := mem_iff_some.mp (e.kept a (mem_of_some hr))
  rcases (e.changes hr').evolves with ⟨rfl, hnew, -⟩ | ⟨r0, hr0, hev⟩
  · exact absurd (mem_of_some hr) hnew
  · rw [hr] at hr0
    cases hr0
    exact ⟨r', hr', hev.revoked hrevoked⟩

/-- The invariant passes through every effect.  A path to a revoked record is one of
before, or it goes through `x` and a new parent, whose markers `x` and all that
derives from it took over. -/
theorem Marked.effect {x new} (hs : s.Marked) (e : Effect s s' x new) :
    s'.Marked where
  keyed h := by
    rcases (e.changes h).evolves with ⟨-, -, hid⟩ | ⟨r, hr, hev⟩
    · exact hid
    · rw [hev.id, hs.keyed hr]
  parents h := by
    apply e.kept
    rcases e.edges _ _ h with h | ⟨-, hnew⟩
    · exact hs.parents h
    · obtain ⟨r, hr, -⟩ := e.parents hnew
      exact mem_of_some hr
  marked {k r'} hk hlive a hpath hrevoked := by
    rcases transGen_of_added e.edges hpath with hold | ⟨hx, p, hp, hrest⟩
    · rcases e.revoked hrevoked with hrevoked | ⟨-, hmarked⟩
      · rcases (e.changes hk).evolves with ⟨rfl, hfresh, -⟩ | ⟨r, hr, hev⟩
        · obtain ⟨b, ⟨r, hr, -⟩, -⟩ := TransGen.head'_iff.mp hold
          exact absurd (mem_of_some hr) hfresh
        · have hmarker := hs.marked hr (hev.live hlive) a hold hrevoked
          exact (hev.markers hlive a hmarker).resolve_right (fun h => h hrevoked)
      · exact hmarked k r' hk hlive hold.to_reflTransGen
    · have hrevoked := (e.revoked hrevoked).resolve_right fun h => h.1 p hp
      obtain ⟨rp, hrp, hnot, htells⟩ := e.parents hp
      refine e.flagged hk hlive hx p rp hp hrp a ?_
      rcases reflTransGen_iff_eq_or_transGen.mp hrest with rfl | hrest
      · obtain ⟨ra, hra, hstate⟩ := hrevoked
        rw [hrp] at hra
        cases hra
        exact absurd hstate hnot
      · exact htells a hrest hrevoked
  plain h := (e.changes h).plain
  supported h := (e.changes h).supported

/-! ### Changes without new ancestry -/

structure Harmless (s : MemoryState) (r r' : MemoryRecord) : Prop extends Evolves s r r' where
  derivedFrom : r'.derivedFrom = r.derivedFrom
  unrevoked : r'.state = .revoked → r.state = .revoked
  plain : r'.state = .authoritative → r'.revokedAncestors = []
  supported : r'.state = .authoritative → r'.hasCommittedSupport s.horizon

theorem harmless_refl (hs : s.Marked) (h : s.records[k]? = some r) : Harmless s r r :=
  { evolves_refl s r with
    derivedFrom := rfl, unrevoked := fun h => h, plain := hs.plain h, supported := hs.supported h }

theorem Harmless.edit (h : Harmless s r r') (c : MemoryClass) (t : U64) :
    Harmless s r { r' with «class» := c, updatedAt := t } where
  id := h.id
  revoked := h.revoked
  live := h.live
  markers := h.markers
  derivedFrom := h.derivedFrom
  unrevoked := h.unrevoked
  plain := h.plain
  supported := h.supported

theorem hasCommittedSupport_mono {h₁ h₂} (hle : h₁ ≤ h₂) (h : r.hasCommittedSupport h₁) :
    r.hasCommittedSupport h₂ := by
  simp only [MemoryRecord.hasCommittedSupport, any_eq_true] at h ⊢
  obtain ⟨support, hmem, hcommitted⟩ := h
  refine ⟨support, hmem, ?_⟩
  rw [Support.isCommitted] at hcommitted ⊢
  split at hcommitted
  · exact decide_eq_true (le_trans (of_decide_eq_true hcommitted) hle)
  · cases hcommitted
  · cases hcommitted

theorem Harmless.change {x new} (h : Harmless s r r') (hle : s.horizon ≤ horizon)
    (hr : s.records[k]? = some r) : Change s horizon x new k r' where
  evolves := .inr ⟨r, hr, h.toEvolves⟩
  edges _ hb := .inl ⟨r, hr, h.derivedFrom ▸ hb⟩
  plain := h.plain
  supported hauthoritative := hasCommittedSupport_mono hle (h.supported hauthoritative)

theorem effect_of_harmless {changed} (hs : s.Marked) (hle : s.horizon ≤ horizon)
    (h : ∀ r' ∈ changed, ∃ r, s.records[r'.id]? = some r ∧ Harmless s r r') (x : MemoryRecordId) :
    Effect s (s.apply (s.delta changed horizon)) x fun _ => False := by
  have hfrom : ∀ {k : MemoryRecordId} {r' : MemoryRecord},
      (s.apply (s.delta changed horizon)).records[k]? = some r' →
      ∃ r, s.records[k]? = some r ∧ Harmless s r r' := by
    intro k r' hr'
    rcases records_commit hr' with ⟨r1, hmem, rfl, rfl⟩ | ⟨hold, -⟩
    · obtain ⟨r, hr, hharmless⟩ := h r1 hmem
      exact ⟨r, hr, hharmless.edit _ _⟩
    · exact ⟨r', hold, harmless_refl hs hold⟩
  refine ⟨fun k hk => mem_insertAll.mpr (.inr hk), fun hr' => ?_, fun h => h.elim, ?_,
    fun _ _ _ _ _ h => h.elim⟩
  · obtain ⟨r, hr, hharmless⟩ := hfrom hr'
    exact hharmless.change hle hr
  · rintro a ⟨r', hr', hrevoked⟩
    obtain ⟨r, hr, hharmless⟩ := hfrom hr'
    exact .inl ⟨r, hr, hharmless.unrevoked hrevoked⟩

theorem live_of_canTransitionTo {src : RecordState} (h : src.canTransitionTo dst) :
    src ≠ .revoked ∧ (dst.isLive → src.isLive) := by
  cases src <;> cases dst <;> simp_all [RecordState.canTransitionTo, RecordState.isLive]

theorem harmless_state (h : r.state.canTransitionTo dst) (ha : dst ≠ .authoritative)
    (hr : dst ≠ .revoked) : Harmless s r { r with state := dst } where
  id := rfl
  revoked hrevoked := absurd hrevoked (live_of_canTransitionTo h).1
  live := (live_of_canTransitionTo h).2
  markers _ _ h := .inl h
  derivedFrom := rfl
  unrevoked h := absurd h hr
  plain h := absurd h ha
  supported h := absurd h ha

theorem authorityGate_ok (h : s.authorityGate r = .ok ()) :
    r.hasCommittedSupport s.horizon ∧ ∀ a ∈ r.revokedAncestors, ¬ s.Revoked a := by
  rw [authorityGate, refuse_eq_ok, forM_eq_ok] at h
  refine ⟨by simpa using h.1, ?_⟩
  rintro a ha ⟨ra, hra, hrevoked⟩
  obtain ⟨ra', hra', hstate⟩ := bind_eq_ok.mp (h.2 a (mem_append_right _ ha))
  rw [require_eq_ok, hra] at hra'
  cases hra'
  exact (refuse_eq_ok.mp hstate).1 hrevoked

theorem harmless_authorized (h : s.authorityGate r = .ok ()) (hlive : r.state.isLive) : Harmless s r
    (authorized r) where
  id := rfl
  revoked hrevoked := by
    rw [hrevoked] at hlive
    cases hlive
  live _ := hlive
  markers _ a ha := .inr ((authorityGate_ok h).2 a ha)
  derivedFrom := rfl
  unrevoked h := by cases h
  plain _ := rfl
  supported _ := (authorityGate_ok h).1

/-! ### Changes that flag dependents -/

structure Flagging (f : MemoryRecord → MemoryRecord) (markers : List MemoryRecordId) : Prop where
  id : ∀ r, (f r).id = r.id
  derivedFrom : ∀ r, (f r).derivedFrom = r.derivedFrom
  dead : ∀ r, r.state.isLive = false → f r = r
  state : ∀ r, r.state.isLive → (f r).state = .needsRevalidation
  old : ∀ r, ∀ a ∈ r.revokedAncestors, a ∈ (f r).revokedAncestors
  new : ∀ r, r.state.isLive → ∀ a ∈ markers, a ∈ (f r).revokedAncestors

theorem mem_mergeMarkers {a extra} : a ∈ mergeMarkers markers extra ↔ a ∈ markers ∨ a ∈ extra := by
  rw [mergeMarkers]
  induction extra generalizing markers with
  | nil => simp
  | cons m extra ih =>
    rw [foldl_cons, ih]
    by_cases hm : m ∈ markers
    · rw [if_pos hm, mem_cons]
      constructor
      · exact fun h => h.imp_right .inr
      · rintro (h | rfl | h)
        · exact .inl h
        · exact .inl hm
        · exact .inr h
    · rw [if_neg hm]
      simp [or_assoc]

theorem flagging_flagInheriting (markers : List MemoryRecordId) :
    Flagging (flagInheriting markers) markers where
  id r := by rw [flagInheriting]; split <;> rfl
  derivedFrom r := by rw [flagInheriting]; split <;> rfl
  dead r h := by rw [flagInheriting, if_neg (by simp [h])]
  state r h := by rw [flagInheriting, if_pos h]
  old r a ha := by
    rw [flagInheriting]
    split
    · exact mem_mergeMarkers.mpr (.inl ha)
    · exact ha
  new r h a ha := by
    rw [flagInheriting, if_pos h]
    exact mem_mergeMarkers.mpr (.inr ha)

theorem flagging_markRevoked (id : MemoryRecordId) : Flagging (markRevoked id) [id] where
  id r := by rw [markRevoked]; split <;> rfl
  derivedFrom r := by rw [markRevoked]; split <;> rfl
  dead r h := by rw [markRevoked, if_neg (by simp [h])]
  state r h := by rw [markRevoked, if_pos h]
  old r a ha := by
    rw [markRevoked]
    split
    · simp only
      split
      · exact ha
      · exact (mem_insertionSort _).mpr (mem_append_left _ ha)
    · exact ha
  new r h a ha := by
    rw [markRevoked, if_pos h, mem_singleton.mp ha]
    simp only
    split
    · assumption
    · exact (mem_insertionSort _).mpr (by simp)

theorem Flagging.evolves (hf : Flagging f markers) (s : MemoryState) (r : MemoryRecord) :
    Evolves s r (f r) where
  id := hf.id r
  revoked h := by rw [hf.dead r (by rw [h]; rfl), h]
  live h := by
    by_contra hdead
    rw [hf.dead r (by simpa using hdead)] at h
    exact hdead h
  markers _ a ha := .inl (hf.old r a ha)

theorem Flagging.cases (hf : Flagging f markers) (r : MemoryRecord) :
    f r = r ∨ (f r).state = .needsRevalidation := by
  cases hlive : r.state.isLive with
  | true => exact .inr (hf.state r hlive)
  | false => exact .inl (hf.dead r hlive)

theorem harmless_flagged (hs : s.Marked) (hf : Flagging f markers) (h : s.records[k]? = some r) :
    Harmless s r (f r) := by
  rcases hf.cases r with hsame | hstate
  · rw [hsame]
    exact harmless_refl hs h
  refine { hf.evolves s r with
    derivedFrom := hf.derivedFrom r, unrevoked := fun h => ?_, plain := fun h =>
      ?_, supported := fun h => ?_ }
  all_goals
    rw [hstate] at h
    cases h

theorem mapM_require (h : ids.mapM s.require = .ok rs) :
    (∀ r ∈ rs, ∃ k ∈ ids, s.records[k]? = some r) ∧ ∀ k ∈ ids, ∃ r ∈ rs,
      s.records[k]? = some r := by
  induction ids generalizing rs with
  | nil =>
    cases h
    simp
  | cons id ids ih =>
    rw [mapM_cons] at h
    obtain ⟨r, hr, h⟩ := bind_eq_ok.mp h
    obtain ⟨rs', hrs, h⟩ := bind_eq_ok.mp h
    cases h
    rw [require_eq_ok] at hr
    obtain ⟨hfrom, hto⟩ := ih hrs
    constructor
    · refine forall_mem_cons.mpr ⟨⟨id, mem_cons_self, hr⟩, fun r' hr' => ?_⟩
      obtain ⟨k, hk, hlookup⟩ := hfrom r' hr'
      exact ⟨k, mem_cons_of_mem _ hk, hlookup⟩
    · refine forall_mem_cons.mpr ⟨⟨r, mem_cons_self, hr⟩, fun k hk => ?_⟩
      obtain ⟨r', hr', hlookup⟩ := hto k hk
      exact ⟨r', mem_cons_of_mem _ hr', hlookup⟩

/-- After a commit of a root and its flagged dependents, every other record has changed
without harm, and a dependent that lives has the markers. -/
theorem records_commit_cons (hs : s.Marked) (hf : Flagging f markers) (hid : root.id = id)
    (hids : id ∉ ids) (hrs : s.changes f ids = .ok rs)
    (h : (s.apply (s.delta (root :: rs) horizon)).records[k]? = some r') :
    (k = id ∧ r' = { root with updatedAt := s.clock + 1 }) ∨ k ≠ id ∧ ∃ r, s.records[k]? = some r ∧
      Harmless s r r' ∧ (k ∈ ids → r'.state.isLive → ∀ a ∈ markers, a ∈ r'.revokedAncestors) := by
  obtain ⟨found, hfound, h'⟩ := bind_eq_ok.mp hrs
  cases h'
  obtain ⟨hfrom, hto⟩ := mapM_require hfound
  have hflagged : ∀ {k : MemoryRecordId} {r : MemoryRecord} (t : U64), s.records[k]? = some r →
      Harmless s r { f r with updatedAt := t } ∧
      ((f r).state.isLive → ∀ a ∈ markers, a ∈ (f r).revokedAncestors) :=
    fun t hr =>
      ⟨(harmless_flagged hs hf hr).edit _ t, fun hlive => hf.new _ ((hf.evolves s _).live hlive)⟩
  rcases records_commit h with ⟨r1, hmem, rfl, rfl⟩ | ⟨hold, hne⟩
  · rcases mem_cons.mp hmem with rfl | hmem
    · exact .inl ⟨hid, rfl⟩
    obtain ⟨r, hr, rfl⟩ := mem_map.mp hmem
    obtain ⟨k, hk, hlookup⟩ := hfrom r (mem_filter.mp hr).1
    have hkey : (f r).id = k := (hf.id r).trans (hs.keyed hlookup)
    refine .inr ⟨fun heq => hids ?_, r, hkey ▸ hlookup, (hflagged _ hlookup).1,
      fun _ => (hflagged 0 hlookup).2⟩
    rwa [← heq, hkey]
  · refine .inr ⟨fun heq => hne root mem_cons_self (hid.trans heq.symm), r', hold,
      harmless_refl hs hold, fun hk => ?_⟩
    -- a dependent that is not among the changed ones is flagged already
    obtain ⟨r, hr, hlookup⟩ := hto k hk
    rw [hold] at hlookup
    cases hlookup
    have hsame : f r' = r' := by
      by_contra hdiff
      refine hne (f r') (mem_cons_of_mem _ (mem_map_of_mem ?_)) ((hf.id r').trans (hs.keyed hold))
      exact mem_filter.mpr ⟨hr, by simpa using hdiff⟩
    have hmarked := (hflagged 0 hold).2
    rwa [hsame] at hmarked

/-! ### The effect of each operation -/

theorem effect_of_revoke (hs : s.Marked) (hroot : s.records[id]? = some root)
    (hids : s.dependentsClosure limits id = .ok ids)
    (hrs : s.changes (markRevoked id) ids = .ok rs) :
    Effect s (s.apply (s.delta ({ root with state := .revoked } :: rs) s.horizon)) id
      fun _ => False := by
  obtain ⟨hapart, hall⟩ := mem_dependentsClosure hs hids
  have hid : root.id = id := hs.keyed hroot
  have hf := flagging_markRevoked id
  have hlookup {k : MemoryRecordId} {r' : MemoryRecord}
      (h : (s.apply (s.delta ({ root with state := .revoked } :: rs) s.horizon)).records[k]? =
      some r') :=
    records_commit_cons hs hf (by exact hid) hapart hrs h
  refine ⟨fun k hk => mem_insertAll.mpr (.inr hk), fun h => ?_, fun h => h.elim, ?_,
    fun _ _ _ _ _ h => h.elim⟩
  · rcases hlookup h with ⟨rfl, rfl⟩ | ⟨-, r, hr, hharmless, -⟩
    · have hdead : RecordState.revoked.isLive ≠ true := by decide
      refine ⟨.inr ⟨root, hroot, rfl, fun _ => rfl, fun h => absurd h hdead,
          fun h => absurd h hdead⟩, fun b hb => .inl ⟨root, hroot, hb⟩, fun h => ?_, fun h => ?_⟩
      all_goals cases h
    · exact hharmless.change le_rfl hr
  · rintro a ⟨r', hr', hrevoked⟩
    rcases hlookup hr' with ⟨rfl, -⟩ | ⟨-, r, hr, hharmless, -⟩
    · refine .inr ⟨fun _ h => h, fun y ry hy hlive hpath => ?_⟩
      rcases hlookup hy with ⟨rfl, rfl⟩ | ⟨hne, r, -, -, hmarked⟩
      · cases hlive
      · exact hmarked ((hall y hpath).resolve_left hne) hlive _ (mem_singleton_self _)
    · exact .inl ⟨r, hr, hharmless.unrevoked hrevoked⟩

/-- A record `root` replaces `r` with one more parent, and dependents are flagged with
the markers that the parent brings. -/
theorem effect_of_edge {p} (hs : s.Marked) (hf : Flagging f markers) (hr : s.records[id]? = some r)
    (hp : s.records[parent]? = some p) (hnot : p.state ≠ .revoked) (htells : s.Tells parent p)
    (hapart : id ∉ ids) (hrs : s.changes f ids = .ok rs)
    (hall : p.revokedAncestors ≠ [] → ∀ k, ReflTransGen s.DerivedFrom k id → k = id ∨ k ∈ ids)
    (hmarkers : ∀ a ∈ p.revokedAncestors, a ∈ markers ∧ a ∈ root.revokedAncestors)
    (hroot : Harmless s r { root with derivedFrom := r.derivedFrom })
    (hfrom : root.derivedFrom = r.derivedFrom ++ [parent]) :
    Effect s (s.apply (s.delta (root :: rs) s.horizon)) id fun q => q = parent := by
  have hid : root.id = id := hroot.id.trans (hs.keyed hr)
  have hlookup {k : MemoryRecordId} {r' : MemoryRecord}
      (h : (s.apply (s.delta (root :: rs) s.horizon)).records[k]? = some r') :=
    records_commit_cons hs hf hid hapart hrs h
  refine ⟨fun k hk => mem_insertAll.mpr (.inr hk), fun h => ?_, ?_, ?_, ?_⟩
  · rcases hlookup h with ⟨rfl, rfl⟩ | ⟨-, r, hr, hharmless, -⟩
    · refine ⟨.inr ⟨r, hr, hroot.id, hroot.revoked, hroot.live, hroot.markers⟩, fun b hb => ?_,
        hroot.plain, hroot.supported⟩
      rcases mem_append.mp (hfrom ▸ hb) with hb | hb
      · exact .inl ⟨r, hr, hb⟩
      · exact .inr ⟨rfl, mem_singleton.mp hb⟩
    · exact hharmless.change le_rfl hr
  · rintro q rfl
    exact ⟨p, hp, hnot, htells⟩
  · rintro a ⟨r', hr', hrevoked⟩
    rcases hlookup hr' with ⟨rfl, rfl⟩ | ⟨-, r, hr, hharmless, -⟩
    · exact .inl ⟨r, hr, hroot.unrevoked hrevoked⟩
    · exact .inl ⟨r, hr, hharmless.unrevoked hrevoked⟩
  · rintro y r' hy hlive' hpath q rq rfl hq a ha
    rw [hp] at hq
    cases hq
    rcases hlookup hy with ⟨rfl, rfl⟩ | ⟨hne, r, -, -, hmarked⟩
    · exact (hmarkers a ha).2
    · have hin := (hall (ne_nil_of_mem ha) y hpath).resolve_left hne
      exact hmarked hin hlive' a (hmarkers a ha).1

theorem checkParent_ok (h : s.checkParent id parent = .ok r) :
    s.records[parent]? = some r ∧ r.state ≠ .revoked := by
  rw [checkParent, refuse_eq_ok] at h
  obtain ⟨r', hr', h⟩ := bind_eq_ok.mp h.2
  rw [require_eq_ok] at hr'
  obtain ⟨hstate, h⟩ := refuse_eq_ok.mp h
  cases h
  exact ⟨hr', hstate⟩

/-- Each parent that a record inherits from is held and not revoked, and its markers
are passed on. -/
theorem inherit_ok {parents inherited} (h : s.inherit id parents = .ok inherited) :
    ∀ p ∈ inherited.1, p ∈ parents ∧ ∃ r, s.records[p]? = some r ∧ r.state ≠ .revoked ∧
      ∀ a ∈ r.revokedAncestors, a ∈ inherited.2 := by
  -- what holds of the parents taken so far is kept by each further one
  refine foldlM_along (P := fun _ acc => ∀ p ∈ acc.1, p ∈ parents ∧ ∃ r, s.records[p]? = some r ∧
    r.state ≠ .revoked ∧ ∀ a ∈ r.revokedAncestors, a ∈ acc.2) h (by simp) ?_
  intro _ acc parent hparent acc' hacc hstep p hp
  obtain ⟨rp, hrp, hstep⟩ := bind_eq_ok.mp hstep
  obtain ⟨hlookup, hstate⟩ := checkParent_ok hrp
  cases hstep
  have hcase : p ∈ acc.1 ∨ p = parent := by
    split at hp
    · exact .inl hp
    · simpa using hp
  rcases hcase with hp | rfl
  · obtain ⟨hmem, r, hr, hnot, hmarkers⟩ := hacc p hp
    exact ⟨hmem, r, hr, hnot, fun a ha => mem_mergeMarkers.mpr (.inl (hmarkers a ha))⟩
  · exact ⟨hparent, rp, hlookup, hstate, fun a ha => mem_mergeMarkers.mpr (.inr ha)⟩

/-- A retired record at `p` names every revoked record it derives from. -/
def Told (s : MemoryState) (p : MemoryRecordId) : Prop :=
  ∀ r, s.records[p]? = some r → r.state = .retired → s.Tells p r

theorem Marked.tells {p} (hs : s.Marked) (hr : s.records[p]? = some r) (hnot : r.state ≠ .revoked)
    (htold : s.Told p) : s.Tells p r := by
  cases hstate : r.state with
  | retired => exact htold r hr hstate
  | revoked => exact absurd hstate hnot
  | provisional | authoritative | needsRevalidation => exact hs.marked hr (by rw [hstate]; rfl)

theorem effect_of_insert {new : NewMemoryRecord} {inherited} (hs : s.Marked)
    (hnew : new.id ∉ s.records) (hinherit : s.inherit new.id new.derivedFrom = .ok inherited)
    (htold : ∀ p ∈ new.derivedFrom, s.Told p) :
    Effect s (s.apply (s.delta [s.newRecord new inherited.1 inherited.2] s.horizon)) new.id
      (· ∈ inherited.1) := by
  have hparents := inherit_ok hinherit
  have hlookup : ∀ {k : MemoryRecordId} {r' : MemoryRecord},
      (s.apply (s.delta [s.newRecord new inherited.1 inherited.2] s.horizon)).records[k]? =
      some r' →
      (k = new.id ∧ r' = s.newRecord new inherited.1 inherited.2) ∨
        k ≠ new.id ∧ s.records[k]? = some r' := by
    intro k r' h
    rcases records_commit h with ⟨r, hr, rfl, rfl⟩ | ⟨hold, hne⟩
    · rw [mem_singleton.mp hr]
      exact .inl ⟨rfl, rfl⟩
    · exact .inr ⟨fun h => hne _ (mem_singleton.mpr rfl) h.symm, hold⟩
  -- a new record is provisional or waits to be validated again
  have hstate : ∀ t, t = .revoked ∨ t = .authoritative →
      (s.newRecord new inherited.1 inherited.2).state ≠ t := by
    rw [newRecord]
    split <;> simp
  refine ⟨fun k hk => mem_insertAll.mpr (.inr hk), fun h => ?_, ?_, ?_, ?_⟩
  · rcases hlookup h with ⟨rfl, rfl⟩ | ⟨-, hold⟩
    · exact ⟨.inl ⟨rfl, hnew, rfl⟩, fun b hb => .inr ⟨rfl, hb⟩,
        fun h => absurd h (hstate _ (.inr rfl)), fun h => absurd h (hstate _ (.inr rfl))⟩
    · exact (harmless_refl hs hold).change le_rfl hold
  · intro p hp
    obtain ⟨hmem, r, hr, hnot, -⟩ := hparents p hp
    exact ⟨r, hr, hnot, hs.tells hr hnot (htold p hmem)⟩
  · rintro a ⟨r', hr', hrevoked⟩
    rcases hlookup hr' with ⟨rfl, rfl⟩ | ⟨-, hold⟩
    · exact absurd hrevoked (hstate _ (.inl rfl))
    · exact .inl ⟨r', hold, hrevoked⟩
  · intro y r' hy hlive hpath p rp hp hrp a ha
    -- nothing derives from a record that was not there
    have hroot : y = new.id := by
      rcases ReflTransGen.cases_tail hpath with heq | ⟨b, -, hedge⟩
      · exact heq.symm
      · exact absurd (hs.parents hedge) hnew
    rcases hlookup hy with ⟨-, rfl⟩ | ⟨hne, -⟩
    · obtain ⟨-, r, hr, -, hmarkers⟩ := hparents p hp
      rw [hrp] at hr
      cases hr
      exact hmarkers a ha
    · exact absurd hroot hne

/-- A new record and a new derivation name no retired parent without the marker of a
revoked ancestor. -/
def Orderly (s : MemoryState) : MemoryOp → Prop
  | .insert new => ∀ p ∈ new.derivedFrom, s.Told p
  | .addDerivation _ parent => s.Told parent
  | _ => True

theorem requireMutable_ok (h : s.requireMutable id = .ok r) :
    s.records[id]? = some r ∧ r.state.isLive := by
  obtain ⟨r', hr', h⟩ := bind_eq_ok.mp h
  obtain ⟨hlive, h⟩ := refuse_eq_ok.mp h
  cases h
  exact ⟨require_eq_ok.mp hr', by simpa using hlive⟩

theorem map_fst_eq_ok {α : Type} {x : Checked (Planned α)} (h : x.map Prod.fst = .ok (some d)) :
    ∃ a, x = .ok (some d, a) := by
  obtain ⟨⟨d', a⟩, hx, rfl⟩ := map_eq_ok.mp h
  exact ⟨a, hx⟩

theorem effect_of_single (hs : s.Marked) (hr : s.records[id]? = some r) (h : Harmless s r r') :
    ∃ x new, Effect s (s.apply (s.delta [r'] s.horizon)) x new := by
  refine ⟨id, _, effect_of_harmless hs (le_refl _) (fun r1 hr1 => ?_) id⟩
  rw [mem_singleton.mp hr1]
  exact ⟨r, by rw [h.id, hs.keyed hr, hr], h⟩

theorem effect_of_addDerivation (hs : s.Marked) (htold : s.Told parent)
    (h : s.addDerivation limits id parent = .ok (some d, ())) :
    ∃ x new, Effect s (s.apply d) x new := by
  rw [addDerivation, refuse_eq_ok] at h
  obtain ⟨r, hr, h⟩ := bind_eq_ok.mp h.2
  obtain ⟨p, hp, h⟩ := bind_eq_ok.mp h
  obtain ⟨hr, hlive⟩ := requireMutable_ok hr
  rw [require_eq_ok] at hp
  obtain ⟨hrevoked, h⟩ := refuse_eq_ok.mp h
  have htells := hs.tells hp hrevoked htold
  have hrewired : Harmless s r { r with derivedFrom := r.derivedFrom } := harmless_refl hs hr
  split at h
  · cases h
  obtain ⟨-, h⟩ := refuse_eq_ok.mp h
  split at h
  · -- the parent passes nothing on, so nothing else changes
    rename_i hempty
    cases h
    have hnone : p.revokedAncestors = [] := isEmpty_iff.mp hempty
    have hrs : s.changes (flagInheriting []) [] = .ok [] := rfl
    exact ⟨_, _, effect_of_edge hs (flagging_flagInheriting []) hr hp hrevoked htells (by simp) hrs
      (fun h => absurd hnone h) (by simp [hnone]) hrewired rfl⟩
  · obtain ⟨ids, hids, h⟩ := bind_eq_ok.mp h
    obtain ⟨rs, hrs, h⟩ := bind_eq_ok.mp h
    cases h
    obtain ⟨hapart, hall⟩ := mem_dependentsClosure hs hids
    have hf := flagging_flagInheriting p.revokedAncestors
    refine ⟨_, _, effect_of_edge hs hf hr hp hrevoked htells hapart hrs (fun _ => hall)
      (fun a ha => ⟨ha, ?_⟩) ?_ ?_⟩
    · exact hf.new _ (by exact hlive) a ha
    · have hflagged := harmless_flagged hs hf hr
      rw [flagInheriting, if_pos hlive] at hflagged
      rw [flagInheriting, if_pos (by exact hlive)]
      exact hflagged
    · rw [hf.derivedFrom]

theorem effect_of_revocation {report} (hs : s.Marked)
    (h : s.revoke limits id = .ok (some d, report)) : ∃ x new, Effect s (s.apply d) x new := by
  obtain ⟨root, hroot, h⟩ := bind_eq_ok.mp h
  rw [require_eq_ok] at hroot
  split at h
  · cases h
  obtain ⟨ids, hids, h⟩ := bind_eq_ok.mp h
  obtain ⟨rs, hrs, h⟩ := bind_eq_ok.mp h
  cases h
  exact ⟨_, _, effect_of_revoke hs hroot hids hrs⟩

theorem effect_of_transition {u : Unit} (hs : s.Marked)
    (h : s.transition limits id dst = .ok (some d, u)) : ∃ x new, Effect s (s.apply d) x new := by
  obtain ⟨r, hr, h⟩ := bind_eq_ok.mp h
  rw [require_eq_ok] at hr
  obtain ⟨hallowed, h⟩ := refuse_eq_ok.mp h
  have hallowed : r.state.canTransitionTo dst := by simpa using hallowed
  have hplain : dst ≠ .authoritative → dst ≠ .revoked →
      ∃ x new, Effect s (s.apply (s.delta [{ r with state := dst }] s.horizon)) x new :=
    fun ha hrevoked => effect_of_single hs hr (harmless_state hallowed ha hrevoked)
  cases dst with
  | revoked =>
    obtain ⟨⟨d', report⟩, hrevoke, h⟩ := map_eq_ok.mp h
    cases h
    exact effect_of_revocation hs hrevoke
  | authoritative =>
    obtain ⟨hgate, h⟩ := bind_unit_eq_ok.mp h
    cases h
    exact effect_of_single hs hr
      (harmless_authorized hgate ((live_of_canTransitionTo hallowed).2 rfl))
  | provisional | needsRevalidation | retired =>
    cases h
    exact hplain (by decide) (by decide)

theorem live_of_promote (h : policy.decidePromotion r horizon contradictions = .promote) :
    r.state.isLive := by
  by_contra hdead
  rw [ConsolidationPolicy.decidePromotion] at h
  simp [hdead] at h

theorem effect_of_promote {decision} (hs : s.Marked)
    (h : s.promote limits id policy contradictions = .ok (some d, decision)) :
    ∃ x new, Effect s (s.apply d) x new := by
  obtain ⟨r, hr, h⟩ := bind_eq_ok.mp h
  rw [require_eq_ok] at hr
  simp only at h
  split at h
  · cases h
  rename_i hpromote
  have hlive := live_of_promote (not_not.mp hpromote)
  obtain ⟨r', hr', h⟩ := bind_eq_ok.mp h
  obtain ⟨-, h⟩ := refuse_eq_ok.mp h
  cases h
  rw [gated] at hr'
  split at hr'
  · obtain ⟨hgate, hr'⟩ := bind_unit_eq_ok.mp hr'
    cases hr'
    exact effect_of_single hs hr ((harmless_authorized hgate hlive).edit _ _)
  · cases hr'
    exact effect_of_single hs hr ((harmless_refl hs hr).edit _ _)

theorem retained_some {now verdict}
    (h : retained policy contradictions now r = some (verdict, dst)) :
    r.state.canTransitionTo dst ∧ dst ≠ .authoritative ∧ dst ≠ .revoked := by
  obtain ⟨dst', hdst, heq⟩ := Option.map_eq_some_iff.mp h
  cases heq
  obtain ⟨hdst, hallowed⟩ := Option.filter_eq_some_iff.mp hdst
  refine ⟨hallowed, ?_⟩
  split at hdst
  · cases hdst
  · cases hdst
    decide
  · cases hdst
    decide

/-- **What an operation does**, in a state that is marked. -/
theorem effect_of_plan {op : MemoryOp} (hs : s.Marked) (horderly : s.Orderly op)
    (h : s.plan limits op = .ok (some d)) : ∃ x new, Effect s (s.apply d) x new := by
  cases op with
  | insert =>
    obtain ⟨a, h⟩ := map_fst_eq_ok h
    simp only [MemoryState.insert, refuse_eq_ok, bind_unit_eq_ok] at h
    obtain ⟨-, -, -, -, -, -, hnew, -, h⟩ := h
    obtain ⟨inherited, hinherit, h⟩ := bind_eq_ok.mp h
    cases h
    exact ⟨_, _, effect_of_insert hs hnew hinherit horderly⟩
  | addSupport =>
    obtain ⟨a, h⟩ := map_fst_eq_ok h
    rw [addSupport, bind_unit_eq_ok] at h
    obtain ⟨r, hr, h⟩ := bind_eq_ok.mp h.2
    obtain ⟨hr, -⟩ := requireMutable_ok hr
    obtain ⟨-, h⟩ := refuse_eq_ok.mp h
    cases h
    refine effect_of_single hs hr { harmless_refl hs hr with supported := fun hauthoritative => ?_ }
    have hsupported := hs.supported hr hauthoritative
    simp only [MemoryRecord.hasCommittedSupport, any_append] at hsupported ⊢
    rw [hsupported, Bool.true_or]
  | addDerivation =>
    obtain ⟨a, h⟩ := map_fst_eq_ok h
    exact effect_of_addDerivation hs horderly h
  | advanceCommittedRevision =>
    obtain ⟨a, h⟩ := map_fst_eq_ok h
    rw [advanceCommittedRevision, refuse_eq_ok] at h
    obtain ⟨hle, h⟩ := h
    split at h
    · cases h
    · cases h
      exact ⟨"", _, effect_of_harmless hs (not_lt.mp hle) (by simp) ""⟩
  | transition =>
    obtain ⟨a, h⟩ := map_fst_eq_ok h
    exact effect_of_transition hs h
  | revoke =>
    obtain ⟨a, h⟩ := map_fst_eq_ok h
    exact effect_of_revocation hs h
  | promote =>
    obtain ⟨a, h⟩ := map_fst_eq_ok h
    exact effect_of_promote hs h
  | applyRetention =>
    rw [plan] at h
    obtain ⟨a, h⟩ := map_fst_eq_ok h
    simp only [applyRetention, Except.ok.injEq, Prod.mk.injEq] at h
    obtain ⟨h, -⟩ := h
    split at h
    · cases h
    cases h
    refine ⟨"", _, effect_of_harmless hs (le_refl _) (fun r' hr' => ?_) ""⟩
    simp only [mem_map, mem_filterMap] at hr'
    obtain ⟨q, ⟨⟨k, r⟩, hmem, hq⟩, rfl⟩ := hr'
    obtain ⟨⟨verdict, dst⟩, hmoved, rfl⟩ := Option.map_eq_some_iff.mp hq
    have hr := Std.ExtTreeMap.mem_toList_iff_getElem?_eq_some.mp hmem
    obtain ⟨hallowed, ha, hrevoked⟩ := retained_some hmoved
    exact ⟨r, by rwa [hs.keyed hr], harmless_state hallowed ha hrevoked⟩

/-! ### Replay -/

theorem foldl_apply_singletons {h c} (rs : List MemoryRecord)
    (records : Std.ExtTreeMap MemoryRecordId MemoryRecord) :
    (rs.map fun r => MemoryDelta.mk h c [r]).foldl apply ⟨records, h, c⟩ =
      ⟨insertAll MemoryRecord.id records rs, h, c⟩ := by
  induction rs generalizing records with
  | nil => rfl
  | cons r rs ih => exact ih _

theorem replay_snapshot (hs : s.Marked) : replay s.snapshot = s := by
  have hfold := foldl_apply_singletons (h := s.horizon) (c := s.clock)
    (s.records.toList.map Prod.snd) ∅
  rw [insertAll_values hs.keyed, List.map_map] at hfold
  exact hfold

end MemoryState

/-! ### Runs -/

namespace MemoryLog

open MemoryState

def Orderly (m : MemoryLog) : MemoryStep → Prop
  | .call limits op => ∀ d, m.state.plan limits op = .ok (some d) → m.state.Orderly op
  | .compact | .reopen _ => True

def OrderlyRun : MemoryLog → List MemoryStep → Prop
  | _, [] => True
  | m, step :: steps => m.Orderly step ∧ OrderlyRun (m.step step) steps

/-- The journal spells out a state that is marked. -/
structure Recorded (m : MemoryLog) : Prop where
  marked : m.state.Marked
  replay : MemoryState.replay m.frames = m.state

theorem recorded_new : new.Recorded := ⟨marked_empty, rfl⟩

variable {m : MemoryLog}

/-- One step keeps the invariant, and what is revoked stays so. -/
theorem Recorded.step {step} (hm : m.Recorded) (h : m.Orderly step) :
    (m.step step).Recorded ∧ ∀ id, m.state.Revoked id → (m.step step).state.Revoked id := by
  cases step with
  | call =>
    rw [MemoryLog.step]
    split
    · rename_i d hplan
      obtain ⟨x, new, heffect⟩ := effect_of_plan hm.marked (h d hplan) hplan
      refine ⟨⟨hm.marked.effect heffect, ?_⟩, fun id => heffect.revoked_kept⟩
      rw [MemoryState.replay, foldl_append, ← MemoryState.replay, hm.replay]
      rfl
    · exact ⟨hm, fun _ h => h⟩
    · exact ⟨hm, fun _ h => h⟩
  | compact => exact ⟨⟨hm.marked, replay_snapshot hm.marked⟩, fun _ h => h⟩
  | reopen =>
    rw [MemoryLog.step]
    split
    · rw [hm.replay]
      exact ⟨hm, fun _ h => h⟩
    · exact ⟨hm, fun _ h => h⟩

theorem orderlyRun_recorded {steps} (hm : m.Recorded) (h : OrderlyRun m steps) :
    (m.run steps).Recorded ∧ ∀ id, m.state.Revoked id → (m.run steps).state.Revoked id := by
  induction steps generalizing m with
  | nil => exact ⟨hm, fun _ h => h⟩
  | cons step steps ih =>
    obtain ⟨hrecorded, hkept⟩ := hm.step h.1
    obtain ⟨hrest, hkept'⟩ := ih hrecorded h.2
    exact ⟨hrest, fun id hid => hkept' id (hkept id hid)⟩

theorem orderlyRun_append {steps₁ steps₂} :
    OrderlyRun m (steps₁ ++ steps₂) ↔ OrderlyRun m steps₁ ∧ OrderlyRun (m.run steps₁) steps₂ := by
  induction steps₁ generalizing m with
  | nil => simp [OrderlyRun, run]
  | cons step steps ih => simp [OrderlyRun, ih, run, and_assoc]

/-- **A revocation reaches every dependent** in a run that derives from no retired
record without the marker of a revoked ancestor: an authoritative record has no revoked
ancestor, over any number of steps, and has a committed observation; and a revoked record
is revoked ever after. -/
theorem revocation_reaches_dependents (steps₁ steps₂ : List MemoryStep)
    (h : OrderlyRun new (steps₁ ++ steps₂)) : let m := new.run steps₁
    let m' := m.run steps₂
    (∀ (id : MemoryRecordId) (r : MemoryRecord), m.state.records[id]? = some r →
      r.state = .authoritative → (∀ a, TransGen m.state.DerivedFrom id a → ¬ m.state.Revoked a) ∧
      ∃ support ∈ r.supports, support.isCommitted m.state.horizon) ∧ ∀ id, m.state.Revoked id →
      m'.state.Revoked id := by
  intro m m'
  obtain ⟨h1, h2⟩ := orderlyRun_append.mp h
  obtain ⟨hm, -⟩ := orderlyRun_recorded recorded_new h1
  refine ⟨fun id r hr hauthoritative => ⟨fun a hpath hrevoked => ?_, ?_⟩,
    (orderlyRun_recorded hm h2).2⟩
  · have hmarker := hm.marked.marked hr (by rw [hauthoritative]; rfl) a hpath hrevoked
    rw [hm.marked.plain hr hauthoritative] at hmarker
    cases hmarker
  · have hsupported := hm.marked.supported hr hauthoritative
    rwa [MemoryRecord.hasCommittedSupport, any_eq_true] at hsupported

/-! ### A parent that hides a revocation -/

def observed (id : MemoryRecordId) (parents : List MemoryRecordId) : MemoryOp :=
  .insert ⟨id, .semantic, "", false, false, [⟨"sensor", .observation 0⟩], parents⟩

/-- `b` derives from `a` and is retired, and only then is `a` revoked. -/
def hiddenRevocation : List MemoryStep :=
  [observed "a" [], observed "b" ["a"], .transition "b" .retired, .revoke "a", observed "c" ["b"],
    .transition "c" .authoritative].map (.call {})

/-- The record derived from the retired one becomes authoritative, with a revoked
ancestor. -/
theorem retired_parent_hides_revocation :
    let s := (new.run hiddenRevocation).state
    (s.records["c"]?).map (·.state) = some .authoritative ∧
      TransGen s.DerivedFrom "c" "a" ∧ s.Revoked "a" := by
  refine ⟨by decide +kernel, .tail (.single (derivedFrom_of_any (b := "b") ?_))
    (derivedFrom_of_any ?_), ?_⟩
  · decide +kernel
  · decide +kernel
  · exact revoked_of_any (by decide +kernel)

/-- `b` derives from `a`, `a` is revoked, `b` is retired with its marker, and `c`
derives from it. -/
def openRevocation : List MemoryStep :=
  [observed "a" [], observed "b" ["a"], .transition "b" .authoritative, .revoke "a",
    .transition "b" .retired, observed "c" ["b"]].map (.call {})

theorem told_of_all {s : MemoryState} {p}
    (h : (s.records[p]?).all (fun r => r.state ≠ .retired || s.records.toList.all fun q =>
      q.2.state ≠ .revoked || q.1 ∈ r.revokedAncestors) = true) : s.Told p := by
  rintro r hr hretired a - ⟨ra, hra, hrevoked⟩
  rw [hr, Option.all_some] at h
  have hall := (Bool.or_eq_true_iff.mp h).resolve_left (by simp [hretired])
  have hmem := Std.ExtTreeMap.mem_toList_iff_getElem?_eq_some.mpr hra
  simpa [hrevoked] using all_eq_true.mp hall (a, ra) hmem

theorem openRevocation_orderly : OrderlyRun new (openRevocation ++ [.compact, .reopen {}]) := by
  refine ⟨fun _ _ _ hp => (not_mem_nil hp).elim, fun _ _ p hp => ?_, fun _ _ => trivial,
    fun _ _ => trivial, fun _ _ => trivial, fun _ _ p hp => ?_, trivial, trivial, trivial⟩
  all_goals
    rw [mem_singleton.mp hp]
    exact told_of_all (by decide +kernel)

theorem revocation_reaches_dependents_of_openRevocation :
    let m := new.run openRevocation
    let m' := m.run [.compact, .reopen {}]
    (∀ (id : MemoryRecordId) (r : MemoryRecord), m.state.records[id]? = some r →
      r.state = .authoritative → (∀ a, TransGen m.state.DerivedFrom id a → ¬ m.state.Revoked a) ∧
      ∃ support ∈ r.supports, support.isCommitted m.state.horizon) ∧ m.state.Revoked "a" ∧
      m'.state.Revoked "a" := by
  obtain ⟨hclear, hkept⟩ :=
    revocation_reaches_dependents openRevocation [.compact, .reopen {}] openRevocation_orderly
  have hrevoked : (new.run openRevocation).state.Revoked "a" := revoked_of_any (by decide +kernel)
  exact ⟨hclear, hrevoked, hkept "a" hrevoked⟩

end MemoryLog

end Ptr.Memory
