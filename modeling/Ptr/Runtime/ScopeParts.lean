import Ptr.Runtime.Export
import Ptr.Runtime.Restore

/-!
# The scopes of a snapshot

`from_compacted_parts` checks what a registry of committed records always has: a lease
for each scope, marks that fit the states, and parents whose chains end.  `Formed` is
that invariant (the chains end because a parent was there first, so it has a lower
rank), and a formed registry is rebuilt from its parts, except for the list of the
records it took.
-/

namespace Ptr.Runtime

open Lib Ledger List
open Std.ExtTreeMap (mem_iff_isSome_getElem? size_insert isEmpty_toList toList_map)

def ScopeState.order : ScopeState → Nat
  | .created => 0
  | .admitted => 1
  | .started => 2
  | .completed | .failed | .cancelled | .timedOut | .revoked => 3
  | .released => 4

theorem order_lt_of_validTransition {a b} (h : validTransition a b = true) : a.order < b.order := by
  cases a <;> cases b <;> first | decide | cases h

/-- A transition takes the mark of a request to stop along, and sets it where the new
state says so. -/
theorem flagged_of_validTransition {a b c} (h : validTransition a b = true)
    (ha : ∀ x ∈ a.flagged, x = c) : ∀ x ∈ b.flagged, x = (c || ScopeRegistry.cancels b) := by
  cases a <;> cases b <;>
    first | (cases h; done) | simp_all [ScopeState.flagged, ScopeRegistry.cancels]

namespace ScopeRegistry

variable {g g' : ScopeRegistry} {e : ScopeLifecycleEvent} {s : ExecutionScope}
  {rank : ScopeId → Nat} {id : ScopeId}

/-! ### What a registry is -/

def Ranks (g : ScopeRegistry) (rank : ScopeId → Nat) : Prop :=
  (∀ id ∈ g.scopes, rank id < g.scopes.size) ∧
    ∀ (id : ScopeId) s parent, g.scopes[id]? = some s → s.parent = some parent →
      ∃ p, g.scopes[parent]? = some p ∧ p.session = s.session ∧ p.project = s.project ∧
      rank parent < rank id

structure Formed (g : ScopeRegistry) : Prop where
  ids : ∀ (id : ScopeId) s, g.scopes[id]? = some s → s.id = id
  leased : ∀ id, id ∈ g.leases ↔ id ∈ g.scopes
  shapes : ∀ (id : ScopeId) l, g.leases[id]? = some l → validateLeaseShape l = .ok ()
  flags : ∀ (id : ScopeId) s, g.scopes[id]? = some s →
    ∀ x ∈ s.state.flagged, x = s.cancellationRequested
  ranked : ∃ rank, g.Ranks rank
  revision : g.scopes.isEmpty = g.lastRevision.isNone
  /-- A scope is at least as far as any record of it. -/
  spent : ∀ e ∈ g.committed, ∃ s, g.scopes[e.scopeId]? = some s ∧
    (stateFromKind e.kind).order ≤ s.state.order

theorem formed_empty : Formed .empty where
  ids id s h := by simp [empty] at h
  leased id := by simp [empty]
  shapes id l h := by simp [empty] at h
  flags id s h := by simp [empty] at h
  ranked := ⟨fun _ => 0, by simp [Ranks, empty]⟩
  revision := by simp [empty]
  spent e h := by cases h

def created (e : ScopeLifecycleEvent) : ExecutionScope :=
  ⟨e.scopeId, e.parentId, e.sessionId, e.projectId, e.createdAt, e.deadline, .created, false⟩

theorem getElem?_create (id : ScopeId) :
    ((g.create e).record e).scopes[id]? = if e.scopeId = id then some (created e)
      else g.scopes[id]? := by
  show (g.scopes.insert e.scopeId (created e))[id]? = _
  rw [Std.ExtTreeMap.getElem?_insert]
  simp

theorem Ranks.create (h : g.Ranks rank) (hcreates : g.Creates e) :
    ((g.create e).record e).Ranks fun id => if id = e.scopeId then g.scopes.size else rank id := by
  have hsize : ((g.create e).record e).scopes.size = g.scopes.size + 1 := by
    show (g.scopes.insert e.scopeId (created e)).size = _
    rw [size_insert, if_neg (by rw [Std.ExtTreeMap.contains_iff_mem]; exact hcreates.fresh)]
  refine ⟨?_, ?_⟩
  · intro id hid
    rw [hsize]
    dsimp only
    split
    · omega
    next hne =>
    have hold : id ∈ g.scopes := by
      have hmem : id ∈ g.scopes.insert e.scopeId (created e) := hid
      rw [mem_insert_or] at hmem
      exact hmem.resolve_left fun heq => hne heq.symm
    exact Nat.lt_succ_of_lt (h.1 id hold)
  · intro id s parent hs hparent
    rw [getElem?_create] at hs
    split at hs
    · next heq =>
      -- The parent of the new scope was there before it.
      cases hs
      have hcheck := hcreates.parent
      have hparent : e.parentId = some parent := hparent
      rw [hparent] at hcheck
      simp only [checkParent] at hcheck
      cases hp : g.scopes[parent]? with
      | none => simp [hp] at hcheck
      | some p =>
        simp only [hp, refuse_eq_ok, not_or, not_not] at hcheck
        have hmem : parent ∈ g.scopes := mem_of_some hp
        have hne : e.scopeId ≠ parent := fun heq => hcreates.fresh (heq ▸ hmem)
        refine ⟨p, by rw [getElem?_create, if_neg hne, hp], hcheck.1.1, hcheck.1.2, ?_⟩
        dsimp only
        rw [if_neg (hne.symm), if_pos heq.symm]
        exact h.1 parent hmem
    · next hne =>
      obtain ⟨p, hp, hsession, hproject, hrank⟩ := h.2 id s parent hs hparent
      have hmem : parent ∈ g.scopes := mem_of_some hp
      have hfresh : e.scopeId ≠ parent := fun heq => hcreates.fresh (heq ▸ hmem)
      refine ⟨p, by rw [getElem?_create, if_neg hfresh, hp], hsession, hproject, ?_⟩
      dsimp only
      rw [if_neg (hfresh.symm), if_neg (Ne.symm hne)]
      exact hrank

theorem Formed.create (h : g.Formed) (hcreates : g.Creates e) : ((g.create e).record e).Formed where
  ids id s hs := by
    rw [getElem?_create] at hs
    split at hs
    · next heq => cases hs; exact heq
    · exact h.ids id s hs
  leased id := by
    show id ∈ g.leases.insert e.scopeId e.lease ↔ id ∈ g.scopes.insert e.scopeId (created e)
    rw [Std.ExtTreeMap.mem_insert, Std.ExtTreeMap.mem_insert, h.leased]
  shapes id l hl := by
    obtain ⟨-, rfl⟩ | ⟨-, hl⟩ := some_of_insert hl
    · exact hcreates.lease
    · exact h.shapes id l hl
  flags id s hs := by
    rw [getElem?_create] at hs
    split at hs
    · cases hs; simp [created, ScopeState.flagged]
    · exact h.flags id s hs
  ranked := by
    obtain ⟨rank, hrank⟩ := h.ranked
    exact ⟨_, hrank.create hcreates⟩
  revision := by
    exact isEmpty_insert _ _ _
  spent x hx := by
    rw [getElem?_create]
    rcases mem_append.mp hx with hx | hx
    · obtain ⟨s, hs, hle⟩ := h.spent x hx
      have hne : e.scopeId ≠ x.scopeId := by
        intro heq
        exact hcreates.fresh (heq ▸ mem_of_some hs)
      exact ⟨s, by rw [if_neg hne, hs], hle⟩
    · rw [mem_singleton.mp hx, if_pos rfl]
      exact ⟨_, rfl, by rw [hcreates.kind]; exact bot_le⟩

def moved (s : ExecutionScope) (next : ScopeState) : ExecutionScope :=
  { s with state := next, cancellationRequested := s.cancellationRequested || cancels next }

theorem getElem?_move {next} (id : ScopeId) :
    ((g.move e.scopeId s next).record e).scopes[id]? = if e.scopeId = id then some (moved s next)
      else g.scopes[id]? := by
  show (g.scopes.insert e.scopeId (moved s next))[id]? = _
  rw [Std.ExtTreeMap.getElem?_insert]
  simp

/-- A transition keeps what the tree of the scopes is about. -/
theorem Ranks.move {next} (h : g.Ranks rank) (hs : g.scopes[e.scopeId]? = some s) :
    ((g.move e.scopeId s next).record e).Ranks rank := by
  have hmem : e.scopeId ∈ g.scopes := mem_of_some hs
  have hheld : ∀ (id : ScopeId) p, g.scopes[id]? = some p →
      ∃ q, ((g.move e.scopeId s next).record e).scopes[id]? = some q ∧ q.session = p.session ∧
      q.project = p.project := by
    intro id p hp
    rw [getElem?_move]
    split
    · next heq =>
      subst heq
      rw [hs] at hp
      cases hp
      exact ⟨_, rfl, rfl, rfl⟩
    · exact ⟨p, hp, rfl, rfl⟩
  refine ⟨?_, ?_⟩
  · intro id hid
    have hid : id ∈ g.scopes.insert e.scopeId (moved s next) := hid
    have hsize : ((g.move e.scopeId s next).record e).scopes.size = g.scopes.size := by
      show (g.scopes.insert e.scopeId (moved s next)).size = _
      rw [size_insert, if_pos (Std.ExtTreeMap.contains_iff_mem.mpr hmem)]
    rw [mem_insert_or] at hid
    rw [hsize]
    rcases hid with rfl | hid
    · exact h.1 _ hmem
    · exact h.1 id hid
  · intro id t parent ht hparent
    obtain ⟨t0, ht0, hsame⟩ : ∃ t0, g.scopes[id]? = some t0 ∧
        t0.parent = t.parent ∧ t0.session = t.session ∧ t0.project = t.project := by
      rw [getElem?_move] at ht
      split at ht
      · next heq =>
        cases ht
        exact ⟨s, heq ▸ hs, rfl, rfl, rfl⟩
      · exact ⟨t, ht, rfl, rfl, rfl⟩
    obtain ⟨p, hp, hsession, hproject, hrank⟩ := h.2 id t0 parent ht0 (hsame.1.trans hparent)
    obtain ⟨q, hq, hqsession, hqproject⟩ := hheld parent p hp
    exact ⟨q, hq, by rw [hqsession, hsession, hsame.2.1], by
      rw [hqproject, hproject, hsame.2.2], hrank⟩

theorem Formed.move (h : g.Formed) (htransits : g.Transits e s) :
    ((g.move e.scopeId s (stateFromKind e.kind)).record e).Formed where
  ids id t ht := by
    rw [getElem?_move] at ht
    split at ht
    · next heq => cases ht; exact (h.ids _ s htransits.scope).trans heq
    · exact h.ids id t ht
  leased id := by
    have hmem : e.scopeId ∈ g.scopes := mem_of_some htransits.scope
    show id ∈ g.leases ↔ id ∈ g.scopes.insert e.scopeId (moved s (stateFromKind e.kind))
    rw [h.leased, mem_insert_or]
    exact ⟨.inr, fun hid => hid.elim (fun heq => heq ▸ hmem) fun hid => hid⟩
  shapes := h.shapes
  flags id t ht := by
    rw [getElem?_move] at ht
    split at ht
    · cases ht; exact flagged_of_validTransition htransits.transition (h.flags _ s htransits.scope)
    · exact h.flags id t ht
  ranked := by
    obtain ⟨rank, hrank⟩ := h.ranked
    exact ⟨rank, hrank.move htransits.scope⟩
  revision := by
    exact isEmpty_insert _ _ _
  spent x hx := by
    rw [getElem?_move]
    have hless := order_lt_of_validTransition htransits.transition
    rcases mem_append.mp hx with hx | hx
    · obtain ⟨t, ht, hle⟩ := h.spent x hx
      split
      · next heq =>
        rw [← heq, htransits.scope] at ht
        cases ht
        exact ⟨_, rfl, le_trans hle (hless.le)⟩
      · exact ⟨t, ht, hle⟩
    · rw [mem_singleton.mp hx, if_pos rfl]
      exact ⟨_, rfl, le_refl _⟩

theorem Formed.apply (h : g.Formed) (hok : g.applyCommitted e = .ok g') : g'.Formed := by
  rcases applyCommitted_cases hok with rfl | ⟨hcreates, rfl⟩ | ⟨s, htransits, rfl⟩
  · exact h
  · exact h.create hcreates
  · exact h.move htransits

/-! ### What a run keeps -/

/-- Every scope goes on as it is, under its lease, or is further on its way to the
release; a request to stop is not taken back. -/
def Continues (g g' : ScopeRegistry) : Prop :=
  ∀ (id : ScopeId) s, g.scopes[id]? = some s → g'.leases[id]? = g.leases[id]? ∧
    ∃ next asked, g'.scopes[id]? = some { s with
        state := next, cancellationRequested := s.cancellationRequested || asked } ∧
      (next = s.state ∨ s.state.order < next.order)

theorem Continues.refl (g : ScopeRegistry) : g.Continues g :=
  fun _ s hs => ⟨rfl, s.state, false, by rw [hs, Bool.or_false], .inl rfl⟩

theorem Continues.trans {g''} (h : g.Continues g') (h' : g'.Continues g'') : g.Continues g'' := by
  intro id s hs
  obtain ⟨hlease, next, asked, hs', hnext⟩ := h id s hs
  obtain ⟨hlease', next', asked', hs'', hnext'⟩ := h' id _ hs'
  refine ⟨hlease'.trans hlease, next', asked || asked', by rw [hs'', Bool.or_assoc], ?_⟩
  rcases hnext with rfl | hnext
  · exact hnext'
  · rcases hnext' with rfl | hnext'
    · exact .inr hnext
    · exact .inr (hnext.trans hnext')

theorem continues_applyCommitted (h : g.applyCommitted e = .ok g') : g.Continues g' := by
  rcases applyCommitted_cases h with rfl | ⟨hcreates, rfl⟩ | ⟨t, htransits, rfl⟩
  · exact .refl g'
  · intro id s hs
    have hne : e.scopeId ≠ id := by
      rintro rfl
      exact hcreates.fresh (mem_of_some hs)
    refine ⟨?_, s.state, false, ?_, .inl rfl⟩
    · exact getElem?_insert_ne hne
    · rw [getElem?_create, if_neg hne, hs, Bool.or_false]
  · intro id s hs
    refine ⟨rfl, ?_⟩
    rw [getElem?_move]
    split
    · next heq =>
      rw [← heq, htransits.scope] at hs
      cases hs
      exact ⟨_, _, rfl, .inr (order_lt_of_validTransition htransits.transition)⟩
    · exact ⟨s.state, false, by rw [hs, Bool.or_false], .inl rfl⟩

/-! ### Rebuilding it -/

def parts (g : ScopeRegistry) : CompactedScopes :=
  g.scopes.map fun id s => (s, (g.leases[id]?).getD {})

theorem getElem?_parts (g : ScopeRegistry) (id : ScopeId) :
    g.parts[id]? = (g.scopes[id]?).map fun s => (s, (g.leases[id]?).getD {}) :=
  Std.ExtTreeMap.getElem?_map

theorem toList_parts (g : ScopeRegistry) :
    g.parts.toList = g.scopes.toList.map fun p => (p.1, p.2, (g.leases[p.1]?).getD {}) :=
  toList_map

theorem Formed.lease (h : g.Formed) (hs : g.scopes[id]? = some s) :
    ∃ l, g.leases[id]? = some l ∧ validateLeaseShape l = .ok () := by
  obtain ⟨l, hl⟩ := mem_iff_some.mp ((h.leased id).mpr (mem_of_some hs))
  exact ⟨l, hl, h.shapes id l hl⟩

theorem Formed.checkScope (h : g.Formed) (hs : g.scopes[id]? = some s) :
    g.parts.checkScope id (s, (g.leases[id]?).getD {}) = .ok () := by
  obtain ⟨l, hl, hshape⟩ := h.lease hs
  rw [CompactedScopes.checkScope, if_neg (not_not.mpr (h.ids id s hs)), hl, bind_unit_eq_ok]
  refine ⟨hshape, ?_⟩
  rw [if_neg]
  · cases hparent : s.parent with
    | none => rfl
    | some parent =>
      obtain ⟨rank, hrank⟩ := h.ranked
      obtain ⟨p, hp, hsession, hproject, hless⟩ := hrank.2 id s parent hs hparent
      have hne : parent ≠ id := fun heq => absurd hless (by rw [heq]; exact lt_irrefl _)
      simp [getElem?_parts, hp, hne, hsession, hproject]
  · have hflags := h.flags id s hs
    cases hflagged : s.state.flagged with
    | none => simp
    | some x => simp [hflags x hflagged]

/-- A chain of parents falls in rank, so it never comes back and the fuel lasts. -/
theorem Ranks.walk (h : g.Ranks rank) (rooted : Std.ExtTreeSet ScopeId) {fuel path}
    (hfuel : rank id < fuel) (hpath : ∀ x ∈ path, rank id < rank x) :
    ∃ path', g.parts.walk rooted fuel path (some id) = .ok path' := by
  induction fuel generalizing path id with
  | zero => omega
  | succ fuel ih =>
    rw [CompactedScopes.walk]
    split
    · exact ⟨path, rfl⟩
    rw [if_neg fun hmem => lt_irrefl _ (hpath id hmem)]
    cases hnext : (g.parts[id]?).bind fun e => e.1.parent with
    | none => exact ⟨_, by rw [CompactedScopes.walk]⟩
    | some parent =>
      rw [getElem?_parts, Option.bind_map, Option.bind_eq_some_iff] at hnext
      obtain ⟨s, hs, hparent⟩ := hnext
      obtain ⟨-, -, -, -, hless⟩ := h.2 id s parent hs hparent
      refine ih (by omega) ?_
      intro x hx
      rw [Std.ExtTreeSet.mem_insert, Std.LawfulEqOrd.compare_eq_iff_eq] at hx
      rcases hx with rfl | hx
      · exact hless
      · exact lt_trans hless (hpath x hx)

theorem size_parts (g : ScopeRegistry) : g.parts.size = g.scopes.size := Std.ExtTreeMap.size_map

theorem mem_parts (g : ScopeRegistry) (id : ScopeId) : id ∈ g.parts ↔ id ∈ g.scopes := by
  rw [mem_iff_isSome_getElem?, mem_iff_isSome_getElem?, getElem?_parts,
    Option.isSome_map]

theorem Formed.checkRooted (h : g.Formed) : ∃ rooted, g.parts.checkRooted = .ok rooted := by
  obtain ⟨rank, hrank⟩ := h.ranked
  refine exists_foldlM ?_ ∅
  intro rooted id hid
  rw [Std.ExtTreeMap.mem_keys, mem_parts] at hid
  have hfuel : rank id < g.parts.size + 1 := by
    rw [size_parts]
    exact Nat.lt_succ_of_lt (hrank.1 id hid)
  obtain ⟨path, hpath⟩ := hrank.walk rooted hfuel fun x hx => absurd hx Std.ExtTreeSet.not_mem_empty
  exact ⟨_, bind_eq_ok.mpr ⟨path, hpath, rfl⟩⟩

theorem scopes_reinstate (ps : List (ScopeId × (ExecutionScope × ScopeLeaseBinding)))
    (g : ScopeRegistry) :
    (ps.foldl reinstate g).scopes = (ps.map fun p => (p.1, p.2.1)).foldl store g.scopes ∧
      (ps.foldl reinstate g).leases = (ps.map fun p => (p.1, p.2.2)).foldl store g.leases ∧
      (ps.foldl reinstate g).committed = g.committed ∧
      (ps.foldl reinstate g).lastRevision = g.lastRevision := by
  induction ps generalizing g with
  | nil => exact ⟨rfl, rfl, rfl, rfl⟩
  | cons p ps ih => exact ih (g.reinstate p)

def partWeight (p : ScopeId × (ExecutionScope × ScopeLeaseBinding)) : Nat :=
  compactedScopeEntryBytes p.2.1.id p.2.1.parent p.2.1.session p.2.1.project p.2.1.deadline p.2.2

theorem snapshotBytes_reinstate (p : ScopeId × (ExecutionScope × ScopeLeaseBinding))
    (ps : List (ScopeId × (ExecutionScope × ScopeLeaseBinding))) (g : ScopeRegistry) :
    ((p :: ps).foldl reinstate g).snapshotBytes =
      max g.snapshotBytes scopeBlockOverhead + ((p :: ps).map partWeight).sum := by
  induction ps generalizing p g with
  | nil => exact (add_zero _).symm
  | cons q ps ih =>
    have hfirst : (g.reinstate p).snapshotBytes =
        max g.snapshotBytes scopeBlockOverhead + partWeight p := rfl
    have hsum : ((p :: q :: ps).map partWeight).sum =
        partWeight p + ((q :: ps).map partWeight).sum := rfl
    rw [foldl_cons, ih]
    omega

def carried (g : ScopeRegistry) : ScopeRegistry := { g with committed := [] }

theorem Formed.leases_eq (h : g.Formed) :
    g.scopes.map (fun id _ => (g.leases[id]?).getD {}) = g.leases := by
  refine Std.ExtTreeMap.ext_getElem? fun id => ?_
  rw [Std.ExtTreeMap.getElem?_map]
  cases hs : g.scopes[id]? with
  | none =>
    have hnot : id ∉ g.leases := by
      rw [h.leased, mem_iff_isSome_getElem?, hs]
      exact Bool.false_ne_true
    rw [Option.map_none, Std.ExtTreeMap.getElem?_eq_none hnot]
  | some =>
    obtain ⟨l, hl, -⟩ := h.lease hs
    rw [hl]
    rfl

/-- **A registry is rebuilt from its parts.** -/
theorem Formed.fromCompactedParts (h : g.Formed) (haccounted : ScopesAccounted g) :
    fromCompactedParts g.parts g.lastRevision = .ok g.carried := by
  obtain ⟨rooted, hrooted⟩ := h.checkRooted
  have hempty : g.parts.isEmpty = g.scopes.isEmpty := by
    rw [Std.ExtTreeMap.isEmpty_eq_size_beq_zero,
      Std.ExtTreeMap.isEmpty_eq_size_beq_zero, size_parts]
  have hchecks : g.parts.toList.forM (fun p => g.parts.checkScope p.1 p.2) = .ok () := by
    rw [forM_eq_ok]
    rintro ⟨id, entry⟩ hp
    rw [Std.ExtTreeMap.mem_toList_iff_getElem?_eq_some, getElem?_parts, Option.map_eq_some_iff]
      at hp
    obtain ⟨s, hs, rfl⟩ := hp
    exact h.checkScope hs
  rw [ScopeRegistry.fromCompactedParts, if_neg (by rw [hempty, h.revision]; simp), hchecks, hrooted]
  refine congrArg Except.ok ?_
  have hweights : g.parts.toList.map partWeight = g.scopes.toList.map (scopeWeight g.leases) := by
    rw [toList_parts, map_map]
    refine map_congr_left ?_
    rintro ⟨id, s⟩ hp
    rw [Std.ExtTreeMap.mem_toList_iff_getElem?_eq_some] at hp
    simp [partWeight, scopeWeight, h.ids id s hp]
  generalize hstart :
    ({ ScopeRegistry.empty with lastRevision := g.lastRevision } : ScopeRegistry) = start
  obtain ⟨hscopes, hleases, hcommitted, hrevision⟩ := scopes_reinstate g.parts.toList start
  have hbytes : (g.parts.toList.foldl reinstate start).snapshotBytes = g.snapshotBytes := by
    subst hstart
    cases hparts : g.parts.toList with
    | nil =>
      have hnone : g.scopes.isEmpty = true := by
        rw [← hempty, ← isEmpty_toList, hparts]
        rfl
      exact (haccounted.none hnone).symm
    | cons =>
      have hsome : g.scopes.isEmpty = false := by
        rw [← hempty, ← isEmpty_toList, hparts]
        rfl
      rw [snapshotBytes_reinstate, ← hparts, hweights, haccounted.bytes hsome]
      rfl
  have hscopes' : (g.parts.toList.foldl reinstate start).scopes = g.scopes := by
    rw [hscopes, toList_parts, map_map, ← hstart]
    exact (congrArg (foldl store ∅) (map_id _)).trans (foldl_store_toList _)
  have hleases' : (g.parts.toList.foldl reinstate start).leases = g.leases := by
    rw [hleases, toList_parts, map_map, ← hstart]
    have hlist : g.scopes.toList.map (fun p => (p.1, (g.leases[p.1]?).getD {})) =
        g.leases.toList := by
      have hmap : (g.scopes.map fun id _ => (g.leases[id]?).getD {}).toList =
          g.scopes.toList.map fun p => (p.1, (g.leases[p.1]?).getD {}) := toList_map
      rw [← hmap, h.leases_eq]
    exact (congrArg (foldl store ∅) hlist).trans (foldl_store_toList _)
  calc g.parts.toList.foldl reinstate start
      = ⟨(g.parts.toList.foldl reinstate start).scopes,
      (g.parts.toList.foldl reinstate start).committed,
      (g.parts.toList.foldl reinstate start).leases,
      (g.parts.toList.foldl reinstate start).lastRevision,
      (g.parts.toList.foldl reinstate start).snapshotBytes⟩ := rfl
    _ = g.carried := by
      rw [hscopes', hleases', hcommitted, hrevision, hbytes, ← hstart]
      rfl

end ScopeRegistry

/-- **Scopes only move on.**  Whatever calls a runtime takes, each of its scopes stays the
scope it was, under the same lease, and is in the state it was in or a later one; so a scope
that has ended is at most released. -/
theorem PtrRuntime.scopes_only_move_on {ρ τ : Type} (R : Rules ρ τ) (r : PtrRuntime ρ τ)
    (calls : List Call) : r.history.scopes.Continues (r.run R calls).history.scopes := by
  refine run_invariant (P := fun r' => r.history.scopes.Continues r'.history.scopes) ?_ ?_ calls
    (.refl _)
  · intro s s' hs hquiet
    rw [hquiet.scopes]
    exact hs
  · intro s c semantic hs _
    rw [completed_history]
    rcases scopes_applyCommitted (R := R) (s.begun c) c semantic with hsame | ⟨e, -, hok⟩
    · rw [hsame]
      exact hs
    · exact hs.trans (ScopeRegistry.continues_applyCommitted hok)

end Ptr.Runtime
