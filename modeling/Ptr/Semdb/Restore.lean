import Ptr.Semdb.Runs

/-!
# Export and restore

`export_state` writes the whole state as one delta, and `restore` applies it to an
empty host.  Every state of a run passes the checks of that delta except its size:
a state is built by any number of deltas, and one delta is bounded.
-/

namespace Ptr.Semdb

open Lib Std SemanticState SemanticHost SemanticDelta List ExtTreeMap

variable {s : SemanticState} {d : SemanticDelta} {h : SemanticHost} {bs : Bytes}

/-! ### Accepting a delta -/

theorem missing_eq_none (hheld : ∀ k ∈ d.upserts, ∀ j, s.dependencies.Feeds j k → j ∈ s.ground) :
    s.missing d = none := by
  refine findSome?_eq_none_iff.mpr fun k hk => ?_
  rw [Option.map_eq_none_iff, find?_eq_none]
  intro j hj
  simpa using hheld k (mem_keys.mp hk) j (ExtTreeSet.mem_toList.mp hj)

/-- A delta that passes every check is prepared. -/
theorem prepareDelta_of_checks (hencode : d.encode = .ok bs)
    (hacyclic : (h.state.stage d).next.dependencies.Acyclic)
    (hmissing : (h.state.evolved d).missing d = none) (hrev : h.state.revision.val + 1 < 2 ^ 64) :
    ∃ p, h.prepareDelta d = .ok p := by
  have hnext : ∃ next, h.state.nextRevision (h.state.evolved d) = .ok next := by
    have hadd : U64.checkedAdd h.state.revision 1 = some ⟨h.state.revision.val + 1, hrev⟩ :=
      dif_pos hrev
    rw [nextRevision, hadd]
    split
    · exact ⟨_, rfl⟩
    · exact ⟨_, rfl⟩
  obtain ⟨next, hnext⟩ := hnext
  rw [evolved] at hmissing hnext
  rw [prepareDelta, hencode]
  simp only [DependencyGraph.acyclic_iff.mpr hacyclic, hmissing, hnext]
  exact ⟨_, rfl⟩

theorem applyDelta_of_prepared {p} (hp : h.prepareDelta d = .ok p) :
    h.applyDelta d = (.ok (p.next.revision, p.affected), ⟨p.next, h.owner⟩) := by
  have hprep := prepareDelta_eq_ok hp
  have hfresh : ¬ (h.owner ≠ p.owner ∨ h.state.revision ≠ p.base) := by
    rw [hprep.owner, hprep.base]
    simp
  rw [applyDelta, hp]
  dsimp only
  rw [applyPrepared, if_neg hfresh]

/-! ### Restoring a state -/

theorem Cell.declare_new {ins} (hne : ins ≠ ∅) {c : Cell} (hnone : c.inputs = none) :
    (c.declare ins).inputs = some ins := by
  have hempty : ¬ ins.isEmpty = true := fun h => hne (ExtTreeSet.isEmpty_iff.mp h)
  have hdeclares : c.inputs ≠ some ins ∧ ¬ (c.inputs = none ∧ ins.isEmpty) := by
    rw [hnone]
    exact ⟨by simp, fun h => hempty h.2⟩
  rw [Cell.declare, if_pos hdeclares]
  exact if_neg hempty

/-- On an empty host, the exported delta stages the exported state. -/
theorem stage_export (hs : h.state.WellFormed) :
    (SemanticState.empty.stage h.exportState).next.ground = h.state.ground ∧
      (SemanticState.empty.stage h.exportState).next.dependencies = h.state.dependencies := by
  have hcell : ∀ k, ((SemanticState.empty.stage h.exportState).cell k).value = h.state.ground[k]? ∧
      ((SemanticState.empty.stage h.exportState).cell k).inputs =
      h.state.dependencies.inputs[k]? := by
    intro k
    have hupserts : h.exportState.upserts = h.state.ground := rfl
    have hdependencies : h.exportState.dependencies = h.state.dependencies.inputs := rfl
    rw [stage_cell, hupserts, hdependencies]
    cases h.state.ground[k]? with
    | none =>
      cases hd : h.state.dependencies.inputs[k]? with
      | none => exact ⟨rfl, rfl⟩
      | some ins =>
        exact ⟨Cell.value_declare, Cell.declare_new (hs.nonempty k ins hd) rfl⟩
    | some =>
      cases hd : h.state.dependencies.inputs[k]? with
      | none =>
        simp only [Option.elim]
        exact ⟨Cell.value_upsert, Cell.inputs_upsert⟩
      | some ins =>
        exact ⟨Cell.value_declare.trans Cell.value_upsert,
          Cell.declare_new (hs.nonempty k ins hd) Cell.inputs_upsert⟩
  refine ⟨ExtTreeMap.ext_getElem? fun k => (hcell k).1, ?_⟩
  have hinputs : (SemanticState.empty.stage h.exportState).next.dependencies.inputs =
      h.state.dependencies.inputs :=
    ExtTreeMap.ext_getElem? fun k => (hcell k).2
  exact congrArg DependencyGraph.mk hinputs

theorem evolved_export (hs : h.state.WellFormed) :
    (empty.evolved h.exportState).ground = h.state.ground := by
  refine ext_getElem? fun k => ?_
  rw [evolved, evict_ground, (stage_export hs).1]
  split
  · next hk => exact (getElem?_eq_none hk.2).symm
  · rfl

/-- A well-formed state that fits one delta is restored as it was. -/
theorem restore_export (hs : h.state.WellFormed) (hencode : h.exportState.encode = .ok bs)
    (owner : Nat) : restore owner h.state.revision h.exportState = .ok ⟨h.state, owner⟩ := by
  have hacyclic : ((new owner).state.stage h.exportState).next.dependencies.Acyclic := by
    show (empty.stage h.exportState).next.dependencies.Acyclic
    rw [(stage_export hs).2]
    exact hs.acyclic
  have hmissing : ((new owner).state.evolved h.exportState).missing h.exportState = none := by
    refine missing_eq_none fun k hk j hjk => ?_
    show j ∈ (empty.evolved h.exportState).ground
    have hdeps : (empty.stage h.exportState).next.dependencies = h.state.dependencies :=
      (stage_export hs).2
    rw [evolved_export hs]
    refine hs.held k hk j ?_
    rw [← hdeps]
    exact hjk
  have hrev : (0 : Revision).val + 1 < 2 ^ 64 := by decide
  obtain ⟨p, hp⟩ := prepareDelta_of_checks hencode hacyclic hmissing hrev
  have hprep := prepareDelta_eq_ok hp
  have hground : p.next.ground = h.state.ground := hprep.ground.trans (evolved_export hs)
  have hdeps : p.next.dependencies = h.state.dependencies :=
    hprep.dependencies.trans (stage_export hs).2
  rw [restore, applyDelta_of_prepared hp]
  dsimp only
  rw [hground, hdeps]
  rfl

/-! ### Hosts with one state -/

def SemanticHost.applyAll (h : SemanticHost) : List SemanticDelta → List CallResult × SemanticHost
  | [] => ([], h)
  | d :: ds =>
    let first := h.applyDelta d
    let rest := first.2.applyAll ds
    (first.1 :: rest.1, rest.2)

theorem prepareDelta_owner (s : SemanticState) (o o' : Nat) (d : SemanticDelta) :
    prepareDelta ⟨s, o⟩ d = (prepareDelta ⟨s, o'⟩ d).map fun p => { p with owner := o } := by
  simp only [prepareDelta]
  cases d.encode with
  | error => rfl
  | ok =>
    cases (s.stage d).next.dependencies.acyclic with
    | false => rfl
    | true =>
      cases ((s.stage d).next.evict d (s.affected (s.stage d))).missing d with
      | some => rfl
      | none =>
        cases s.nextRevision ((s.stage d).next.evict d (s.affected (s.stage d))) with
        | error => rfl
        | ok => rfl

theorem applyDelta_state {h h' : SemanticHost} (hstate : h.state = h'.state) (d : SemanticDelta) :
    (h.applyDelta d).1 = (h'.applyDelta d).1 ∧
      (h.applyDelta d).2.state = (h'.applyDelta d).2.state := by
  obtain ⟨s, o⟩ := h
  obtain ⟨s', o'⟩ := h'
  cases hstate
  have hsame := prepareDelta_owner s o o' d
  cases hp : prepareDelta ⟨s, o'⟩ d with
  | error =>
    rw [applyDelta, applyDelta, hsame, hp]
    exact ⟨rfl, rfl⟩
  | ok =>
    rw [hp] at hsame
    rw [applyDelta_of_prepared hp, applyDelta_of_prepared hsame]
    exact ⟨rfl, rfl⟩

theorem applyAll_state (ds : List SemanticDelta) {h h' : SemanticHost}
    (hstate : h.state = h'.state) :
    (h.applyAll ds).1 = (h'.applyAll ds).1 ∧
      (h.applyAll ds).2.state = (h'.applyAll ds).2.state := by
  induction ds generalizing h h' with
  | nil => exact ⟨rfl, hstate⟩
  | cons d ds ih =>
    obtain ⟨hres, hstate'⟩ := applyDelta_state hstate d
    obtain ⟨hrest, hlast⟩ := ih hstate'
    exact ⟨congrArg₂ cons hres hrest, hlast⟩

/-- A host of a run whose state fits one delta is restored from its export, also
through the bytes, with the same state and the same behaviour. -/
theorem export_restores (sha : Bytes → Digest) (calls : List Call) {h : SemanticHost}
    (hmem : h ∈ (World.empty.run calls).hosts) {bs : Bytes}
    (hencode : h.exportState.encode = .ok bs) (owner : Nat) :
    ∃ h', restore owner h.state.revision h.exportState = .ok h' ∧
      (h'.state.ground = h.state.ground ∧ h'.state.dependencies = h.state.dependencies ∧
        h'.state.revision = h.state.revision ∧
        h'.snapshot.canonicalDigest sha = h.snapshot.canonicalDigest sha) ∧
      (∃ d, decode bs = .ok d ∧ restore owner h.state.revision d = .ok h') ∧
      ∀ ds, (h'.applyAll ds).1 = (h.applyAll ds).1 ∧
      (h'.applyAll ds).2.state = (h.applyAll ds).2.state := by
  have hrestore := restore_export ((World.ok_empty.run calls).formed h hmem) hencode owner
  refine ⟨⟨h.state, owner⟩, hrestore, ⟨rfl, rfl, rfl, rfl⟩,
    ⟨h.exportState, ?_, hrestore⟩, fun ds => ?_⟩
  · exact decode_encode hencode
  · exact applyAll_state ds rfl

theorem export_restores_chain :
    ∃ h', restore 1 chained.state.revision chained.exportState = .ok h' ∧
      h'.state.ground = chained.state.ground := by
  have hmem : chained ∈ (World.empty.run [.create, .applyDelta 0 chain]).hosts := mem_cons_self
  have hvalid : chained.exportState.encode.isOk = true := by decide +kernel
  cases hencode : chained.exportState.encode with
  | error =>
    rw [hencode] at hvalid
    cases hvalid
  | ok =>
    obtain ⟨h', hrestore, hstate, -⟩ := export_restores blankHash _ hmem hencode 1
    exact ⟨h', hrestore, hstate.1⟩

/-! ### A state that no delta holds -/

def store (k : String) (bs : Bytes) : SemanticDelta where
  upserts := (∅ : ExtTreeMap String SemanticValue).insert k (.payload ⟨"blob", "pod", bs⟩)

theorem store_toList (k : String) (bs : Bytes) :
    (store k bs).upserts.toList = [(k, .payload ⟨"blob", "pod", bs⟩)] := rfl

theorem store_getElem? {j k} :
    (store k bs).upserts[j]? = if k = j then some (.payload ⟨"blob", "pod", bs⟩) else none := by
  simp [store, ExtTreeMap.getElem?_insert]

theorem store_encode {k} (hk : ValidKey k) (hlen : k.utf8ByteSize + bs.length ≤ 4000000) :
    ∃ out, (store k bs).encode = .ok out := by
  have hblob : ValidKey "blob" := by decide
  have hpod : ValidKey "pod" := by decide
  refine ⟨_, encode_eq_ok.mpr ⟨⟨rfl, ?_, ?_, ?_, ?_, ?_, ?_⟩, ?_, rfl⟩⟩
  · rw [← ExtTreeMap.length_toList, store_toList, length_singleton, maxDeltaItems]
    omega
  · intro p hp
    rw [store_toList, mem_singleton] at hp
    subst hp
    exact ⟨hk, hblob, hpod⟩
  · exact bot_le
  · exact forall_mem_nil _
  · exact bot_le
  · exact forall_mem_nil _
  · have hremovals : (store k bs).removals.toList = [] := rfl
    have hdependencies : (store k bs).dependencies.toList = [] := rfl
    have hblobSize : ("blob" : String).utf8ByteSize = 4 := rfl
    have hpodSize : ("pod" : String).utf8ByteSize = 3 := rfl
    rw [image, store_toList, hremovals, hdependencies]
    simp only [putCounted, putUpsert, putValue, magic, length_append, length_cons, length_nil,
      flatMap_cons, flatMap_nil, leBytes_length, putString_length, putBytes_length, maxDeltaBytes]
    omega

theorem not_feeds_empty {j k} : ¬ DependencyGraph.empty.Feeds j k := by
  exact ExtTreeSet.not_mem_empty

theorem reaches_empty {j k} (hpath : Relation.ReflTransGen DependencyGraph.empty.Feeds j k) :
    k = j := by
  cases hpath with
  | refl => rfl
  | tail _ hlast => exact absurd hlast not_feeds_empty

/-- Without declared inputs, a payload that fits is stored and nothing else changes. -/
theorem store_applied {k} (hk : ValidKey k) (hlen : k.utf8ByteSize + bs.length ≤ 4000000)
    (hnone : h.state.dependencies = .empty) (hrev : h.state.revision.val + 1 < 2 ^ 64) :
    ∃ p, h.prepareDelta (store k bs) = .ok p ∧ p.next.dependencies = .empty ∧
      ∀ j : String, p.next.ground[j]? = if k = j then some (.payload ⟨"blob", "pod", bs⟩)
      else h.state.ground[j]? := by
  obtain ⟨out, hencode⟩ := store_encode hk hlen
  have hcell : ∀ j, (h.state.stage (store k bs)).cell j =
      ((store k bs).upserts[j]?).elim id Cell.upsert (h.state.cell j) := by
    intro j
    rw [stage_cell]
    rfl
  have hdeps : (h.state.stage (store k bs)).next.dependencies = .empty := by
    refine congrArg DependencyGraph.mk (ExtTreeMap.ext_getElem? fun j => ?_)
    have hold : (h.state.cell j).inputs = none := by
      rw [SemanticState.cell, hnone]
      exact ExtTreeMap.getElem?_empty
    have hnew : ((h.state.stage (store k bs)).cell j).inputs = none := by
      rw [hcell]
      cases (store k bs).upserts[j]? with
      | none => exact hold
      | some => exact Cell.inputs_upsert.trans hold
    exact hnew.trans ExtTreeMap.getElem?_empty.symm
  have hacyclic : (h.state.stage (store k bs)).next.dependencies.Acyclic := by
    rw [hdeps]
    exact SemanticState.wellFormed_empty.acyclic
  have hmissing : (h.state.evolved (store k bs)).missing (store k bs) = none := by
    refine missing_eq_none fun i _ j hj => absurd hj ?_
    show ¬ (h.state.stage (store k bs)).next.dependencies.Feeds j i
    rw [hdeps]
    exact not_feeds_empty
  obtain ⟨p, hp⟩ := prepareDelta_of_checks hencode hacyclic hmissing hrev
  have hprep := prepareDelta_eq_ok hp
  refine ⟨p, hp, hprep.dependencies.trans hdeps, fun j => ?_⟩
  rw [hprep.ground]
  by_cases hj : k = j
  · subst hj
    have hstored : k ∈ (store k bs).upserts := ExtTreeMap.mem_insert_self
    rw [if_pos rfl, SemanticState.evolved, evict_ground, if_neg (fun hne => hne.2 hstored)]
    have hvalue := congrArg Cell.value (hcell k)
    rw [store_getElem?, if_pos rfl] at hvalue
    exact hvalue.trans Cell.value_upsert
  · rw [if_neg hj]
    have hunaffected : j ∉ h.state.affected (h.state.stage (store k bs)) := by
      intro haff
      obtain ⟨c, hc, hpath⟩ := mem_affected.mp haff
      rw [hnone, hdeps, or_self] at hpath
      obtain rfl := reaches_empty hpath
      rw [mem_changed_iff_cell, hcell, store_getElem?, if_neg hj] at hc
      cases hc
    exact congrArg Cell.value (evolved_unaffected hunaffected)

theorem two_le_flatMap {α : Type} (put : α → Bytes) {l : List α} {a b} (hne : a ≠ b) (ha : a ∈ l)
    (hb : b ∈ l) : (put a).length + (put b).length ≤ (l.flatMap put).length := by
  obtain ⟨l1, l2, rfl⟩ := append_of_mem ha
  rw [flatMap_append, flatMap_cons, length_append, length_append]
  have hone : ∀ {l : List α}, b ∈ l → (put b).length ≤ (l.flatMap put).length := by
    intro l hb
    obtain ⟨m1, m2, rfl⟩ := append_of_mem hb
    rw [flatMap_append, flatMap_cons, length_append, length_append]
    omega
  rcases mem_append.mp hb with hb | hb
  · have := hone hb
    omega
  rcases mem_cons.mp hb with rfl | hb
  · exact absurd rfl hne
  · have := hone hb
    omega

theorem restore_error {e} (hencode : h.exportState.encode = .error e) (owner : Nat) :
    restore owner h.state.revision h.exportState = .error e := by
  have hprepare : (new owner).prepareDelta h.exportState = .error e := by
    rw [prepareDelta, hencode]
    rfl
  have hremovals : ¬ (!h.exportState.removals.isEmpty) = true := by simp [exportState]
  rw [restore, if_neg hremovals, applyDelta, hprepare]

/-- Two payloads that each fit a delta, and do not fit one together. -/
theorem not_encoded_of_two (hlen : bs.length = 3000000)
    (ha : h.state.ground["a"]? = some (.payload ⟨"blob", "pod", bs⟩))
    (hb : h.state.ground["b"]? = some (.payload ⟨"blob", "pod", bs⟩)) (out : Bytes) :
    h.exportState.encode ≠ .ok out := by
  intro hencode
  have hfits := (encode_eq_ok.mp hencode).2.1
  have htwo := two_le_flatMap putUpsert (by simp)
    (mem_toList_iff_getElem?_eq_some.mpr ha) (mem_toList_iff_getElem?_eq_some.mpr hb)
  have hupserts : h.exportState.upserts = h.state.ground := rfl
  simp only [image, hupserts, putCounted, length_append] at hfits
  simp only [putUpsert, putValue, length_append, length_cons, putBytes_length] at htwo
  rw [maxDeltaBytes] at hfits
  omega

/-- A host takes two payloads one after the other, and its export is then refused. -/
theorem large_state_not_restored : ∃ calls, ∃ h ∈ (World.empty.run calls).hosts, ∀ owner, ∃ e,
    restore owner h.state.revision h.exportState = .error e := by
  obtain ⟨bs, hlen⟩ : ∃ bs : Bytes, bs.length = 3000000 := ⟨replicate 3000000 0, length_replicate⟩
  have hkey : ∀ k : String, k.utf8ByteSize = 1 → k.utf8ByteSize + bs.length ≤ 4000000 := by
    intro k hk
    omega
  obtain ⟨p, hp, hpdeps, hpground⟩ := store_applied (h := .new 0) (by decide) (hkey "a" rfl) rfl
    (show (0 : Revision).val + 1 < 2 ^ 64 by decide)
  have hfirst : ((new 0).applyDelta (store "a" bs)).2 = ⟨p.next, 0⟩ := by
    rw [applyDelta_of_prepared hp]
    rfl
  have hprev : p.next.revision.val + 1 < 2 ^ 64 := by
    have hmoves := World.moves_applyDelta (new 0) (store "a" bs)
    rw [hfirst] at hmoves
    have hzero : (new 0).state.revision.val = 0 := rfl
    rcases hmoves.eq_or_succ with heq | hsucc
    · have hrev := congrArg (fun h => h.state.revision.val) heq
      dsimp only at hrev
      omega
    · dsimp only at hsucc
      omega
  obtain ⟨q, hq, -, hqground⟩ := store_applied (h := ⟨p.next, 0⟩) (by decide)
    (hkey "b" rfl) hpdeps hprev
  refine ⟨[.create, .applyDelta 0 (store "a" bs), .applyDelta 0 (store "b" bs)], ⟨q.next, 0⟩, ?_,
    fun owner => ?_⟩
  · have hrun :
        (World.empty.run [.create, .applyDelta 0 (store "a" bs),
          .applyDelta 0 (store "b" bs)]).hosts =
        [(((new 0).applyDelta (store "a" bs)).2.applyDelta (store "b" bs)).2] := rfl
    rw [hrun, hfirst, applyDelta_of_prepared hq]
    exact mem_cons_self
  · cases hencode : (⟨q.next, 0⟩ : SemanticHost).exportState.encode with
    | error e => exact ⟨e, restore_error hencode owner⟩
    | ok out =>
      refine absurd hencode (not_encoded_of_two hlen ?_ ?_ out)
      · rw [hqground, if_neg (by decide), hpground, if_pos rfl]
      · rw [hqground, if_pos rfl]

end Ptr.Semdb
