import Ptr.Semdb.Invalidation

/-!
# Runs of semantic hosts

Hosts are made new or by `restore`, changes are prepared on any of them, and a
prepared change may be offered to any host at any later time.  In every run a
prepared change that its host still takes is the one its delta gives now
(`World.Ok`): a host's revision rises with every change of its state, so an equal
revision means an equal state.
-/

namespace Ptr.Semdb

open Lib SemanticHost List

/-- The hosts made so far, each with its position as identity, and the prepared
changes not used yet. -/
structure World where
  hosts : List SemanticHost
  prepared : List PreparedDelta

inductive Call
  | create
  | restore (revision : Revision) (d : SemanticDelta)
  | prepare (host : Nat) (d : SemanticDelta)
  | applyPrepared (host index : Nat)
  | applyDelta (host : Nat) (d : SemanticDelta)

namespace World

def empty : World := ⟨[], []⟩

/-- A call consumes the prepared change it is given, taken or refused. -/
def step (w : World) : Call → World
  | .create => { w with hosts := w.hosts ++ [.new w.hosts.length] }
  | .restore revision d =>
    match restore w.hosts.length revision d with
    | .ok h => { w with hosts := w.hosts ++ [h] }
    | .error _ => w
  | .prepare i d =>
    match w.hosts[i]? with
    | some h =>
      match h.prepareDelta d with
      | .ok p => { w with prepared := w.prepared ++ [p] }
      | .error _ => w
    | none => w
  | .applyPrepared i n =>
    match w.hosts[i]?, w.prepared[n]? with
    | some h, some p => ⟨w.hosts.set i (h.applyPrepared p).2, w.prepared.eraseIdx n⟩
    | _, _ => w
  | .applyDelta i d =>
    match w.hosts[i]? with
    | some h => { w with hosts := w.hosts.set i (h.applyDelta d).2 }
    | none => w

def run (w : World) (calls : List Call) : World := calls.foldl step w

/-- The invariant of runs.  The last part says that a prepared change whose host
has not moved on is the change that its delta gives now. -/
structure Ok (w : World) : Prop where
  owner : ∀ (i : Nat) h, w.hosts[i]? = some h → h.owner = i
  formed : ∀ h ∈ w.hosts, h.state.WellFormed
  prepared_formed : ∀ p ∈ w.prepared, p.next.WellFormed
  prepared_owner : ∀ p ∈ w.prepared, p.owner < w.hosts.length
  prepared_base : ∀ p ∈ w.prepared, ∀ h, w.hosts[p.owner]? = some h →
    p.base ≤ h.state.revision ∧ (p.base = h.state.revision → h.prepareDelta p.delta = .ok p)

structure Moves (h h' : SemanticHost) : Prop where
  owner : h'.owner = h.owner
  formed : h.state.WellFormed → h'.state.WellFormed
  state : Succeeds h.state h'.state

theorem moves_refl (h : SemanticHost) : Moves h h :=
  ⟨rfl, id, fun hne => absurd rfl (hne.elim id fun hd => absurd rfl hd), fun _ _ => rfl⟩

variable {h : SemanticHost} {i : Nat} {d : SemanticDelta} {p : PreparedDelta}

theorem Moves.eq_or_succ {h'} (hm : Moves h h') :
    h' = h ∨ h'.state.revision.val = h.state.revision.val + 1 := by
  by_cases hground : h'.state.ground = h.state.ground
  · by_cases hdeps : h'.state.dependencies = h.state.dependencies
    · left
      obtain ⟨state', owner'⟩ := h'
      have hstate := hm.state.same hground hdeps
      have howner := hm.owner
      dsimp only at hstate howner
      rw [hstate, howner]
    · exact .inr (hm.state.changed (.inr hdeps))
  · exact .inr (hm.state.changed (.inl hground))

theorem moves_of_prepares (hp : h.prepareDelta d = .ok p) :
    Moves h (h.applyPrepared p).2 := by
  have hprep := prepareDelta_eq_ok hp
  rw [applyPrepared]
  split
  · exact moves_refl h
  · exact ⟨rfl, hprep.wellFormed, hprep.revision⟩

theorem moves_applyDelta (h : SemanticHost) (d : SemanticDelta) : Moves h (h.applyDelta d).2 := by
  rw [applyDelta]
  cases hp : h.prepareDelta d with
  | error => exact moves_refl h
  | ok => exact moves_of_prepares hp

variable {w : World}

/-- A prepared change moves any host of the run as its own preparation would. -/
theorem Ok.moves_applyPrepared (hw : w.Ok) (hi : w.hosts[i]? = some h) (hp : p ∈ w.prepared) :
    Moves h
      (h.applyPrepared p).2 := by
  by_cases hstale : h.owner ≠ p.owner ∨ h.state.revision ≠ p.base
  · rw [applyPrepared, if_pos hstale]
    exact moves_refl h
  rw [not_or, not_not, not_not] at hstale
  have howner : w.hosts[p.owner]? = some h := by
    rw [← hstale.1, hw.owner i h hi]
    exact hi
  exact moves_of_prepares ((hw.prepared_base p hp h howner).2 hstale.2.symm)

theorem restore_eq_ok {owner revision} (hok : restore owner revision d = .ok h) :
    h.owner = owner ∧ h.state.WellFormed := by
  rw [restore, refuse_eq_ok] at hok
  have hmoves := moves_applyDelta (new owner) d
  have hformed := hmoves.formed SemanticState.wellFormed_empty
  have howner := hmoves.owner
  obtain ⟨-, hok⟩ := hok
  split at hok
  · cases hok
  next hres =>
  obtain rfl := Except.ok.inj hok
  rw [hres] at hformed howner
  exact ⟨howner, hformed.acyclic, hformed.nonempty, hformed.held⟩

theorem Ok.append (hw : w.Ok) (howner : h.owner = w.hosts.length) (hformed : h.state.WellFormed) :
    Ok { w with hosts := w.hosts ++ [h] } where
  owner := by
    intro i h' hi
    dsimp only at hi
    by_cases hlt : i < w.hosts.length
    · rw [getElem?_append_left hlt] at hi
      exact hw.owner i h' hi
    rw [getElem?_append_right (Nat.not_lt.mp hlt), getElem?_singleton] at hi
    split at hi
    · obtain rfl := Option.some.inj hi
      rw [howner]
      omega
    · cases hi
  formed := by
    intro h' hh'
    rcases mem_append.mp hh' with hh' | hh'
    · exact hw.formed h' hh'
    · rw [mem_singleton.mp hh']
      exact hformed
  prepared_formed := hw.prepared_formed
  prepared_owner := by
    intro p hp
    rw [length_append]
    exact Nat.lt_add_right _ (hw.prepared_owner p hp)
  prepared_base := by
    intro p hp h' hh'
    dsimp only at hh'
    rw [getElem?_append_left (hw.prepared_owner p hp)] at hh'
    exact hw.prepared_base p hp h' hh'

theorem Ok.prepare (hw : w.Ok) (hi : w.hosts[i]? = some h) (hp : h.prepareDelta d = .ok p) : Ok
    { w with prepared := w.prepared ++ [p] } := by
  have hprep := prepareDelta_eq_ok hp
  have hbound := (List.getElem?_eq_some_iff.mp hi).1
  have hmem := List.mem_of_getElem? hi
  have hpi : p.owner = i := hprep.owner.trans (hw.owner i h hi)
  have hsplit : ∀ q ∈ w.prepared ++ [p], q ∈ w.prepared ∨ q = p := by
    intro q hq
    rcases List.mem_append.mp hq with hq | hq
    · exact .inl hq
    · exact .inr (List.mem_singleton.mp hq)
  refine ⟨hw.owner, hw.formed, fun q hq => ?_, fun q hq => ?_, fun q hq h' hh' => ?_⟩
  · rcases hsplit q hq with hq | rfl
    · exact hw.prepared_formed q hq
    · exact hprep.wellFormed (hw.formed h hmem)
  · rcases hsplit q hq with hq | rfl
    · exact hw.prepared_owner q hq
    · rw [hpi]
      exact hbound
  · rcases hsplit q hq with hq | rfl
    · exact hw.prepared_base q hq h' hh'
    rw [hpi, hi] at hh'
    obtain rfl := Option.some.inj hh'
    exact ⟨Fin.le_of_eq hprep.base, fun _ => by rw [hprep.delta, hp]⟩

theorem Ok.erase (hw : w.Ok) (n : Nat) : Ok { w with prepared := w.prepared.eraseIdx n } :=
  have hsub := eraseIdx_subset (l := w.prepared) (k := n)
  ⟨hw.owner, hw.formed, fun p hp => hw.prepared_formed p (hsub hp),
    fun p hp => hw.prepared_owner p (hsub hp), fun p hp => hw.prepared_base p (hsub hp)⟩

/-- A host that moved has left the changes prepared before behind. -/
theorem Ok.set (hw : w.Ok) {h'} (hi : w.hosts[i]? = some h) (hmoves : Moves h h') :
    Ok { w with hosts := w.hosts.set i h' } := by
  have hbound := (List.getElem?_eq_some_iff.mp hi).1
  have hcases : ∀ j g, (w.hosts.set i h')[j]? = some g →
      (j = i ∧ g = h') ∨ (j ≠ i ∧ w.hosts[j]? = some g) := by
    intro j g hg
    by_cases hj : j = i
    · subst hj
      rw [List.getElem?_set_self hbound] at hg
      exact .inl ⟨rfl, (Option.some.inj hg).symm⟩
    · rw [List.getElem?_set_ne (Ne.symm hj)] at hg
      exact .inr ⟨hj, hg⟩
  refine ⟨fun j g hg => ?_, fun g hg => ?_, hw.prepared_formed, fun p hp => ?_, fun p hp g hg => ?_⟩
  · rcases hcases j g hg with ⟨rfl, rfl⟩ | ⟨-, hg⟩
    · exact hmoves.owner.trans (hw.owner j h hi)
    · exact hw.owner j g hg
  · obtain ⟨j, hj⟩ := List.getElem?_of_mem hg
    rcases hcases j g hj with ⟨-, rfl⟩ | ⟨-, hj⟩
    · exact hmoves.formed (hw.formed h (List.mem_of_getElem? hi))
    · exact hw.formed g (List.mem_of_getElem? hj)
  · rw [List.length_set]
    exact hw.prepared_owner p hp
  · rcases hcases p.owner g hg with ⟨hj, rfl⟩ | ⟨-, hg⟩
    · obtain ⟨hle, hsame⟩ := hw.prepared_base p hp h (hj ▸ hi)
      rcases hmoves.eq_or_succ with rfl | hsucc
      · exact ⟨hle, hsame⟩
      rw [Fin.le_def] at hle ⊢
      refine ⟨by omega, fun heq => ?_⟩
      rw [heq] at hle
      omega
    · exact hw.prepared_base p hp g hg

theorem Ok.step (hw : w.Ok) (call : Call) : (w.step call).Ok := by
  cases call with
  | create => exact hw.append rfl SemanticState.wellFormed_empty
  | restore =>
    rw [World.step]
    split
    · next h hok => exact hw.append (restore_eq_ok hok).1 (restore_eq_ok hok).2
    · exact hw
  | prepare =>
    rw [World.step]
    split
    · next h hi =>
      split
      · next p hp => exact hw.prepare hi hp
      · exact hw
    · exact hw
  | applyPrepared i n =>
    rw [World.step]
    split
    · next h p hi hn => exact (hw.set hi (hw.moves_applyPrepared hi (mem_of_getElem? hn))).erase n
    · exact hw
  | applyDelta i d =>
    rw [World.step]
    split
    · next h hi => exact hw.set hi (moves_applyDelta h d)
    · exact hw

theorem ok_empty : empty.Ok :=
  ⟨fun i h hi => by simp [empty] at hi, forall_mem_nil _, forall_mem_nil _, forall_mem_nil _,
    forall_mem_nil _⟩

theorem Ok.run (hw : w.Ok) (calls : List Call) : (w.run calls).Ok := by
  induction calls generalizing w with
  | nil => exact hw
  | cons call calls ih => exact ih (hw.step call)

/-! ### One host along a run -/

theorem getElem?_set_moves {hosts : List SemanticHost} {j} {g g' : SemanticHost}
    (hi : hosts[i]? = some h) (hj : hosts[j]? = some g) (hmoves : Moves g g') :
    ∃ h', (hosts.set j g')[i]? = some h' ∧ Moves h h' := by
  by_cases hij : i = j
  · subst hij
    rw [hi] at hj
    obtain rfl := Option.some.inj hj
    exact ⟨g', List.getElem?_set_self (List.getElem?_eq_some_iff.mp hi).1, hmoves⟩
  · exact ⟨h, by rw [List.getElem?_set_ne (Ne.symm hij), hi], moves_refl h⟩

theorem getElem?_append_moves {hosts} (hi : hosts[i]? = some h) (g : SemanticHost) :
    ∃ h', (hosts ++ [g])[i]? = some h' ∧ Moves h h' :=
  ⟨h, by rw [List.getElem?_append_left (List.getElem?_eq_some_iff.mp hi).1, hi], moves_refl h⟩

theorem Ok.step_host (hw : w.Ok) (hi : w.hosts[i]? = some h) (call : Call) :
    ∃ h', (w.step call).hosts[i]? = some h' ∧ Moves h h' := by
  have hstay : ∃ h', w.hosts[i]? = some h' ∧ Moves h h' := ⟨h, hi, moves_refl h⟩
  cases call with
  | create => exact getElem?_append_moves hi _
  | restore =>
    rw [World.step]
    split
    · exact getElem?_append_moves hi _
    · exact hstay
  | prepare =>
    rw [World.step]
    split
    · split <;> exact hstay
    · exact hstay
  | applyPrepared =>
    rw [World.step]
    split
    · next g p hj hn =>
        exact getElem?_set_moves hi hj (hw.moves_applyPrepared hj (mem_of_getElem? hn))
    · exact hstay
  | applyDelta j d =>
    rw [World.step]
    split
    · next g hj => exact getElem?_set_moves hi hj (moves_applyDelta g d)
    · exact hstay

/-- A host's revision never falls along a run, and where it is the same the host is
the same. -/
theorem Ok.run_host (hw : w.Ok) (hi : w.hosts[i]? = some h) (calls : List Call) :
    ∃ h', (w.run calls).hosts[i]? = some h' ∧ h.state.revision ≤ h'.state.revision ∧
      (h'.state.revision = h.state.revision → h' = h) := by
  induction calls generalizing w h with
  | nil => exact ⟨h, hi, Fin.le_refl _, fun _ => rfl⟩
  | cons call calls ih =>
    obtain ⟨h1, hi1, hmoves⟩ := hw.step_host hi call
    obtain ⟨h2, hi2, hle, hsame⟩ := ih (hw.step call) hi1
    refine ⟨h2, hi2, ?_⟩
    rcases hmoves.eq_or_succ with rfl | hsucc
    · exact ⟨hle, hsame⟩
    rw [Fin.le_def] at hle ⊢
    refine ⟨by omega, fun heq => ?_⟩
    rw [heq] at hle
    omega

end World

/-- Every host of every run is well formed. -/
theorem hosts_well_formed (calls : List Call) :
    ∀ h ∈ (World.empty.run calls).hosts, h.state.WellFormed :=
  (World.ok_empty.run calls).formed

theorem hosts_well_formed_chain :
    (World.empty.run [.create, .applyDelta 0 chain]).hosts = [chained] ∧
      chained.state.WellFormed :=
  ⟨rfl, hosts_well_formed [.create, .applyDelta 0 chain] chained mem_cons_self⟩

/-! ### Optimistic writes -/

theorem applyPrepared_error {h h' : SemanticHost} {p} {e : SemanticError}
    (hres : h.applyPrepared p = (.error e, h')) : h' = h := by
  rw [applyPrepared] at hres
  split at hres
  · exact (Prod.mk.inj hres).2.symm
  · cases (Prod.mk.inj hres).1

theorem applyDelta_error {h h' : SemanticHost} {d} {e : SemanticError}
    (hres : h.applyDelta d = (.error e, h')) : h' = h := by
  rw [applyDelta] at hres
  split at hres
  · exact (Prod.mk.inj hres).2.symm
  · exact applyPrepared_error hres

/-- A refused call changes nothing, a revision counts the changes of its host and
so names its state, and a prepared change that is taken is the change its delta
makes now. -/
theorem optimistic_writes (calls : List Call) {i : Nat} {h : SemanticHost}
    (hi : (World.empty.run calls).hosts[i]? = some h) :
    (∀ d e h', h.applyDelta d = (.error e, h') → h' = h) ∧
      (∀ p e h', h.applyPrepared p = (.error e, h') → h' = h) ∧
      (∀ call, ∃ h', ((World.empty.run calls).step call).hosts[i]? = some h' ∧
        (h'.state.ground ≠ h.state.ground ∨ h'.state.dependencies ≠ h.state.dependencies →
          h'.state.revision.val = h.state.revision.val + 1) ∧
        (h'.state.ground = h.state.ground → h'.state.dependencies = h.state.dependencies →
          h'.state.revision = h.state.revision)) ∧
      (∀ more h', ((World.empty.run calls).run more).hosts[i]? = some h' →
        h'.snapshot.revision = h.snapshot.revision → h'.snapshot = h.snapshot) ∧
      ∀ p ∈ (World.empty.run calls).prepared, ∀ rev aff h', h.applyPrepared p =
        (.ok (rev, aff), h') →
        h.applyDelta p.delta = (.ok (rev, aff), h') := by
  have hw := World.ok_empty.run calls
  refine ⟨fun d e h' => applyDelta_error, fun p e h' => applyPrepared_error, fun call => ?_,
    fun more h' hi' heq => ?_, fun p hp rev aff h' hok => ?_⟩
  · obtain ⟨h', hi', hmoves⟩ := hw.step_host hi call
    refine ⟨h', hi', hmoves.state.changed, fun hground hdeps => ?_⟩
    rw [hmoves.state.same hground hdeps]
  · obtain ⟨h'', hi'', -, hsame⟩ := hw.run_host hi more
    rw [hi'] at hi''
    obtain rfl := Option.some.inj hi''
    rw [hsame heq]
  · have hfresh : ¬ (h.owner ≠ p.owner ∨ h.state.revision ≠ p.base) := by
      intro hstale
      rw [applyPrepared, if_pos hstale] at hok
      cases (Prod.mk.inj hok).1
    rw [not_or, not_not, not_not] at hfresh
    have howner : (World.empty.run calls).hosts[p.owner]? = some h := by
      rw [← hfresh.1, hw.owner i h hi]
      exact hi
    rw [applyDelta, (hw.prepared_base p hp h howner).2 hfresh.2.symm]
    exact hok

/-- A change that is prepared can be applied, and is the change its delta makes. -/
theorem optimistic_writes_chain :
    let w := World.empty.run [.create, .prepare 0 chain]
    let h := new 0
    w.hosts[0]? = some h ∧ w.prepared ≠ [] ∧
      (∀ d e h', h.applyDelta d = (.error e, h') → h' = h) ∧
      (∀ p e h', h.applyPrepared p = (.error e, h') → h' = h) ∧
      (∀ call, ∃ h', (w.step call).hosts[0]? = some h' ∧
        (h'.state.ground ≠ h.state.ground ∨ h'.state.dependencies ≠ h.state.dependencies →
          h'.state.revision.val = h.state.revision.val + 1) ∧
        (h'.state.ground = h.state.ground → h'.state.dependencies = h.state.dependencies →
          h'.state.revision = h.state.revision)) ∧
      (∀ more h', (w.run more).hosts[0]? = some h' → h'.snapshot.revision = h.snapshot.revision →
        h'.snapshot = h.snapshot) ∧
      ∀ p ∈ w.prepared, ∃ rev aff h', h.applyPrepared p = (.ok (rev, aff), h') ∧
        h.applyDelta p.delta = (.ok (rev, aff), h') := by
  have hi : (World.empty.run [.create, .prepare 0 chain]).hosts[0]? = some (new 0) := by
    show ((World.mk [new 0] []).step (.prepare 0 chain)).hosts[0]? = _
    rw [World.step]
    split
    · split <;> rfl
    · rfl
  have hready : (World.empty.run [.create, .prepare 0 chain]).prepared.all
      (fun p => ((new 0).applyPrepared p).1.isOk) = true := by decide +kernel
  obtain ⟨hdelta, hprepared, hsteps, hnames, hnow⟩ :=
    optimistic_writes [.create, .prepare 0 chain] hi
  refine ⟨hi, by decide +kernel, hdelta, hprepared, hsteps, hnames, fun p hp => ?_⟩
  have hok := all_eq_true.mp hready p hp
  cases hres : (new 0).applyPrepared p with
  | mk result h' =>
    cases result with
    | error =>
      rw [hres] at hok
      cases hok
    | ok taken => exact ⟨taken.1, taken.2, h', rfl, hnow p hp _ _ _ hres⟩

end Ptr.Semdb
