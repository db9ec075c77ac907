import Mathlib.Data.Set.Insert
import Ptr.Raft.Numbering

/-!
# Membership follows the log

A member applies the membership changes of the log to the raft group and keeps
the configuration in its store, where a restart finds it next to the log that
made it.

* `votersAfter`: what a list of changes makes of a set of voters; the last change
  of a voter decides (`votersAfter_congr`), so changes that are applied a second
  time lead to the same voters if none of them is refused.
* `Grouped`: the changes a member applied, and behind them those that wait, are
  the changes of the log in order.
* `membership_follows_log`: over every life whose ready states keep the order,
  and a restart that finds a voter whom no retained change removes.
-/

namespace Ptr.Raft

open Lib Ledger Prog Stored Store Life Relation Member List

/-! ### Voters under changes -/

namespace MembershipChange

def voter : MembershipChange → U64
  | addVoter v => v
  | removeVoter v => v

def on (S : Set U64) : MembershipChange → Set U64
  | addVoter v => insert v S
  | removeVoter v => S \ {v}

theorem mem_on_of_ne {S} {cc : MembershipChange} {v} (h : cc.voter ≠ v) : v ∈ cc.on S ↔ v ∈ S := by
  cases cc with
  | addVoter w | removeVoter w =>
    have hne : v ≠ w := fun hv => h hv.symm
    simp [on, hne]

theorem mem_on_voter (S T : Set U64) (cc : MembershipChange) :
    cc.voter ∈ cc.on S ↔ cc.voter ∈ cc.on T := by
  cases cc <;> simp [on, voter]

end MembershipChange

def votersAfter (S : Set U64) (ccs : List MembershipChange) : Set U64 :=
  ccs.foldl MembershipChange.on S

variable {S T : Set U64} {ccs : List MembershipChange} {r : Outcome String Unit}
  {cc : MembershipChange} {data : Bytes}

theorem votersAfter_append (S : Set U64) (ccs ds : List MembershipChange) :
    votersAfter S (ccs ++ ds) = votersAfter (votersAfter S ccs) ds := foldl_append ..

theorem mem_votersAfter_of_unnamed {v} (h : ∀ cc ∈ ccs, cc.voter ≠ v) :
    v ∈ votersAfter S ccs ↔ v ∈ S := by
  induction ccs generalizing S with
  | nil => exact .rfl
  | cons cc ccs ih =>
    exact (ih fun d hd => h d (mem_cons_of_mem _ hd)).trans
      (MembershipChange.mem_on_of_ne (h cc mem_cons_self))

/-- **The last change of a voter decides**: only on voters that no change names
does the start matter. -/
theorem votersAfter_congr (h : ∀ v, (∀ cc ∈ ccs, cc.voter ≠ v) → (v ∈ S ↔ v ∈ T)) :
    votersAfter S ccs = votersAfter T ccs := by
  induction ccs generalizing S T with
  | nil => exact Set.ext fun v => h v fun cc hcc => absurd hcc not_mem_nil
  | cons cc ccs ih =>
    refine ih fun v hv => ?_
    by_cases hcc : cc.voter = v
    · rw [← hcc]
      exact MembershipChange.mem_on_voter S T cc
    · rw [MembershipChange.mem_on_of_ne hcc, MembershipChange.mem_on_of_ne hcc]
      exact h v fun d hd => (mem_cons.mp hd).elim (fun e => e ▸ hcc) (hv d)

def ConfState.voterSet (c : ConfState) : Set U64 := { v | v ∈ c.voters }

theorem RaftLib.voterSet_of_applied {lib : RaftLib} {c c'} (h : lib.applyConfChange c cc = .ok c') :
    c'.voterSet = cc.on c.voterSet := by
  cases cc with
  | addVoter id =>
    obtain ⟨d, hd, hmem⟩ := lib.add c id
    obtain rfl := Except.ok.inj (hd.symm.trans h)
    ext v
    exact (hmem v).trans or_comm
  | removeVoter id =>
    by_cases hlast : ∃ v ∈ c.voters, v ≠ id
    · obtain ⟨d, hd, hmem⟩ := lib.remove c id hlast
      obtain rfl := Except.ok.inj (hd.symm.trans h)
      ext v
      exact hmem v
    · obtain ⟨e, he⟩ := lib.remove_last c id fun v hv => by_contra fun hne => hlast ⟨v, hv, hne⟩
      rw [he] at h
      cases h

/-! ### The changes of a log -/

/-- A position of the log with the voters there. -/
structure Base where
  voters : Set U64
  position : Nat

section

variable (lib : RaftLib)

def changeOf (e : Entry) : Option MembershipChange :=
  if e.kind = .confChange then (lib.decodeChange e.data).toOption else none

def changesIn (es : List Entry) : List MembershipChange := es.filterMap (changeOf lib)

def votersAt (L : List Entry) (V : Base) (i : Nat) : Set U64 :=
  votersAfter V.voters (changesIn lib (seg L V.position i))

end

/-- What a waiting member takes of a list of entries at once. -/
def leading (es : List Entry) : List Entry := es.takeWhile fun e => !carriesLedgerEvent e

def keptBack (es : List Entry) : List Entry := es.dropWhile fun e => !carriesLedgerEvent e

variable {lib : RaftLib} {L : List Entry} {V : Base} {m m' : Member} {es : List Entry} {e : Entry}

@[simp] theorem changesIn_nil : changesIn lib [] = [] := rfl

theorem changesIn_append (es fs : List Entry) :
    changesIn lib (es ++ fs) = changesIn lib es ++ changesIn lib fs := filterMap_append ..

theorem changesIn_seg_subset {a b c d} (hca : c ≤ a) (hab : a ≤ b) (hbd : b ≤ d)
    (h : cc ∈ changesIn lib (seg L a b)) : cc ∈ changesIn lib (seg L c d) := by
  rw [← seg_append hca (le_trans hab hbd), ← seg_append hab hbd, changesIn_append, changesIn_append]
  exact mem_append_right _ (mem_append_left _ h)

theorem votersAt_seg {a b} (ha : V.position ≤ a) (hab : a ≤ b) :
    votersAt lib L V b = votersAfter (votersAt lib L V a) (changesIn lib (seg L a b)) := by
  rw [votersAt, votersAt, ← votersAfter_append, ← changesIn_append, seg_append ha hab]

theorem changesIn_cons_change (hk : e.kind = .confChange) (hcc : lib.decodeChange e.data = .ok cc) :
    changesIn lib (e :: es) = cc :: changesIn lib es := by
  rw [changesIn, filterMap_cons, changeOf, if_pos hk, hcc]
  rfl

theorem changesIn_cons_other (hk : e.kind ≠ .confChange) :
    changesIn lib (e :: es) = changesIn lib es := by
  rw [changesIn, filterMap_cons, changeOf, if_neg hk]
  rfl

/-! ### Taking entries -/

structure Regroups (lib : RaftLib) (m m' : Member) (A : List MembershipChange) (K : List Entry) :
    Prop where
  changes : m'.changes = m.changes ++ A
  deferred : m'.deferred = m.deferred ++ K
  voters : m'.group.voterSet = votersAfter m.group.voterSet A
  stored : m'.store.held.confState = m'.group
  fence : m'.store.held.fence ≤ m'.store.held.hardState.term

theorem Takes.regroups (h : Takes lib m es m') (hconf : m.store.held.confState = m.group)
    (hfence : m.store.held.fence ≤ m.store.held.hardState.term) :
    ∃ A K, Regroups lib m m' A K ∧ changesIn lib es = A ++ changesIn lib K ∧
      (m.installed = none → K = []) ∧
      (m.installed.isSome → K = keptBack es ∧ A = changesIn lib (leading es)) := by
  induction h with
  | nil =>
    refine ⟨[], [], ⟨by simp, by simp, rfl, hconf, hfence⟩, rfl, fun _ => rfl, fun _ => ⟨rfl, rfl⟩⟩
  | @change m m' e es cc state s hk hcc hst hs hheld h ih =>
    have hc := not_carries_of_change hk
    have hconf' : s.held.confState = state := (congrArg confState hheld :)
    have hfence' : s.held.fence ≤ s.held.hardState.term := by
      rw [hheld]
      exact max_le hfence (le_refl _)
    obtain ⟨A, K, hr, hch, hnone, hsome⟩ := ih hconf' hfence'
    refine ⟨cc :: A, K, ⟨?_, hr.deferred, ?_, hr.stored, hr.fence⟩, ?_, hnone, fun hi => ?_⟩
    · rw [hr.changes]
      exact (append_cons ..).symm
    · rw [hr.voters]
      exact congrArg (fun S => A.foldl MembershipChange.on S) (RaftLib.voterSet_of_applied hst)
    · rw [changesIn_cons_change hk hcc, hch]
      rfl
    · obtain ⟨hK, hA⟩ := hsome hi
      refine ⟨?_, ?_⟩
      · rw [keptBack, dropWhile_cons_of_pos (by simp [hc])]
        exact hK
      · rw [leading, takeWhile_cons_of_pos (by simp [hc]), changesIn_cons_change hk hcc, hA]
        rfl
  | @skip m m' e es hk hc h ih =>
    obtain ⟨A, K, hr, hch, hnone, hsome⟩ := ih hconf hfence
    refine ⟨A, K, hr, ?_, hnone, fun hi => ?_⟩
    · rw [changesIn_cons_other hk, hch]
    · obtain ⟨hK, hA⟩ := hsome hi
      refine ⟨?_, ?_⟩
      · rw [keptBack, dropWhile_cons_of_pos (by simp [hc])]
        exact hK
      · rw [leading, takeWhile_cons_of_pos (by simp [hc]), changesIn_cons_other hk, hA]
        rfl
  | @defer m e es hc hi =>
    refine ⟨[], e :: es, ⟨by simp, rfl, rfl, hconf, hfence⟩, rfl, fun hnone => ?_,
      fun _ => ⟨?_, ?_⟩⟩
    · rw [hnone] at hi
      cases hi
    · rw [keptBack, dropWhile_cons_of_neg (by simp [hc])]
    · rw [leading, takeWhile_cons_of_neg (by simp [hc])]
      rfl
  | @event m m' e es n ev hc hi hev hn h ih =>
    have hk : e.kind ≠ .confChange := by
      rw [carries_kind hc]
      exact EntryType.noConfusion
    obtain ⟨A, K, hr, hch, hnone, -⟩ := ih hconf hfence
    refine ⟨A, K, ⟨hr.1, hr.2, hr.3, hr.4, hr.5⟩, ?_, hnone, fun hsm => ?_⟩
    · rw [changesIn_cons_other hk, hch]
    · rw [hi] at hsm
      cases hsm

/-! ### Stored configurations -/

/-- **What a restart can rely on**: the store follows the log, no later term has
claimed it, and on voters whom no retained committed change names its
configuration is the one at the commit index. -/
structure Stored.Regrouped (lib : RaftLib) (L : List Entry) (V : Base) (s : Stored) : Prop
    extends Follows L s where
  base_le : V.position ≤ s.snapshot.index.val
  fence_le : s.fence ≤ s.hardState.term
  conf : ∀ v, (∀ cc ∈ changesIn lib (seg L s.snapshot.index.val s.hardState.commit.val),
    cc.voter ≠ v) → (v ∈ s.confState.voterSet ↔ v ∈ votersAt lib L V s.hardState.commit.val)

namespace Stored

variable {s t : Stored}

/-- Retained changes may be applied again, all or some of them. -/
theorem Regrouped.reconf (h : s.Regrouped lib L V) (hst : s.SameLog t)
    (hfence : t.fence ≤ t.hardState.term) {A}
    (hA : t.confState.voterSet = votersAfter s.confState.voterSet A)
    (hmem : ∀ cc ∈ A, cc ∈ changesIn lib (seg L s.snapshot.index.val s.hardState.commit.val)) :
    t.Regrouped lib L V where
  toFollows := h.toFollows.sameLog hst
  base_le := by rw [hst.snapshot]; exact h.base_le
  fence_le := hfence
  conf := by
    rw [hst.snapshot, hst.hardState]
    intro v hv
    rw [hA, mem_votersAfter_of_unnamed fun cc hcc => hv cc (hmem cc hcc)]
    exact h.conf v hv

theorem Regrouped.relog (h : s.Regrouped lib L V) (hf : t.Follows L)
    (hhs : t.hardState = s.hardState) (hsnap : t.snapshot = s.snapshot)
    (hconf : t.confState = s.confState) (hfence : t.fence = s.fence) : t.Regrouped lib L V where
  toFollows := hf
  base_le := by rw [hsnap]; exact h.base_le
  fence_le := by rw [hfence, hhs]; exact h.fence_le
  conf := by rw [hsnap, hhs, hconf]; exact h.conf

theorem Regrouped.recommit (h : s.Regrouped lib L V) (hf : t.Follows L)
    (hle : s.hardState.commit.val ≤ t.hardState.commit.val) (hsnap : t.snapshot = s.snapshot)
    (hconf : t.confState = s.confState) (hfence : t.fence ≤ t.hardState.term) :
    t.Regrouped lib L V where
  toFollows := hf
  base_le := by rw [hsnap]; exact h.base_le
  fence_le := hfence
  conf := by
    rw [hsnap, hconf]
    intro v hv
    rw [votersAt_seg (h.base_le.trans h.snapshot_le) hle, mem_votersAfter_of_unnamed
      fun cc hcc => hv cc (changesIn_seg_subset h.snapshot_le hle (le_refl _) hcc)]
    exact h.conf v fun cc hcc => hv cc (changesIn_seg_subset (le_refl _) h.snapshot_le hle hcc)

/-- **All retained changes again** lead to the voters at the commit index. -/
theorem Regrouped.replay (h : s.Regrouped lib L V) :
    votersAfter s.confState.voterSet
      (changesIn lib (seg L s.snapshot.index.val s.hardState.commit.val)) =
    votersAt lib L V s.hardState.commit.val := by
  have hat : votersAt lib L V s.hardState.commit.val = votersAfter _ _ :=
    votersAt_seg h.base_le h.snapshot_le
  rw [hat]
  refine votersAfter_congr fun v hv => ?_
  rw [h.conf v hv, hat, mem_votersAfter_of_unnamed hv]

end Stored

/-! ### Members -/

/-- **What holds of a member in use**: the changes it applied, and behind them
those that wait, are the changes of the log above its floor, and with those that
wait its voters are those of the log. -/
structure Grouped (lib : RaftLib) (L : List Entry) (V : Base) (m : Member) : Prop where
  store : m.store.held.Regrouped lib L V
  group : m.store.held.confState = m.group
  handed_le : m.handed ≤ m.store.held.hardState.commit.val
  snapshot_le : m.store.held.snapshot.index.val ≤ m.handed
  floor_le : m.floor ≤ m.handed
  order : m.changes ++ changesIn lib m.deferred = changesIn lib (seg L m.floor m.handed)
  voters : votersAfter m.group.voterSet (changesIn lib m.deferred) = votersAt lib L V m.handed
  idle : m.installed = none → m.deferred = []
  pending : ∀ snap, m.installed = some snap → snap.index = m.store.held.snapshot.index ∧
    m.store.held.applied = .snapshotPending ∧ m.floor = snap.index.val

/-- The next entries keep the order: a waiting member gets no change in front of
an event while others wait. -/
def Orderly (lib : RaftLib) (m : Member) (es : List Entry) : Prop :=
  m.installed.isSome → changesIn lib m.deferred = [] ∨ changesIn lib (leading es) = []

theorem Takes.retained (hm : Grouped lib L V m) (hes : es = seg L m.handed (m.handed + es.length))
    (hle : m.handed + es.length ≤ m.store.held.hardState.commit.val) (h : cc ∈ changesIn lib es) :
    cc ∈ changesIn lib
      (seg L m.store.held.snapshot.index.val m.store.held.hardState.commit.val) := by
  rw [hes] at h
  exact changesIn_seg_subset hm.snapshot_le (Nat.le_add_right _ _) hle h

/-- A member in use after entries whose changes `A` were applied and whose rest `K` waits. -/
theorem Grouped.of_takes {A K k} (h : Takes lib m es m') (hr : Regroups lib m m' A K)
    (hs : m.store.held.Regrouped lib L V) (hg : m.store.held.confState = m.group)
    (hA : ∀ cc ∈ A,
      cc ∈ changesIn lib (seg L m.store.held.snapshot.index.val m.store.held.hardState.commit.val))
    (hhanded : m.handed + k ≤ m.store.held.hardState.commit.val)
    (hsnap : m.store.held.snapshot.index.val ≤ m.handed + k) (hfloor : m.floor ≤ m.handed + k)
    (horder : m.changes ++ A ++ changesIn lib (m.deferred ++ K) =
      changesIn lib (seg L m.floor (m.handed + k)))
    (hvoters : votersAfter m.group.voterSet (A ++ changesIn lib (m.deferred ++ K)) =
      votersAt lib L V (m.handed + k)) (hidle : m.installed = none → m.deferred ++ K = [])
    (hpending : ∀ snap, m.installed = some snap → snap.index = m.store.held.snapshot.index ∧
      m.store.held.applied = .snapshotPending ∧ m.floor = snap.index.val) :
    Grouped lib L V (m'.advance k) := by
  have hu := h.untouched
  have hat : (m'.advance k).handed = m.handed + k := congrArg (· + k) hu.handed
  refine ⟨hs.reconf hu.sameLog hr.fence ?_ hA, hr.stored, ?_, ?_, ?_, ?_, ?_, ?_, ?_⟩
  · show m'.store.held.confState.voterSet = _
    rw [hr.stored, hr.voters, hg]
  · rw [hat]
    exact le_of_le_of_eq hhanded (congrArg (·.commit.val) hu.sameLog.hardState).symm
  · rw [hat]
    exact le_of_eq_of_le (congrArg (·.index.val) hu.sameLog.snapshot) hsnap
  · rw [hat]
    exact le_of_eq_of_le hu.floor hfloor
  · show m'.changes ++ changesIn lib m'.deferred = changesIn lib (seg L m'.floor _)
    rw [hat, hu.floor, hr.changes, hr.deferred, horder]
  · show votersAfter m'.group.voterSet (changesIn lib m'.deferred) = _
    rw [hat, hr.voters, hr.deferred, ← votersAfter_append, hvoters]
  · exact fun hi => hr.deferred.trans (hidle (hu.installed.symm.trans hi))
  · intro snap hi
    obtain ⟨h1, h2, h3⟩ := hpending snap (hu.installed.symm.trans hi)
    exact ⟨h1.trans (congrArg SnapshotMetadata.index hu.sameLog.snapshot).symm,
      hu.sameLog.applied.trans h2, hu.floor.trans h3⟩

/-- **Entries that follow the last ones**, in order. -/
theorem Grouped.take (hm : Grouped lib L V m) (h : Takes lib m es m')
    (hes : es = seg L m.handed (m.handed + es.length))
    (hle : m.handed + es.length ≤ m.store.held.hardState.commit.val) (hord : Orderly lib m es) :
    Grouped lib L V (m'.advance es.length) := by
  obtain ⟨A, K, hr, hch, hnone, hsome⟩ := h.regroups hm.group hm.store.fence_le
  -- what is applied now and what waited before do not pass each other
  have hcomm : A ++ changesIn lib m.deferred = changesIn lib m.deferred ++ A := by
    cases hi : m.installed with
    | none => rw [hm.idle hi, changesIn_nil, append_nil, nil_append]
    | some =>
      have hi' : m.installed.isSome := by rw [hi]; rfl
      rcases hord hi' with hd | hl
      · rw [hd, append_nil, nil_append]
      · rw [(hsome hi').2, hl, append_nil, nil_append]
  have hlater := Nat.le_add_right m.handed es.length
  refine .of_takes h hr hm.store hm.group
    (fun cc hcc => Takes.retained hm hes hle (hch ▸ mem_append_left _ hcc)) hle
    (le_trans hm.snapshot_le hlater) (le_trans hm.floor_le hlater) ?_ ?_ ?_ hm.pending
  · rw [← seg_append hm.floor_le hlater, changesIn_append, changesIn_append, ← hm.order, ← hes, hch,
      append_assoc, append_assoc, ← append_assoc A, hcomm, append_assoc]
  · rw [votersAt_seg (hm.store.base_le.trans hm.snapshot_le) hlater, ← hes, ← hm.voters, hch,
      changesIn_append, ← votersAfter_append, ← append_assoc, hcomm, append_assoc]
  · intro hi
    rw [hm.idle hi, hnone hi, append_nil]

/-- A member that stopped at a retained entry. -/
theorem Regrouped.halts (hs : m.store.held.Regrouped lib L V)
    (hg : m.store.held.confState = m.group) (h : HaltsAt lib m e m')
    (he : ∀ cc ∈ changesIn lib [e], cc ∈ changesIn lib
      (seg L m.store.held.snapshot.index.val m.store.held.hardState.commit.val)) :
    m'.store.held.Regrouped lib L V := by
  rcases h with rfl | ⟨cc, state, s, hk, hcc, hst, rfl, rfl | hheld⟩
  · exact hs
  · exact hs
  have hu : Untouched m ((m.regroup state cc).withStore s) := .regroup hheld
  refine hs.reconf (A := [cc]) hu.sameLog ?_ ?_ ?_
  · show s.held.fence ≤ s.held.hardState.term
    rw [hheld]
    exact max_le hs.fence_le (le_refl _)
  · show s.held.confState.voterSet = _
    rw [hheld, hg]
    exact RaftLib.voterSet_of_applied hst
  · rw [changesIn_cons_change hk hcc] at he
    exact fun d hd => he d (by simpa using hd)

/-! ### Calls -/

/-- A member in use, at the stored state `t` and the position `p`, with the
entries `D` waiting if a snapshot does (`w`). -/
structure Standing (lib : RaftLib) (L : List Entry) (V : Base) (t : Stored) (p : Nat)
    (D : List Entry) (w : Bool) (m : Member) : Prop where
  grouped : Grouped lib L V m
  sameLog : t.SameLog m.store.held
  handed : m.handed = p
  deferred : m.deferred = D
  waits : m.installed.isSome = w

def Left (lib : RaftLib) (L : List Entry) (m : Member) : Prop :=
  ∃ V, m.store.held.Regrouped lib L V

variable {t : Stored} {p : Nat} {D : List Entry} {w : Bool} {sha : Bytes → Digest} {rd : Ready}

theorem left_of_halt (hs : m.store.held.Regrouped lib L V) (hg : m.store.held.confState = m.group)
    {done rest}
    (hmem : ∀ cc ∈ changesIn lib (done ++ e :: rest),
      cc ∈ changesIn lib (seg L m.store.held.snapshot.index.val m.store.held.hardState.commit.val))
    {m₁} (ht : Takes lib m done m₁) (hh : HaltsAt lib m₁ e m') : Left lib L m' := by
  have hu := ht.untouched
  obtain ⟨A, K, hr, hch, -⟩ := ht.regroups hg hs.fence_le
  have hs1 : m₁.store.held.Regrouped lib L V := by
    refine hs.reconf hu.sameLog hr.fence (A := A) ?_ fun cc hcc => hmem cc ?_
    · rw [hr.stored, hr.voters, hg]
    · rw [changesIn_append, hch]
      exact mem_append_left _ (mem_append_left _ hcc)
  refine ⟨V, Regrouped.halts hs1 hr.stored hh fun cc hcc => ?_⟩
  rw [hu.sameLog.snapshot, hu.sameLog.hardState]
  refine hmem cc ?_
  rw [← singleton_append, changesIn_append, changesIn_append]
  exact mem_append_right _ (mem_append_left _ hcc)

theorem Standing.take (hes : es = seg L p (p + es.length))
    (hle : p + es.length ≤ t.hardState.commit.val)
    (hord : w = true → changesIn lib D = [] ∨ changesIn lib (leading es) = []) :
    Triple (Standing lib L V t p D w) (takeCommitted lib es)
      (fun _ => Standing lib L V t (p + es.length) (if w then D ++ keptBack es else D) w)
      (Left lib L) := by
  refine triple_takeCommitted ?_ ?_
  · rintro m m1 ⟨hm, ht, rfl, rfl, hw⟩ htk
    have hu := htk.untouched
    refine ⟨hm.take htk hes (ht.hardState ▸ hle) (fun hi => hord (hw ▸ hi)), ht.trans hu.sameLog,
      congrArg (· + es.length) hu.handed, ?_, (congrArg Option.isSome hu.installed).trans hw⟩
    obtain ⟨A, K, hre, -, hnone, hsome⟩ := htk.regroups hm.group hm.store.fence_le
    show m1.deferred = _
    rw [hre.deferred]
    cases w with
    | true => rw [if_pos rfl, (hsome hw).1]
    | false =>
      rw [if_neg Bool.false_ne_true, hnone (Option.not_isSome_iff_eq_none.mp (by simp [hw])),
        append_nil]
  · rintro m done e rest m1 m' ⟨hm, ht, rfl, rfl, -⟩ rfl htk hh
    exact left_of_halt hm.store hm.group
      (fun cc hcc => Takes.retained hm hes (ht.hardState ▸ hle) hcc) htk hh

theorem Grouped.withStore (hm : Grouped lib L V m) {s} (hs : s.held.Regrouped lib L V)
    (hconf : s.held.confState = m.store.held.confState)
    (hcommit : m.store.held.hardState.commit.val ≤ s.held.hardState.commit.val)
    (hsnap : s.held.snapshot = m.store.held.snapshot)
    (happ : s.held.applied = m.store.held.applied) :
    Grouped lib L V (m.withStore s) where
  store := hs
  group := hconf.trans hm.group
  handed_le := le_trans hm.handed_le hcommit
  snapshot_le := le_trans (le_of_eq (congrArg (·.index.val) hsnap)) hm.snapshot_le
  floor_le := hm.floor_le
  order := hm.order
  voters := hm.voters
  idle := hm.idle
  pending := fun snap hi => by
    obtain ⟨h1, h2, h3⟩ := hm.pending snap hi
    exact ⟨h1.trans (congrArg SnapshotMetadata.index hsnap).symm, happ.trans h2, h3⟩

theorem Standing.commit {hard} {next : Stored → HardState} (ha : (t.withHardState hard).Agrees L)
    (hmono : t.hardState.commit.val ≤ hard.commit.val)
    (hnext : ∀ s : Stored, s.hardState = t.hardState → next s = hard) :
    Triple (Standing lib L V t p D w) (onStore (persist fun s => s.withHardState (next s)))
      (fun _ => Standing lib L V (t.withHardState hard) p D w) (Left lib L) := by
  refine triple_persist (fun x hx => ⟨V, hx.grouped.store⟩) ?_
  rintro x s hx ⟨hfence, hheld⟩
  have hst := hx.sameLog
  simp only [hnext _ hst.hardState] at hfence hheld
  have hf : (x.store.held.withHardState hard).Follows L :=
    hx.grouped.store.toFollows.recommit (ha.sameLog (hst.withHardState _))
  have hmono' : x.store.held.hardState.commit.val ≤ s.held.hardState.commit.val := by
    rw [hheld, hst.hardState]
    exact hmono
  have hs : s.held.Regrouped lib L V := by
    refine hx.grouped.store.recommit (hheld ▸ hf.claim _) hmono' (congrArg snapshot hheld :)
      (congrArg confState hheld :) ?_
    rw [hheld]
    exact max_le hfence (le_refl _)
  refine ⟨⟨V, hs⟩, hx.grouped.withStore hs (congrArg confState hheld :) hmono'
    (congrArg snapshot hheld :) (congrArg applied hheld :), ?_, hx.handed, hx.deferred, hx.waits⟩
  exact hheld ▸ (hst.withHardState _).claim _

/-- **When a ready state keeps the order of changes**: a snapshot comes when no
change waits, and a waiting member gets no change in front of an event while
others wait. -/
structure InOrder (lib : RaftLib) (m : Member) (rd : Ready) : Prop where
  snapshot : rd.snapshot.isSome → changesIn lib m.deferred = []
  committed : (m.installed.isSome || rd.snapshot.isSome) = true →
    changesIn lib m.deferred = [] ∨ changesIn lib (leading rd.committedEntries) = []
  light : (m.installed.isSome || rd.snapshot.isSome) = true →
    changesIn lib (m.deferred ++ keptBack rd.committedEntries) = [] ∨
      changesIn lib (leading rd.lightEntries) = []

section

variable (hd : Delivers L m rd)
include hd

/-- **A snapshot** that comes when no change waits is the base of what follows. -/
theorem Standing.start (hm : Grouped lib L V m) (ho : InOrder lib m rd) :
    Triple (· = m) (forSome (installSnapshot sha) rd.snapshot)
      (fun _ x => ∃ V, Standing lib L V (rd.base m) (rd.start m) m.deferred
        (m.installed.isSome || rd.snapshot.isSome) x) (Left lib L) := by
  rw [Ready.base, Ready.start]
  refine triple_forSome (fun hs => ?_) fun snap hs => ?_
  · rintro _ rfl
    rw [hs]
    exact ⟨V, hm, .refl _, rfl, rfl, (Bool.or_false _).symm⟩
  have hhigh := (hd.snapshot snap hs).2
  have hdef := ho.snapshot (by rw [hs]; rfl)
  rw [hs, Option.isSome_some, Bool.or_true]
  refine triple_installSnapshot (by rintro _ rfl; exact ⟨V, hm.store⟩) ?_
  rintro _ s rfl ⟨hf, hheld⟩
  let W : Base := ⟨snap.confState.voterSet, snap.index.val⟩
  have hat : votersAt lib L W snap.index.val = snap.confState.voterSet := by
    rw [votersAt, seg_self]
    rfl
  have hreg : s.held.Regrouped lib L W := by
    rw [hheld]
    refine ⟨(follows_install hhigh).claim _, le_refl _, max_le hf (le_refl _), fun v _ => ?_⟩
    exact Set.ext_iff.mp hat.symm v
  refine ⟨⟨W, hreg⟩, W, ⟨hreg, (congrArg confState hheld :),
    le_of_eq (congrArg (·.hardState.commit.val) hheld :).symm,
    le_of_eq (congrArg (·.snapshot.index.val) hheld :), le_refl _, ?_, ?_, ?_, ?_⟩, ?_,
      rfl, rfl, rfl⟩
  · exact hdef.trans (congrArg (changesIn lib) (seg_self ..).symm)
  · exact (congrArg (votersAfter _) hdef).trans hat.symm
  · intro hnone
    cases hnone
  · intro snap' hi
    cases hi
    exact ⟨(congrArg (·.snapshot.index) hheld :).symm, (congrArg applied hheld :), rfl⟩
  · exact hheld ▸ SameLog.claim (.refl _) _

theorem Standing.write :
    Triple (Standing lib L V (rd.base m) p D w) (appendEntries rd.entries)
      (fun _ => Standing lib L V (rd.written m) p D w) (Left lib L) := by
  rw [Ready.written]
  refine triple_appendEntries (fun hes x hx => by rwa [hes]) ?_ ?_
  · intro x s hx hheld
    exact ⟨V, hheld ▸ hx.grouped.store⟩
  · intro first rest x s n hes hx hcheck hheld
    have hs := hx.grouped.store
    have hst := hx.sameLog
    have hcommit : x.store.held.hardState.commit.val < first.index.val := by
      rw [hst.hardState]
      exact hd.fresh first (hes ▸ mem_cons_self)
    have hs' : s.held.Regrouped lib L V :=
      hs.relog (hheld ▸ hs.toFollows.overwrite n (hes ▸ hcheck) hcommit)
        (congrArg hardState hheld :) (congrArg snapshot hheld :) (congrArg confState hheld :)
        (congrArg fence hheld :)
    refine ⟨⟨V, hs'⟩, fun hall => ?_⟩
    rw [hall] at hheld
    refine ⟨hx.grouped.withStore hs' (congrArg confState hheld :)
      (le_of_eq (congrArg (·.hardState.commit.val) hheld :).symm) (congrArg snapshot hheld :)
      (congrArg applied hheld :), ?_, hx.handed, hx.deferred, hx.waits⟩
    rw [hes] at hheld ⊢
    exact hheld ▸ hst.keep _ ▸ hst.overwrite _ _

theorem Standing.decide :
    Triple (Standing lib L V (rd.written m) p D w)
      (forSome (fun h => onStore (setHardState h)) rd.hardState)
      (fun _ => Standing lib L V (rd.decided m) p D w) (Left lib L) := by
  have ha := hd.decided
  have hmono := hd.commit_mono
  have hcommit : (rd.written m).hardState = (rd.base m).hardState := by
    rw [Ready.written]
    cases rd.entries <;> rfl
  rw [Ready.decided] at ha hmono ⊢
  refine triple_forSome (fun hs x hx => by rwa [hs]) fun hard hs => ?_
  rw [hs] at ha hmono ⊢
  rw [← hcommit] at hmono
  exact Standing.commit ha hmono fun _ _ => rfl

theorem Standing.settle :
    Triple (Standing lib L V (rd.decided m) p D w)
      (forSome (fun c => onStore (setCommit c)) rd.lightCommit)
      (fun _ => Standing lib L V (rd.settled m) p D w) (Left lib L) := by
  have ha := hd.settled
  have hmono := hd.light_mono
  rw [Ready.settled] at ha hmono ⊢
  refine triple_forSome (fun hs x hx => by rwa [hs]) fun c hs => ?_
  rw [hs] at ha hmono ⊢
  exact Standing.commit ha hmono fun s hs => by rw [hs]

/-- **A ready state** applies the changes of the log in order. -/
theorem Grouped.handleReady (hm : Grouped lib L V m) (ho : InOrder lib m rd) :
    Triple (· = m) (handleReady lib sha rd) (fun _ x => ∃ V, Grouped lib L V x) (Left lib L) := by
  refine triple_bind (Standing.start hd hm ho) fun _ => triple_exists fun V => ?_
  refine triple_bind (Standing.write hd) fun _ => ?_
  refine triple_bind (Standing.decide hd) fun _ => ?_
  refine triple_bind (Standing.take hd.committed hd.committed_le ho.committed) fun _ => ?_
  refine triple_bind (Standing.settle hd) fun _ => ?_
  refine (Standing.take hd.light hd.light_le fun hw => ?_).weaken (fun _ h => h)
    (fun _ _ h => ⟨V, h.grouped⟩) fun _ h => h
  rw [if_pos hw]
  exact ho.light hw

end

def Life.Grouped (lib : RaftLib) (L : List Entry) : Life → Prop :=
  Life.Keeps (fun m => ∃ V, Raft.Grouped lib L V m) (Left lib L) fun s => ∃ V, s.Regrouped lib L V

theorem lasting_grouped :
    Lasting (fun m => ∃ V, Grouped lib L V m) (Left lib L) fun s => ∃ V, s.Regrouped lib L V :=
  ⟨fun hm => hm.imp fun _ h => h.store, fun h => h, fun h => h⟩

theorem Grouped.applyDeferred (hm : Grouped lib L V m) {snap} (hi : m.installed = some snap) {n s}
    (hs : s.held.Regrouped lib L V) (hsnap : s.held.snapshot = m.store.held.snapshot)
    (hhard : s.held.hardState = m.store.held.hardState)
    (hconf : s.held.confState = m.store.held.confState) :
    Triple (· = { m.withStore s with appliedEvents := n, installed := none }) (applyDeferred lib)
      (fun _ x => ∃ V, Grouped lib L V x) (Left lib L) := by
  rintro _ rfl
  obtain ⟨hidx, -, hfloor⟩ := hm.pending snap hi
  have hg : s.held.confState = m.group := hconf.trans hm.group
  have hret : ∀ cc ∈ changesIn lib m.deferred, cc ∈ changesIn lib
      (seg L s.held.snapshot.index.val s.held.hardState.commit.val) := by
    intro cc hcc
    have hmem : cc ∈ changesIn lib (seg L m.floor m.handed) := hm.order ▸ mem_append_right _ hcc
    rw [hsnap, hhard, ← hidx]
    exact changesIn_seg_subset (le_of_eq hfloor.symm) hm.floor_le hm.handed_le hmem
  refine leads_get_bind (leads_modify_bind (leads_applyCommitted.imp ?_ ?_))
  · intro _ m' ht
    obtain ⟨A, K, hre, hch, hnone, -⟩ := ht.regroups hg hs.fence_le
    obtain rfl : K = [] := hnone rfl
    replace hch : changesIn lib m.deferred = A := hch.trans (append_nil A)
    refine ⟨V, .of_takes (k := 0) ht hre hs hg
      (fun cc hcc => hret cc (hch ▸ hcc)) ?_ ?_ hm.floor_le ?_ ?_ (fun _ => rfl) nofun⟩
    · exact le_of_le_of_eq hm.handed_le (congrArg (·.commit.val) hhard).symm
    · exact le_of_eq_of_le (congrArg (·.index.val) hsnap) hm.snapshot_le
    · rw [← hch]
      exact (append_nil _).trans hm.order
    · rw [← hch]
      exact (congrArg _ (append_nil _)).trans hm.voters
  · rintro _ m' ⟨done, e, rest, m2, heq, ht, hh⟩
    rw [show m.deferred = done ++ e :: rest from heq] at hret
    exact left_of_halt hs hg hret ht hh

theorem Grouped.account (hm : Grouped lib L V m) {snap} (hi : m.installed = some snap) {n s}
    (hn : n.val = eventCount L snap.index.val) (hheld : Replaced (·.withApplied n) m.store s) :
    s.held.Regrouped lib L V := by
  have hacc : (m.store.held.withApplied n).Follows L :=
    hm.store.toFollows.account (by rw [hn, (hm.pending snap hi).1])
  rw [hheld.2]
  exact hm.store.recommit (hacc.claim _) (le_refl _) rfl rfl (max_le hheld.1 (le_refl _))

/-- A snapshot of the member's own state, at a position it was handed. -/
theorem Grouped.compacted (hm : Grouped lib L V m) {index floor s} (hle : index.val ≤ m.handed)
    (h : Compacted index data floor m.store s) : Grouped lib L V (m.withStore s) := by
  obtain ⟨term, events, hcheck, hf, hheld⟩ := h
  have hpend := Stored.checkRecord_counted hcheck
  have hi : m.installed = none := by
    cases hi : m.installed with
    | none => rfl
    | some snap => exact absurd (hm.pending snap hi).2.1 hpend
  have hvoters : m.store.held.confState.voterSet = votersAt lib L V m.handed := by
    rw [hm.group, ← hm.voters, hm.idle hi]
    rfl
  have hfol : s.held.Follows L := hheld ▸ (hm.store.toFollows.compact hcheck).claim _
  have hs : s.held.Regrouped lib L V := by
    refine ⟨hfol, ?_, ?_, fun v hv => ?_⟩
    · rw [hheld]
      exact hm.store.base_le.trans (checkRecord_snapshot_le hcheck)
    · rw [hheld]
      exact max_le hf (le_refl _)
    · rw [hheld] at hv ⊢
      show v ∈ m.store.held.confState.voterSet ↔
        v ∈ votersAt lib L V m.store.held.hardState.commit.val
      rw [hvoters, votersAt_seg (hm.store.base_le.trans hm.snapshot_le) hm.handed_le,
        mem_votersAfter_of_unnamed fun cc hcc => hv cc
          (changesIn_seg_subset hle hm.handed_le (le_refl _) hcc)]
  refine ⟨hs, ?_, ?_, ?_, hm.floor_le, hm.order, hm.voters, hm.idle, ?_⟩
  · exact (congrArg Stored.confState hheld :).trans hm.group
  · exact le_of_le_of_eq hm.handed_le (congrArg (·.hardState.commit.val) hheld :).symm
  · exact le_of_eq_of_le (congrArg (·.snapshot.index.val) hheld :) hle
  · intro snap hsnap
    rw [show m.installed = some snap from hsnap] at hi
    cases hi

theorem Grouped.record (hm : ∃ V, Grouped lib L V m) {index floor} (hle : index.val ≤ m.handed) :
    (Store.recordSnapshotWithin index data floor).Leads m.store
      (fun _ s => ∃ V, Grouped lib L V (m.withStore s))
      fun _ s => ∃ V, Grouped lib L V (m.withStore s) := by
  refine leads_recordSnapshotWithin.imp (fun _ _ h => hm.imp fun _ hm => hm.compacted hle h) ?_
  rintro _ s (rfl | h)
  · exact hm
  · exact hm.imp fun _ hm => hm.compacted hle h

/-! ### Restarts -/

theorem Stored.Regrouped.committedEntries {s : Stored} (hs : s.Regrouped lib L V) :
    changesIn lib s.committedEntries =
      changesIn lib (seg L s.snapshot.index.val s.hardState.commit.val) := by
  rw [hs.toFollows.committedEntries]

theorem Stored.Follows.snapshot_add {s : Stored} (hs : s.Follows L) :
    s.snapshot.index.val + s.committedEntries.length = s.hardState.commit.val := by
  have := hs.snapshot_le
  rw [hs.committedEntries, seg_length hs.commit_le]
  omega

/-- A restart behind a snapshot nobody accounted for: everything retained waits. -/
theorem grouped_wait {s : Stored} (hs : s.Regrouped lib L V) (hi : (boot sha s).installed.isSome) :
    Grouped lib L V (advance s.committedEntries.length
      { boot sha s with deferred := s.committedEntries }) := by
  have hadd := hs.toFollows.snapshot_add
  have hhanded : (advance s.committedEntries.length
      { boot sha s with deferred := s.committedEntries }).handed = s.hardState.commit.val := hadd
  refine ⟨hs, rfl, hhanded.le, le_of_le_of_eq hs.snapshot_le hhanded.symm,
    le_of_le_of_eq hs.snapshot_le hhanded.symm, ?_, ?_, ?_, ?_⟩
  · rw [hhanded]
    exact hs.committedEntries
  · rw [hhanded, ← hs.replay, ← hs.committedEntries]
    rfl
  · intro hnone
    rw [show (boot sha s).installed = none from hnone] at hi
    cases hi
  · intro snap hsnap
    replace hsnap : s.pendingSnapshot sha = some snap := hsnap
    rw [pendingSnapshot] at hsnap
    cases ha : s.applied with
    | counted =>
      rw [ha] at hsnap
      cases hsnap
    | snapshotPending =>
      rw [ha] at hsnap
      cases hsnap
      exact ⟨rfl, ha, rfl⟩

/-- **The retained changes are applied again** on a configuration that already
has them, and lead to the voters of the log. -/
theorem grouped_retake {s : Stored} (hs : s.Regrouped lib L V) (hi : (boot sha s).installed = none)
    (h : Takes lib (boot sha s) s.committedEntries m') :
    Grouped lib L V (m'.advance s.committedEntries.length) := by
  have hadd : (boot sha s).handed + s.committedEntries.length = s.hardState.commit.val :=
    hs.toFollows.snapshot_add
  obtain ⟨A, K, hre, hch, hnone, -⟩ := h.regroups rfl hs.fence_le
  obtain rfl := hnone hi
  rw [changesIn_nil, append_nil, hs.committedEntries] at hch
  refine .of_takes h hre hs rfl (fun cc hcc => hch ▸ hcc) (hadd.le) ?_ ?_ ?_ ?_ (fun _ => rfl) ?_
  · rw [hadd]
    exact hs.snapshot_le
  · rw [hadd]
    exact hs.snapshot_le
  · rw [hadd, ← hch]
    exact append_nil _
  · rw [hadd, ← hs.replay, hch]
    exact congrArg _ (append_nil _)
  · intro snap hsnap
    cases hi.symm.trans hsnap

theorem leads_regroup {s : Stored} (hs : s.Regrouped lib L V) :
    (recover lib s.committedEntries).Leads (boot sha s)
      (fun _ m' => Grouped lib L V m' ∧ m'.handed = s.hardState.commit.val ∧
        (s.applied = .snapshotPending → m'.store.held = s) ∧
        (s.applied ≠ .snapshotPending → m'.deferred = [])) fun _ => Left lib L := by
  have hadd := hs.toFollows.snapshot_add
  refine leads_get_bind ?_
  by_cases hi : (boot sha s).installed.isSome
  · rw [if_pos hi]
    refine leads_modify ⟨grouped_wait hs hi, hadd, fun _ => rfl, fun hne => ?_⟩
    have hpend := ((grouped_wait hs hi).pending _ (Option.some_get hi).symm).2.1
    exact absurd hpend hne
  · have hnone : (boot sha s).installed = none := Option.not_isSome_iff_eq_none.mp hi
    have hcounted : s.applied ≠ .snapshotPending := by
      intro hpend
      simp [boot, pendingSnapshot, hpend] at hi
    rw [if_neg hi]
    refine triple_takeCommitted (P := (· = boot sha s)) ?_ ?_ _ rfl
    · rintro _ m' rfl ht
      have hg := grouped_retake hs hnone ht
      refine ⟨hg, ?_, fun hpend => absurd hpend hcounted,
        fun _ => hg.idle (ht.untouched.installed.trans hnone)⟩
      exact (congrArg (· + s.committedEntries.length) ht.untouched.handed).trans hadd
    · rintro _ done e rest m1 m' rfl heq ht hh
      have hret : ∀ cc ∈ changesIn lib (done ++ e :: rest), cc ∈ changesIn lib
          (seg L s.snapshot.index.val s.hardState.commit.val) := by
        rw [← heq, hs.committedEntries]
        exact fun cc hcc => hcc
      exact left_of_halt hs rfl hret ht hh

/-! ### A restart succeeds -/

/-- The entries are ones that this code proposed: they decode. -/
structure Proposed (lib : RaftLib) (e : Entry) : Prop where
  change : e.kind = .confChange → ∃ cc, lib.decodeChange e.data = .ok cc
  event : carriesLedgerEvent e = true → ∃ ev, decodeEvent e.data = .ok ev

theorem applyChange_succeeds (hcc : lib.decodeChange data = .ok cc) (hs : m.store.health = .sound)
    (hf : m.store.held.fence ≤ m.store.held.hardState.term) {v} (hv : v ∈ m.group.voters)
    (hne : cc ≠ .removeVoter v) : (applyChange lib data).Succeeds m := by
  obtain ⟨state, hst⟩ : ∃ state, lib.applyConfChange m.group cc = .ok state := by
    cases cc with
    | addVoter id => exact ⟨_, (lib.add m.group id).choose_spec.1⟩
    | removeVoter id =>
      have hother : ∃ w ∈ m.group.voters, w ≠ id := ⟨v, hv, fun h => hne (h ▸ rfl)⟩
      exact ⟨_, (lib.remove m.group id hother).choose_spec.1⟩
  refine succeeds_ofExcept_bind hcc (succeeds_get_bind ?_)
  refine succeeds_ofExcept_bind hst (succeeds_bind (succeeds_modify _) ?_)
  intro _ m1 h
  obtain ⟨-, rfl⟩ := ends_modify h
  exact succeeds_zoom (succeeds_mapErr _ (persist_succeeds hs hf))

theorem applyEvent_succeeds {ev} (hev : decodeEvent data = .ok ev)
    (hcount : m.appliedEvents.val + 1 < 2 ^ 64) : (applyEvent data).Succeeds m := by
  refine succeeds_ofExcept_bind (by rw [hev]; rfl) (succeeds_get_bind ?_)
  have hadd : U64.checkedAdd m.appliedEvents 1 = some ⟨m.appliedEvents.val + 1, hcount⟩ :=
    dif_pos hcount
  rw [hadd]
  exact succeeds_modify _

/-- **Entries that decode are taken**, if some voter is never removed. -/
theorem applyCommitted_succeeds (hi : m.installed = none) (hs : m.store.health = .sound)
    (hf : m.store.held.fence ≤ m.store.held.hardState.term) (hes : ∀ e ∈ es, Proposed lib e)
    (hcount : m.appliedEvents.val + (eventsIn es).length < 2 ^ 64) {v : U64}
    (hv : v ∈ m.group.voters) (hkeep : .removeVoter v ∉ changesIn lib es) :
    (applyCommitted lib es).Succeeds m := by
  induction es generalizing m with
  | nil => exact succeeds_pure ()
  | cons e es ih =>
    have hes' : ∀ d ∈ es, Proposed lib d := fun d hd => hes d (mem_cons_of_mem _ hd)
    have he := hes e mem_cons_self
    rw [applyCommitted]
    by_cases hk : e.kind = .confChange
    · rw [if_pos hk]
      obtain ⟨cc, hcc⟩ := he.change hk
      rw [changesIn_cons_change hk hcc, mem_cons, not_or] at hkeep
      refine succeeds_bind (applyChange_succeeds hcc hs hf hv (Ne.symm hkeep.1)) ?_
      intro _ m1 h
      obtain ⟨cc', state, s, hcc', hst, rfl, hs', hheld⟩ := (leads_applyChange hk).ok h
      obtain rfl : cc = cc' := Except.ok.inj (hcc.symm.trans hcc')
      have hvoter : v ∈ state.voterSet := by
        rw [RaftLib.voterSet_of_applied hst]
        cases cc with
        | addVoter => exact .inr hv
        | removeVoter => exact ⟨hv, fun h => hkeep.1 (by rw [Set.mem_singleton_iff.mp h])⟩
      refine ih hi hs' ?_ hes' ?_ hvoter hkeep.2
      · show s.held.fence ≤ s.held.hardState.term
        rw [hheld]
        exact max_le hf (le_refl _)
      · rw [eventsIn_cons_other (not_carries_of_change hk)] at hcount
        exact hcount
    rw [if_neg hk]
    rw [changesIn_cons_other hk] at hkeep
    by_cases hc : carriesLedgerEvent e = false
    · rw [if_pos hc]
      rw [eventsIn_cons_other hc] at hcount
      exact ih hi hs hf hes' hcount hv hkeep
    · rw [if_neg hc]
      replace hc : carriesLedgerEvent e = true := Bool.not_eq_false _ ▸ hc
      obtain ⟨ev, hev⟩ := he.event hc
      rw [eventsIn, filter_cons_of_pos hc, length_cons] at hcount
      apply succeeds_get_bind
      rw [hi]
      refine succeeds_bind (applyEvent_succeeds hev (by omega)) ?_
      intro _ m1 h
      obtain ⟨n, ev', -, hn, rfl⟩ := leads_applyEvent.ok h
      refine ih hi hs hf hes' ?_ hv hkeep
      show n.val + (es.filter carriesLedgerEvent).length < 2 ^ 64
      omega

/-- **When a restart is safe**: a stored voter whom no retained committed change
removes, or a snapshot behind which all changes wait. -/
def Stored.Restartable (lib : RaftLib) (s : Stored) : Prop :=
  s.applied = .snapshotPending ∨
    ∃ v ∈ s.confState.voters, .removeVoter v ∉ changesIn lib s.committedEntries

theorem recover_succeeds {s} (hs : s.Regrouped lib L V) (hL : ∀ e ∈ L, Proposed lib e)
    (hlen : L.length < 2 ^ 64) (hv : s.Restartable lib) :
    (recover lib s.committedEntries).Succeeds (boot sha s) := by
  apply succeeds_get_bind
  by_cases hi : (boot sha s).installed.isSome
  · rw [if_pos hi]
    exact succeeds_modify _
  rw [if_neg hi]
  have hnone : (boot sha s).installed = none := Option.not_isSome_iff_eq_none.mp hi
  refine succeeds_bind ?_ fun _ _ _ => succeeds_modify _
  rcases hv with hpend | ⟨v, hv, hkeep⟩
  · simp [boot, pendingSnapshot, hpend] at hi
  refine applyCommitted_succeeds hnone rfl hs.fence_le ?_ ?_ hv hkeep
  · intro e he
    rw [hs.toFollows.committedEntries] at he
    exact hL e (mem_of_mem_drop (mem_of_mem_take he))
  · cases ha : s.applied with
    | snapshotPending => simp [boot, pendingSnapshot, ha] at hi
    | counted n =>
      have happ : (boot sha s).appliedEvents = n := by simp [boot, recoveredApplied, ha]
      rw [happ, hs.counted n ha, hs.toFollows.committedEntries, eventCount_seg L hs.snapshot_le]
      refine lt_of_le_of_lt (length_filter_le _ _) (lt_of_le_of_lt ?_ hlen)
      exact length_take_le' _ _

/-! ### Whole lives -/

def Life.stored : Life → Stored
  | .up m => m.store.held
  | .down s => s

section

variable (lib : RaftLib) (L : List Entry) (sha : Bytes → Digest)

/-- What the library and the host owe a member: ready states that follow the
log, the count of events that a payload covers, and own snapshots at positions
that were handed over. -/
def Faithful (x : Life) : Action → Prop
  | .ready rd => ∀ m, x = .up m → Delivers L m rd
  | .resume n => ∀ m snap, x = .up m → m.installed = some snap →
      n.val = eventCount L snap.index.val
  | .recordWithin index _ _ => ∀ m, x = .up m → index.val ≤ m.handed
  | .record index _ => ∀ m, x = .up m → index.val ≤ m.handed
  | _ => True

def Ordered (x : Life) : Action → Prop
  | .ready rd => ∀ m, x = .up m → InOrder lib m rd
  | _ => True

def FaithfulStep (x x' : Life) : Prop := ∃ a, Faithful L x a ∧ Step lib sha a x x'

def OrderedStep (x x' : Life) : Prop :=
  ∃ a, Faithful L x a ∧ Ordered lib x a ∧ Step lib sha a x x'

end

variable {voters : List U64}

theorem regrouped_fresh (lib : RaftLib) (L : List Entry) (voters : List U64) :
    (fresh voters []).Regrouped lib L ⟨{ v | v ∈ voters }, 0⟩ where
  toFollows := follows_fresh L voters []
  base_le := le_refl _
  fence_le := le_refl _
  conf := fun _ _ => Iff.rfl

theorem OrderedStep.grouped {x x'} (h : OrderedStep lib L sha x x') (hx : x.Grouped lib L) :
    x'.Grouped lib L := by
  obtain ⟨a, hf, ho, hstep⟩ := h
  cases hstep with
  | ready h =>
    refine lasting_grouped.after (leads_whenSound (fun hs => ?_) fun _ => hx.stopped _) h
    obtain ⟨V, hm⟩ := hx.2 hs
    exact lasting_grouped.leads_marked (hm.handleReady (hf _ rfl) (ho _ rfl)) rfl
  | @resume m m' n r h =>
    refine lasting_grouped.after (lasting_grouped.leads_resume hx fun snap s hm hi hheld => ?_) h
    obtain ⟨V, hm⟩ := hm
    have hreg := hm.account hi (hf m snap rfl hi) hheld
    exact ⟨⟨V, hreg⟩, hm.applyDeferred hi hreg (congrArg snapshot hheld.2 :)
      (congrArg hardState hheld.2 :) (congrArg confState hheld.2 :)⟩
  | recordWithin h =>
    exact lasting_grouped.after (lasting_grouped.leads_onStore hx fun hm =>
      Grouped.record hm (hf _ rfl)) h
  | record h =>
    exact lasting_grouped.after (lasting_grouped.leads_onStore hx fun hm =>
      leads_recordSnapshot (fun _ => Grouped.record hm (hf _ rfl)) fun _ => hm) h
  | stop => exact hx.1
  | @reopen s m' r h =>
    obtain ⟨V, hx⟩ := hx
    exact lasting_grouped.opened ((leads_regroup hx).imp (fun _ _ h => ⟨V, h.1⟩) fun _ _ h => h) h

theorem grouped_of_run {x} (run : ReflTransGen (OrderedStep lib L sha) (start voters) x) :
    x.Grouped lib L := by
  induction run with
  | refl => exact ⟨_, regrouped_fresh lib L voters⟩
  | tail _ step ih => exact step.grouped ih

theorem Life.Grouped.regrouped {x : Life} (h : x.Grouped lib L) :
    ∃ V, x.stored.Regrouped lib L V := by
  cases x with
  | up => exact h.1
  | down => exact h

/-- **Membership follows the log.**  Over every life whose ready states keep the
order of changes: the changes that a sound member applied, followed by those that
wait, are exactly the changes of the log above its floor, each once and in order.
A restart succeeds wherever the life stops, if some stored voter is removed by no
retained change; it yields the voters that a sound member had to which the
library had handed every committed entry. -/
theorem membership_follows_log {x : Life} (hL : ∀ e ∈ L, Proposed lib e) (hlen : L.length < 2 ^ 64)
    (run : ReflTransGen (OrderedStep lib L sha) (start voters) x) :
    (∀ m, x = .up m → m.isSound = true →
      m.changes ++ changesIn lib m.deferred = changesIn lib (seg L m.floor m.handed)) ∧
    (x.stored.Restartable lib → ∃ m',
      recover lib x.stored.committedEntries (boot sha x.stored) [] = (.ok (), m', []) ∧
      ∀ m, x = .up m → m.isSound = true → m.handed = m.store.held.hardState.commit.val →
        ∀ v, v ∈ m'.voters ↔ v ∈ m.voters) := by
  have hx := grouped_of_run run
  refine ⟨fun m hm hs => ?_, fun hr => ?_⟩
  · subst hm
    exact (hx.2 hs).choose_spec.order
  obtain ⟨_, hreg⟩ := hx.regrouped
  obtain ⟨⟨⟩, m', hrun, hends⟩ := (recover_succeeds hreg hL hlen hr).ends
  refine ⟨m', hrun, fun m hm hs hhanded => ?_⟩
  subst hm
  obtain ⟨V, hm⟩ := hx.2 hs
  suffices hset : m'.store.held.confState.voterSet = m.store.held.confState.voterSet by
    intro v
    rw [mem_voters, mem_voters]
    exact Set.ext_iff.mp hset v
  obtain ⟨hg, hh, hpend, hidle⟩ := (leads_regroup hm.store).ok hends
  by_cases ha : m.store.held.applied = .snapshotPending
  · rw [hpend ha]
  have hi : m.installed = none := by
    cases hi : m.installed with
    | none => rfl
    | some snap => exact absurd (hm.pending snap hi).2.1 ha
  have h1 := hg.voters
  have h2 := hm.voters
  rw [hidle ha, hh] at h1
  rw [hm.idle hi, hhanded] at h2
  rw [hg.group, hm.group]
  exact h1.trans h2.symm

/-! ### Changes that are applied again -/

/-- An entry that adds (`0`) or removes (`1`) a voter. -/
def changeEntry (n : U64) (tag voter : UInt8) : Entry := ⟨n, 1, .confChange, [], [tag, voter]⟩

def entriesReady (es : List Entry) : Ready where
  snapshot := none
  entries := es
  hardState := some ⟨1, 0, (es.getLast?.map Entry.index).getD 0⟩
  committedEntries := es
  lightCommit := none
  lightEntries := []

def growing : List Entry := [changeEntry 1 0 3]

def grown : Member := played (drain .plain noHash (entriesReady growing)) newcomer

/-- A log that replaces both voters' places: 2 leaves and comes back, 1 leaves. -/
def returning : List Entry := [changeEntry 1 1 2, changeEntry 2 0 2, changeEntry 3 1 1]

def returned : Member := played (drain .plain noHash (entriesReady returning)) newcomer

theorem inOrder_idle (h : m.installed = none) {rd} (hs : rd.snapshot = none) :
    InOrder lib m rd := by
  refine ⟨fun hsome => ?_, fun hw => ?_, fun hw => ?_⟩
  · rw [hs] at hsome
    cases hsome
  · rw [h, hs] at hw
    cases hw
  · rw [h, hs] at hw
    cases hw

theorem run_newcomer (L : List Entry) :
    ReflTransGen (OrderedStep .plain L noHash) (start [1, 2]) (.up newcomer) :=
  .single ⟨.reopen, trivial, trivial, step_newcomer⟩

theorem run_grown :
    ReflTransGen (OrderedStep .plain growing noHash) (start [1, 2]) (.up grown) := by
  refine (run_newcomer growing).tail ⟨.ready (entriesReady growing), fun m hm => ?_, fun m hm => ?_,
    step_played_ready (by decide +kernel)⟩
  · cases hm
    refine ⟨(fun s hs => by cases hs), ?_, ?_, ?_, ?_, ?_, ?_, ?_, ?_, ?_⟩ <;> decide +kernel
  · cases hm
    exact inOrder_idle (by decide +kernel) rfl

theorem proposed_changes {es : List Entry}
    (h : (es.all fun e => e.kind == .confChange && (RaftLib.plain.decodeChange e.data).isOk) =
      true) :
    ∀ e ∈ es, Proposed .plain e := by
  intro e he
  have hall := all_eq_true.mp h e he
  rw [Bool.and_eq_true, beq_iff_eq] at hall
  refine ⟨fun _ => ?_, fun hc => ?_⟩
  · cases hd : RaftLib.plain.decodeChange e.data with
    | ok cc => exact ⟨cc, rfl⟩
    | error =>
      rw [hd] at hall
      cases hall.2
  · rw [not_carries_of_change hall.1] at hc
    cases hc

/-- A member that added a voter opens again with the three voters. -/
theorem membership_of_grown :
    ReflTransGen (OrderedStep .plain growing noHash) (start [1, 2]) (.up grown) ∧
    grown.isSound = true ∧ grown.voters = [1, 2, 3] ∧ (up grown).stored.Restartable .plain ∧
    (∀ m, up grown = .up m → m.isSound = true →
      m.changes ++ changesIn .plain m.deferred = changesIn .plain (seg growing m.floor m.handed)) ∧
    ((up grown).stored.Restartable .plain → ∃ m',
      recover .plain (up grown).stored.committedEntries (boot noHash (up grown).stored) [] =
        (.ok (), m', []) ∧
      ∀ m, up grown = .up m → m.isSound = true →
        m.handed = m.store.held.hardState.commit.val → ∀ v, v ∈ m'.voters ↔ v ∈ m.voters) :=
  ⟨run_grown, by decide +kernel, by decide +kernel, .inr ⟨1, by decide +kernel, by decide +kernel⟩,
    membership_follows_log (proposed_changes (by decide +kernel)) (by decide +kernel) run_grown⟩

/-- **A restart applies retained changes on the configuration that has them**:
the group of 2 alone is asked to remove 2, which is refused, and the member does
not open again. -/
theorem restart_refuses_retained_change :
    ReflTransGen (OrderedStep .plain returning noHash) (start [1, 2])
      (.up returned) ∧
    returned.isSound = true ∧ returned.handed = returned.store.held.hardState.commit.val ∧
    returned.voters = [2] ∧
    (recover .plain returned.store.held.committedEntries (boot noHash returned.store.held) []).1 =
      .err "removed all voters" := by
  refine ⟨?_, by decide +kernel, by decide +kernel, by decide +kernel, by decide +kernel⟩
  refine (run_newcomer returning).tail ⟨.ready (entriesReady returning), fun m hm => ?_,
    fun m hm => ?_, step_played_ready (by decide +kernel)⟩
  · cases hm
    refine ⟨(fun s hs => by cases hs), ?_, ?_, ?_, ?_, ?_, ?_, ?_, ?_, ?_⟩ <;> decide +kernel
  · cases hm
    exact inOrder_idle (by decide +kernel) rfl

/-- A log of an event, a change behind it, and a second change. -/
def overtaken : List Entry := [eventEntry 1, eventEntry 2, changeEntry 3 0 3, changeEntry 4 0 4]

/-- A member that installs a snapshot at 1, keeps the entries 2 and 3 back, and
gets the entry 4. -/
def overtaking : Member :=
  played (drain .plain noHash (entriesReady [changeEntry 4 0 4]))
    (played (drain .plain noHash (entriesReady [eventEntry 2, changeEntry 3 0 3]))
      (played (drain .plain noHash (snapshotReady 1)) newcomer))

/-- **A change in front of an event overtakes those that wait.** -/
theorem change_overtakes_waiting :
    ReflTransGen (FaithfulStep .plain overtaken noHash) (start [1, 2])
      (.up overtaking) ∧
    overtaking.isSound = true ∧ overtaking.changes = [.addVoter 4] ∧
    changesIn .plain overtaking.deferred = [.addVoter 3] ∧
    changesIn .plain (seg overtaken overtaking.floor overtaking.handed) =
      [.addVoter 3, .addVoter 4] := by
  refine ⟨?_, by decide +kernel, by decide +kernel, by decide +kernel, by decide +kernel⟩
  refine .tail (.tail (.tail (.single ⟨.reopen, trivial, step_newcomer⟩)
    ⟨.ready (snapshotReady 1), fun m hm => ?_, step_played_ready (by decide +kernel)⟩)
    ⟨.ready (entriesReady [eventEntry 2, changeEntry 3 0 3]), fun m hm => ?_,
      step_played_ready (by decide +kernel)⟩)
    ⟨.ready (entriesReady [changeEntry 4 0 4]), fun m hm => ?_,
      step_played_ready (by decide +kernel)⟩
  · cases hm
    exact delivers_snapshotReady (by decide +kernel) (by decide +kernel)
  all_goals
    cases hm
    refine ⟨(fun s hs => by cases hs), ?_, ?_, ?_, ?_, ?_, ?_, ?_, ?_, ?_⟩ <;> decide +kernel

end Ptr.Raft
