import Ptr.Raft.Node

/-!
# The numbering of ledger events

A member gives the events that raft decides their ledger index by counting.  The
count goes through restarts, compactions and installed snapshots, while entries
above a snapshot that nobody accounted for wait in `deferred`.

* `Numbers`: a list of committed events is a list of entries, numbered in a row.
* `Live`: what holds of a member in use, `Valid` what is left when a call fails.
* `Live.take`, `Live.install`, `Live.resume`, `live_recover`: the steps.
-/

namespace Ptr.Raft

open Lib Ledger Prog Stored Store Life Relation Member List

abbrev eventsIn (es : List Entry) : List Entry := es.filter carriesLedgerEvent

/-! ### Numbered events -/

/-- The events of `es`, numbered `n + 1, n + 2, …`. -/
def Numbers (n : Nat) : List Entry → List CommittedEvent → Prop
  | [], [] => True
  | e :: es, c :: cs =>
    c.index.val = n + 1 ∧ decodeEvent e.data = .ok c.event ∧ Numbers (n + 1) es cs
  | _, _ => False

namespace Numbers

variable {n : Nat} {es fs : List Entry} {cs ds : List CommittedEvent}

theorem length_eq (h : Numbers n es cs) : cs.length = es.length := by
  fun_induction Numbers n es cs with
  | case1 => rfl
  | case2 n e es c cs ih => rw [length_cons, length_cons, ih h.2.2]
  | case3 => exact h.elim

theorem append (h : Numbers n es cs) (h' : Numbers (n + es.length) fs ds) :
    Numbers n (es ++ fs) (cs ++ ds) := by
  fun_induction Numbers n es cs with
  | case1 => exact h'
  | case2 n e es c cs ih =>
    refine ⟨h.1, h.2.1, ih h.2.2 ?_⟩
    rwa [length_cons, ← add_assoc, Nat.add_right_comm] at h'
  | case3 => exact h.elim

theorem mem (h : Numbers n es cs) {c} (hc : c ∈ cs) :
    ∃ j e, es[j]? = some e ∧ c.index.val = n + j + 1 ∧ decodeEvent e.data = .ok c.event := by
  fun_induction Numbers n es cs with
  | case1 => cases hc
  | case2 n e es d cs ih =>
    rcases mem_cons.mp hc with rfl | hc
    · exact ⟨0, e, rfl, h.1, h.2.1⟩
    · obtain ⟨j, f, hf, hi, hd⟩ := ih h.2.2 hc
      exact ⟨j + 1, f, hf, by omega, hd⟩
  | case3 => exact h.elim

theorem bounds (h : Numbers n es cs) {c} (hc : c ∈ cs) :
    n < c.index.val ∧ c.index.val ≤ n + es.length := by
  obtain ⟨j, e, he, hi, -⟩ := h.mem hc
  have := (List.getElem?_eq_some_iff.mp he).1
  omega

theorem pairwise (h : Numbers n es cs) : cs.Pairwise (·.index < ·.index) := by
  fun_induction Numbers n es cs with
  | case1 => exact .nil
  | case2 n e es c cs ih =>
    refine .cons (fun d hd => ?_) (ih h.2.2)
    have h2 := (h.2.2.bounds hd).1
    show c.index.val < d.index.val
    omega
  | case3 => exact h.elim

end Numbers

/-- **The event has the number that the log gives it**: it is the event of the
`c.index`-th entry of the log that carries one. -/
def Named (L : List Entry) (c : CommittedEvent) : Prop :=
  ∃ i e, c.index.val = i + 1 ∧ (eventsIn L)[i]? = some e ∧ decodeEvent e.data = .ok c.event

theorem Numbers.named {L es a b} (hab : a ≤ b) {cs} (h : Numbers (eventCount L a) es cs)
    (hes : es <+: eventsIn (seg L a b)) {c} (hc : c ∈ cs) : Named L c := by
  obtain ⟨j, e, he, hi, hd⟩ := h.mem hc
  refine ⟨eventCount L a + j, e, hi, ?_, hd⟩
  obtain ⟨rest, hrest⟩ := hes
  have hsplit : eventsIn L = eventsIn (L.take a) ++ (es ++ (rest ++ eventsIn (L.drop b))) := by
    rw [← List.append_assoc es, hrest, ← List.filter_append, ← List.filter_append,
      ← List.append_assoc, take_append_seg L hab, List.take_append_drop]
  have hlen : (eventsIn (L.take a)).length ≤ eventCount L a + j := Nat.le_add_right _ _
  rw [hsplit, List.getElem?_append_right hlen, eventCount, Nat.add_sub_cancel_left,
    List.getElem?_append_left (List.getElem?_eq_some_iff.mp he).1]
  exact he

/-! ### Members in use -/

/-- The position whose events the member has accounted for. -/
def Member.reached (m : Member) : Nat :=
  match m.installed with
  | some snap => snap.index.val
  | none => m.handed

/-- What holds of a member after a call, whether the call failed or not. -/
structure Valid (L : List Entry) (m : Member) : Prop where
  follows : m.store.held.Follows L
  named : ∀ c ∈ m.delivered, Named L c
  ordered : m.delivered.Pairwise (·.index < ·.index)
  kept : m.committed <:+ m.delivered

/-- **What holds of a member in use**: its events are those of the log above its
floor, up to where the library is.  Behind a snapshot nobody accounted for, all
of them wait. -/
structure Live (L : List Entry) (m : Member) : Prop extends Valid L m where
  floor_le : m.floor ≤ m.reached
  handed_le : m.handed ≤ L.length
  bound : ∀ c ∈ m.delivered, c.index.val ≤ eventCount L m.reached
  counted : m.installed = none → m.deferred = [] ∧ m.appliedEvents.val = eventCount L m.handed ∧
    Numbers (eventCount L m.floor) (eventsIn (seg L m.floor m.handed)) m.committed
  pending : ∀ snap, m.installed = some snap → snap.index = m.store.held.snapshot.index ∧
    m.store.held.applied = .snapshotPending ∧ m.floor = snap.index.val ∧
    snap.index.val ≤ m.handed ∧ m.committed = [] ∧
    eventsIn m.deferred = eventsIn (seg L snap.index.val m.handed)

variable {lib : RaftLib} {L : List Entry} {m m' : Member} {es : List Entry}
  {r : Outcome String Unit} {rd : Ready}
  {snap : InstalledSnapshot} {index : U64} {s : Store} {data : Bytes}

theorem Valid.sameLog (h : Valid L m) (hs : m.store.held.SameLog m'.store.held)
    (hc : m'.committed = m.committed) (hd : m'.delivered = m.delivered) : Valid L m' where
  follows := h.follows.sameLog hs
  named := by rw [hd]; exact h.named
  ordered := by rw [hd]; exact h.ordered
  kept := by rw [hd, hc]; exact h.kept

theorem Valid.deliver (h : Valid L m) {a b} (hab : a ≤ b) {cs}
    (hb : ∀ c ∈ m.delivered, c.index.val ≤ eventCount L a) (hcs : Numbers (eventCount L a) es cs)
    (hes : es <+: eventsIn (seg L a b)) (hs : m.store.held.SameLog m'.store.held)
    (hc : m'.committed = m.committed ++ cs) (hd : m'.delivered = m.delivered ++ cs) :
    Valid L m' := by
  refine ⟨h.follows.sameLog hs, ?_, ?_, ?_⟩
  · intro c hmem
    rw [hd] at hmem
    rcases mem_append.mp hmem with hmem | hmem
    · exact h.named c hmem
    · exact hcs.named hab hes hmem
  · rw [hd, pairwise_append]
    refine ⟨h.ordered, hcs.pairwise, fun c hc d hd => ?_⟩
    have hlt := (hcs.bounds hd).1
    exact Fin.lt_def.mpr (lt_of_le_of_lt (hb c hc) hlt)
  · obtain ⟨ds, hds⟩ := h.kept
    exact ⟨ds, by rw [hc, hd, ← hds, append_assoc]⟩

/-! ### Taking entries -/

theorem not_carries_of_change {e : Entry} (hk : e.kind = .confChange) :
    carriesLedgerEvent e = false := by
  rw [carriesLedgerEvent, hk]
  rfl

theorem eventsIn_cons_other {e : Entry} (hc : carriesLedgerEvent e = false) :
    eventsIn (e :: es) = eventsIn es :=
  filter_cons_of_neg (by simp [hc])

/-- Without a snapshot in the way every event gets the next number. -/
theorem Takes.numbers (h : Takes lib m es m') (hi : m.installed = none) :
    m'.deferred = m.deferred ∧ ∃ cs, Numbers m.appliedEvents.val (eventsIn es) cs ∧
      m'.committed = m.committed ++ cs ∧ m'.delivered = m.delivered ++ cs ∧
      m'.appliedEvents.val = m.appliedEvents.val + cs.length := by
  induction h with
  | nil => exact ⟨rfl, [], trivial, by simp, by simp, rfl⟩
  | change hk _ _ _ _ _ ih =>
    rw [eventsIn_cons_other (not_carries_of_change hk)]
    exact ih hi
  | skip _ hc _ ih =>
    rw [eventsIn_cons_other hc]
    exact ih hi
  | defer hc hsome =>
    rw [hi] at hsome
    cases hsome
  | @event m m' e es n ev hc hi' hev hn h ih =>
    obtain ⟨hdef, cs, hcs, hcomm, hdel, happ⟩ := ih hi
    have happ' : (m.push n ev).appliedEvents.val = m.appliedEvents.val + 1 := hn
    rw [happ'] at hcs happ
    refine ⟨hdef, ⟨n, ev⟩ :: cs, ?_, ?_, ?_, ?_⟩
    · rw [eventsIn, filter_cons_of_pos hc]
      exact ⟨hn, hev, hcs⟩
    · rw [hcomm]
      exact append_cons .. |>.symm
    · rw [hdel]
      exact append_cons .. |>.symm
    · rw [length_cons]
      omega

/-- Behind a snapshot every event waits, in order. -/
theorem Takes.waits (h : Takes lib m es m') (hi : m.installed.isSome) :
    m'.committed = m.committed ∧ m'.delivered = m.delivered ∧
      eventsIn m'.deferred = eventsIn m.deferred ++ eventsIn es := by
  induction h with
  | nil => simp
  | change hk _ _ _ _ _ ih =>
    rw [eventsIn_cons_other (not_carries_of_change hk)]
    exact ih hi
  | skip _ hc _ ih =>
    rw [eventsIn_cons_other hc]
    exact ih hi
  | defer => exact ⟨rfl, rfl, filter_append ..⟩
  | event hc hi' =>
    rw [hi'] at hi
    cases hi

theorem Member.reached_none (hi : m.installed = none) : m.reached = m.handed := by
  rw [reached, hi]

theorem Member.reached_some (hi : m.installed = some snap) :
    m.reached = snap.index.val := by
  rw [reached, hi]

def Next (L : List Entry) (m : Member) (es : List Entry) : Prop :=
  es = seg L m.handed (m.handed + es.length) ∧ m.handed + es.length ≤ L.length

theorem Next.events (h : Next L m es) {a} (ha : a ≤ m.handed) :
    eventsIn (seg L a (m.handed + es.length)) = eventsIn (seg L a m.handed) ++ eventsIn es := by
  rw [← seg_append ha (Nat.le_add_right _ es.length), eventsIn, filter_append, ← h.1]

theorem Next.count (h : Next L m es) :
    eventCount L m.handed + (eventsIn es).length = eventCount L (m.handed + es.length) := by
  rw [← eventCount_seg L (Nat.le_add_right m.handed es.length), ← h.1]

theorem Live.take_numbered (hm : Live L m) (h : Takes lib m es m') (hi : m.installed = none)
    (hes : Next L m es) : Live L (m'.advance es.length) := by
  have hu := h.untouched
  obtain ⟨hnil, happ, hnum⟩ := hm.counted hi
  obtain ⟨hdef, cs, hcs, hcomm, hdel, happ'⟩ := h.numbers hi
  have hfloor : m.floor ≤ m.handed := reached_none hi ▸ hm.floor_le
  have hcount := hes.count
  have hi' : (m'.advance es.length).installed = none := hu.installed.trans hi
  have hhanded : (m'.advance es.length).handed = m.handed + es.length :=
    congrArg (· + es.length) hu.handed
  have hbound : ∀ c ∈ m.delivered, c.index.val ≤ eventCount L m.handed :=
    reached_none hi ▸ hm.bound
  rw [happ] at hcs
  have hpre : eventsIn es = eventsIn (seg L m.handed (m.handed + es.length)) :=
    congrArg eventsIn hes.1
  refine ⟨hm.toValid.deliver (Nat.le_add_right _ es.length) hbound hcs
    ⟨[], ?_⟩ hu.sameLog hcomm hdel, ?_, ?_, ?_, ?_, ?_⟩
  · exact (append_nil _).trans hpre
  · rw [reached_none hi', hhanded]
    exact le_trans (le_of_eq_of_le hu.floor hfloor) (Nat.le_add_right _ _)
  · rw [hhanded]
    exact hes.2
  · intro c hc
    rw [reached_none hi', hhanded, ← hcount]
    rcases mem_append.mp (hdel ▸ hc : c ∈ m.delivered ++ cs) with hc | hc
    · exact le_trans (hbound c hc) (Nat.le_add_right _ _)
    · have := (hcs.bounds hc).2
      omega
  · intro _
    refine ⟨hdef.trans hnil, ?_, ?_⟩
    · show m'.appliedEvents.val = _
      rw [happ', hhanded, ← hcount, happ, hcs.length_eq]
    · show Numbers (eventCount L m'.floor) (eventsIn (seg L m'.floor _)) m'.committed
      rw [hu.floor, hhanded, hes.events hfloor, hcomm]
      refine hnum.append ?_
      rw [eventCount_seg L hfloor]
      exact hcs
  · intro snap hsnap
    rw [hi'] at hsnap
    cases hsnap

theorem Live.take_waiting (hm : Live L m) (h : Takes lib m es m') (hi : m.installed = some snap)
    (hes : Next L m es) : Live L (m'.advance es.length) := by
  have hu := h.untouched
  obtain ⟨hidx, hpend, hfloor, hle, hnil, hdef⟩ := hm.pending snap hi
  obtain ⟨hcomm, hdel, hdef'⟩ := h.waits (by rw [hi]; rfl)
  have hi' : (m'.advance es.length).installed = some snap := hu.installed.trans hi
  have hhanded : (m'.advance es.length).handed = m.handed + es.length :=
    congrArg (· + es.length) hu.handed
  have hr : (m'.advance es.length).reached = m.reached := by
    rw [reached_some hi', reached_some hi]
  refine ⟨hm.toValid.sameLog hu.sameLog hcomm hdel, ?_, ?_, ?_, ?_, ?_⟩
  · rw [hr]
    exact le_of_eq_of_le hu.floor hm.floor_le
  · rw [hhanded]
    exact hes.2
  · intro c hc
    rw [hr]
    exact hm.bound c (hdel ▸ hc)
  · intro hnone
    rw [hi'] at hnone
    cases hnone
  · intro snap' hsnap'
    obtain rfl : snap = snap' := Option.some.inj (hi'.symm.trans hsnap')
    refine ⟨hidx.trans (congrArg SnapshotMetadata.index hu.sameLog.snapshot.symm),
      hu.sameLog.applied.trans hpend, hu.floor.trans hfloor, ?_, hcomm.trans hnil, ?_⟩
    · rw [hhanded]
      exact le_trans hle (Nat.le_add_right _ _)
    · show eventsIn m'.deferred = _
      rw [hdef', hdef, hhanded, hes.events hle]

/-- **Entries that follow the last ones** keep the numbering. -/
theorem Live.take (hm : Live L m) (h : Takes lib m es m') (hes : Next L m es) :
    Live L (m'.advance es.length) := by
  cases hi : m.installed with
  | none => exact hm.take_numbered h hi hes
  | some => exact hm.take_waiting h hi hes

theorem Next.of_append {done rest} (h : Next L m (done ++ rest)) : Next L m done := by
  obtain ⟨heq, hle⟩ := h
  rw [length_append] at hle
  refine ⟨?_, by omega⟩
  have := congrArg (take done.length) heq
  rw [take_left, seg, take_take, length_append] at this
  refine this.trans (congrArg (fun k => (L.drop m.handed).take k) ?_)
  omega

theorem Valid.halts {e} (h : Valid L m) (hh : HaltsAt lib m e m') : Valid L m' := by
  refine h.sameLog hh.untouched.sameLog ?_ ?_ <;>
    rcases hh with rfl | ⟨cc, state, s, -, -, -, rfl, -⟩ <;> rfl

/-! ### Storage steps -/

theorem Valid.withStore (h : Valid L m) (hs : s.held.Follows L) :
    Valid L (m.withStore s) := ⟨hs, h.named, h.ordered, h.kept⟩

theorem Live.withStore (h : Live L m) (hs : s.held.Follows L)
    (hsnap : s.held.snapshot = m.store.held.snapshot)
    (happ : s.held.applied = m.store.held.applied) :
    Live L (m.withStore s) := by
  refine ⟨h.toValid.withStore hs, h.floor_le, h.handed_le, h.bound, h.counted, ?_⟩
  intro snap hi
  obtain ⟨h1, h2, h3⟩ := h.pending snap hi
  exact ⟨h1.trans (congrArg SnapshotMetadata.index hsnap.symm), happ.trans h2, h3⟩

theorem Live.reached_le (hm : Live L m) : m.reached ≤ m.handed := by
  cases hi : m.installed with
  | none => exact le_of_eq (reached_none hi)
  | some snap =>
    rw [reached_some hi]
    exact (hm.pending snap hi).2.2.2.1

variable {sha : Bytes → Digest}

/-! ### Calls -/

def At (L : List Entry) (t : Stored) (p : Nat) (m : Member) : Prop :=
  Live L m ∧ t.SameLog m.store.held ∧ m.handed = p

variable {t : Stored} {p : Nat}

theorem At.take (hes : es = seg L p (p + es.length)) (hle : p + es.length ≤ L.length) :
    Triple (At L t p) (takeCommitted lib es) (fun _ => At L t (p + es.length)) (Valid L) := by
  refine triple_takeCommitted ?_ ?_
  · rintro m m' ⟨hm, ht, rfl⟩ h
    have hu := h.untouched
    exact ⟨hm.take h ⟨hes, hle⟩, ht.trans hu.sameLog, congrArg (· + es.length) hu.handed⟩
  · rintro m done e rest m1 m' ⟨hm, -, rfl⟩ rfl h hh
    have hvalid : Valid L m1 :=
      (hm.take h (Next.of_append ⟨hes, hle⟩)).toValid.sameLog (.refl _) rfl rfl
    exact hvalid.halts hh

/-- **A snapshot** that comes when no entry waits. -/
theorem At.install (hm : Live L m) (hd : Delivers L m rd)
    (hdef : rd.snapshot.isSome → m.deferred = []) :
    Triple (· = m) (forSome (installSnapshot sha) rd.snapshot)
      (fun _ => At L (rd.base m) (rd.start m)) (Valid L) := by
  rw [Ready.base, Ready.start]
  refine triple_forSome (fun hs => ?_) fun snap hs => ?_
  · rintro _ rfl
    rw [hs]
    exact ⟨hm, .refl _, rfl⟩
  obtain ⟨hlow, hhigh⟩ := hd.snapshot snap hs
  replace hdef := hdef (by rw [hs]; rfl)
  rw [hs]
  refine triple_installSnapshot (by rintro _ rfl; exact hm.toValid) ?_
  rintro _ s rfl ⟨-, hheld⟩
  have hf : s.held.Follows L := hheld ▸ (follows_install hhigh).claim _
  refine ⟨hm.toValid.withStore hf,
    ⟨⟨hf, hm.named, hm.ordered, nil_suffix⟩, le_refl _, hhigh, ?_, ?_, ?_⟩, ?_, rfl⟩
  · intro c hc
    refine le_trans (hm.bound c hc) (eventCount_mono L ?_)
    exact le_trans hm.reached_le hlow
  · intro hnone
    cases hnone
  · intro snap' hi
    cases hi
    refine ⟨(congrArg (·.snapshot.index) hheld :).symm, (congrArg applied hheld :), rfl,
      le_refl _, rfl, ?_⟩
    exact (congrArg eventsIn hdef).trans (congrArg eventsIn (seg_self ..).symm)
  · exact hheld ▸ SameLog.claim (.refl _) _

theorem At.append (hd : Delivers L m rd) :
    Triple (At L (rd.base m) p) (appendEntries rd.entries) (fun _ => At L (rd.written m) p)
      (Valid L) := by
  rw [Ready.written]
  refine triple_appendEntries (fun hes x hx => by rwa [hes]) ?_ ?_
  · rintro x s ⟨hx, -⟩ hheld
    exact hx.toValid.withStore (hheld ▸ hx.follows)
  rintro first rest x s n hes ⟨hx, ht, hp⟩ hcheck hheld
  have hfresh : x.store.held.hardState.commit.val < first.index.val := by
    rw [ht.hardState]
    exact hd.fresh first (hes ▸ mem_cons_self)
  have hf : s.held.Follows L := hheld ▸ hx.follows.overwrite n (hes ▸ hcheck) hfresh
  refine ⟨hx.toValid.withStore hf, fun hall => ?_⟩
  rw [hall] at hheld
  refine ⟨hx.withStore hf (congrArg snapshot hheld :) (congrArg applied hheld :), ?_, hp⟩
  rw [hes] at hheld ⊢
  exact hheld ▸ ht.keep _ ▸ ht.overwrite _ _

theorem At.commit {hard} {next : Stored → HardState} (ha : (t.withHardState hard).Agrees L)
    (hnext : ∀ s : Stored, s.hardState = t.hardState → next s = hard) :
    Triple (At L t p) (onStore (persist fun s => s.withHardState (next s)))
      (fun _ => At L (t.withHardState hard) p) (Valid L) := by
  refine triple_persist (fun x hx => hx.1.toValid) ?_
  rintro x s ⟨hx, ht, hp⟩ ⟨-, hheld⟩
  simp only [hnext _ ht.hardState] at hheld
  have hf : s.held.Follows L :=
    hheld ▸ (hx.follows.recommit (ha.sameLog (ht.withHardState _))).claim _
  refine ⟨hx.toValid.withStore hf, hx.withStore hf (congrArg snapshot hheld :)
    (congrArg applied hheld :), ?_, hp⟩
  exact hheld ▸ (ht.withHardState _).claim _

theorem At.decide (hd : Delivers L m rd) :
    Triple (At L (rd.written m) p) (forSome (fun h => onStore (setHardState h)) rd.hardState)
      (fun _ => At L (rd.decided m) p) (Valid L) := by
  have ha := hd.decided
  rw [Ready.decided] at ha ⊢
  refine triple_forSome (fun hs x hx => by rwa [hs]) fun hard hs => ?_
  rw [hs] at ha ⊢
  exact At.commit ha fun _ _ => rfl

theorem At.settle (hd : Delivers L m rd) :
    Triple (At L (rd.decided m) p) (forSome (fun c => onStore (setCommit c)) rd.lightCommit)
      (fun _ => At L (rd.settled m) p) (Valid L) := by
  have ha := hd.settled
  rw [Ready.settled] at ha ⊢
  refine triple_forSome (fun hs x hx => by rwa [hs]) fun c hs => ?_
  rw [hs] at ha ⊢
  exact At.commit ha fun s hs => by rw [hs]

/-- **A ready state** keeps the numbering. -/
theorem Live.handleReady (hm : Live L m) (hd : Delivers L m rd)
    (hdef : rd.snapshot.isSome → m.deferred = []) :
    Triple (· = m) (handleReady lib sha rd) (fun _ => Live L) (Valid L) := by
  have hle1 := le_trans hd.committed_le hd.decided.commit_le
  have hle2 := le_trans hd.light_le hd.settled.commit_le
  refine triple_bind (At.install hm hd hdef) fun _ => ?_
  refine triple_bind (At.append hd) fun _ => ?_
  refine triple_bind (At.decide hd) fun _ => ?_
  refine triple_bind (At.take hd.committed hle1) fun _ => ?_
  refine triple_bind (At.settle hd) fun _ => ?_
  exact (At.take hd.light hle2).weaken (fun _ h => h) (fun _ _ h => h.1) fun _ h => h

/-- What a life keeps: a running member is valid and, as long as it is sound, in
use; a stopped one left a store that follows the log. -/
def Life.Kept (L : List Entry) : Life → Prop := Life.Keeps (Live L) (Valid L) (·.Follows L)

theorem lasting_live : Lasting (Live L) (Valid L) (·.Follows L) :=
  ⟨Live.toValid, Valid.follows, fun h => h.sameLog (.refl _) rfl rfl⟩

/-- The events that waited are numbered from the count that the host gives. -/
theorem Live.resumed (hm : Live L m) (hi : m.installed = some snap) {n}
    (hn : n.val = eventCount L snap.index.val) (hf : s.held.Follows L) :
    Triple (· = { m.withStore s with appliedEvents := n, installed := none }) (applyDeferred lib)
      (fun _ m' => Live L m' ∧ m'.installed = none ∧ m'.handed = m.handed ∧
        m'.floor = snap.index.val)
      (Valid L) := by
  rintro _ rfl
  obtain ⟨-, -, hfloor, hle, hnil, hdef⟩ := hm.pending snap hi
  have hbound : ∀ c ∈ m.delivered, c.index.val ≤ eventCount L snap.index.val :=
    reached_some hi ▸ hm.bound
  have hv : Valid L { m.withStore s with appliedEvents := n, installed := none, deferred := [] } :=
    ⟨hf, hm.named, hm.ordered, hm.kept⟩
  refine leads_get_bind (leads_modify_bind (leads_applyCommitted.imp ?_ ?_))
  · intro _ m' ht
    obtain ⟨hdef', cs, hcs, hcomm, hdel, happ⟩ := ht.numbers rfl
    have hu := ht.untouched
    replace hcs : Numbers (eventCount L snap.index.val)
        (eventsIn (seg L snap.index.val m.handed)) cs := by
      rw [← hdef, ← hn]
      exact hcs
    have hcomm' : m'.committed = cs := by
      rw [hcomm]
      exact congrArg (· ++ cs) hnil
    have hi' : m'.installed = none := hu.installed
    have hh' : m'.handed = m.handed := hu.handed
    have hfl : m'.floor = snap.index.val := hu.floor.trans hfloor
    have hcount := eventCount_seg L hle
    refine ⟨⟨hv.deliver hle hbound hcs prefix_rfl hu.sameLog hcomm hdel, ?_, ?_, ?_, ?_, ?_⟩,
      hi', hh', hfl⟩
    · rw [reached_none hi', hh', hfl]
      exact hle
    · rw [hh']
      exact hm.handed_le
    · intro c hc
      rw [reached_none hi', hh']
      rcases mem_append.mp (hdel ▸ hc : c ∈ m.delivered ++ cs) with hc | hc
      · exact le_trans (hbound c hc) (eventCount_mono L hle)
      · have := (hcs.bounds hc).2
        rwa [hcount] at this
    · intro _
      refine ⟨hdef', ?_, ?_⟩
      · rw [happ, hcs.length_eq, hh', ← hcount, ← hn]
      · rw [hfl, hh', hcomm']
        exact hcs
    · intro snap' hsnap'
      rw [hi'] at hsnap'
      cases hsnap'
  · rintro _ m' ⟨done, e, rest, m2, heq, ht, hh⟩
    obtain ⟨-, cs, hcs, hcomm, hdel, -⟩ := ht.numbers rfl
    have hpre : eventsIn done <+: eventsIn (seg L snap.index.val m.handed) := by
      rw [← hdef]
      show eventsIn done <+: eventsIn m.deferred
      rw [show m.deferred = done ++ e :: rest from heq, eventsIn, eventsIn, filter_append]
      exact prefix_append _ _
    replace hcs : Numbers (eventCount L snap.index.val) (eventsIn done) cs := by
      rw [← hn]
      exact hcs
    have hv2 : Valid L m2 := hv.deliver hle hbound hcs hpre ht.untouched.sameLog hcomm hdel
    exact hv2.halts hh

theorem Live.account (hm : Live L m) (hi : m.installed = some snap) {n}
    (hn : n.val = eventCount L snap.index.val)
    (hheld : s.held = (m.store.held.withApplied n).claim m.store.held.fence) :
    s.held.Follows L := by
  obtain ⟨hidx, -⟩ := hm.pending snap hi
  exact hheld ▸ (hm.follows.account (by rw [hn, hidx])).claim _

/-- A snapshot of the member's own state drops entries that it covers.  Behind a
snapshot nobody accounted for it is refused. -/
theorem Live.record (hm : Live L m) {floor} :
    (Store.recordSnapshotWithin index data floor).Leads m.store
      (fun _ s => Live L (m.withStore s)) fun _ s => Live L (m.withStore s) := by
  have hdone : ∀ {s}, Compacted index data floor m.store s → Live L (m.withStore s) := by
    rintro s ⟨term, events, hcheck, -, hheld⟩
    have hf : s.held.Follows L := hheld ▸ (hm.follows.compact hcheck).claim _
    refine ⟨hm.toValid.withStore hf, hm.floor_le, hm.handed_le, hm.bound, hm.counted, ?_⟩
    intro snap hi
    exact absurd (hm.pending snap hi).2.1 (Stored.checkRecord_counted hcheck)
  refine leads_recordSnapshotWithin.imp (fun _ _ => hdone) ?_
  rintro _ s (rfl | h)
  · exact hm
  · exact hdone h

/-! ### Restarts -/

theorem live_boot {s} (hf : s.Follows L) : Live L (boot sha s) := by
  have hle := le_trans hf.snapshot_le hf.commit_le
  have hv : Valid L (boot sha s) := ⟨hf, (fun c hc => by cases hc), .nil, suffix_rfl⟩
  cases ha : s.applied with
  | counted n =>
    have hi : (boot sha s).installed = none := by simp [boot, pendingSnapshot, ha]
    refine ⟨hv, ?_, hle, (fun c hc => by cases hc), fun _ => ⟨rfl, ?_, ?_⟩, ?_⟩
    · rw [reached_none hi]
      exact le_refl _
    · simp only [boot, recoveredApplied, ha]
      exact hf.counted n ha
    · show Numbers _ (eventsIn (seg L s.snapshot.index.val s.snapshot.index.val)) []
      rw [seg_self]
      trivial
    · intro snap hsnap
      rw [hi] at hsnap
      cases hsnap
  | snapshotPending =>
    have hi : (boot sha s).installed =
        some ⟨s.snapshot.index, s.snapshot.term, s.payload, sha s.payload⟩ := by
      simp [boot, pendingSnapshot, ha]
    refine ⟨hv, ?_, hle, (fun c hc => by cases hc), ?_, ?_⟩
    · rw [reached_some hi]
      exact le_refl _
    · intro hnone
      rw [hi] at hnone
      cases hnone
    · intro snap hsnap
      obtain rfl := Option.some.inj (hi.symm.trans hsnap)
      refine ⟨rfl, ha, rfl, le_refl _, rfl, ?_⟩
      show eventsIn [] = eventsIn (seg L s.snapshot.index.val s.snapshot.index.val)
      rw [seg_self]

theorem next_committedEntries {s} (hf : s.Follows L) : Next L (boot sha s) s.committedEntries := by
  have hlen : s.committedEntries.length = s.hardState.commit.val - s.snapshot.index.val := by
    rw [hf.committedEntries, seg_length hf.commit_le]
  have hle := hf.snapshot_le
  have hend : (boot sha s).handed + s.committedEntries.length = s.hardState.commit.val := by
    show s.snapshot.index.val + _ = _
    omega
  rw [Next, hend]
  exact ⟨hf.committedEntries, hf.commit_le⟩

/-- **A restart** numbers the recovered entries as they were. -/
theorem leads_recover {s} (hf : s.Follows L) :
    (recover lib s.committedEntries).Leads (boot sha s) (fun _ => Live L) fun _ => Valid L := by
  have hb : Live L (boot sha s) := live_boot hf
  have hnext : Next L (boot sha s) s.committedEntries := next_committedEntries hf
  refine leads_get_bind ?_
  by_cases hi : (boot sha s).installed.isSome
  · rw [if_pos hi]
    obtain ⟨snap, hsnap⟩ := Option.isSome_iff_exists.mp hi
    obtain ⟨hidx, hpend, hfloor, hle, hnil, -⟩ := hb.pending snap hsnap
    refine leads_modify ⟨⟨hf, hb.named, hb.ordered, hb.kept⟩, ?_, hnext.2, ?_, ?_, ?_⟩
    · refine le_of_eq (hfloor.trans (Eq.symm ?_))
      exact reached_some hsnap
    · intro c hc
      cases hc
    · intro hnone
      rw [show (boot sha s).installed = none from hnone] at hi
      cases hi
    · intro snap' hsnap'
      obtain rfl : snap = snap' := Option.some.inj (hsnap.symm.trans hsnap')
      refine ⟨hidx, hpend, hfloor, le_trans hle (Nat.le_add_right _ _), hnil, ?_⟩
      have hpos : (boot sha s).handed = snap.index.val := hfloor
      have := hnext.events (hpos.symm.le)
      rw [hpos, seg_self] at this
      refine this.symm.trans ?_
      exact congrArg
        (fun p => eventsIn (seg L snap.index.val (p + s.committedEntries.length))) hpos.symm
  · rw [if_neg hi]
    exact (At.take hnext.1 hnext.2 _ ⟨hb, .refl _, rfl⟩).imp (fun _ _ h => h.1) fun _ _ h => h

/-! ### Whole lives -/

section

variable (lib sha L)

/-- What the library and the host owe a member: ready states that follow the
log, and the count of events that the payload of a snapshot covers. -/
def Lawful (x : Life) : Action → Prop
  | .ready rd => ∀ m, x = .up m → Delivers L m rd
  | .resume n => ∀ m snap, x = .up m → m.installed = some snap →
      n.val = eventCount L snap.index.val
  | _ => True

/-- **When a snapshot is safe**: no entry waits behind an earlier one. -/
def Unhurried (x : Life) : Action → Prop
  | .ready rd => ∀ m, x = .up m → rd.snapshot.isSome → m.deferred = []
  | _ => True

def LawfulStep (x x' : Life) : Prop := ∃ a, Lawful L x a ∧ Step lib sha a x x'

def UnhurriedStep (x x' : Life) : Prop := ∃ a, Lawful L x a ∧ Unhurried x a ∧ Step lib sha a x x'

end

theorem UnhurriedStep.lawful {x x'} (h : UnhurriedStep lib L sha x x') :
    LawfulStep lib L sha x x' := by
  obtain ⟨a, hlaw, -, hstep⟩ := h
  exact ⟨a, hlaw, hstep⟩

def Life.start (voters : List U64) : Life := .down (.fresh voters [])

theorem UnhurriedStep.kept {x x'} (h : UnhurriedStep lib L sha x x') (hx : x.Kept L) :
    x'.Kept L := by
  obtain ⟨a, hlaw, hun, hstep⟩ := h
  cases hstep with
  | ready h =>
    refine lasting_live.after (leads_whenSound (fun hs => ?_) fun _ => hx.stopped _) h
    exact lasting_live.leads_marked ((hx.2 hs).handleReady (hlaw _ rfl) (hun _ rfl)) rfl
  | @resume m m' n r h =>
    refine lasting_live.after (lasting_live.leads_resume hx fun snap s hm hi hheld => ?_) h
    have hn := hlaw m snap rfl hi
    have hf := hm.account hi hn hheld.2
    exact ⟨hm.toValid.withStore hf, (hm.resumed hi hn hf).weaken (fun _ h => h)
      (fun _ _ h => h.1) fun _ h => h⟩
  | recordWithin h => exact lasting_live.after (lasting_live.leads_onStore hx fun hm => hm.record) h
  | record h =>
    exact lasting_live.after (lasting_live.leads_onStore hx fun hm =>
      leads_recordSnapshot (fun _ => hm.record) fun _ => hm) h
  | stop => exact hx.1.follows
  | reopen h => exact lasting_live.opened (leads_recover hx) h

theorem kept_of_run {voters x} (run : ReflTransGen (UnhurriedStep lib L sha) (start voters) x) :
    x.Kept L := by
  induction run with
  | refl => exact follows_fresh L voters []
  | tail _ step ih => exact step.kept ih

/-- **The ledger numbering of a raft member.**  Over every life in which no
snapshot is installed while entries wait behind another: every event that was
delivered has the number the committed log gives it, none is delivered twice,
and a sound member that waits for no snapshot holds all events above its floor,
numbered on from the count of those below.  When the host accounts for a
snapshot, the member returns exactly the events above it. -/
theorem numbering_follows_log {voters : List U64} {m : Member}
    (run : ReflTransGen (UnhurriedStep lib L sha) (start voters) (.up m)) :
    (∀ c ∈ m.delivered, Named L c) ∧ m.delivered.Pairwise (·.index < ·.index) ∧
      m.committed <:+ m.delivered ∧
      (m.isSound = true → m.installed = none →
        Numbers (eventCount L m.floor) (eventsIn (seg L m.floor m.handed)) m.committed) ∧
      ∀ snap n m', m.installed = some snap → n.val = eventCount L snap.index.val →
        (resumeWithApplied lib n).Ends m (.ok ()) m' →
        Numbers n.val (eventsIn (seg L snap.index.val m.handed)) m'.committed := by
  obtain ⟨hv, hl⟩ := kept_of_run run
  refine ⟨hv.named, hv.ordered, hv.kept, fun hs hi => ((hl hs).counted hi).2.2, ?_⟩
  intro snap n m' hi hn hends
  refine Leads.ok
    (Q := fun _ m' => Numbers n.val (eventsIn (seg L snap.index.val m.handed)) m'.committed)
    (leads_resumeWithApplied (W := fun _ _ => True) (fun _ => trivial)
    fun snap' s hs _ hheld => ?_) hends
  have hm := hl hs
  refine ⟨fun _ _ => trivial, leads_onErr
    ((hm.resumed hi hn (hm.account hi hn hheld.2) _ rfl).imp ?_ fun _ _ _ => trivial)
    (fun _ _ h => h) fun _ h => h⟩
  rintro _ m' ⟨hl', hnone, hhanded, hfloor⟩
  have := (hl'.counted hnone).2.2
  rwa [hfloor, hhanded, ← hn] at this

/-! ### A snapshot behind which entries wait -/

def eventEntry (n : U64) : Entry := ⟨n, 1, .normal, [], encodeEvent (.snapshotCommitted n 0)⟩

def snapshotReady (index : U64) : Ready where
  snapshot := some ⟨index, 1, ⟨[1, 2], [], [], [], false⟩, []⟩
  entries := []
  hardState := none
  committedEntries := []
  lightCommit := none
  lightEntries := []

def entryReady (e : Entry) : Ready where
  snapshot := none
  entries := [e]
  hardState := some ⟨1, 0, e.index⟩
  committedEntries := [e]
  lightCommit := none
  lightEntries := []

def played (p : Prog Member String Unit) (m : Member) : Member := (p m []).2.1

def noHash : Bytes → Digest := fun _ => .zero

def newcomer : Member := played (recover .plain []) (boot noHash (.fresh [1, 2] []))

/-- A new member that installed a snapshot at 1 and then got the entry 2. -/
def waiting : Member :=
  played (drain .plain noHash (entryReady (eventEntry 2)))
    (played (drain .plain noHash (snapshotReady 1)) newcomer)

/-- The group's log in the examples: four entries, each with an event. -/
def fourEvents : List Entry := [eventEntry 1, eventEntry 2, eventEntry 3, eventEntry 4]

theorem step_newcomer : Step .plain noHash .reopen (start [1, 2]) (.up newcomer) := by
  have h := ends_run (recover .plain []) (boot noHash (.fresh [1, 2] [])) []
  exact .reopen h

theorem step_played_ready (hok : (drain lib sha rd m []).1 = .ok ()) :
    Step lib sha (.ready rd) (.up m) (.up (played (drain lib sha rd) m)) := by
  have h := ends_run (drain lib sha rd) m []
  rw [hok] at h
  exact .ready h

theorem step_played_resume {n} (hok : (resumeWithApplied lib n m []).1 = .ok ()) :
    Step lib sha (.resume n) (.up m) (.up (played (resumeWithApplied lib n) m)) := by
  have h := ends_run (resumeWithApplied lib n) m []
  rw [hok] at h
  exact .resume h

theorem delivers_snapshotReady (hlow : m.handed ≤ index.val) (hhigh : index.val ≤ L.length) :
    Delivers L m (snapshotReady index) where
  snapshot := fun s hs => by
    cases hs
    exact ⟨hlow, hhigh⟩
  fresh := fun e he => by cases he
  decided := Follows.toAgrees (follows_install hhigh)
  settled := Follows.toAgrees (follows_install hhigh)
  commit_mono := le_refl _
  light_mono := le_refl _
  committed := (seg_self L index.val).symm
  committed_le := le_refl _
  light := (seg_self L index.val).symm
  light_le := le_refl _

theorem run_waiting :
    ReflTransGen (UnhurriedStep .plain fourEvents noHash) (start [1, 2]) (.up waiting) := by
  refine .tail (.tail (.single ⟨.reopen, trivial, trivial, step_newcomer⟩)
    ⟨.ready (snapshotReady 1), ?_, ?_, step_played_ready (by decide +kernel)⟩)
    ⟨.ready (entryReady (eventEntry 2)), ?_, ?_, step_played_ready (by decide +kernel)⟩
  · rintro m hm
    cases hm
    exact delivers_snapshotReady (by decide +kernel) (by decide +kernel)
  · rintro m hm -
    cases hm
    decide +kernel
  · rintro m hm
    cases hm
    exact ⟨(fun s hs => by cases hs), by decide +kernel, by decide +kernel, by decide +kernel,
      by decide +kernel, by decide +kernel, by decide +kernel, by decide +kernel,
      by decide +kernel, by decide +kernel⟩
  · rintro m - hs
    cases hs

/-- A snapshot, an entry that waits behind it, and the count of the host. -/
theorem numbering_behind_snapshot :
    ReflTransGen (UnhurriedStep .plain fourEvents noHash) (start [1, 2]) (.up waiting) ∧
      (∀ c ∈ waiting.delivered, Named fourEvents c) ∧
      waiting.delivered.Pairwise (·.index < ·.index) ∧ waiting.committed <:+ waiting.delivered ∧
      (waiting.isSound = true → waiting.installed = none →
        Numbers (eventCount fourEvents waiting.floor)
          (eventsIn (seg fourEvents waiting.floor waiting.handed)) waiting.committed) ∧
      ∀ snap n m', waiting.installed = some snap → n.val = eventCount fourEvents snap.index.val →
        (resumeWithApplied .plain n).Ends waiting (.ok ()) m' →
        Numbers n.val (eventsIn (seg fourEvents snap.index.val waiting.handed)) m'.committed :=
  ⟨run_waiting, numbering_follows_log run_waiting⟩

/-- The member of `waiting` after a second snapshot, at 3, and the count 3. -/
def misnumbered : Member :=
  played (resumeWithApplied .plain 3) (played (drain .plain noHash (snapshotReady 3)) waiting)

/-- **A second snapshot does not empty the queue of waiting entries**: the entry
2, which the snapshot at 3 covers, comes back as the event with the number 4. -/
theorem second_snapshot_misnumbers :
    ReflTransGen (LawfulStep .plain fourEvents noHash) (start [1, 2]) (.up misnumbered) ∧
      misnumbered.committed = [⟨4, .snapshotCommitted 2 0⟩] ∧
      ¬ Named fourEvents ⟨4, .snapshotCommitted 2 0⟩ := by
  refine ⟨?_, by decide +kernel, ?_⟩
  · have hrun := ReflTransGen.mono (fun _ _ h => h.lawful) _ _ run_waiting
    refine (hrun.tail ⟨.ready (snapshotReady 3), ?_, step_played_ready (by decide +kernel)⟩).tail
      ⟨.resume 3, ?_, step_played_resume (by decide +kernel)⟩
    · rintro m hm
      cases hm
      exact delivers_snapshotReady (by decide +kernel) (by decide +kernel)
    · rintro m snap hm hsnap
      cases hm
      have hi : (played (drain .plain noHash (snapshotReady 3)) waiting).installed =
          some ⟨3, 1, [], .zero⟩ := by decide +kernel
      cases Option.some.inj (hi.symm.trans hsnap)
      decide +kernel
  · rintro ⟨i, e, hi, he, hd⟩
    obtain rfl : i = 3 := Nat.succ.inj hi.symm
    have he' : (eventsIn fourEvents)[3]? = some (eventEntry 4) := by decide +kernel
    cases Option.some.inj (he'.symm.trans he)
    revert hd
    decide +kernel

end Ptr.Raft
