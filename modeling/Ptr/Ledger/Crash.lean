import Ptr.Ledger.Recovery
import Ptr.Ledger.Visible

/-!
# The crash contract of the acknowledged ledger

Whole lives of a ledger: appends, cutovers, reclaims, closings, power losses and
reopenings, where any file step of a call may fail or stop the process.  A power
loss keeps what was synchronized and a prefix of what was written (`Settles`).

* `Inv`: the history that the installed anchor covers, with everything that was
  acknowledged in front, and a handle that has exactly that history.
* `CarefulStep.inv`: every action keeps it, as long as no reclaim runs on a
  handle whose floor is not the installed one and no reopen finds bytes in the
  live log that were never synchronized.
* `reopen_restores_acknowledged`: so a reopen finds every acknowledged record
  above the floor, and nothing that was not passed to the ledger.
* `reopen_after_reclaim_fails`, `reopen_after_unsynced_reopen_fails`: both
  conditions are needed.
-/

namespace Ptr.Ledger

open Lib AcknowledgedLedger Prog AnchorStore Disk CommittedEvent List

/-! ### Lives of a ledger -/

def Disk.Settled : Option DiskFile → Option DiskFile → Prop
  | some f, some f' => f.Settles f'
  | none, none => True
  | _, _ => False

def Disk.Settles (d d' : Disk) : Prop :=
  (∀ i : CommitIndex, Settled d.logs[i]? d'.logs[i]?) ∧ Settled d.anchor d'.anchor

/-- A ledger, the records it acknowledged and the events that were passed to it. -/
structure Life where
  disk : Disk
  handle : Option AcknowledgedLedger
  acked : List CommittedEvent
  passed : List LedgerEvent

inductive Action
  | append (event : LedgerEvent)
  | compact (plan : CompactionPlan)
  | reclaim
  | close
  | powerLoss
  | reopen (minimumEpoch : U64)

def survivor {α : Type} (h : AcknowledgedLedger) :
    Outcome AcknowledgedError α → Option AcknowledgedLedger
  | .crash => none
  | _ => some h

def ackedByAppend (e : LedgerEvent) : Outcome AcknowledgedError CommitIndex → List CommittedEvent
  | .ok i => [⟨i, e⟩]
  | _ => []

def ackedByReopen (n : Nat) :
    Outcome AcknowledgedError (AcknowledgedLedger × Split) → List CommittedEvent
  | .ok (h, _) => h.log.events.filter fun c => n < c.index.val
  | _ => []

def reopened : Outcome AcknowledgedError (AcknowledgedLedger × Split) → Option AcknowledgedLedger
  | .ok (h, _) => some h
  | _ => none

variable (sha : Bytes → Digest) (key : AnchorKey)

inductive Step : Action → Life → Life → Prop
  | append {s : Life} {h h' : AcknowledgedLedger} {d' : Disk} {e : LedgerEvent}
      {r : Outcome AcknowledgedError CommitIndex} :
      s.handle = some h → (appendAcknowledged sha key e).Ends (h, s.disk) r (h', d') →
      Step (.append e) s ⟨d', survivor h' r, s.acked ++ ackedByAppend e r, s.passed ++ [e]⟩
  | compact {s : Life} {h h' : AcknowledgedLedger} {d' : Disk} {plan : CompactionPlan}
      {r : Outcome AcknowledgedError CompactionOutcome} :
      s.handle = some h → (AcknowledgedLedger.compact sha key plan).Ends (h, s.disk) r (h', d') →
      Step (.compact plan) s ⟨d', survivor h' r, s.acked, s.passed⟩
  | reclaim {s : Life} {h h' : AcknowledgedLedger} {d' : Disk}
      {r : Outcome AcknowledgedError (List CommitIndex)} :
      s.handle = some h → reclaimOrphans.Ends (h, s.disk) r (h', d') →
      Step .reclaim s ⟨d', survivor h' r, s.acked, s.passed⟩
  | close {s : Life} : Step .close s { s with handle := none }
  | powerLoss {s : Life} {d' : Disk} :
      s.disk.Settles d' → Step .powerLoss s { s with disk := d', handle := none }
  | reopen {s : Life} {d' : Disk} {e : U64}
      {r : Outcome AcknowledgedError (AcknowledgedLedger × Split)} :
      s.handle = none → (openLedger sha key e .acknowledge).Ends s.disk r d' →
      Step (.reopen e) s ⟨d', reopened r, s.acked ++ ackedByReopen s.acked.length r, s.passed⟩

/-- **When an action is safe**: a reclaim on a handle that holds the installed
floor, and a reopen on a live log whose bytes are all synchronized. -/
def Careful (s : Life) : Action → Prop
  | .reclaim => ∀ h, s.handle = some h →
      (visible sha key s.disk).map (·.base.index) = some h.anchors.current.base.index
  | .reopen _ => ∀ a, visible sha key s.disk = some a → LogSynced s.disk a.base.index
  | _ => True

def CarefulStep (s s' : Life) : Prop := ∃ act, Careful sha key s act ∧ Step sha key act s s'

def Life.start (h : AcknowledgedLedger) (d : Disk) : Life := ⟨d, some h, [], []⟩

/-! ### The invariant -/

/-- The anchor `a` on disk covers `hist`, which begins with what was
acknowledged.  A handle that may still publish has acknowledged all of it. -/
structure Inv (s : Life) (hist : List LedgerEvent) (a : ProtectedAnchor) : Prop where
  holds : Holds sha key (· ∈ s.passed) hist s.disk a
  passed : ∀ e ∈ hist, e ∈ s.passed
  acked : s.acked = number 0 (hist.take s.acked.length)
  acked_le : s.acked.length ≤ hist.length
  floor : a.base.index.val ≤ s.acked.length
  handle : ∀ h, s.handle = some h → h.fenced = false →
    Tracks sha hist h s.disk ∧ s.acked.length = hist.length

variable {sha key} {s s' : Life} {hist : List LedgerEvent} {a : ProtectedAnchor}
  {h h' : AcknowledgedLedger}
  {d d' : Disk} {P : LedgerEvent → Prop} {e : LedgerEvent}

theorem survivor_eq_some {α : Type} {r : Outcome AcknowledgedError α}
    (hs : survivor h r = some h') :
    h' = h := by
  cases r <;> simp_all [survivor]

theorem ackedByAppend_failed {r} (hr : r.Failed) : ackedByAppend e r = [] := by
  cases r with
  | ok => exact hr.elim
  | err | crash => rfl

theorem Inv.visible (hi : Inv sha key s hist a) : visible sha key s.disk = some a :=
  visible_of_record hi.holds.commits.checkSelf hi.holds.anchor

theorem Holds.mono {Q} (hPQ : ∀ e, P e → Q e) (hd : Holds sha key P hist d a) :
    Holds sha key Q hist d a := by
  obtain ⟨f, hf, hlive⟩ := hd.log
  exact ⟨hd.anchor, hd.commits, f, hf, hlive.mono hPQ⟩

theorem Holds.frame (hd : Holds sha key P hist d a) (ha : d'.anchor = d.anchor)
    (hl : d'.logs[a.base.index]? = d.logs[a.base.index]?) : Holds sha key P hist d' a := by
  obtain ⟨f, hf, hlive⟩ := hd.log
  exact ⟨ha.trans hd.anchor, hd.commits, f, hl.trans hf, hlive⟩

theorem Tracks.frame (ht : Tracks sha hist h d)
    (hl : d'.logs[h.log.base.index]? = d.logs[h.log.base.index]?) : Tracks sha hist h d' := by
  refine ⟨ht.commits, ht.base, ht.anchor, ht.events, fun hp => ?_⟩
  obtain ⟨bs, hc, hf, hlen⟩ := ht.file hp
  exact ⟨bs, hc, hl.trans hf, hlen⟩

theorem Tracks.poison (ht : Tracks sha hist h d) :
    Tracks sha hist { h with log := { h.log with poisoned := true } } d' :=
  ⟨ht.commits, ht.base, ht.anchor, ht.events, fun hp => by cases hp⟩

/-! ### Power loss -/

theorem Holds.settles (hd : Holds sha key P hist d a) (hs : d.Settles d') :
    Holds sha key P hist d' a := by
  obtain ⟨hlogs, hanchor⟩ := hs
  obtain ⟨f, hf, hlive⟩ := hd.log
  have hi := hlogs a.base.index
  rw [hd.anchor] at hanchor
  rw [hf] at hi
  cases hf' : d'.logs[a.base.index]? with
  | none => rw [hf'] at hi; exact hi.elim
  | some f' =>
    rw [hf'] at hi
    cases ha' : d'.anchor with
    | none => rw [ha'] at hanchor; exact hanchor.elim
    | some =>
      rw [ha'] at hanchor
      exact ⟨by rw [ha', hanchor.synced], hd.commits, f', hf', hlive.settles hi⟩

/-! ### Appending -/

/-- A prefix of a new record behind the log of a handle keeps the disk in order,
whether or not the anchor names that log. -/
theorem Holds.write {bs ls x g k} (hd : Holds sha key P hist d a) (ht : Tracks sha hist h d)
    (he : P e) (hx : encodeRecord sha e h.log.anchor = .ok (bs, x))
    (hls : Chain sha h.log.base (hist.drop h.log.base.index.val) ls h.log.anchor)
    (hsize : (logMagic ++ ls).length + bs.length ≤ maxLogBytes)
    (hg : g.content = (logMagic ++ ls) ++ bs.take k) (hdur : logMagic ++ ls <+: g.durable)
    (hrem : g.removed = []) : Holds sha key P hist (d.setLog h.log.base.index g) a := by
  by_cases hi : a.base.index = h.log.base.index
  swap
  · exact hd.frame rfl (getElem?_setLog_ne hi g d)
  have hbase : a.base = h.log.base := by
    rw [ht.base] at hi ⊢
    exact hd.commits.base_eq ht.commits hi
  have hlog : a.log = h.log.anchor := by
    rw [ht.anchor]
    exact hd.commits.log_eq ht.commits
  refine ⟨hd.anchor, hd.commits, g, by rw [hi, getElem?_setLog_self], ?_⟩
  rw [hbase, hlog]
  have hseen : LiveBytes sha P h.log.base
      (hist.drop h.log.base.index.val) h.log.anchor g.content := by
    refine ⟨ls, bs.take k, by rw [hg, append_assoc], hls,
      .inr ⟨e, bs, x, he, hx, take_prefix _ _⟩, ?_⟩
    rw [hg, length_append, length_take]
    omega
  refine ⟨⟨ls, hls, hdur⟩, hseen, ?_⟩
  rw [hrem, append_nil]
  exact hseen.of_prefix hls hdur g.durable_prefix_content

/-- The log and the disk of a handle with the whole record of `e` behind its log. -/
structure Lengthened (sha : Bytes → Digest) (hist : List LedgerEvent) (h : AcknowledgedLedger)
    (e : LedgerEvent) (x : LogAnchor) (bs ls : Bytes) (y : FileLedger × Disk) : Prop where
  record : encodeRecord sha e h.log.anchor = .ok (bs, x)
  chain : Chain sha h.log.base (hist.drop h.log.base.index.val) ls h.log.anchor
  size : (logMagic ++ (ls ++ bs)).length ≤ maxLogBytes
  file : y.2.logs[h.log.base.index]? = some (.synced (logMagic ++ (ls ++ bs)))
  ledger : y.1 =
    ⟨h.log.events ++ [⟨x.index, e⟩], x, h.log.base, (logMagic ++ (ls ++ bs)).length, false⟩

/-- **What an append does to the log of a handle**: at most a prefix of one
record is added, or the whole record and a handle of it. -/
theorem Tracks.leads_appendDurable (ht : Tracks sha hist h d) (hd : Holds sha key P hist d a)
    (he : P e) :
    (FileLedger.appendDurable sha e).Leads (h.log, d)
      (fun i y => Holds sha key P hist y.2 a ∧ ∃ x bs ls, i = x.index ∧
        Lengthened sha hist h e x bs ls y)
      fun _ y => Holds sha key P hist y.2 a ∧ Tracks sha hist { h with log := y.1 } y.2 := by
  have hwrite : ∀ {bs x f g k}, FileLedger.Appends sha e h.log d bs x f →
      FileLedger.Grown f bs k g →
      ∃ ls, Chain sha h.log.base (hist.drop h.log.base.index.val) ls h.log.anchor ∧
      f = .synced (logMagic ++ ls) ∧ h.log.length = (logMagic ++ ls).length ∧
      Holds sha key P hist (d.setLog h.log.base.index g) a := by
    intro bs x f g k happ hg
    obtain ⟨ls, hls, hfile, hlen, -⟩ := ht.file happ.clean
    obtain rfl := Option.some.inj (happ.file.symm.trans hfile)
    have hcontent := hg.content
    rw [DiskFile.content_synced] at hcontent
    exact ⟨ls, hls, rfl, hlen, hd.write ht he happ.record hls (hlen ▸ happ.size) hcontent hg.durable
      (hg.removed rfl)⟩
  refine FileLedger.leads_appendDurable.imp ?_ ?_
  · rintro i _ ⟨bs, x, f, happ, rfl, rfl⟩
    obtain ⟨ls, hls, rfl, hlen, hd'⟩ := hwrite happ FileLedger.grown_synced
    have hnew : h.log.length + bs.length = (logMagic ++ (ls ++ bs)).length := by
      rw [hlen, ← append_assoc]
      exact length_append.symm
    refine ⟨hd', x, bs, ls, rfl, happ.record, hls, hnew ▸ happ.size, ?_, by rw [hnew]⟩
    rw [Disk.getElem?_setLog_self, DiskFile.content_synced, append_assoc]
  · rintro w ⟨l, d'⟩ (⟨hd', hl⟩ | ⟨bs, x, f, g, k, happ, hg, heq⟩)
    · obtain rfl : d' = d := hd'
      obtain rfl | rfl : l = h.log ∨ l = { h.log with poisoned := true } := hl
      · exact ⟨hd, ht⟩
      · exact ⟨hd, ht.poison⟩
    · cases heq
      obtain ⟨ls, -, -, -, hd'⟩ := hwrite happ hg
      exact ⟨hd', ht.poison⟩

theorem Tracks.appended {bs ls x next l d₁} (ht : Tracks sha hist h d)
    (hl : Lengthened sha hist h e x bs ls (l, d₁))
    (hn : acknowledged h.anchors.current x ((l.derivedOrigin sha).getD .unset) = .ok next)
    (hlogs : d'.logs[h.log.base.index]? = d₁.logs[h.log.base.index]?) :
    Tracks sha (hist ++ [e]) { h with log := l, anchors := ⟨next⟩ } d' := by
  obtain ⟨hx, hls, hsize, hf, hl⟩ := hl
  obtain rfl : l = _ := hl
  obtain ⟨-, hnlog, hnbase, -⟩ := acknowledged_ok hn
  have hfloor : h.log.base.index.val ≤ hist.length := ht.base ▸ ht.commits.floor
  have hdrop : (hist ++ [e]).drop h.log.base.index.val = hist.drop h.log.base.index.val ++ [e] :=
    drop_append_of_le_length hfloor
  have hchain := hls.append (.single hx)
  have hevents : h.log.events ++ [⟨x.index, e⟩] =
      number h.log.base.index ((hist ++ [e]).drop h.log.base.index.val) := by
    rw [hdrop, number_append, ht.events, ← hls.index_eq]
    simp [number, encodeRecord_succ hx]
  obtain ⟨cs, hbase⟩ := ht.commits.base
  rw [← ht.base, ← take_append_of_le_length hfloor] at hbase
  have hcover := Chain.single hx
  rw [ht.anchor] at hcover
  have hcommits := ht.commits.acknowledged hcover (by simp)
    (derivedOrigin_originOf (l := ⟨_, x, _, _, false⟩) hbase hevents) hn
  refine ⟨hcommits, ht.base.trans hnbase.symm, hnlog.symm, hevents,
    fun _ => ⟨ls ++ bs, ?_, hlogs.trans hf, rfl, hsize⟩⟩
  rw [hdrop]
  exact hchain

theorem Tracks.holds (ht : Tracks sha hist h d) (hp : h.log.poisoned = false)
    (ha : d.anchor = some (.synced (h.anchors.current.record sha key))) :
    Holds sha key P hist d h.anchors.current := by
  obtain ⟨bs, hc, hf, hlen, hsize⟩ := ht.file hp
  refine ⟨ha, ht.commits, _, by rw [← ht.base]; exact hf, LiveBytes.synced ?_⟩
  rw [← ht.base, ← ht.anchor]
  exact ⟨bs, [], by rw [append_nil], hc, .inl rfl, hlen ▸ hsize⟩

theorem Inv.keep {handle passed} (hi : Inv sha key s hist a) (hp : ∀ e ∈ s.passed, e ∈ passed) {a'}
    (hd : Holds sha key (· ∈ passed) hist d' a') (hfloor : a'.base.index.val ≤ s.acked.length)
    (hh : ∀ h, handle = some h → h.fenced = false → Tracks sha hist h d' ∧
      s.acked.length = hist.length) : Inv sha key ⟨d', handle, s.acked, passed⟩ hist a' :=
  ⟨hd, fun e he => hp e (hi.passed e he), hi.acked, hi.acked_le, hfloor, hh⟩

theorem acked_snoc {acked x t bs cs} (hc : Chain sha (.empty sha) hist bs t)
    (hx : encodeRecord sha e t = .ok (cs, x)) (ha : acked = number 0 hist) :
    acked ++ [⟨x.index, e⟩] = number 0 (hist ++ [e]) := by
  have hi : 0 + Fin.ofNat _ hist.length = t.index := hc.index_eq.symm
  rw [number_append, ha, hi]
  simp [number, encodeRecord_succ hx]

/-- **An append keeps the invariant**, however it ends. -/
theorem Inv.append {r : Outcome AcknowledgedError CommitIndex} (hi : Inv sha key s hist a)
    (hs : s.handle = some h) (hp : (appendAcknowledged sha key e).Ends (h, s.disk) r (h', d')) :
    ∃ hist' a', Inv sha key ⟨d', survivor h' r, s.acked ++ ackedByAppend e r, s.passed ++ [e]⟩
      hist' a' := by
  have hsub : ∀ x ∈ s.passed, x ∈ s.passed ++ [e] := fun x hx => mem_append_left _ hx
  have hd := hi.holds.mono hsub
  have he : e ∈ s.passed ++ [e] := by simp
  refine Leads.elim (C := fun r (x : AcknowledgedLedger × Disk) => ∃ hist' a',
    Inv sha key ⟨x.2, survivor x.1 r, s.acked ++ ackedByAppend e r, s.passed ++ [e]⟩ hist' a')
    (leads_appendAcknowledged (R := fun i y => Holds sha key (· ∈ s.passed ++ [e]) hist y.2 a ∧
      ∃ x bs ls, i = x.index ∧ Lengthened sha hist h e x bs ls y) (fun hf w => ?_) (fun hf => ?_)
      fun hf i l d₁ hR => ?_) hp
  · -- the fence refused
    rw [ackedByAppend_failed (Outcome.failed_elim w), append_nil]
    refine ⟨hist, a, hi.keep hsub hd hi.floor fun h1 hh1 hf1 => ?_⟩
    rw [survivor_eq_some hh1, hf] at hf1
    cases hf1
  · -- the log did not take the record
    obtain ⟨ht, hlen⟩ := hi.handle h hs hf
    refine (ht.leads_appendDurable hd he).imp (fun _ _ hR => hR) ?_
    rintro w y ⟨hd', ht'⟩
    rw [ackedByAppend_failed (Outcome.failed_elim _), append_nil]
    refine ⟨hist, a, hi.keep hsub hd' hi.floor fun h1 hh1 _ => ?_⟩
    rw [survivor_eq_some hh1]
    exact ⟨ht', hlen⟩
  obtain ⟨ht, hlen⟩ := hi.handle h hs hf
  obtain ⟨hd₁, x, bs, ls, rfl, hnew⟩ := hR
  have hlx : l.anchor = x := congrArg FileLedger.anchor hnew.ledger
  rw [hlx]
  have hpassed : ∀ y ∈ hist ++ [e], y ∈ s.passed ++ [e] := by
    intro y hy
    rcases mem_append.mp hy with hy | hy
    · exact hsub y (hi.passed y hy)
    · exact mem_append_right _ hy
  have hacked : s.acked = number 0 hist := by
    have := hi.acked
    rwa [hlen, take_length] at this
  -- an installed anchor covers the record, whatever the caller is told
  have hcovered : ∀ {next d'}, Installs sha key
      (acknowledged h.anchors.current x ((l.derivedOrigin sha).getD .unset)) h.anchors next d₁ d' →
      Tracks sha (hist ++ [e]) { h with log := l, anchors := ⟨next⟩, fenced := false } d' ∧
    Holds sha key (· ∈ s.passed ++ [e]) (hist ++ [e]) d' next ∧
    next.base.index.val ≤ s.acked.length := by
    rintro next d' ⟨hn, -, hlogs, ha, -⟩
    have ht' : Tracks sha (hist ++ [e])
        { h with log := l, anchors := ⟨next⟩, fenced := false } d' := by
      rw [← hf]
      exact ht.appended hnew hn (by rw [hlogs])
    refine ⟨ht', ht'.holds (congrArg FileLedger.poisoned hnew.ledger) ha, ?_⟩
    rw [(acknowledged_ok hn).2.2.1, hlen]
    exact ht.commits.floor
  refine ⟨congrArg FileLedger.poisoned hnew.ledger, leads_acknowledge.imp ?_ ?_⟩
  · rintro next ⟨anchors, d'⟩ ⟨hinst, hy⟩
    obtain rfl : anchors = ⟨next⟩ := hy
    obtain ⟨ht', hd', hfloor⟩ := hcovered hinst
    obtain ⟨cs, hc⟩ := ht.commits.log
    rw [← ht.anchor] at hc
    have hall := acked_snoc hc hnew.record hacked
    refine ⟨hist ++ [e], next, hd', hpassed, ?_, ?_, ?_, fun h1 hh1 _ => ?_⟩
    · rw [take_of_length_le (by simp [ackedByAppend, hlen])]
      exact hall
    · simp [ackedByAppend, hlen]
    · simp only [length_append]
      omega
    · cases hh1
      exact ⟨ht', by simp [ackedByAppend, hlen]⟩
  · rintro w ⟨anchors, d'⟩ ⟨-, hend⟩
    rw [ackedByAppend_failed (Outcome.failed_elim _), append_nil]
    rcases hend with ⟨hlogs, ha, -⟩ | ⟨next, hinst⟩
    · -- the record stays behind the anchor and the handle is fenced
      refine ⟨hist, a, hi.keep hsub (hd₁.frame ha (by rw [hlogs])) hi.floor fun h1 hh1 hf1 => ?_⟩
      rw [survivor_eq_some hh1] at hf1
      cases hf1
    · obtain ⟨-, hd', hfloor⟩ := hcovered hinst
      refine ⟨hist ++ [e], next, hd', hpassed, ?_, ?_, hfloor, fun h1 hh1 hf1 => ?_⟩
      · simp only [hlen, take_left']
        exact hacked
      · simp only [length_append]
        omega
      · rw [survivor_eq_some hh1] at hf1
        cases hf1

/-! ### Compacting -/

/-- What an accepted plan cuts off, and the log that it writes. -/
theorem Tracks.checkPlan {plan bytes} (ht : Tracks sha hist h d)
    (hp : h.checkPlan sha plan = .ok bytes) :
    plan.tail = h.anchors.current.log ∧ h.anchors.current.base.index < plan.base.index ∧
      plan.base.index.val ≤ hist.length ∧
      (∃ cs, Chain sha (.empty sha) (hist.take plan.base.index.val) cs plan.base) ∧
      ∃ bs, bytes = logMagic ++ bs ∧ bytes.length ≤ maxLogBytes ∧
        Chain sha plan.base (hist.drop plan.base.index.val) bs plan.tail := by
  simp only [AcknowledgedLedger.checkPlan, refuse_eq_ok, bind_eq_ok, not_not, mapError_eq_ok] at hp
  obtain ⟨htail, hlow, hhigh, anchors, hanchors, hget, henc⟩ := hp
  have hlow : h.anchors.current.base.index < plan.base.index := not_le.mp hlow
  have hhigh : plan.base.index ≤ h.anchors.current.log.index := not_lt.mp hhigh
  rw [Fin.le_def, ht.commits.index] at hhigh
  have hlt := Fin.lt_def.mp hlow
  have hb : h.log.base.index.val = h.anchors.current.base.index.val := by rw [ht.base]
  -- the floor is the anchor of the records it cuts off
  obtain ⟨cs, hcut⟩ := chainAnchors_get hanchors hget
  rw [ht.events, number_map_event, hb] at hcut
  obtain ⟨bs0, hbase⟩ := ht.commits.base
  have hfloor := hbase.append hcut
  have htake : hist.take h.anchors.current.base.index.val ++
      (hist.drop h.anchors.current.base.index.val).take
        (plan.base.index.val - h.anchors.current.base.index.val - 1 + 1) =
      hist.take plan.base.index.val := by
    rw [← take_add]
    exact congrArg (take · hist) (by omega)
  rw [htake] at hfloor
  -- the new log is the rest of the records
  obtain ⟨bs, t, hc, hbytes, hsize⟩ := encodeLogFrom_ok henc
  rw [map_drop, ht.events, number_map_event, hb, drop_drop] at hc
  have hsum : h.anchors.current.base.index.val +
      (plan.base.index.val - h.anchors.current.base.index.val) = plan.base.index.val := by omega
  rw [hsum] at hc
  obtain ⟨ls, hall⟩ := ht.commits.log
  have happ := hfloor.append hc
  rw [take_append_drop] at happ
  obtain ⟨-, rfl⟩ := hall.unique happ
  exact ⟨htail, hlow, hhigh, ⟨_, hfloor⟩, bs, hbytes, hsize, htail ▸ hc⟩

/-- **A cutover keeps the invariant**, however it ends. -/
theorem Inv.compact {plan : CompactionPlan} {r} (hi : Inv sha key s hist a) (hs : s.handle = some h)
    (hp : (AcknowledgedLedger.compact sha key plan).Ends (h, s.disk) r (h', d')) :
    ∃ hist' a', Inv sha key ⟨d', survivor h' r, s.acked, s.passed⟩ hist' a' := by
  refine Leads.elim (C := fun r (x : AcknowledgedLedger × Disk) => ∃ hist' a',
    Inv sha key ⟨x.2, survivor x.1 r, s.acked, s.passed⟩ hist' a')
    (leads_compact (fun w => ?_) fun bytes hf hplan hnone => ?_) hp
  · refine ⟨hist, a, hi.keep (fun _ => id) hi.holds hi.floor fun h1 hh1 hf1 => ?_⟩
    rw [survivor_eq_some hh1] at hf1 ⊢
    exact hi.handle _ hs hf1
  obtain ⟨ht, hlen⟩ := hi.handle h hs hf
  obtain ⟨htail, hlow, hhigh, ⟨cs, hfloor⟩, bs, rfl, hsize, hchain⟩ := ht.checkPlan hplan
  -- the new log has a name of its own
  have hne : a.base.index ≠ plan.base.index := by
    intro heq
    obtain ⟨f, hf, -⟩ := hi.holds.log
    rw [heq, hnone] at hf
    cases hf
  have hne' : h.log.base.index ≠ plan.base.index := by
    rw [ht.base]
    exact hlow.ne
  have hkeep : ∀ f, Holds sha key (· ∈ s.passed) hist (s.disk.setLog plan.base.index f) a ∧
      Tracks sha hist h (s.disk.setLog plan.base.index f) := fun f =>
    ⟨hi.holds.frame rfl (getElem?_setLog_ne hne f _),
      ht.frame (getElem?_setLog_ne hne' f _)⟩
  -- the handle stays on the old log, which is still there
  have hstay : ∀ {r : Outcome AcknowledgedError CompactionOutcome} {f d' a'},
      d'.logs = (s.disk.setLog plan.base.index f).logs → Holds sha key (· ∈ s.passed) hist d' a' →
      a'.base.index.val ≤ s.acked.length →
        ∃ hist' a', Inv sha key ⟨d', survivor h r, s.acked, s.passed⟩ hist' a' := by
    intro r f d' a' hlogs hd hfl
    refine ⟨hist, a', hi.keep (fun _ => id) hd hfl fun h1 hh1 _ => ?_⟩
    rw [survivor_eq_some hh1]
    exact ⟨(hkeep f).2.frame (by rw [hlogs]), hlen⟩
  refine ⟨fun w f => hstay rfl (hkeep f).1 hi.floor, fun p hdec => ?_⟩
  obtain ⟨p', hdec', -, hev⟩ := decodeLogFrom_chain hchain hsize
  obtain rfl := Except.ok.inj (hdec.symm.trans hdec')
  -- an installed anchor names the new log, whatever the caller is told
  have hmoved : ∀ {next d'}, Installs sha key
      (compacted h.anchors.current plan.base plan.tail) h.anchors
      next (s.disk.setLog plan.base.index (.synced (logMagic ++ bs))) d' →
      Tracks sha hist ⟨⟨p.events, plan.tail, plan.base, (logMagic ++ bs).length, false⟩, ⟨next⟩,
        h.fenced, h.recovery⟩ d' ∧ Holds sha key (· ∈ s.passed) hist d' next ∧
        next.base.index.val ≤ s.acked.length := by
    rintro next d' ⟨hn, -, hlogs, ha, -⟩
    rw [htail] at hn
    obtain ⟨-, hnlog, hnbase, -⟩ := compacted_ok hn
    have htn : Tracks sha hist ⟨⟨p.events, plan.tail, plan.base, (logMagic ++ bs).length, false⟩,
        ⟨next⟩, h.fenced, h.recovery⟩ d' := by
      refine ⟨ht.commits.compacted hfloor hlow hhigh hn, hnbase.symm, by rw [hnlog]; exact htail,
        hev, fun _ => ?_⟩
      exact ⟨bs, hchain, by rw [hlogs, getElem?_setLog_self], rfl, hsize⟩
    refine ⟨htn, htn.holds rfl ha, ?_⟩
    rw [hnbase, hlen]
    exact hhigh
  refine leads_advanceCompacted.imp ?_ ?_
  · rintro next ⟨anchors, d'⟩ ⟨hinst, hy⟩ o
    obtain rfl : anchors = ⟨next⟩ := hy
    obtain ⟨htn, hdn, hfl⟩ := hmoved hinst
    refine ⟨hist, next, hi.keep (fun _ => id) hdn hfl fun h1 hh1 _ => ?_⟩
    rw [survivor_eq_some hh1]
    exact ⟨htn, hlen⟩
  · rintro w ⟨anchors, d'⟩ ⟨hy, hend⟩
    obtain rfl : anchors = h.anchors := hy
    rcases hend with ⟨hlogs, ha, -⟩ | ⟨next, hinst⟩
    · exact hstay hlogs ((hkeep _).1.frame ha (by rw [hlogs])) hi.floor
    · obtain ⟨-, hdn, hfl⟩ := hmoved hinst
      exact hstay hinst.published.1 hdn hfl

/-! ### Reclaiming -/

theorem leads_removeAll {found} : (removeAll found).Leads d
    (fun _ d' => d'.anchor = d.anchor ∧ ∀ i ∉ found, d'.logs[i]? = d.logs[i]?)
    fun _ d' => d'.anchor = d.anchor ∧ ∀ i ∉ found, d'.logs[i]? = d.logs[i]? := by
  induction found generalizing d with
  | nil => exact leads_pure ⟨rfl, fun _ _ => rfl⟩
  | cons j rest ih =>
    have herase : ∀ i ≠ j, (d.eraseLog j).logs[i]? = d.logs[i]? := by
      intro i hij
      rw [Disk.eraseLog, Std.ExtTreeMap.getElem?_erase, if_neg]
      simpa using hij.symm
    have hrest : ∀ {d' : Disk}, (d'.anchor = (d.eraseLog j).anchor ∧
        ∀ i ∉ rest, d'.logs[i]? = (d.eraseLog j).logs[i]?) →
        d'.anchor = d.anchor ∧ ∀ i ∉ j :: rest, d'.logs[i]? = d.logs[i]? := by
      rintro d' ⟨ha, hl⟩
      refine ⟨ha, fun i hmem => ?_⟩
      rw [mem_cons, not_or] at hmem
      rw [hl i hmem.2, herase i hmem.1]
    refine leads_atomic_bind (fun _ => ⟨rfl, fun _ _ => rfl⟩)
      (fun _ => hrest ⟨rfl, fun _ _ => rfl⟩) ?_
    exact ih.imp (fun _ _ => hrest) fun _ _ => hrest

/-- **A reclaim** keeps the log of the floor that its handle holds. -/
theorem ends_reclaimOrphans {r} (hp : reclaimOrphans.Ends (h, d) r (h', d')) :
    h' = h ∧ d'.anchor = d.anchor ∧
      d'.logs[h.anchors.current.base.index]? = d.logs[h.anchors.current.base.index]? := by
  have hlive : h.anchors.current.base.index ∉ orphans d h.anchors.current.base.index := by
    simp [orphans]
  refine Leads.elim (C := fun _ x => x.1 = h ∧ x.2.anchor = d.anchor ∧
    x.2.logs[h.anchors.current.base.index]? = d.logs[h.anchors.current.base.index]?)
    (leads_get_bind ?_) hp
  refine Leads.bind (Q := fun _ x => x = (h, d)) (leads_onDisk (leads_touch.imp ?_ ?_)) ?_
  · rintro _ _ rfl
    rfl
  · rintro _ _ rfl
    exact ⟨rfl, rfl, rfl⟩
  rintro _ _ rfl
  refine (leads_onDisk (leads_removeAll.imp ?_ ?_)).bind fun _ _ h => leads_pure h
  · rintro _ d' ⟨ha, hl⟩
    exact ⟨rfl, ha, hl _ hlive⟩
  · rintro _ d' ⟨ha, hl⟩
    exact ⟨rfl, ha, hl _ hlive⟩

theorem Inv.reclaim {r : Outcome AcknowledgedError (List CommitIndex)} (hi : Inv sha key s hist a)
    (hs : s.handle = some h) (hfloor : a.base.index = h.anchors.current.base.index)
    (hp : reclaimOrphans.Ends (h, s.disk) r (h', d')) :
    Inv sha key ⟨d', survivor h' r, s.acked, s.passed⟩ hist a := by
  obtain ⟨rfl, ha, hl⟩ := ends_reclaimOrphans hp
  refine hi.keep (fun _ => id) (hi.holds.frame ha (by rw [hfloor]; exact hl)) hi.floor ?_
  intro h1 hh1 hf1
  rw [survivor_eq_some hh1] at hf1 ⊢
  obtain ⟨ht, hlen⟩ := hi.handle _ hs hf1
  exact ⟨ht.frame (by rw [ht.base]; exact hl), hlen⟩

/-! ### Reopening -/

theorem number_index {i es} (hlt : i.val + es.length < 2 ^ 64) {c} (hc : c ∈ number i es) :
    i.val < c.index.val ∧ c.index.val ≤ i.val + es.length := by
  induction es generalizing i with
  | nil => simp [number] at hc
  | cons e es ih =>
    have hi : (i + 1 : CommitIndex).val = i.val + 1 := by
      rw [length_cons] at hlt
      exact Nat.mod_eq_of_lt (by simp; omega)
    rw [length_cons] at hlt ⊢
    rw [number, mem_cons] at hc
    rcases hc with rfl | hc
    · simp only
      omega
    · have := ih (by rw [hi]; omega) hc
      omega

theorem number_filter {i es n} (hi : i.val ≤ n) (hn : n ≤ i.val + es.length)
    (hlt : i.val + es.length < 2 ^ 64) :
    (number i es).filter (fun c => n < c.index.val) =
      number (Fin.ofNat _ n) (es.drop (n - i.val)) := by
  have hlen : (es.take (n - i.val)).length = n - i.val := by
    rw [length_take]
    omega
  have hidx : i + Fin.ofNat _ (es.take (n - i.val)).length = Fin.ofNat _ n := by
    apply Fin.ext
    rw [Fin.val_add, Fin.val_ofNat, Fin.val_ofNat]
    omega
  have hval : (Fin.ofNat (2 ^ 64) n).val = n := Nat.mod_eq_of_lt (by omega)
  rw [← take_append_drop (n - i.val) es, number_append, hidx, filter_append,
    take_append_drop, filter_eq_nil_iff.mpr, nil_append, filter_eq_self.mpr]
  · intro c hc
    have := (number_index (by rw [length_drop]; omega) hc).1
    rw [hval] at this
    simpa using this
  · intro c hc
    have := (number_index (by rw [hlen]; omega) hc).2
    simp only [decide_eq_true_eq]
    omega

theorem number_split {n} (hn : n ≤ hist.length) :
    number 0 hist = number 0 (hist.take n) ++ number (Fin.ofNat _ n) (hist.drop n) := by
  have hlen : (hist.take n).length = n := by
    rw [length_take]
    omega
  have hidx : (0 : CommitIndex) + Fin.ofNat _ (hist.take n).length = Fin.ofNat _ n := by
    rw [hlen, Fin.zero_add]
  rw [← hidx, ← number_append, take_append_drop]

theorem fin_ofNat_val (i : CommitIndex) : Fin.ofNat (2 ^ 64) i.val = i :=
  Fin.ext (Nat.mod_eq_of_lt i.isLt)

theorem Inv.acked_filter (hi : Inv sha key s hist a) :
    s.acked.filter (fun c => a.base.index < c.index) =
      number a.base.index ((hist.take s.acked.length).drop a.base.index.val) := by
  have hmax := hi.holds.commits.index_le
  have hle := hi.acked_le
  have hfloor := hi.floor
  unfold maxRecords at hmax
  have hlen : (hist.take s.acked.length).length = s.acked.length := by
    rw [length_take]
    omega
  have h0 : ((0 : CommitIndex).val : Nat) = 0 := rfl
  have hf : (number 0 (hist.take s.acked.length)).filter (fun c => a.base.index.val < c.index.val) =
      _ := number_filter (bot_le) (by rw [h0]; omega) (by rw [h0]; omega)
  rw [← hi.acked, fin_ofNat_val] at hf
  exact hf

/-- **A reopen of a synchronized disk keeps the invariant**, however it ends. -/
theorem Inv.reopen {e r} (hi : Inv sha key s hist a) (hsync : LogSynced s.disk a.base.index)
    (hp : (openLedger sha key e .acknowledge).Ends s.disk r d') :
    ∃ hist' a', Inv sha key
      ⟨d', reopened r, s.acked ++ ackedByReopen s.acked.length r, s.passed⟩ hist' a' := by
  obtain ⟨extra, a', hre⟩ := ends_openLedger hi.holds hp
  have hle := hi.acked_le
  have hfloor := hi.floor
  have hd := hre.disk hsync
  have hpassed : ∀ x ∈ hist ++ extra, x ∈ s.passed := by
    intro x hx
    rcases mem_append.mp hx with hx | hx
    · exact hi.passed x hx
    · exact hre.passed x hx
  have hacked : s.acked = number 0 ((hist ++ extra).take s.acked.length) := by
    rw [take_append_of_le_length hle]
    exact hi.acked
  refine ⟨hist ++ extra, a', ?_⟩
  cases r with
  | err | crash =>
    simp only [ackedByReopen, append_nil]
    exact ⟨hd, hpassed, hacked, hle.trans (by simp), by rw [hre.base]; exact hfloor,
      by rintro h ⟨⟩⟩
  | ok x =>
    obtain ⟨h, split⟩ := x
    obtain ⟨-, -, hev, -, htracks⟩ := hre.handle h split rfl
    have hmax := hd.commits.index_le
    have hn : s.acked.length ≤ (hist ++ extra).length := by
      rw [length_append]
      omega
    unfold maxRecords at hmax
    have hall : s.acked ++ ackedByReopen s.acked.length (.ok (h, split)) =
        number 0 (hist ++ extra) := by
      rw [ackedByReopen, hev, number_filter hfloor (by rw [length_drop]; omega)
        (by rw [length_drop]; omega), drop_drop, Nat.add_sub_cancel' hfloor,
        number_split hn, ← hacked]
    have hlen : (s.acked ++ ackedByReopen s.acked.length (.ok (h, split))).length =
        (hist ++ extra).length := by rw [hall, number_length]
    refine ⟨hd, hpassed, ?_, hlen.le, ?_, ?_⟩
    · simp only [hlen, take_length]
      exact hall
    · rw [hre.base]
      simp only
      omega
    · intro h1 hh1 _
      cases hh1
      exact ⟨htracks hsync, hlen⟩

/-! ### Whole lives -/

/-- **Every careful action keeps the invariant.** -/
theorem CarefulStep.inv (hi : Inv sha key s hist a) (step : CarefulStep sha key s s') :
    ∃ hist' a', Inv sha key s' hist' a' := by
  obtain ⟨act, hcare, step⟩ := step
  cases step with
  | append hs hp => exact hi.append hs hp
  | compact hs hp => exact hi.compact hs hp
  | reclaim hs hp =>
    have hfloor := hcare _ hs
    rw [hi.visible, Option.map_some, Option.some.injEq] at hfloor
    exact ⟨hist, a, hi.reclaim hs hfloor hp⟩
  | close => exact ⟨hist, a, hi.keep (fun _ => id) hi.holds hi.floor (by rintro h ⟨⟩)⟩
  | powerLoss hs =>
    exact ⟨hist, a, hi.keep (fun _ => id) (hi.holds.settles hs) hi.floor (by rintro h ⟨⟩)⟩
  | reopen _ hp => exact hi.reopen (hcare a hi.visible) hp

theorem leads_create : (create sha key).Leads d
    (fun h d' =>
      h = ⟨⟨[], .empty sha, .empty sha, logMagic.length, false⟩, ⟨.initial sha⟩, false, none⟩ ∧
      d'.logs[(0 : CommitIndex)]? = some (.synced logMagic) ∧
      d'.anchor = some (.synced ((ProtectedAnchor.initial sha).record sha key)))
      fun _ _ => True := by
  refine leads_get_bind ?_
  split
  · exact leads_throw trivial
  refine (leads_mapErr (FileLedger.leads_createNew.imp (fun _ _ h => h) fun _ _ _ => trivial)).bind
    ?_
  rintro _ d₁ ⟨rfl, hfile⟩
  refine (leads_mapErr <| leads_initialize.imp (fun _ _ h => h) fun _ _ _ => trivial).bind ?_
  rintro _ d₂ ⟨rfl, hlogs, ha⟩
  exact leads_pure ⟨rfl, by rw [hlogs]; exact hfile, ha⟩

theorem ends_create (hp : (create sha key).Ends d (.ok h) d') :
    Inv sha key (Life.start h d') [] (.initial sha) := by
  obtain ⟨rfl, hfile, ha⟩ := leads_create.ok hp
  have hcommits : Commits sha (.initial sha) [] :=
    ⟨⟨[], .nil _⟩, ⟨[], .nil _⟩, le_rfl, .inl rfl, le_refl 1⟩
  have htracks : Tracks sha [] ⟨⟨[], .empty sha, .empty sha, logMagic.length, false⟩,
      ⟨.initial sha⟩, false, none⟩ d' := by
    refine ⟨hcommits, rfl, rfl, rfl, fun _ => ⟨[], .nil _, ?_, rfl, ?_⟩⟩
    · exact hfile
    · show logMagic.length ≤ maxLogBytes
      decide
  refine ⟨htracks.holds rfl ha, by simp, rfl, le_rfl, le_rfl, ?_⟩
  intro h1 hh1 _
  cases hh1
  exact ⟨htracks, rfl⟩

theorem Inv.of_run (hc : (create sha key).Ends d (.ok h) d')
    (run : Relation.ReflTransGen (CarefulStep sha key) (Life.start h d') s) :
    ∃ hist a, Inv sha key s hist a := by
  induction run with
  | refl => exact ⟨_, _, ends_create hc⟩
  | tail _ step ih =>
    obtain ⟨hist, a, hi⟩ := ih
    exact step.inv hi

/-- **The crash contract.**  After any careful life of a ledger, on the disk as it
is or as a power loss leaves it, a reopen succeeds.  It returns the acknowledged
records above the installed floor, at their indices and in order, and behind
them only events that were passed to the ledger; the whole is one chain from the
floor. -/
theorem reopen_restores_acknowledged {d₀ d d' : Disk} {h : AcknowledgedLedger} {s : Life}
    (hc : (create sha key).Ends d₀ (.ok h) d)
    (run : Relation.ReflTransGen (CarefulStep sha key) (Life.start h d) s)
    (hd : d' = s.disk ∨ s.disk.Settles d') :
    ∃ a, visible sha key d' = some a ∧ ∀ e ≤ a.epoch, ∃ h' split d'' more,
      openLedger sha key e .acknowledge d' [] = (.ok (h', split), d'', []) ∧
      h'.log.events = s.acked.filter (fun c => a.base.index < c.index) ++ more ∧
      (∀ c ∈ more, c.event ∈ s.passed) ∧
      h'.log.events = number a.base.index (h'.log.events.map event) ∧
      ∃ bs, Chain sha a.base (h'.log.events.map event) bs h'.log.anchor := by
  obtain ⟨hist, a, hi⟩ := Inv.of_run hc run
  have hholds : Holds sha key (· ∈ s.passed) hist d' a := by
    rcases hd with rfl | hd
    · exact hi.holds
    · exact hi.holds.settles hd
  refine ⟨a, visible_of_record hholds.commits.checkSelf hholds.anchor, fun e he => ?_⟩
  obtain ⟨⟨h', split⟩, d'', hrun, hends⟩ := (openLedger_succeeds hholds he).ends
  obtain ⟨extra, a', hre⟩ := ends_openLedger hholds hends
  obtain ⟨-, -, hev, hchain, -⟩ := hre.handle h' split rfl
  have hle := hi.acked_le
  have hfloor := hi.floor
  -- the covered records are the acknowledged ones and at most one more
  have hsplit : (hist ++ extra).drop a.base.index.val =
      (hist.take s.acked.length).drop a.base.index.val ++ (hist.drop s.acked.length ++ extra) := by
    rw [← append_assoc, ← drop_append_of_le_length (by rw [length_take]; omega),
      take_append_drop, drop_append_of_le_length (by omega)]
  obtain ⟨i, hmore⟩ : ∃ i, h'.log.events = s.acked.filter (fun c => a.base.index < c.index) ++
      number i (hist.drop s.acked.length ++ extra) :=
    ⟨_, by rw [hev, hsplit, number_append, hi.acked_filter]⟩
  refine ⟨h', split, d'', _, hrun, hmore, ?_, ?_, ?_⟩
  · intro c hmem
    have hc := mem_map_of_mem (f := event) hmem
    rw [number_map_event] at hc
    rcases mem_append.mp hc with hc | hc
    · exact hi.passed _ (mem_of_mem_drop hc)
    · exact hre.passed _ hc
  · rw [hev, number_map_event]
  · rw [hev, number_map_event]
    exact hchain

/-! ### Lives on given faults -/

def Life.call (sha : Bytes → Digest) (key : AnchorKey) (s : Life) (c : Call × List Fault) : Life :=
  match s.handle, c with
  | none, _ => s
  | some h, (.append e, faults) =>
    match appendAcknowledged sha key e (h, s.disk) faults with
    | (r, (h', d'), _) => ⟨d', survivor h' r, s.acked ++ ackedByAppend e r, s.passed ++ [e]⟩
  | some h, (.compact plan, faults) =>
    match AcknowledgedLedger.compact sha key plan (h, s.disk) faults with
    | (r, (h', d'), _) => ⟨d', survivor h' r, s.acked, s.passed⟩

theorem Life.run_calls (s : Life) (calls : List (Call × List Fault)) :
    Relation.ReflTransGen (CarefulStep sha key) s (calls.foldl (Life.call sha key) s) := by
  induction calls generalizing s with
  | nil => exact .refl
  | cons c calls ih =>
    refine .trans ?_ (ih (s.call sha key c))
    unfold Life.call
    split
    · exact .refl
    · next _ h e faults hs =>
      exact .single ⟨.append e, trivial, .append hs (ends_run _ (h, s.disk) faults)⟩
    · next _ h plan faults hs =>
      exact .single ⟨.compact plan, trivial, .compact hs (ends_run _ (h, s.disk) faults)⟩

def Disk.lose (d : Disk) : Disk :=
  { d with
    logs := d.logs.map fun _ f => .synced f.durable
    anchor := d.anchor.map fun f => .synced f.durable }

theorem Disk.settles_lose (d : Disk) : d.Settles d.lose := by
  have hfile : ∀ f : Option DiskFile, Settled f (f.map fun f => .synced f.durable) := by
    rintro (_ | f)
    · trivial
    · exact .inl ⟨0, by simp⟩
  refine ⟨fun i => ?_, hfile d.anchor⟩
  rw [Disk.lose, Std.ExtTreeMap.getElem?_map]
  exact hfile _

/-- Two records are acknowledged, the first is cut off, and a power loss follows an append
that stopped inside its record. -/
theorem reopen_restores_cutover :
    ∃ h d, (create lengthHash (.fill 7)).Ends empty (.ok h) d ∧
      let s := sampleCalls.foldl (Life.call lengthHash (.fill 7)) (Life.start h d)
      s.handle = none ∧ s.acked = [⟨1, sampleEvent 1⟩, ⟨2, sampleEvent 2⟩] ∧
      ∃ a, visible lengthHash (.fill 7) s.disk.lose = some a ∧ ∀ e ≤ a.epoch, ∃ h' split d'' more,
        openLedger lengthHash (.fill 7) e .acknowledge s.disk.lose [] = (.ok (h', split), d'', []) ∧
        h'.log.events = s.acked.filter (fun c => a.base.index < c.index) ++ more ∧
        (∀ c ∈ more, c.event ∈ s.passed) ∧
        h'.log.events = number a.base.index (h'.log.events.map event) ∧
        ∃ bs, Chain lengthHash a.base (h'.log.events.map event) bs h'.log.anchor := by
  obtain ⟨⟨h, d⟩, hs⟩ : ∃ s, session lengthHash (.fill 7) [] = some s :=
    Option.isSome_iff_exists.mp (by decide +kernel)
  have hall : (session lengthHash (.fill 7) []).all (fun p =>
      let s := sampleCalls.foldl (Life.call lengthHash (.fill 7)) (Life.start p.1 p.2)
      s.handle.isNone ∧ s.acked = [⟨1, sampleEvent 1⟩, ⟨2, sampleEvent 2⟩]) = true := by
    decide +kernel
  rw [hs, Option.all_some, decide_eq_true_iff, Option.isNone_iff_eq_none] at hall
  have hends := created_of_session hs
  exact ⟨h, d, hends, hall.1, hall.2,
    reopen_restores_acknowledged hends (Life.run_calls _ sampleCalls) (.inr (settles_lose _))⟩

/-! ### Careless lives -/

/-- **A reclaim on a handle whose cutover failed after its rename** deletes the
log that the anchor names: both acknowledged records are lost and the ledger does
not open again. -/
theorem reopen_after_reclaim_fails :
    (session lengthHash (.fill 7)
      [(.append (sampleEvent 1), []), (.append (sampleEvent 2), []),
        (.compact samplePlan, replicate 10 .none ++ [.fail 0])]).map
      (fun s => (s.1.log.events, (openLedger lengthHash (.fill 7) 0 .acknowledge
        (reclaimOrphans s []).2.1.2 []).1)) =
    some ([⟨1, sampleEvent 1⟩, ⟨2, sampleEvent 2⟩], .err (.log "no such file")) := by
  decide +kernel

/-- **A reopen that keeps a record which was never synchronized**: the sync of an
append fails, the ledger is opened again and acknowledges the record it finds,
and a power loss takes it.  The acknowledged record is lost for good. -/
theorem reopen_after_unsynced_reopen_fails :
    (session lengthHash (.fill 7)
      [(.append (sampleEvent 1), replicate 4 .none ++ [.fail 0])]).map
      (fun s => match openLedger lengthHash (.fill 7) 0 .acknowledge s.2 [] with
        | (.ok (h, _), d, _) => (h.log.events,
            some (openLedger lengthHash (.fill 7) 0 .acknowledge d.lose []).1)
        | _ => ([], none)) =
    some ([⟨1, sampleEvent 1⟩], some (.err (.unrecoverable (.lostSuffix 1 0)))) := by
  decide +kernel

end Ptr.Ledger
