import Ptr.Ledger.Acknowledged

/-!
# Reopening an acknowledged ledger

The log that the anchor names holds the covered records and, behind them, at
most a prefix of one further record.  That is all a reopen needs.

* `Commits a hist`: the anchor `a` covers exactly the history `hist`.
* `Holds P hist d a`: the anchor `a` is on disk, covers `hist`, and the log it
  names is the part of `hist` above its floor, followed by at most a prefix of
  one record of `P`.
* `Tracks hist h d`: the handle `h` has `hist` and, while it is not poisoned, a
  log file without anything else in it.
* `ends_openLedger`: a reopen, whatever fails in it, keeps the disk so, and a
  handle it returns has the covered records and at most one more.
* `openLedger_succeeds`: without a failure the reopen returns a handle.
-/

namespace Ptr.Ledger

open Lib AcknowledgedLedger DiskFile AnchorStore RecoverableLog
open List (append_nil append_assoc length_append)

variable {sha : Bytes → Digest} {key : AnchorKey} {P : LedgerEvent → Prop} {base t : LogAnchor}
  {es hist : List LedgerEvent} {c : Bytes}
  {r : Outcome AcknowledgedError (AcknowledgedLedger × Split)}
  {Q : LedgerEvent → Prop}

/-! ### Logs that a reopen accepts -/

/-- What may stand behind the covered records: a prefix of one record of `P`,
which may be none or all of it. -/
def Behind (sha : Bytes → Digest) (P : LedgerEvent → Prop) (t : LogAnchor) (part : Bytes) : Prop :=
  part = [] ∨ ∃ e bs a, P e ∧ encodeRecord sha e t = .ok (bs, a) ∧ part <+: bs

/-- A log whose records `es` above `base` are covered up to `t`. -/
def LiveBytes (sha : Bytes → Digest) (P : LedgerEvent → Prop) (base : LogAnchor)
    (es : List LedgerEvent) (t : LogAnchor) (c : Bytes) : Prop :=
  ∃ bs part, c = logMagic ++ (bs ++ part) ∧ Chain sha base es bs t ∧ Behind sha P t part ∧
    c.length ≤ maxLogBytes

theorem Behind.mono (hPQ : ∀ e, P e → Q e) {part} (h : Behind sha P t part) :
    Behind sha Q t part := by
  rcases h with h | ⟨e, bs, a, he, hr, hp⟩
  · exact .inl h
  · exact .inr ⟨e, bs, a, hPQ e he, hr, hp⟩

theorem Behind.of_prefix {part part'} (h : Behind sha P t part) (hp : part' <+: part) :
    Behind sha P t part' := by
  rcases h with rfl | ⟨e, bs, a, he, hr, hpart⟩
  · exact .inl (List.prefix_nil.mp hp)
  · exact .inr ⟨e, bs, a, he, hr, hp.trans hpart⟩

theorem Behind.complete {part} (h : Behind sha P t part) :
    ∃ extra bs rest t', part = bs ++ rest ∧ (∀ e ∈ extra, P e) ∧ Chain sha t extra bs t' ∧
      Torn sha P t' rest := by
  rcases h with rfl | ⟨e, bs, a, he, hr, hp⟩
  · exact ⟨[], [], [], t, rfl, by simp, .nil t, .inl rfl⟩
  by_cases hlen : part.length < bs.length
  · exact ⟨[], [], part, t, rfl, by simp, .nil t, .inr ⟨e, bs, a, he, hr, hp, hlen⟩⟩
  · obtain rfl : part = bs := hp.eq_of_length (le_antisymm hp.length_le (not_lt.mp hlen))
    exact ⟨[e], part, [], a, (append_nil _).symm, by simpa using he, .single hr, .inl rfl⟩

theorem LiveBytes.mono (hPQ : ∀ e, P e → Q e) (h : LiveBytes sha P base es t c) :
    LiveBytes sha Q base es t c := by
  obtain ⟨bs, part, hc, hchain, hb, hl⟩ := h
  exact ⟨bs, part, hc, hchain, hb.mono hPQ, hl⟩

/-- A cut behind the covered records leaves a log of the same records. -/
theorem LiveBytes.of_prefix {bs c'} (h : LiveBytes sha P base es t c) (hbs : Chain sha base es bs t)
    (hlow : logMagic ++ bs <+: c') (hhigh : c' <+: c) : LiveBytes sha P base es t c' := by
  obtain ⟨bs0, part, rfl, hchain, hb, hl⟩ := h
  obtain ⟨rfl, -⟩ := hchain.unique hbs
  obtain ⟨part', rfl⟩ := hlow
  rw [← append_assoc, List.prefix_append_right_inj] at hhigh
  refine ⟨bs0, part', append_assoc .., hchain, hb.of_prefix hhigh, ?_⟩
  have := hhigh.length_le
  simp only [length_append] at hl ⊢
  omega

structure LiveFile (sha : Bytes → Digest) (P : LedgerEvent → Prop) (base : LogAnchor)
    (es : List LedgerEvent) (t : LogAnchor) (f : DiskFile) : Prop where
  covered : ∃ bs, Chain sha base es bs t ∧ logMagic ++ bs <+: f.durable
  seen : LiveBytes sha P base es t f.content
  restored : LiveBytes sha P base es t (f.durable ++ f.removed)

theorem LiveFile.mono (hPQ : ∀ e, P e → Q e) {f} (h : LiveFile sha P base es t f) :
    LiveFile sha Q base es t f :=
  ⟨h.covered, h.seen.mono hPQ, h.restored.mono hPQ⟩

theorem LiveBytes.synced (h : LiveBytes sha P base es t c) :
    LiveFile sha P base es t (.synced c) := by
  refine ⟨?_, by rwa [DiskFile.content_synced], by simpa [DiskFile.synced] using h⟩
  obtain ⟨bs, part, rfl, hchain, -⟩ := h
  refine ⟨bs, hchain, ?_⟩
  exact List.prefix_append _ _

/-- **A crash leaves a log of the same covered records.** -/
theorem LiveFile.settles {f f'} (h : LiveFile sha P base es t f) (hs : f.Settles f') :
    LiveFile sha P base es t f' := by
  rcases hs.cases with ⟨bs, rfl, hlow, hhigh⟩ | rfl
  · obtain ⟨cs, hchain, hcs⟩ := h.covered
    exact (h.seen.of_prefix hchain (hcs.trans hlow) hhigh).synced
  · exact h.restored.synced

/-! ### Histories under an anchor -/

def OriginOf (sha : Bytes → Digest) (origin : ChainOrigin) (hist : List LedgerEvent) : Prop :=
  origin = .unset ∨ ∃ e rest bs a, hist = e :: rest ∧
    encodeRecord sha e (.empty sha) = .ok (bs, a) ∧ origin = a.digest

theorem OriginOf.append {origin} (h : OriginOf sha origin hist) (extra : List LedgerEvent) :
    OriginOf sha origin (hist ++ extra) := by
  rcases h with h | ⟨e, rest, bs, a, rfl, he, ho⟩
  · exact .inl h
  · exact .inr ⟨e, rest ++ extra, bs, a, rfl, he, ho⟩

/-- The anchor `a` covers exactly `hist`. -/
structure Commits (sha : Bytes → Digest) (a : ProtectedAnchor) (hist : List LedgerEvent) :
    Prop where
  log : ∃ bs, Chain sha (.empty sha) hist bs a.log
  base : ∃ bs, Chain sha (.empty sha) (hist.take a.base.index.val) bs a.base
  floor : a.base.index.val ≤ hist.length
  origin : OriginOf sha a.origin hist
  /-- Every publication covers one more record or discards one, so the epoch
  cannot run out. -/
  epoch : a.epoch.val ≤ 1 + a.log.index.val + a.base.index.val

namespace Commits

variable {a b : ProtectedAnchor}

theorem index (h : Commits sha a hist) : a.log.index.val = hist.length := by
  obtain ⟨bs, hc⟩ := h.log
  simpa [LogAnchor.empty] using hc.index

theorem index_le (h : Commits sha a hist) : hist.length ≤ maxRecords := by
  obtain ⟨bs, hc⟩ := h.log
  by_cases hne : hist = []
  · simp [hne]
  · rw [← h.index]
    exact hc.index_le hne

theorem epoch_lt (h : Commits sha a hist) : a.epoch.val + 1 < 2 ^ 64 := by
  have h1 := h.epoch
  have h2 := h.index
  have h3 := h.index_le
  have h4 := h.floor
  unfold maxRecords at h3
  omega

theorem checkSelf (h : Commits sha a hist) : a.checkSelf sha = .ok () := by
  have hi := h.index
  have hf := h.floor
  rw [ProtectedAnchor.checkSelf, refuse_eq_ok, refuse_eq_ok]
  refine ⟨?_, ?_, rfl⟩
  · show ¬ a.log.index < a.base.index
    rw [Fin.lt_def]
    omega
  · rintro ⟨hne, h0⟩
    obtain ⟨bs, hc⟩ := h.base
    rw [h0] at hc
    exact hne ((Chain.nil _).unique hc).2.symm

theorem above (h : Commits sha a hist) :
    ∃ bs, Chain sha a.base (hist.drop a.base.index.val) bs a.log := by
  obtain ⟨bs, hlog⟩ := h.log
  obtain ⟨bs0, hbase⟩ := h.base
  rw [← List.take_append_drop a.base.index.val hist] at hlog
  obtain ⟨m, bs1, bs2, -, h1, h2⟩ := hlog.split
  obtain ⟨-, rfl⟩ := h1.unique hbase
  exact ⟨bs2, h2⟩

theorem base_eq (ha : Commits sha a hist) (hb : Commits sha b hist)
    (hi : a.base.index = b.base.index) : a.base = b.base := by
  obtain ⟨_, h1⟩ := ha.base
  obtain ⟨_, h2⟩ := hb.base
  rw [hi] at h1
  exact (h1.unique h2).2

theorem log_eq (ha : Commits sha a hist) (hb : Commits sha b hist) : a.log = b.log := by
  obtain ⟨_, h1⟩ := ha.log
  obtain ⟨_, h2⟩ := hb.log
  exact (h1.unique h2).2

/-- **An acknowledgment** covers the records behind the old tail. -/
theorem acknowledged {extra bs origin} (h : Commits sha a hist) (hc : Chain sha a.log extra bs t)
    (hne : extra ≠ []) (ho : OriginOf sha origin (hist ++ extra))
    (hn : acknowledged a t origin = .ok b) : Commits sha b (hist ++ extra) := by
  obtain ⟨hepoch, hlog, hbase, horigin⟩ := acknowledged_ok hn
  obtain ⟨ls, hl⟩ := h.log
  obtain ⟨cs, hb⟩ := h.base
  refine ⟨⟨ls ++ bs, hlog ▸ hl.append hc⟩, ⟨cs, ?_⟩, ?_, ?_, ?_⟩
  · rw [hbase, List.take_append_of_le_length h.floor]
    exact hb
  · rw [hbase, length_append]
    exact le_trans h.floor (Nat.le_add_right _ _)
  · rw [horigin]
    split
    · exact h.origin.append extra
    · exact ho
  · have hpos : 0 < extra.length := List.length_pos_iff.mpr hne
    have hidx := hc.index
    have := h.epoch
    rw [hlog, hbase]
    omega

/-- **A floor advance** covers the same records. -/
theorem compacted {bs} (h : Commits sha a hist)
    (hc : Chain sha (.empty sha) (hist.take base.index.val) bs base)
    (hlow : a.base.index < base.index) (hhigh : base.index.val ≤ hist.length)
    (hn : compacted a base a.log = .ok b) : Commits sha b hist := by
  obtain ⟨hepoch, hlog, hbase, horigin, -⟩ := compacted_ok hn
  refine ⟨hlog ▸ h.log, ⟨bs, hbase ▸ hc⟩, hbase ▸ hhigh, horigin ▸ h.origin, ?_⟩
  have := h.epoch
  rw [hlog, hbase]
  rw [Fin.lt_def] at hlow
  omega

end Commits

/-- **The disk of a ledger**: the anchor `a` is installed, covers `hist`, and
names a log that holds `hist` above the floor. -/
structure Holds (sha : Bytes → Digest) (key : AnchorKey) (P : LedgerEvent → Prop)
    (hist : List LedgerEvent) (d : Disk) (a : ProtectedAnchor) : Prop where
  anchor : d.anchor = some (.synced (a.record sha key))
  commits : Commits sha a hist
  log : ∃ f, d.logs[a.base.index]? = some f ∧
    LiveFile sha P a.base (hist.drop a.base.index.val) a.log f

/-- **A handle of a ledger** has the history in memory and, while it is not
poisoned, a log file of exactly that history. -/
structure Tracks (sha : Bytes → Digest) (hist : List LedgerEvent) (h : AcknowledgedLedger)
    (d : Disk) : Prop where
  commits : Commits sha h.anchors.current hist
  base : h.log.base = h.anchors.current.base
  anchor : h.log.anchor = h.anchors.current.log
  events : h.log.events = number h.log.base.index (hist.drop h.log.base.index.val)
  file : h.log.poisoned = false → ∃ bs,
    Chain sha h.log.base (hist.drop h.log.base.index.val) bs h.log.anchor ∧
    d.logs[h.log.base.index]? = some (.synced (logMagic ++ bs)) ∧
    h.log.length = (logMagic ++ bs).length ∧ h.log.length ≤ maxLogBytes

/-! ### What a reopen reads -/

/-- A live log is scanned to its covered records and at most one more. -/
theorem LiveBytes.scan (h : LiveBytes sha P base es t c) :
    ∃ extra bs cs part t' p, (∀ e ∈ extra, P e) ∧ Chain sha t extra cs t' ∧
      Chain sha base (es ++ extra) bs t' ∧ c = (logMagic ++ bs) ++ part ∧
      scanFrom sha c base = .ok p ∧ p.events = number base.index (es ++ extra) ∧ p.anchor = t' ∧
      p.completeBytes = (logMagic ++ bs).length ∧
      p.milestones = (logMagic.length, base) :: marks sha logMagic.length base (es ++ extra) := by
  obtain ⟨bs, part, rfl, hchain, hb, hl⟩ := h
  obtain ⟨extra, cs, rest, t', rfl, hP, hx, htorn⟩ := hb.complete
  have hall := hchain.append hx
  rw [← append_assoc bs] at hl ⊢
  exact ⟨extra, bs ++ cs, cs, rest, t', _, hP, hx, hall, (append_assoc ..).symm,
    scanFrom_chain hall htorn hl, rfl, rfl, (length_append ..).symm, rfl⟩

theorem Commits.repairable {a extra cs p n} (h : Commits sha a hist)
    (hx : Chain sha a.log extra cs t)
    (hm : p.milestones = (logMagic.length, a.base) :: marks sha logMagic.length a.base
      (hist.drop a.base.index.val ++ extra)) : (classify sha ⟨a.base, p, n⟩ a).Repairable := by
  obtain ⟨bs, habove⟩ := h.above
  have horigin : ¬ (a.origin ≠ .unset ∧
      (derivedOrigin sha ⟨a.base, p, n⟩).any (· ≠ a.origin) = true) := by
    rintro ⟨hset, hany⟩
    rcases h.origin with hu | ⟨e, rest, rs, x, hh, he, ho⟩
    · exact hset hu
    by_cases hb : a.base = .empty sha
    · -- the first boundary of an uncompacted log is the first record
      have hi : (LogAnchor.empty sha).index.val = 0 := rfl
      simp [derivedOrigin, hb, hm, hi, hh, marks, he, ho] at hany
    · simp [derivedOrigin, hb] at hany
  rw [classify, if_neg (by simp), if_neg horigin, recordsAfter_chain habove hx hm]
  simp only
  split <;> trivial

theorem checkSplit_acknowledge {s} (h : s.Repairable) : checkSplit .acknowledge s = .ok () := by
  cases s <;> first | rfl | exact h.elim

theorem derivedOrigin_originOf {l : FileLedger} {bs}
    (hb : Chain sha (.empty sha) (hist.take l.base.index.val) bs l.base)
    (he : l.events = number l.base.index (hist.drop l.base.index.val)) :
    OriginOf sha ((l.derivedOrigin sha).getD .unset) hist := by
  unfold FileLedger.derivedOrigin
  by_cases hbase : l.base = .empty sha
  · rw [if_neg (not_not.mpr hbase), he, hbase]
    cases hist with
    | nil => exact .inl rfl
    | cons e rest =>
      simp only [LogAnchor.empty, Fin.val_zero, List.drop_zero, number]
      split
      · rename_i x hx
        exact .inr ⟨e, rest, _, x, rfl, hx, rfl⟩
      · exact .inl rfl
  · rw [if_pos hbase]
    exact .inl rfl

/-! ### What a reopen does -/

def LogSynced (d : Disk) (i : CommitIndex) : Prop :=
  ∀ f, d.logs[i]? = some f → f.pending = [] ∧ f.removed = []

theorem synced_of_nil {f : DiskFile} (h : f.pending = [] ∧ f.removed = []) :
    f = .synced f.content := by
  obtain ⟨durable, pending, removed⟩ := f
  obtain ⟨rfl, rfl⟩ := h
  simp [synced, content]

/-- **A cut behind the covered records** keeps a synchronized log live, even if
it was interrupted. -/
theorem LiveFile.cut {f g : DiskFile} {keep} (h : LiveFile sha P base es t f)
    (hs : f.pending = [] ∧ f.removed = [])
    (hlow : ∀ bs, Chain sha base es bs t → logMagic ++ bs <+: f.content.take keep)
    (hg : Cut f keep g) : LiveFile sha P base es t g := by
  obtain ⟨bs, hchain, -⟩ := h.covered
  have hcut : LiveBytes sha P base es t (f.content.take keep) :=
    h.seen.of_prefix hchain (hlow bs hchain) <| List.take_prefix _ _
  obtain ⟨c, rfl⟩ : ∃ c, f = .synced c := ⟨_, synced_of_nil hs⟩
  rw [content_synced] at hcut hlow
  have hrestored := h.restored
  rcases hg with rfl | rfl | ⟨k, rfl⟩ | rfl
  · exact h
  · refine ⟨⟨bs, hchain, hlow bs hchain⟩, ?_, ?_⟩
    · rwa [content_truncate, content_synced]
    · simpa [truncate, synced] using hrestored
  · refine ⟨⟨bs, hchain, ?_⟩, ?_, ?_⟩
    · exact (hlow bs hchain).trans (List.prefix_append _ _)
    · rwa [content_syncPart, content_truncate, content_synced]
    · by_cases hk : k = 0
      · simpa [syncPart, truncate, synced, hk] using hrestored
      · simpa [syncPart, truncate, synced, hk] using hcut
  · rw [content_synced]
    exact hcut.synced

variable {d d' : Disk} {a : ProtectedAnchor}

/-- What a reopen found and what it may have done to the log: the covered
records and `extra` behind them, and a file `g` in the place of `f`. -/
structure Reopening (sha : Bytes → Digest) (P : LedgerEvent → Prop) (hist : List LedgerEvent)
    (a : ProtectedAnchor) (f : DiskFile) (extra : List LedgerEvent) (t : LogAnchor) (bs : Bytes) :
    Prop where
  passed : ∀ e ∈ extra, P e
  behind : ∃ cs, Chain sha a.log extra cs t
  chain : Chain sha a.base (hist.drop a.base.index.val ++ extra) bs t
  content : ∃ part, f.content = (logMagic ++ bs) ++ part
  size : f.content.length ≤ maxLogBytes

namespace Reopening

variable {f : DiskFile} {extra : List LedgerEvent} {bs : Bytes}

theorem take_content (h : Reopening sha P hist a f extra t bs) :
    f.content.take (logMagic ++ bs).length = logMagic ++ bs := by
  obtain ⟨part, hc⟩ := h.content
  rw [hc, List.take_left' rfl]

theorem take_events {events} (h : Reopening sha P hist a f extra t bs)
    (he : events = number a.base.index (hist.drop a.base.index.val ++ extra)) :
    events.take (t.index.val - a.base.index.val) =
      number a.base.index (hist.drop a.base.index.val ++ extra) := by
  have hi := h.chain.index
  rw [he]
  exact List.take_of_length_le (by rw [number_length]; omega)

theorem drop_append (hc : Commits sha a hist) :
    (hist ++ extra).drop a.base.index.val = hist.drop a.base.index.val ++ extra :=
  List.drop_append_of_le_length hc.floor

theorem size_le (h : Reopening sha P hist a f extra t bs) :
    (logMagic ++ bs).length ≤ maxLogBytes := by
  obtain ⟨part, hp⟩ := h.content
  have := h.size
  rw [hp, length_append] at this
  omega

theorem live_all (h : Reopening sha P hist a f extra t bs) (hc : Commits sha a hist) :
    LiveFile sha P a.base ((hist ++ extra).drop a.base.index.val) t (.synced (logMagic ++ bs)) := by
  rw [drop_append hc]
  exact LiveBytes.synced ⟨bs, [], by rw [append_nil], h.chain, .inl rfl, h.size_le⟩

theorem live_cut {g} (h : Reopening sha P hist a f extra t bs)
    (hlive : LiveFile sha P a.base (hist.drop a.base.index.val) a.log f)
    (hs : f.pending = [] ∧ f.removed = []) (hg : Cut f (logMagic ++ bs).length g) :
    LiveFile sha P a.base (hist.drop a.base.index.val) a.log g := by
  refine hlive.cut hs (fun bs0 hbs0 => ?_) hg
  rw [h.take_content]
  obtain ⟨m, bs1, bs2, rfl, h1, -⟩ := h.chain.split
  obtain ⟨rfl, -⟩ := h1.unique hbs0
  exact List.prefix_append _ _

theorem extra_nil (h : Reopening sha P hist a f extra a.log bs) : extra = [] := by
  obtain ⟨cs, hx⟩ := h.behind
  have := hx.index
  exact List.length_eq_zero_iff.mp (by omega)

end Reopening

theorem Holds.setLog {g} (hd : Holds sha key P hist d a)
    (hg : LiveFile sha P a.base (hist.drop a.base.index.val) a.log g)
    (hl : d'.logs = (d.setLog a.base.index g).logs) (ha : d'.anchor = d.anchor) :
    Holds sha key P hist d' a :=
  ⟨ha.trans hd.anchor, hd.commits, g, by rw [hl, Disk.getElem?_setLog_self], hg⟩

/-- The anchor that a reopen installs covers everything it found. -/
theorem Reopening.commits {f : DiskFile} {extra} {bs : Bytes} {n} {next : ProtectedAnchor}
    (h : Reopening sha P hist a f extra t bs) (hc : Commits sha a hist) (ht : t ≠ a.log)
    (hn : acknowledged a t (((⟨number a.base.index (hist.drop a.base.index.val ++ extra),
      t, a.base, n, false⟩ : FileLedger).derivedOrigin sha).getD .unset) = .ok next) :
    Commits sha next (hist ++ extra) := by
  obtain ⟨cs, hx⟩ := h.behind
  obtain ⟨bs0, hbase⟩ := hc.base
  rw [← List.take_append_of_le_length hc.floor] at hbase
  refine hc.acknowledged hx ?_ (derivedOrigin_originOf hbase ?_) hn
  · rintro rfl
    cases hx
    exact ht rfl
  · rw [Reopening.drop_append hc]

/-- What a reopen of `d` leaves: the disk `d'` under the anchor `a'`, which
covers `extra` more records, and a handle of all of them if it returned one. -/
structure Reopened (sha : Bytes → Digest) (key : AnchorKey) (P : LedgerEvent → Prop)
    (hist : List LedgerEvent) (d : Disk) (a : ProtectedAnchor)
    (r : Outcome AcknowledgedError (AcknowledgedLedger × Split)) (d' : Disk)
    (extra : List LedgerEvent) (a' : ProtectedAnchor) : Prop where
  passed : ∀ x ∈ extra, P x
  base : a'.base = a.base
  disk : LogSynced d a.base.index → Holds sha key P (hist ++ extra) d' a'
  handle : ∀ h split, r = .ok (h, split) → h.fenced = false ∧ h.anchors.current = a' ∧
    h.log.events = number a.base.index ((hist ++ extra).drop a.base.index.val) ∧
    (∃ bs, Chain sha a.base ((hist ++ extra).drop a.base.index.val) bs h.log.anchor) ∧
    (LogSynced d a.base.index → Tracks sha (hist ++ extra) h d')

theorem Reopened.of_failed (hr : r.Failed)
    (hd : LogSynced d a.base.index → Holds sha key P hist d' a) :
    Reopened sha key P hist d a r d' [] a := by
  refine ⟨by simp, rfl, by simpa using hd, ?_⟩
  rintro h split rfl
  exact hr.elim

/-- **A reopen keeps a synchronized disk in order**, whatever fails in it.  A
handle it returns has the covered records and at most one more, which was passed
to the ledger. -/
theorem ends_openLedger (hd : Holds sha key P hist d a) {e : U64}
    (hp : (openLedger sha key e .acknowledge).Ends d r d') :
    ∃ extra a', Reopened sha key P hist d a r d' extra a' := by
  obtain ⟨f, hf, hlive⟩ := hd.log
  obtain ⟨extra, bs, cs, part, t, p, hP, hx, hchain, hcontent, hscan, hev, hanc, hbytes, hms⟩ :=
    hlive.seen.scan
  have hc := hd.commits
  have hre : Reopening sha P hist a f extra t bs := by
    refine ⟨hP, ⟨cs, hx⟩, hchain, ⟨part, hcontent⟩, ?_⟩
    obtain ⟨_, _, -, -, -, hl⟩ := hlive.seen
    exact hl
  refine Prog.Leads.elim (C := fun r d' => ∃ extra a', Reopened sha key P hist d a r d' extra a')
    (leads_openLedger (fun w => ⟨[], a, .of_failed (by simp) fun _ => hd⟩) ?_) hp
  intro file a' f' p' hfile ha hf' hscan'
  obtain rfl := Option.some.inj (hd.anchor.symm.trans hfile)
  rw [content_synced] at ha
  obtain rfl := eq_of_authenticate hc.checkSelf ha
  obtain rfl := Option.some.inj (hf.symm.trans hf')
  obtain rfl := Except.ok.inj (hscan.symm.trans hscan')
  -- a failed cut leaves a synchronized log live
  have hkept : ∀ {g r d'}, Cut f (logMagic ++ bs).length g → r.Failed →
      d'.logs = (d.setLog a.base.index g).logs → d'.anchor = d.anchor →
      ∃ extra a', Reopened sha key P hist d a r d' extra a' := fun hg hr hl ha =>
    ⟨[], a, .of_failed hr fun hs => hd.setLog (hre.live_cut hlive (hs f hf) hg) hl ha⟩
  refine leads_repair (hc.repairable hx hms) ?_
  simp only [tail, hbytes, hanc]
  refine (leads_cutAndOpen hf).imp ?_ ?_
  swap
  · rintro w _ ⟨g, rfl, hg⟩
    exact hkept hg (Outcome.failed_elim _) rfl rfl
  rintro _ _ ⟨rfl, rfl⟩ recovery htail horigin
  rw [hre.take_events hev] at horigin ⊢
  obtain ⟨g, hgok⟩ : ∃ g, g = if (logMagic ++ bs).length = f.content.length then f
      else .synced (f.content.take (logMagic ++ bs).length) := ⟨_, rfl⟩
  rw [← hgok]
  have hg : Cut f (logMagic ++ bs).length g := hgok ▸ cut_kept
  -- a synchronized log that was kept whole is exactly its records
  have hexact : ∀ {d' : Disk}, d'.logs = (d.setLog a.base.index g).logs → LogSynced d a.base.index →
      d'.logs[a.base.index]? = some (.synced (logMagic ++ bs)) := by
    intro d' hl hs
    rw [hl, Disk.getElem?_setLog_self, hgok, hre.take_content]
    split
    · rename_i hlen
      rw [synced_of_nil (hs f hf), ← hre.take_content, hlen, List.take_length]
    · rfl
  refine ⟨fun ht split => ?_, fun ht => ?_⟩
  · -- nothing was found behind the covered records
    obtain rfl : a.log = t := ht.symm.trans htail
    obtain rfl := hre.extra_nil
    refine ⟨[], a, by simp, rfl, fun hs => ?_, ?_⟩
    · rw [append_nil]
      exact hd.setLog (hre.live_cut hlive (hs f hf) hg) rfl rfl
    · rintro h split' ⟨⟩
      rw [append_nil] at hchain
      rw [append_nil, append_nil]
      exact ⟨rfl, rfl, rfl, ⟨bs, hchain⟩, fun hs =>
        ⟨hc, rfl, rfl, rfl, fun _ => ⟨bs, hchain, hexact rfl hs, rfl, hre.size_le⟩⟩⟩
  rw [htail, horigin]
  rw [htail] at ht
  -- the anchor covers what was found, whatever the caller is told
  have hcovered : ∀ {next r d'} {l : FileLedger}, l =
      ⟨number a.base.index (hist.drop a.base.index.val ++ extra), t, a.base,
        (logMagic ++ bs).length, false⟩ →
      Installs sha key (acknowledged a t ((l.derivedOrigin sha).getD .unset))
      ⟨a⟩ next (d.setLog a.base.index g) d' →
      (∀ h split, r = .ok (h, split) → h = ⟨l, ⟨next⟩, false, some recovery⟩) →
      ∃ extra a', Reopened sha key P hist d a r d' extra a' := by
    rintro next r d' _ rfl ⟨hn, -, hl, ha, -⟩ hr
    obtain ⟨-, hnlog, hnbase, -⟩ := acknowledged_ok hn
    have hcn := hre.commits hc ht hn
    refine ⟨extra, next, hre.passed, hnbase, fun hs => ?_, fun h split heq => ?_⟩
    · refine ⟨ha, hcn, _, by rw [hnbase]; exact hexact hl hs, ?_⟩
      rw [hnbase, hnlog]
      exact hre.live_all hc
    · obtain rfl := hr h split heq
      rw [Reopening.drop_append hc]
      refine ⟨rfl, rfl, rfl, ⟨bs, hre.chain⟩, fun hs => ?_⟩
      refine ⟨hcn, hnbase.symm, hnlog.symm, ?_, fun _ => ⟨bs, ?_, hexact hl hs, rfl, hre.size_le⟩⟩
      · rw [Reopening.drop_append hc]
      · rw [Reopening.drop_append hc]
        exact hre.chain
  refine leads_acknowledge.imp ?_ ?_
  · rintro next y ⟨hi, hs⟩ split
    refine hcovered rfl hi fun h split' heq => ?_
    cases heq
    rw [hs]
  · rintro w y ⟨-, hquiet | ⟨next, hi⟩⟩
    · exact hkept hg (Outcome.failed_elim _) hquiet.1 hquiet.2.1
    · exact hcovered rfl hi fun h split heq => by cases w <;> cases heq

theorem Commits.checkCommit {b extra origin} (h : Commits sha a hist)
    (h' : Commits sha b (hist ++ extra)) (hne : extra ≠ [])
    (hn : AnchorStore.acknowledged a t origin = .ok b) :
    AnchorStore.checkCommit sha a b = .ok () := by
  obtain ⟨hepoch, -, -, horigin⟩ := AnchorStore.acknowledged_ok hn
  have hi := h.index
  have hi' := h'.index
  have hpos : 0 < extra.length := List.length_pos_iff.mpr hne
  rw [length_append] at hi'
  rw [AnchorStore.checkCommit, bind_unit_eq_ok]
  refine ⟨h'.checkSelf, ?_⟩
  rw [refuse_eq_ok, refuse_eq_ok, refuse_eq_ok]
  refine ⟨?_, ?_, ?_, rfl⟩
  · rw [Fin.le_def, Fin.lt_def]
    omega
  · rintro ⟨heq, -⟩
    have := congrArg Fin.val heq
    omega
  · rintro ⟨hne', hset⟩
    rw [horigin, if_pos hset] at hne'
    exact hne' rfl

/-- **A reopen without a failure returns a handle.** -/
theorem openLedger_succeeds (hd : Holds sha key P hist d a) {e} (he : e ≤ a.epoch) :
    (openLedger sha key e .acknowledge).Succeeds d := by
  obtain ⟨f, hf, hlive⟩ := hd.log
  obtain ⟨extra, bs, cs, part, t, p, hP, hx, hchain, hcontent, hscan, hev, hanc, -, hms⟩ :=
    hlive.seen.scan
  have hc := hd.commits
  have hsize : f.content.length ≤ maxLogBytes := by
    obtain ⟨_, _, -, -, -, hl⟩ := hlive.seen
    exact hl
  have hre : Reopening sha P hist a f extra t bs :=
    ⟨hP, ⟨cs, hx⟩, hchain, ⟨part, hcontent⟩, hsize⟩
  have hrep := hc.repairable (n := f.content.length) hx hms
  refine Prog.succeeds_bind (Prog.succeeds_mapErr _
    (AnchorStore.openExpecting_succeeds hd.anchor hc.checkSelf he)) fun s d1 h1 => ?_
  obtain ⟨rfl, rfl⟩ := (leads_openExpecting hd.anchor hc.checkSelf).ok (Prog.ends_mapErr_ok h1)
  refine Prog.succeeds_bind (Prog.succeeds_mapErr _ (lockForRecovery_succeeds hf hsize hscan))
    fun l d2 h2 => ?_
  obtain ⟨rfl, f', q, hf', hq, rfl⟩ := leads_lockForRecovery.ok (Prog.ends_mapErr_ok h2)
  obtain rfl := Option.some.inj (hf.symm.trans hf')
  obtain rfl := Except.ok.inj (hscan.symm.trans hq)
  refine Prog.succeeds_ofExcept_bind (checkSplit_acknowledge hrep) ?_
  refine Prog.succeeds_bind (Prog.succeeds_mapErr _ (RecoverableLog.repair_succeeds hrep))
    fun x d3 h3 => ?_
  have hfound : (RecoverableLog.repair sha ⟨a.base, p, f.content.length⟩ a .acknowledge).Leads d2
      (fun x _ => x.2.tail = t ∧ x.2.origin = FileLedger.derivedOrigin sha ⟨number a.base.index
        (hist.drop a.base.index.val ++ extra), t, a.base, p.completeBytes, false⟩)
        fun _ _ => True := by
    refine leads_repair hrep ((leads_cutAndOpen hf).imp ?_ fun _ _ _ => trivial)
    rintro _ _ ⟨rfl, -⟩ recovery htail horigin
    simp only [tail, hanc] at htail horigin
    exact ⟨htail, horigin.trans (by rw [hre.take_events hev])⟩
  obtain ⟨htail, horigin⟩ := hfound.ok (Prog.ends_mapErr_ok h3)
  simp only
  split
  swap
  · exact Prog.succeeds_pure _
  rename_i ht
  rw [htail] at ht ⊢
  rw [horigin]
  -- the epoch is bounded by the records, so there is a successor
  obtain ⟨next, hn⟩ := AnchorStore.acknowledged_of_epoch hc.epoch_lt t
    ((FileLedger.derivedOrigin sha ⟨number a.base.index (hist.drop a.base.index.val ++ extra), t,
      a.base, p.completeBytes, false⟩).getD .unset)
  have hne : extra ≠ [] := by
    rintro rfl
    cases hx
    exact ht rfl
  have hcommit := hc.checkCommit (hre.commits hc ht hn) hne hn
  refine Prog.succeeds_bind (Prog.succeeds_withLocal (Prog.succeeds_mapErr _
    (AnchorStore.acknowledge_succeeds hn hcommit))) fun _ _ _ => Prog.succeeds_pure _

end Ptr.Ledger
