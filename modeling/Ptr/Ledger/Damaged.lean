import Ptr.Ledger.Acknowledged
import Ptr.Ledger.LogCodec

/-!
# Opening a damaged log

A log may hold any bytes when it is opened: a torn frame, zeros, records that nobody
acknowledged.  Whatever a scan accepts, a cut of the file at one of the boundaries it
found is scanned to what lies before that boundary (`scanFrom_cut`).  A repair cuts only
at such a boundary, at or behind the anchored record, so the records up to the anchored
index stay as they are, whether the attempt then returns a ledger or an error.
-/

namespace Ptr.Ledger

open Lib AnchorStore RecoverableLog AcknowledgedLedger List
open Lib.Prog hiding pure

/-! ### A scan that goes on -/

namespace Prefix

def push (p : Prefix) (e : LedgerEvent) (a : LogAnchor) (total : Nat) : Prefix :=
  { p with
    events := p.events ++ [⟨a.index, e⟩]
    anchor := a
    completeBytes := p.completeBytes + total
    milestones := p.milestones ++ [(p.completeBytes + total, a)] }

/-- A scan went on from `p` to `q`: all that is new lies behind `p`. -/
structure Before (p q : Prefix) : Prop where
  events : ∃ more, q.events = p.events ++ more ∧ ∀ c ∈ more, p.anchor.index < c.index
  milestones : ∃ more, q.milestones = p.milestones ++ more ∧ ∀ m ∈ more, p.completeBytes < m.1
  bytes : p.completeBytes ≤ q.completeBytes
  count : q.anchor.index.val + p.events.length = p.anchor.index.val + q.events.length

structure Bounded (p : Prefix) : Prop where
  last : (p.completeBytes, p.anchor) ∈ p.milestones
  within : ∀ m ∈ p.milestones, m.1 ≤ p.completeBytes ∧ m.2.index ≤ p.anchor.index

theorem Before.refl (p : Prefix) : p.Before p := ⟨⟨[], by simp⟩, ⟨[], by simp⟩, Nat.le_refl _, rfl⟩

theorem Before.index {p q : Prefix} (h : p.Before q) : p.anchor.index ≤ q.anchor.index := by
  obtain ⟨more, hmore, -⟩ := h.events
  have hcount := h.count
  rw [hmore, length_append] at hcount
  rw [Fin.le_def]
  omega

theorem Before.trans {p q r : Prefix} (h : p.Before q) (h' : q.Before r) : p.Before r := by
  obtain ⟨es, hes, hbehind⟩ := h.events
  obtain ⟨es', hes', hbehind'⟩ := h'.events
  obtain ⟨ms, hms, hlater⟩ := h.milestones
  obtain ⟨ms', hms', hlater'⟩ := h'.milestones
  have hbytes := h.bytes
  have hcount := h.count
  have hcount' := h'.count
  refine ⟨⟨es ++ es', ?_, fun c hc => ?_⟩, ⟨ms ++ ms', ?_, fun m hm => ?_⟩,
    hbytes.trans h'.bytes, by omega⟩
  · rw [hes', hes, append_assoc]
  · rcases mem_append.mp hc with hc | hc
    · exact hbehind c hc
    · exact h.index.trans_lt (hbehind' c hc)
  · rw [hms', hms, append_assoc]
  · rcases mem_append.mp hm with hm | hm
    · exact hlater m hm
    · exact hbytes.trans_lt (hlater' m hm)

end Prefix

variable {sha : Bytes → Digest}

theorem scanLoop_nil (fuel : Nat) (p : Prefix) : scanLoop sha fuel [] p = .ok p := by
  cases fuel <;> simp [scanLoop]

section Scan

variable {p q : Prefix} {e : LedgerEvent} {a : LogAnchor} {total fuel : Nat} {remaining : Bytes}

theorem before_push (h : scanStep sha remaining p.anchor = .ok (.record e a total)) :
    p.Before (p.push e a total) ∧ (p.Bounded → (p.push e a total).Bounded) := by
  obtain ⟨hnext, -, hpos, -⟩ := scanStep_inv h
  have hsucc : a.index.val = p.anchor.index.val + 1 := by simpa using U64.checkedAdd_eq_some hnext
  have hlt : p.anchor.index < a.index := by
    rw [Fin.lt_def]
    omega
  refine ⟨⟨⟨_, rfl, by simpa using hlt⟩, ⟨_, rfl, by simpa using hpos⟩, Nat.le_add_right .., ?_⟩,
    fun hp => ⟨by simp [Prefix.push], ?_⟩⟩
  · simp only [Prefix.push, length_append, length_singleton]
    omega
  · intro m hm
    rcases mem_append.mp hm with hm | hm
    · obtain ⟨hbytes, hindex⟩ := hp.within m hm
      exact ⟨hbytes.trans (Nat.le_add_right ..), hindex.trans hlt.le⟩
    · obtain rfl := mem_singleton.mp hm
      exact ⟨le_rfl, Fin.le_refl _⟩

theorem scanLoop_push (h : scanStep sha remaining p.anchor = .ok (.record e a total))
    (hlimit : p.events.length < maxRecords) (rest : Bytes) (n : Nat) :
    scanLoop sha (n + 1) (remaining.take total ++ rest) p =
      scanLoop sha n rest (p.push e a total) := by
  obtain ⟨-, htotal, hpos, -, hread⟩ := scanStep_inv h
  have hne : remaining.take total ++ rest ≠ [] := by
    rw [ne_eq, ← length_eq_zero_iff, length_append]
    omega
  rw [scanLoop, if_neg hne, if_neg (not_le.mpr hlimit), hread]
  show scanLoop sha n ((remaining.take total ++ rest).drop total) (p.push e a total) = _
  rw [drop_left' htotal.symm]

/-- **A round of the scan** ends it, or goes on behind a record. -/
theorem scanLoop_cases (h : scanLoop sha (fuel + 1) remaining p = .ok q) :
    q = p ∨ (∃ zeros, q = { p with zeroTail := zeros, incomplete := true }) ∨
      ∃ e a total, scanStep sha remaining p.anchor = .ok (.record e a total) ∧
      p.events.length < maxRecords ∧
        scanLoop sha fuel (remaining.drop total) (p.push e a total) = .ok q := by
  rw [scanLoop] at h
  split at h
  · exact .inl (Except.ok.inj h).symm
  rw [refuse_eq_ok, bind_eq_ok] at h
  obtain ⟨hlimit, step, hstep, h⟩ := h
  cases step with
  | stop zeros => exact .inr (.inl ⟨zeros, (Except.ok.inj h).symm⟩)
  | record e a total => exact .inr (.inr ⟨e, a, total, hstep, Nat.not_le.mp hlimit, h⟩)

/-- **A scan** finds everything behind where it starts, and within the bytes it has. -/
theorem scanLoop_before (h : scanLoop sha fuel remaining p = .ok q) :
    p.Before q ∧ (p.Bounded → q.Bounded) ∧
      q.completeBytes ≤ p.completeBytes + remaining.length := by
  induction fuel generalizing remaining p with
  | zero =>
    cases h
    exact ⟨.refl _, id, Nat.le_add_right ..⟩
  | succ fuel ih =>
    rcases scanLoop_cases h with rfl | ⟨zeros, rfl⟩ | ⟨e, a, total, hstep, -, h⟩
    · exact ⟨.refl q, id, Nat.le_add_right ..⟩
    · have hsame := Prefix.Before.refl p
      exact ⟨⟨hsame.events, hsame.milestones, hsame.bytes, rfl⟩, fun hp => ⟨hp.last, hp.within⟩,
        Nat.le_add_right ..⟩
    obtain ⟨hbefore, hbounded⟩ := before_push hstep
    obtain ⟨hrest, hbounded', hbytes⟩ := ih h
    refine ⟨hbefore.trans hrest, fun hp => hbounded' (hbounded hp), ?_⟩
    obtain ⟨-, htotal, -⟩ := scanStep_inv hstep
    rw [length_take] at htotal
    rw [length_drop] at hbytes
    have : (p.push e a total).completeBytes = p.completeBytes + total := rfl
    omega

/-- **The bytes up to a boundary** are scanned to what lies before it. -/
theorem scanLoop_cut (h : scanLoop sha fuel remaining p = .ok q) {m} (hm : m ∈ q.milestones) :
    m ∈ p.milestones ∨ p.completeBytes < m.1 ∧ ∃ r, r.Before q ∧ r.anchor = m.2 ∧
      r.completeBytes = m.1 ∧
      r.incomplete = p.incomplete ∧ ∀ n, m.1 ≤ p.completeBytes + n →
      scanLoop sha n (remaining.take (m.1 - p.completeBytes)) p = .ok r := by
  induction fuel generalizing remaining p with
  | zero =>
    cases h
    exact .inl hm
  | succ fuel ih =>
    rcases scanLoop_cases h with rfl | ⟨zeros, rfl⟩ | ⟨e, a, total, hstep, hlimit, h⟩
    · exact .inl hm
    · exact .inl hm
    obtain ⟨-, -, hpos, -⟩ := scanStep_inv hstep
    have hbytes : (p.push e a total).completeBytes = p.completeBytes + total := rfl
    have hround : ∀ rest k n, 0 < n → rest = (remaining.drop total).take k →
        scanLoop sha n (remaining.take (total + k)) p =
        scanLoop sha (n - 1) rest (p.push e a total) := by
      rintro rest k n hn rfl
      obtain ⟨n, rfl⟩ := Nat.exists_eq_add_of_lt hn
      rw [take_split, scanLoop_push hstep hlimit, Nat.add_sub_cancel]
    rcases ih h with hold | ⟨hlater, r, hr, hanchor, hend, hinc, hscan⟩
    · rcases mem_append.mp hold with hold | hnew
      · exact .inl hold
      obtain rfl := mem_singleton.mp hnew
      refine .inr ⟨Nat.lt_add_of_pos_right hpos, _, (scanLoop_before h).1, rfl, rfl, rfl,
        fun n hn => ?_⟩
      rw [Nat.add_sub_cancel_left, ← add_zero total, hround [] 0 n (by omega) rfl,
        scanLoop_nil, add_zero]
    · refine .inr ⟨by omega, r, hr, hanchor, hend, hinc, fun n hn => ?_⟩
      have hsplit : m.1 - p.completeBytes = total + (m.1 - (p.push e a total).completeBytes) := by
        omega
      rw [hsplit, hround _ _ n (by omega) rfl]
      exact hscan _ (by omega)

end Scan

/-- **A file cut at a boundary** holds what lies before it. -/
theorem scanFrom_cut {b base p} (h : scanFrom sha b base = .ok p) :
    p.Bounded ∧ p.completeBytes ≤ b.length ∧ p.anchor.index.val = base.index.val + p.events.length ∧
      ∀ m ∈ p.milestones, ∃ q, scanFrom sha (b.take m.1) base = .ok q ∧
      q.Before p ∧ q.Bounded ∧ q.anchor = m.2 ∧ q.completeBytes = m.1 ∧
      q.anchor.index.val = base.index.val + q.events.length ∧ q.incomplete = false := by
  rw [scanFrom, refuse_eq_ok, refuse_eq_ok, not_not] at h
  obtain ⟨hsize, hmagic, h⟩ := h
  obtain ⟨hbefore, hbounded, hbytes⟩ := scanLoop_before h
  have hstart : (Prefix.start base).Bounded := ⟨by simp [Prefix.start], by simp [Prefix.start]⟩
  have hlen : logMagic.length ≤ b.length := by
    have := congrArg List.length hmagic
    rw [List.length_take] at this
    omega
  rw [List.length_drop] at hbytes
  have hwhole : (Prefix.start base).completeBytes = logMagic.length := rfl
  refine ⟨hbounded hstart, by omega, by simpa [Prefix.start] using hbefore.count, fun m hm => ?_⟩
  have hend := ((hbounded hstart).within m hm).1
  have hcut : ∃ q, scanLoop sha m.1 ((b.drop logMagic.length).take (m.1 - logMagic.length))
      (Prefix.start base) = .ok q ∧ logMagic.length ≤ m.1 ∧ q.Before p ∧ q.anchor = m.2 ∧
      q.completeBytes = m.1 ∧ q.incomplete = false := by
    rcases scanLoop_cut h hm with hm | ⟨hlater, q, hq, hanchor, hm', hinc, hscan⟩
    · obtain rfl := List.mem_singleton.mp hm
      refine ⟨_, ?_, le_rfl, hbefore, rfl, rfl, rfl⟩
      rw [Nat.sub_self, List.take_zero, scanLoop_nil]
    · exact ⟨q, hscan m.1 (by omega), by omega, hq, hanchor, hm', hinc⟩
  obtain ⟨q, hscan, hlow, hq, hanchor, hm', hinc⟩ := hcut
  obtain ⟨hafter, hbounded', -⟩ := scanLoop_before hscan
  refine ⟨q, ?_, hq, hbounded' hstart, hanchor, hm', by simpa [Prefix.start]
    using hafter.count, hinc⟩
  have htake : (b.take m.1).length = m.1 := by
    rw [List.length_take]
    omega
  rw [scanFrom, if_neg (by omega), if_neg (by rw [List.take_take, min_eq_left hlow, hmagic]; simp),
    htake, List.drop_take]
  exact hscan

/-! ### What is kept -/

/-- The log `after` is what is left of the log `before`: a prefix that reaches to the
end of the record of `log` at least, in which a scan finds the same records up to the
index of `log`, with the digest of `log` at the same place. -/
structure KeepsThrough (sha : Bytes → Digest) (base log : LogAnchor) (before after : Bytes)
    (p q : Prefix) : Prop where
  found : scanFrom sha before base = .ok p
  left : scanFrom sha after base = .ok q
  cut : after <+: before
  records : q.events <+: p.events
  through : ∀ c : CommittedEvent, c.index ≤ log.index → (c ∈ q.events ↔ c ∈ p.events)
  anchored : ∃ offset, p.offsetOf log = some offset ∧ q.offsetOf log = some offset ∧
    offset ≤ after.length

section Keeps

variable {base log : LogAnchor} {b : Bytes} {p : Prefix}

theorem offsetOf_eq_some {n} (h : p.offsetOf log = some n) : (n, log) ∈ p.milestones := by
  obtain ⟨m, hm, rfl⟩ := Option.map_eq_some_iff.mp h
  have hlog : m.2 = log := by simpa using find?_some hm
  rw [← hlog]
  exact mem_of_find?_eq_some hm

theorem KeepsThrough.self {n} (h : scanFrom sha b base = .ok p) (hn : p.offsetOf log = some n) :
    KeepsThrough sha base log b b p p := by
  obtain ⟨hp, hbytes, -, -⟩ := scanFrom_cut h
  exact ⟨h, h, prefix_rfl, prefix_rfl, fun _ _ => .rfl, n, hn, hn,
    (hp.within _ (offsetOf_eq_some hn)).1.trans hbytes⟩

/-- **A cut at a boundary** at or behind the anchored record keeps what is anchored. -/
theorem KeepsThrough.take {n m} (h : scanFrom sha b base = .ok p) (hn : p.offsetOf log = some n)
    (hm : m ∈ p.milestones) (hle : n ≤ m.1) :
    ∃ q, KeepsThrough sha base log b (b.take m.1) p q ∧ q.anchor = m.2 ∧
      q.events = p.events.take (m.2.index.val - base.index.val) ∧ q.incomplete = false := by
  obtain ⟨hp, hbytes, -, hcut⟩ := scanFrom_cut h
  obtain ⟨q, hq, hbefore, hbounded, hanchor, hend, hcount, hinc⟩ := hcut m hm
  obtain ⟨es, hes, hbehind⟩ := hbefore.events
  obtain ⟨ms, hms, hlater⟩ := hbefore.milestones
  have htake : (b.take m.1).length = m.1 := by
    rw [length_take]
    exact min_eq_left ((hp.within m hm).1.trans hbytes)
  have hmem : (n, log) ∈ q.milestones := by
    have hmem := offsetOf_eq_some hn
    rw [hms] at hmem
    refine (mem_append.mp hmem).resolve_right fun hmem => ?_
    have := hlater _ hmem
    omega
  refine ⟨q, ⟨h, hq, take_prefix .., ⟨es, hes.symm⟩, fun c hc => ?_, n, hn, ?_, by omega⟩,
    hanchor, ?_, hinc⟩
  · rw [hes, mem_append]
    refine ⟨.inl, fun hmem' => hmem'.resolve_right fun hmem' => ?_⟩
    exact absurd (hbehind c hmem') (not_lt.mpr (hc.trans (hbounded.within _ hmem).2))
  · cases hfind : q.milestones.find? fun m => m.2 = log with
    | none =>
      have := find?_eq_none.mp hfind _ hmem
      simp at this
    | some =>
      rw [Prefix.offsetOf, hms, find?_append, hfind] at hn
      rw [Prefix.offsetOf, hfind]
      exact hn
  · rw [hanchor] at hcount
    rw [hcount, Nat.add_sub_cancel_left, hes, take_left' rfl]

end Keeps

/-! ### What an attempt leaves -/

/-- What an attempt leaves on the disk once it got to the log, and what it found there
if it returns a ledger. -/
def Leaves {ε α : Type} (sha : Bytes → Digest) (base log : LogAnchor) (ledger : α → FileLedger)
    (d : Disk) (r : Outcome ε α) (d' : Disk) : Prop :=
  ∃ f g p q, d.logs[base.index]? = some f ∧ d'.logs = (d.setLog base.index g).logs ∧
    KeepsThrough sha base log f.content g.content p q ∧
    ∀ x, r = .ok x → (ledger x).events = q.events ∧ (ledger x).anchor = q.anchor

/-- What an attempt may do: it refuses and leaves every log as it was, or it gets to the log. -/
def Attempted (α : Type) (sha : Bytes → Digest) (base log : LogAnchor) (d : Disk)
    (r : Outcome IoError (FileLedger × α)) (d' : Disk) : Prop :=
  (r.Failed ∧ d'.logs = d.logs) ∨ Leaves sha base log Prod.fst d r d'

section Attempts

variable {base : LogAnchor} {p : Prefix} {d d' : Disk} {f : DiskFile}

theorem offsetOf_of_mem {m} (h : m ∈ p.milestones) : ∃ n, p.offsetOf m.2 = some n := by
  rw [← Option.isSome_iff_exists, Prefix.offsetOf, Option.isSome_map, find?_isSome]
  exact ⟨m, h, by simp⟩

/-- **A cut at a boundary**, which may have failed. -/
theorem leaves_cut {ε α : Type} {log} {ledger : α → FileLedger} {r : Outcome ε α} {n}
    {m : Nat × LogAnchor} {g} (hf : d.logs[base.index]? = some f)
    (hp : scanFrom sha f.content base = .ok p) (hn : p.offsetOf log = some n)
    (hm : m ∈ p.milestones) (hle : n ≤ m.1) (hd : d'.logs = (d.setLog base.index g).logs)
    (hg : Cut f m.1 g)
    (hr : ∀ x, r = .ok x → g.content = f.content.take m.1 ∧ (ledger x).anchor = m.2 ∧
      (ledger x).events = p.events.take (m.2.index.val - base.index.val)) :
    Leaves sha base log ledger d r d' := by
  have hcontent : g.content = f.content ∨ g.content = f.content.take m.1 := by
    rcases hg with rfl | rfl | ⟨k, rfl⟩ | rfl
    · exact .inl rfl
    all_goals exact .inr (by simp)
  by_cases hcut : g.content = f.content.take m.1
  · obtain ⟨q, hkeeps, hanchor, hevents, -⟩ := KeepsThrough.take hp hn hm hle
    refine ⟨f, g, p, q, hf, hd, hcut ▸ hkeeps, fun x hx => ?_⟩
    obtain ⟨-, hanchor', hevents'⟩ := hr x hx
    exact ⟨hevents'.trans hevents.symm, hanchor'.trans hanchor.symm⟩
  · have hself := KeepsThrough.self hp hn
    nth_rewrite 2 [← hcontent.resolve_right hcut] at hself
    exact ⟨f, g, p, p, hf, hd, hself, fun x hx => absurd (hr x hx).1 hcut⟩

/-- **A repair** refuses, or cuts at the end of what was found or at the anchored record. -/
theorem repair_eq (sha : Bytes → Digest) (l : RecoverableLog) (anchor : ProtectedAnchor)
    (policy : TailPolicy) :
    (∃ e, l.repair sha anchor policy = Prog.throw e) ∨
      ∃ (n : Nat) (m : Nat × LogAnchor) (recovery : FileLedger → TailRecovery),
      l.scanned.offsetOf anchor.log = some n ∧
        (m = (l.scanned.completeBytes, l.tail) ∨ m = (n, anchor.log)) ∧
        l.repair sha anchor policy = l.cutAndOpen m.2 m.1 >>= fun ledger =>
        pure (ledger, recovery ledger) := by
  have hfound : (l.classify sha anchor).Repairable →
      ∃ n, l.scanned.offsetOf anchor.log = some n := by
    intro h
    by_contra hnone
    have hno : l.scanned.recordsAfter anchor.log = none := by
      rw [Prefix.recordsAfter, Option.map_eq_none_iff, findIdx?_eq_none_iff]
      intro m hm
      exact decide_eq_false fun heq => hnone (heq ▸ offsetOf_of_mem hm)
    rw [RecoverableLog.classify, hno] at h
    split_ifs at h <;> exact h
  unfold RecoverableLog.repair
  cases hsplit : l.classify sha anchor with
  | aligned | unacknowledged =>
    obtain ⟨n, hn⟩ := hfound (by rw [hsplit]; trivial)
    simp only [hn]
    split_ifs
    all_goals first
      | exact .inl ⟨_, rfl⟩
      | exact .inr ⟨n, _, _, rfl, .inr rfl, rfl⟩
      | exact .inr ⟨n, _, _, rfl, .inl rfl, rfl⟩
  | lostSuffix | diverged | originMismatch | baseMismatch => exact .inl ⟨_, rfl⟩

/-- **A repair of any bytes** refuses, or keeps what is anchored. -/
theorem repair_leaves {anchor} {policy : TailPolicy} (hf : d.logs[base.index]? = some f)
    (hp : scanFrom sha f.content base = .ok p) :
    (repair sha ⟨base, p, f.content.length⟩ anchor policy).Leads d
      (fun x => Attempted TailRecovery sha base anchor.log d (.ok x))
      fun w => Attempted TailRecovery sha base anchor.log d (w.elim .crash .err) := by
  obtain ⟨hbounded, -⟩ := scanFrom_cut hp
  rcases repair_eq sha ⟨base, p, f.content.length⟩ anchor policy
    with ⟨e, heq⟩ | ⟨n, m, recovery, hn, hm, heq⟩
  · rw [heq]
    exact leads_throw (.inl ⟨trivial, rfl⟩)
  rw [heq]
  have hmem : m ∈ p.milestones ∧ n ≤ m.1 := by
    rcases hm with rfl | rfl
    · exact ⟨hbounded.last, (hbounded.within _ (offsetOf_eq_some hn)).1⟩
    · exact ⟨offsetOf_eq_some hn, le_rfl⟩
  refine (leads_cutAndOpen hf).seq ?_ ?_
  · rintro w _ ⟨g, rfl, hg⟩
    exact .inr (leaves_cut hf hp hn hmem.1 hmem.2 rfl hg fun x hx => by cases w <;> cases hx)
  · rintro _ _ ⟨rfl, rfl⟩
    refine leads_pure (.inr (leaves_cut hf hp hn hmem.1 hmem.2 rfl cut_kept fun x hx => ?_))
    cases hx
    exact ⟨content_kept, rfl, rfl⟩

theorem Leaves.mono {ε ε' α α' : Type} {log} {ledger : α → FileLedger} {ledger'} {r : Outcome ε α}
    {r' : Outcome ε' α'} {d''} (h : Leaves sha base log ledger d r d') (hd : d''.logs = d'.logs)
    (hr : ∀ x, r' = .ok x → ∃ y, r = .ok y ∧ ledger' x = ledger y) :
    Leaves sha base log ledger' d r' d'' := by
  obtain ⟨f, g, p, q, hf, hlogs, hkeeps, hok⟩ := h
  refine ⟨f, g, p, q, hf, hd.trans hlogs, hkeeps, fun x hx => ?_⟩
  obtain ⟨y, hy, heq⟩ := hr x hx
  rw [heq]
  exact hok y hy

theorem recover_leaves {trusted} :
    (FileLedger.recoverUnacknowledgedTailReporting sha trusted).Leads d
      (fun x => Attempted Nat sha (.empty sha) trusted d (.ok x))
      fun w => Attempted Nat sha (.empty sha) trusted d (w.elim .crash .err) := by
  refine leads_lockForRecovery.seq ?_ ?_
  · rintro w _ rfl
    exact .inl ⟨Outcome.failed_elim w, rfl⟩
  rintro _ d ⟨rfl, f, p, hf, hp, rfl⟩
  refine leads_ofExcept_bind (fun _ htrust => ?_) fun _ => .inl ⟨trivial, rfl⟩
  rw [Prefix.requireAnchor, refuse_eq_ok, not_not] at htrust
  obtain ⟨rfl, -⟩ := htrust
  obtain ⟨hbounded, -, hcount, -⟩ := scanFrom_cut hp
  obtain ⟨n, hn⟩ := offsetOf_of_mem hbounded.last
  have hopen :
      ∀ {d'},
      (∀ r : Outcome IoError (FileLedger × Nat),
        (∀ x, r = .ok x → x.1.events = p.events ∧ x.1.anchor = p.anchor) →
        Leaves sha (.empty sha) p.anchor Prod.fst d r d') →
      (FileLedger.fromVerifiedAbove p.events p.anchor p.completeBytes (.empty sha) >>= fun ledger =>
        pure (ledger, p.zeroTail)).Leads d'
      (fun x => Attempted Nat sha (.empty sha) p.anchor d (.ok x)) fun w =>
      Attempted Nat sha (.empty sha) p.anchor d (w.elim .crash .err) := fun {d'} h =>
    Leads.bind (Q := fun l d₁ => (l.events = p.events ∧ l.anchor = p.anchor) ∧ d₁ = d')
      (FileLedger.leads_fromVerifiedAbove (fun w => .inr (h _ fun x hx => by cases w <;> cases hx))
      ⟨⟨rfl, rfl⟩, rfl⟩)
      fun l _ hl => leads_pure (.inr (hl.2 ▸ h _ fun x hx => by cases hx; exact hl.1))
  by_cases htorn : p.incomplete = true
  · rw [if_pos htorn]
    have hle := (hbounded.within _ (offsetOf_eq_some hn)).1
    refine (leads_truncateDurably hf).seq ?_ ?_
    · rintro w _ ⟨g, rfl, hg⟩
      exact .inr (leaves_cut hf hp hn hbounded.last hle rfl hg fun x hx => by cases w <;> cases hx)
    rintro _ _ rfl
    refine hopen fun r hok => leaves_cut hf hp hn hbounded.last hle rfl (.inr (.inr (.inr rfl)))
      fun x hx => ?_
    obtain ⟨hevents, hanchor⟩ := hok x hx
    refine ⟨DiskFile.content_synced _, hanchor, ?_⟩
    rw [hevents, hcount, Nat.add_sub_cancel_left, take_length]
  · rw [if_neg htorn]
    exact hopen fun r hok => ⟨f, f, p, p, hf, by rw [Disk.setLog_eq_self hf], .self hp hn, hok⟩

theorem open_leaves {key e policy r} (h : (openLedger sha key e policy).Ends d r d') :
    (r.Failed ∧ d'.logs = d.logs) ∨ ∃ file a, d.anchor = some file ∧
      authenticate sha key e file.content = .ok a ∧
      Leaves sha a.base a.log (fun x => x.1.log) d r d' := by
  refine Leads.elim (C := fun r d' => (r.Failed ∧ d'.logs = d.logs) ∨
    ∃ file a, d.anchor = some file ∧ authenticate sha key e file.content = .ok a ∧
    Leaves sha a.base a.log (fun x => x.1.log) d r d')
    (leads_openLedger (fun w => .inl ⟨Outcome.failed_elim w, rfl⟩) ?_) h
  intro file a f p hfile ha hf hp
  refine (repair_leaves hf hp).imp ?_ ?_
  · rintro x d₁ (⟨⟨⟩, -⟩ | hleaves)
    -- the tail is acknowledged, which may fail
    refine ⟨fun _ split => ?_, fun _ => leads_acknowledge.imp ?_ ?_⟩
    · exact .inr ⟨file, a, hfile, ha, hleaves.mono rfl (by rintro _ ⟨⟩; exact ⟨_, rfl, rfl⟩)⟩
    · rintro next y ⟨hi, -⟩ split
      exact .inr ⟨file, a, hfile, ha, hleaves.mono hi.published.1
        (by rintro _ ⟨⟩; exact ⟨_, rfl, rfl⟩)⟩
    · intro w y hy
      have hlogs : y.2.logs = d₁.logs := hy.2.elim (·.1) fun hi => hi.choose_spec.published.1
      exact .inr ⟨file, a, hfile, ha, hleaves.mono hlogs fun x hx => by cases w <;> cases hx⟩
  · rintro w d₁ (⟨-, hlogs⟩ | hleaves)
    · exact .inl ⟨Outcome.failed_elim _, hlogs⟩
    · exact .inr ⟨file, a, hfile, ha, hleaves.mono rfl fun x hx => by cases w <;> cases hx⟩

end Attempts

/-- **Opening a damaged log keeps what is anchored.**  Whatever the log holds, whatever
is anchored and under every policy, an attempt to repair, to recover or to open it
refuses and leaves every log as it was, or leaves a log that keeps the records up to the
anchored one; a ledger that is returned holds just the records of that log.  Any file
step of the attempt may fail. -/
theorem damaged_log_keeps_anchored (sha : Bytes → Digest) (key : AnchorKey) (policy : TailPolicy)
    (d d' : Disk) :
    (∀ base anchor r, (lockForRecovery sha base >>= fun l =>
      l.repair sha anchor policy).Ends d r d' →
      (r.Failed ∧ d'.logs = d.logs) ∨ Leaves sha base anchor.log Prod.fst d r d') ∧
    (∀ trusted r, (FileLedger.recoverUnacknowledgedTailReporting sha trusted).Ends d r d' →
      (r.Failed ∧ d'.logs = d.logs) ∨ Leaves sha (.empty sha) trusted Prod.fst d r d') ∧
    ∀ e r, (openLedger sha key e policy).Ends d r d' →
      (r.Failed ∧ d'.logs = d.logs) ∨ ∃ file a, d.anchor = some file ∧
        authenticate sha key e file.content = .ok a ∧
        Leaves sha a.base a.log (fun x => x.1.log) d r d' := by
  refine ⟨fun base anchor r h => ?_, fun trusted r h => ?_, fun e r h => open_leaves h⟩
  · refine Leads.elim (C := Attempted TailRecovery sha base anchor.log d)
      (leads_lockForRecovery.seq ?_ ?_) h
    · rintro w _ rfl
      exact .inl ⟨Outcome.failed_elim w, rfl⟩
    · rintro _ _ ⟨rfl, f, p, hf, hp, rfl⟩
      exact repair_leaves hf hp
  · exact recover_leaves.elim (C := Attempted Nat sha (.empty sha) trusted d) h

/-- A record that is not acknowledged, a zero byte behind it, and an anchor whose epoch
is the last one. -/
def lastEpochDisk (key : AnchorKey) : Disk :=
  { (Disk.empty.setLog 0 (.synced (oneRecord (.empty blankHash) ++ [0]))) with
    anchor := some (.synced (ProtectedAnchor.record blankHash key
      ⟨Fin.last _, .empty blankHash, .unset, .empty blankHash⟩)) }

/-- **A refusal may come after the cut**: the anchor cannot be advanced, and the zero is
gone. -/
theorem refused_after_cut :
    let d := lastEpochDisk .zero
    let run := openLedger blankHash .zero 0 .acknowledge d []
    run.1 = .err (.anchor .nonMonotonic) ∧
      (d.logs[(0 : CommitIndex)]?).map (·.content) = some (oneRecord (.empty blankHash) ++ [0]) ∧
      (run.2.1.logs[(0 : CommitIndex)]?).map (·.content) = some (oneRecord (.empty blankHash)) := by
  decide +kernel

end Ptr.Ledger
