import Ptr.Raft.Reopen

/-!
# What a raft storage keeps through every stop

The operations of a storage are made by the raft library, which appends above the
commit index, in the order of the terms, and does not take a commit back
(`Op.Careful`).  In a run of such operations, with stops at any file step, power
losses and openings that are themselves stopped:

* `Op.Leaves.keeps`: what an interrupted operation can leave is in order and has
  every committed entry above its snapshot.
* `reopens_between`: a reopening finds the state before or after the interrupted
  operation, or an append up to some entry, or refuses and changes no content.
* `torn_append_reopens`: an append that is cut inside its last record is reopened up to
  that record, if no record seems to begin in what is left of it.
-/

namespace Ptr.Raft

open Lib Ledger Files Stored Relation List

/-! ### What is kept -/

def Ascending (es : List Entry) : Prop := es.Pairwise fun a b => a.term ≤ b.term

/-- The entries begin right above the snapshot, in a row, in the order of their
terms. -/
structure Stored.Ordered (h : Stored) : Prop where
  contiguous : Contiguous h.snapshot.index.val h.entries
  ascending : Ascending h.entries

/-- `h'` has every entry that `h` holds as committed, unless its snapshot covers
it. -/
structure Stored.Kept (h h' : Stored) : Prop where
  commit : h.hardState.commit ≤ h'.hardState.commit
  snapshot : h.snapshot.index ≤ h'.snapshot.index
  entries : ∀ e ∈ h.entries, e.index ≤ h.hardState.commit → h'.snapshot.index < e.index →
    e ∈ h'.entries

namespace Stored

variable {h h' h'' : Stored}

theorem Kept.refl (h : Stored) : h.Kept h := ⟨le_refl _, le_refl _, fun _ he _ _ => he⟩

theorem Kept.trans (hk : h.Kept h') (hk' : h'.Kept h'') : h.Kept h'' where
  commit := hk.commit.trans hk'.commit
  snapshot := hk.snapshot.trans hk'.snapshot
  entries e he hc hs :=
    hk'.entries e (hk.entries e he hc (lt_of_le_of_lt hk'.snapshot hs)) (hc.trans hk.commit) hs

theorem ordered_fresh (voters learners : List U64) : (fresh voters learners).Ordered :=
  ⟨trivial, .nil⟩

end Stored

namespace Op

/-- The promises of the caller: entries come above the commit index and in the
order of their terms, and a commit index is not taken back. -/
def Lawful : Op → Stored → Prop
  | .append es, h => ∀ first ∈ es.head?, h.hardState.commit < first.index ∧
      Ascending (h.entries.take (h.keep first.index) ++ es)
  | .setHardState hs, h => h.hardState.commit ≤ hs.commit
  | .setCommit commit, h => h.hardState.commit ≤ commit
  | .applySnapshot snap, h => h.hardState.commit ≤ snap.index
  | _, _ => True

def Careful (sha : Bytes → Digest) (op : Op) (h : Stored) : Prop := op.Lawful h ∧ op.Distinct sha h

end Op

/-! ### One operation -/

section Operation

variable {h h' : Stored}

theorem Ascending.take_append {es fs} (ha : Ascending (es ++ fs)) (n : Nat) :
    Ascending (es ++ fs.take n) :=
  Pairwise.sublist ((Sublist.refl es).append (take_sublist n fs)) ha

theorem Stored.Ordered.overwrite {first rest} (ho : h.Ordered)
    (hlaw : (Op.append (first :: rest)).Lawful h)
    (hcheck : h.checkAppend first.index (first :: rest) = .ok ()) (n : Nat) :
    (h.overwrite (h.keep first.index) ((first :: rest).take n)).Ordered ∧
      h.Kept (h.overwrite (h.keep first.index) ((first :: rest).take n)) := by
  obtain ⟨habove, hasc⟩ := hlaw first rfl
  obtain ⟨hlen, hpos, hes⟩ := checkAppend_spec ho.contiguous hcheck
  refine ⟨⟨?_, hasc.take_append n⟩, ⟨le_refl _, le_refl _, fun e he hc _ => ?_⟩⟩
  · show Contiguous h.snapshot.index.val
      (h.entries.take (h.keep first.index) ++ (first :: rest).take n)
    rw [Contiguous.append_iff, length_take, min_eq_left hlen]
    exact ⟨ho.contiguous.take _, hes.take n⟩
  · -- a committed entry lies below the first new one, so it is kept
    have hlt : e.index.val < first.index.val := lt_of_le_of_lt hc habove
    refine mem_append_left _ ?_
    rcases mem_append.mp ((take_append_drop (h.keep first.index) h.entries).symm ▸ he) with
      htake | hdrop
    · exact htake
    · have := ((ho.contiguous.drop hlen).mem hdrop).1
      omega

theorem Stored.Ordered.install {snap} (ho : h.Ordered) (hlaw : (Op.applySnapshot snap).Lawful h)
    (hcheck : h.checkInstall snap = .ok ()) :
    (h.install snap).Ordered ∧ h.Kept (h.install snap) := by
  rw [checkInstall, refuse_eq_ok] at hcheck
  have hfirst : h.firstIndex.val ≤ snap.index.val := not_lt.mp hcheck.1
  refine ⟨⟨trivial, .nil⟩, ⟨hlaw, ?_, fun e _ hc hs => ?_⟩⟩
  · refine le_trans ?_ hfirst
    rw [firstIndex]
    cases hs : h.entries with
    | nil => exact U64.le_saturatingAdd _ _
    | cons =>
      have hc := ho.contiguous
      rw [hs] at hc
      exact le_of_lt (hc.mem (mem_cons_self ..)).1
  · exact absurd (hc.trans hlaw) (not_le.mpr hs)

theorem Stored.Ordered.compact {index term events data floor} (ho : h.Ordered)
    (hcheck : h.checkRecord index data floor = .ok (term, events)) :
    (h.compact index term events data).Ordered ∧ h.Kept (h.compact index term events data) := by
  have hterm : ∃ t, h.termOf index = .ok t := by
    simp only [checkRecord, refuse_eq_ok, bind_eq_ok] at hcheck
    obtain ⟨-, -, -, t, ht, -⟩ := hcheck
    exact ⟨t, ht⟩
  have hlow : h.snapshot.index.val ≤ index.val := by
    rw [checkRecord, refuse_eq_ok, refuse_eq_ok] at hcheck
    exact not_lt.mp hcheck.2.1
  -- the position lies in the log
  have hin : index.val - h.snapshot.index.val ≤ h.entries.length := by
    obtain ⟨t, ht⟩ := hterm
    have hlast := lastIndex_val ho.contiguous
    rw [termOf] at ht
    split at ht
    · next heq => rw [heq]; omega
    · rw [refuse_eq_ok] at ht
      have : index.val ≤ h.lastIndex.val := not_lt.mp fun hlt => ht.1 (.inr hlt)
      omega
  have hdrop : (h.compact index term events data).entries =
      h.entries.drop (index.val - h.snapshot.index.val) := compact_drop ho.contiguous index
  refine ⟨⟨?_, ?_⟩, ⟨le_refl _, hlow, fun e he _ hs => ?_⟩⟩
  · rw [hdrop]
    have := ho.contiguous.drop hin
    rwa [Nat.add_sub_cancel' hlow] at this
  · exact Pairwise.sublist (drop_sublist ..) ho.ascending
  · rw [hdrop]
    rcases mem_append.mp ((take_append_drop _ h.entries).symm ▸ he) with htake | hdrop
    · have hmem := ((ho.contiguous.take (index.val - h.snapshot.index.val)).mem htake).2
      have hlt : index.val < e.index.val := hs
      rw [length_take] at hmem
      omega
    · exact hdrop

theorem Stored.Ordered.claim (ho : h.Ordered) (f : U64) : (h.claim f).Ordered :=
  ⟨ho.contiguous, ho.ascending⟩

theorem Stored.Kept.claim (hk : h.Kept h') (f : U64) : h.Kept (h'.claim f) :=
  ⟨hk.commit, hk.snapshot, hk.entries⟩

/-- **What is left of an operation** has a property that every change it can make
has, and that does not depend on the fence. -/
theorem Op.Leaves.rule {op : Op} {I : Stored → Prop} (hl : op.Leaves h h')
    (hclaim : ∀ t f, I t → I (t.claim f)) (hsame : I h)
    (happend : ∀ first rest n, op = .append (first :: rest) →
      h.checkAppend first.index (first :: rest) = .ok () →
      I (h.overwrite (h.keep first.index) ((first :: rest).take n)))
    (hcommit : ∀ hs, op = .setHardState hs ∨ op = .setCommit hs.commit → I (h.withHardState hs))
    (hcount : ∀ n, op = .setAppliedEvents n → I (h.withApplied n))
    (hconf : ∀ conf, I (h.withConfState conf))
    (hinstall : ∀ snap, op = .applySnapshot snap → h.checkInstall snap = .ok () →
      I (h.install snap))
    (hrecord : ∀ index data floor term events, h.checkRecord index data floor = .ok (term, events) →
      I (h.compact index term events data)) : I h' := by
  rcases hl with rfl | ⟨s, he, rfl⟩ | ⟨first, rest, n, rfl, hcheck, rfl⟩
  · exact hsame
  swap; · exact happend first rest n rfl hcheck
  have hreplaced : ∀ {next s}, Store.Replaced next ⟨h, .sound⟩ s → I (next h) → I s.held := by
    rintro next s ⟨-, hheld⟩ hI
    rw [hheld]
    exact hclaim _ _ hI
  have hpersist : ∀ next, (Store.persist next).Ends ⟨h, .sound⟩ (.ok ()) s →
      I (next h) → I s.held :=
    fun next he => hreplaced (Store.leads_persist.ok he).1
  have hwithin : ∀ {index : U64} {data : Bytes} {floor : CommitIndex},
      (Store.recordSnapshotWithin index data floor).Leads ⟨h, .sound⟩ (fun _ s => I s.held)
      fun _ _ => True := by
    refine Store.leads_recordSnapshotWithin.imp ?_ fun _ _ _ => trivial
    rintro _ s ⟨term, events, hcheck, hs⟩
    exact hreplaced hs (hrecord _ _ _ term events hcheck)
  cases op with
  | append =>
    rcases Store.leads_append.ok he with ⟨-, rfl⟩ | ⟨first, rest, rfl, hcheck, hheld⟩
    · exact hsame
    · rw [hheld, ← take_length (l := first :: rest)]
      exact happend first rest _ rfl hcheck
  | setHardState hs => exact hpersist (·.withHardState hs) he (hcommit hs (.inl rfl))
  | setCommit commit =>
    exact hpersist (fun s => s.withHardState { s.hardState with commit := commit }) he
      (hcommit _ (.inr rfl))
  | setAppliedEvents n => exact hpersist (·.withApplied n) he (hcount n rfl)
  | setConfState conf => exact hpersist (·.withConfState conf) he (hconf conf)
  | applySnapshot snap =>
    obtain ⟨hcheck, hs⟩ := Store.leads_applySnapshot.ok he
    exact hreplaced hs (hinstall snap rfl hcheck)
  | recordSnapshotWithin => exact hwithin.ok he
  | recordSnapshot => exact (Store.leads_recordSnapshot (fun _ => hwithin) fun _ => trivial).ok he

/-- **An operation, interrupted or not,** keeps the order and every committed entry. -/
theorem Op.Leaves.keeps {op : Op} (ho : h.Ordered) (hlaw : op.Lawful h) (hl : op.Leaves h h') :
    h'.Ordered ∧ h.Kept h' := by
  -- the changes that leave the log as it is
  have hlog : ∀ t, t.entries = h.entries → t.snapshot = h.snapshot →
      h.hardState.commit ≤ t.hardState.commit → t.Ordered ∧ h.Kept t := by
    intro t he hs hc
    refine ⟨⟨?_, ?_⟩, hc, le_of_eq (by rw [hs]), fun _ hmem _ _ => by rwa [he]⟩
    · rw [he, hs]
      exact ho.contiguous
    · rw [he]
      exact ho.ascending
  refine hl.rule (I := fun t => t.Ordered ∧ h.Kept t)
    (fun t f ht => ⟨ht.1.claim f, ht.2.claim f⟩) ⟨ho, .refl h⟩ ?_ (fun hs hop => hlog _ rfl rfl ?_)
    (fun _ _ => hlog _ rfl rfl (le_refl _)) (fun _ => hlog _ rfl rfl (le_refl _)) ?_
    fun _ _ _ _ _ => ho.compact
  · rintro first rest n rfl hcheck
    exact ho.overwrite hlaw hcheck n
  · rcases hop with rfl | rfl <;> exact hlaw
  · rintro snap rfl hcheck
    exact ho.install hlaw hcheck

end Operation

/-! ### Every run -/

section Runs

variable {sha : Bytes → Digest}

/-- The files of `d'` have the content of those of `d`: the state, the payload
that it names, and the log. -/
structure RaftDisk.Unchanged (sha : Bytes → Digest) (d d' : RaftDisk) : Prop where
  state : d'.file .state = d.file .state
  payload : ∀ image, readState sha (d.file .state) = .ok image →
    d'.file (.payload image.snapshotDigest) = d.file (.payload image.snapshotDigest)
  log : d'.logContent = d.logContent

theorem SameContent.unchanged {h d d'} (hn : Described sha h d) (hc : SameContent h sha d d') :
    RaftDisk.Unchanged sha d d' where
  state := hc.state
  payload image himage := by
    rw [readState_described hn himage]
    exact hc.payload
  log := hc.log

def CarefulStep (sha : Bytes → Digest) : StorageLife → StorageLife → Prop :=
  StorageStep sha (Op.Careful sha)

theorem run_ordered {l : StorageLife}
    (run : ReflTransGen (CarefulStep sha) (.off .empty) l) : l.Started sha Stored.Ordered :=
  run_started (fun _ _ ha => ha.2) ordered_fresh (fun _ _ _ ho ha hl => (hl.keeps ho ha.1).1) run

theorem run_kept {h₀ : Stored} {l l'} (hl : l.Holds sha fun h => h.Ordered ∧ h₀.Kept h)
    (run : ReflTransGen (CarefulStep sha) l l') : l'.Holds sha fun h => h.Ordered ∧ h₀.Kept h := by
  refine run_holds (fun _ _ ha => ha.2) (fun op h h' hP ha hl => ?_) hl run
  have hkeeps := hl.keeps hP.1 ha.1
  exact ⟨hkeeps.1, hP.2.trans hkeeps.2⟩

theorem StorageLife.Holds.sound {P c d} (hl : StorageLife.Holds sha P (.running c d))
    (hc : c.health = .sound) : Sound sha c d ∧ P c.held := by
  rcases hl with hs | ⟨hp, -⟩
  · exact hs
  · rw [hc] at hp
    cases hp

theorem run_sound {c d} (run : ReflTransGen (CarefulStep sha) (.off .empty) (.running c d))
    (hc : c.health = .sound) : Sound sha c d ∧ c.held.Ordered := by
  rcases run_ordered run with ⟨_, ⟨⟩, -⟩ | hl
  exact StorageLife.Holds.sound hl hc

/-- **A stop in any operation of any run.**  A storage `c₀` worked at some point of
the run, and `c` works when the operation begins; the operation ends in any way,
with a power loss behind it or not.  A reopening finds the state before it, the
state after it, or an append up to some entry, with every entry that `c₀` held as
committed and in order; or it refuses and no content has changed. -/
theorem reopens_between {c₀ c c' : Core} {d₀ d d' d'' : RaftDisk} {op : Op}
    {r : Outcome IoError Unit}
    (run₀ : ReflTransGen (CarefulStep sha) (.off .empty) (.running c₀ d₀)) (h₀ : c₀.health = .sound)
    (run : ReflTransGen (CarefulStep sha) (.running c₀ d₀) (.running c d)) (hc : c.health = .sound)
    (hop : op.Careful sha c.held) (hend : (op.exec sha).Ends (c, d) r (c', d'))
    (hd : d'' = d' ∨ d'.Settles d'') (voters learners : List U64) :
    (∃ c₂ d₂, openStorage sha voters learners d'' [] = (.ok c₂, d₂, []) ∧
      op.Leaves c.held c₂.held ∧ c₀.held.Kept c₂.held ∧ c₂.held.Ordered) ∨
    ∃ e d₂, openStorage sha voters learners d'' [] = (.err e, d₂, []) ∧
      RaftDisk.Unchanged sha d'' d₂ := by
  obtain ⟨hs0, ho0⟩ := run_sound run₀ h₀
  have hstart : StorageLife.Holds sha (fun h => h.Ordered ∧ c₀.held.Kept h) (.running c₀ d₀) :=
    .inl ⟨hs0, ho0, .refl _⟩
  obtain ⟨hs, ho, hk⟩ := StorageLife.Holds.sound (run_kept hstart run) hc
  -- what the files can be read as after the stop
  have hre : Reopens sha (op.Leaves c.held) d'' := by
    have := reopens_exec hs hop.2 hend
    rcases hd with rfl | hd
    · exact this
    · exact this.settles hd
  obtain ⟨r2, d₂, hrun, hr2⟩ := @calm_openStorage sha voters learners d''
  cases r2 with
  | ok c₂ =>
    have hleaves := ((leads_openStorage hre).ok ⟨[], [], hrun⟩).2
    have hkeeps := hleaves.keeps ho hop.1
    exact .inl ⟨c₂, d₂, hrun, hleaves, hk.trans hkeeps.2, hkeeps.1⟩
  | err e =>
    obtain ⟨h, f, hn, hf, hall⟩ := hre
    refine .inr ⟨e, d₂, hrun, (refused_openStorage hn hf (fun f' hf' => ?_) hrun).unchanged hn⟩
    obtain ⟨low, high, part, hreads, -⟩ := hall f' hf'
    exact ⟨low, high, part, hreads⟩
  | crash => exact (hr2 rfl).elim

/-- **An append that is cut inside its last record.**  The log holds the records that the
append kept, the whole records of `es` and a part of the record of `e`.  A reopening
succeeds and finds the entries up to `es` exactly if no whole record, of whatever entry,
stands in that part. -/
theorem torn_append_reopens {c d d' f first es e part}
    (run : ReflTransGen (CarefulStep sha) (.off .empty) (.running c d)) (hc : c.health = .sound)
    (hstate : (encodeState sha (c.held.image sha)).length ≤ maxStateBytes)
    (hcheck : c.held.checkAppend first (es ++ [e]) = .ok ())
    (habove : c.held.hardState.commit < first) (hd : RaftDisk.Relogged f d d')
    (hf : f.content = logBytes sha (c.held.entries.take (c.held.keep first) ++ es) ++ part)
    (hpart : part <+: encodeRecord sha e) (hcut : part.length < recordLen e)
    (voters learners : List U64) :
    (∃ c₂ d₂, openStorage sha voters learners d' [] = (.ok c₂, d₂, []) ∧
      c₂.held = c.held.overwrite (c.held.keep first) es) ↔
    ∀ e', ¬ encodeRecord sha e' <:+: part := by
  have hs := (run_sound run hc).1
  obtain ⟨hlen, hpos, -⟩ := checkAppend_spec hs.contiguous hcheck
  have hfits := hs.overwrite_fits hcheck
  obtain ⟨hcontig, hsmall, hsize⟩ := hfits es.length
  obtain ⟨-, hall, hroom⟩ := hfits (es ++ [e]).length
  rw [take_left] at hcontig hsmall hsize
  rw [take_length] at hall hroom
  have htorn : parseRecord sha part = none := parseRecord_torn (hall e (by simp)) hpart hcut
  have hreads : Reads sha c.held f.content []
      (c.held.entries.take (c.held.keep first) ++ es) part :=
    ⟨hf, htorn, hsmall, hsize, nofun, hcontig⟩
  rw [← append_assoc, logLen_append, map_singleton, sum_singleton] at hroom
  have hshort : part.length < 2 ^ 32 := by
    rw [maxLogBytes] at hroom
    omega
  rw [← not_exists, ← recordFollows_iff htorn hshort]
  have hn := hs.named.relogged hd
  constructor
  · rintro ⟨c₂, d₂, hrun, -⟩
    obtain ⟨image, hscan⟩ := scanned_of_opened hn hd.log ⟨[], [], hrun⟩
    exact (hreads.scanLog.mp hscan).2.2.1
  · intro hnone
    refine returns_openStorage hn hstate hd.log hreads
      (hreads.scanLog.mpr ⟨?_, ?_, hnone, rfl⟩) voters learners
    · rw [nil_append]
      omega
    · have hlow : c.held.hardState.commit.val < first.val := habove
      rw [length_append, length_take_of_le hlen]
      omega

end Runs

/-! ### An append that stopped half way -/

def torn.first : Entry := ⟨1, 1, .normal, [], [1]⟩

def torn.second : Entry := ⟨2, 1, .normal, [], [2]⟩

def torn.append : Op := .append [torn.first, torn.second]

def torn.opened : Outcome IoError Core × RaftDisk × List Fault :=
  openStorage blankHash [1] [] .empty []

def torn.core : Core := Core.fresh blankHash [1] []

def torn.stopped : Outcome IoError Unit × (Core × RaftDisk) × List Fault :=
  torn.append.exec blankHash (torn.core, torn.opened.2.1) [.crash 70]

def torn.reopened : Outcome IoError Core × RaftDisk × List Fault :=
  openStorage blankHash [1] [] torn.stopped.2.1.2 []

theorem torn.step {allowed} :
    StorageStep blankHash allowed (.off .empty) (.running torn.core torn.opened.2.1) := by
  have hok : torn.opened.1 = .ok torn.core := by decide +kernel
  exact @StorageStep.opened _ _ [1] [] _ _ _ (Prog.ends_of_run rfl hok)

theorem torn.run :
    ReflTransGen (CarefulStep blankHash) (.off .empty) (.running torn.core torn.opened.2.1) :=
  .single torn.step

theorem torn.careful : torn.append.Careful blankHash torn.core.held := by
  refine ⟨fun first hfirst => ?_, nofun⟩
  obtain rfl := Option.some.inj hfirst
  exact ⟨by decide, by unfold Ascending; decide⟩

theorem torn.ends :
    (torn.append.exec blankHash).Ends (torn.core, torn.opened.2.1) .crash
      (torn.stopped.2.1.1, torn.stopped.2.1.2) := by
  have hcrash : torn.stopped.1 = .crash := by decide +kernel
  rw [Prod.mk.eta]
  exact Prog.ends_of_run rfl hcrash

/-- **Between before and after**: one entry of two, neither the old log nor the new
one. -/
theorem torn_append_reopens_with_one :
    ReflTransGen (CarefulStep blankHash) (.off .empty) (.running torn.core torn.opened.2.1) ∧
    torn.append.Careful blankHash torn.core.held ∧
    (torn.append.exec blankHash).Ends (torn.core, torn.opened.2.1) .crash
      (torn.stopped.2.1.1, torn.stopped.2.1.2) ∧
    ∃ c₂, torn.reopened.1 = .ok c₂ ∧ c₂.held.entries = [torn.first] ∧ c₂.held ≠ torn.core.held ∧
      ¬ torn.append.Completes torn.core.held c₂.held := by
  refine ⟨torn.run, torn.careful, torn.ends, { torn.core with
    held := torn.core.held.withEntries [torn.first], offsets := [8], trimmedTailBytes := 4 },
    by decide +kernel, rfl, by decide, ?_⟩
  rintro ⟨s, he, hheld⟩
  -- an append that returns has put both entries into the log
  have happend : (Store.append [torn.first, torn.second]).Ends ⟨torn.core.held, .sound⟩
      (.ok ()) s := he
  rcases Store.leads_append.ok happend with ⟨⟨⟩, -⟩ | ⟨first, rest, -, -, hs⟩
  rw [hheld] at hs
  have := congrArg entries hs
  simp [withEntries, overwrite, torn.core, Core.fresh, fresh] at this

theorem reopens_between_torn :
    (∃ c₂ d₂, openStorage blankHash [1] [] torn.stopped.2.1.2 [] = (.ok c₂, d₂, []) ∧
      torn.append.Leaves torn.core.held c₂.held ∧ torn.core.held.Kept c₂.held ∧ c₂.held.Ordered) ∨
    ∃ e d₂, openStorage blankHash [1] [] torn.stopped.2.1.2 [] = (.err e, d₂, []) ∧
      RaftDisk.Unchanged blankHash torn.stopped.2.1.2 d₂ :=
  reopens_between torn.run rfl .refl rfl torn.careful torn.ends (.inl rfl) [1] []

/-- **A whole record as data**: the write of the entry is cut off behind its data, and the
log is refused, although nothing was acknowledged. -/
theorem torn_append_refused :
    ReflTransGen (CarefulStep blankHash) (.off .empty) (.running torn.core torn.opened.2.1) ∧
    let e : Entry := ⟨1, 1, .normal, [], encodeRecord blankHash ⟨1, 1, .normal, [], []⟩⟩
    let stopped := (Op.append [e]).exec blankHash (torn.core, torn.opened.2.1)
      [.crash (recordLen e - 32)]
    (Op.append [e]).Careful blankHash torn.core.held ∧ stopped.1 = .crash ∧
    stopped.2.1.2.logContent = logBytes blankHash [] ++ (encodeRecord blankHash e).take
      (recordLen e - 32) ∧
    (openStorage blankHash [1] [] stopped.2.1.2 []).1 =
      .err (invalid (s!"raft log is damaged at byte {8} and " ++
        "valid records follow it: they may have been acknowledged, so nothing is cut")) := by
  refine ⟨torn.run, ⟨fun first hfirst => ?_, nofun⟩, by decide +kernel, by decide +kernel, by
    decide +kernel⟩
  obtain rfl := Option.some.inj hfirst
  exact ⟨by decide, by unfold Ascending; decide⟩

theorem torn_append_reopens_torn :
    ∃ c₂ d₂,
      openStorage blankHash [1] [] (torn.opened.2.1.withLog (.synced
        (logBytes blankHash [torn.first] ++ (encodeRecord blankHash torn.second).take 4))) [] =
        (.ok c₂, d₂, []) ∧ c₂.held.entries = [torn.first] := by
  have hcheck : torn.core.held.checkAppend 1 ([torn.first] ++ [torn.second]) = .ok () := by
    decide +kernel
  have hpart : (encodeRecord blankHash torn.second).take 4 <+: encodeRecord blankHash torn.second :=
    take_prefix 4 _
  obtain ⟨c₂, d₂, hrun, hheld⟩ := (torn_append_reopens torn.run rfl (by decide +kernel) hcheck
    (by decide) (RaftDisk.relogged_withLog _ _) (DiskFile.content_synced _) hpart
    (by decide +kernel) [1] []).mpr fun e h => by
      have hlen := h.length_le
      rw [encodeRecord_length, recordLen, length_take] at hlen
      omega
  exact ⟨c₂, d₂, hrun, by rw [hheld]; rfl⟩

end Ptr.Raft
