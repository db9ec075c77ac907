import Mathlib.Logic.Relation
import Ptr.Raft.Files

/-!
# What a reopened raft storage holds

A stop at any file step of an operation leaves files that are reopened as the
state before the operation or as the one after it; an append may also leave a
part of its entries behind those it keeps.  The operations on the files refine
those of `Store`: whatever they leave, the operation of `Store` may leave.

* `Sound`: memory and files of a storage that works.
* `Reopens P`: whatever a power loss makes of the files, they are reopened as a
  state with `P`, if they are reopened at all.
-/

namespace Ptr.Raft

open Lib Ledger Files Prog RaftDisk Stored DiskFile List

/-! ### Files that describe a state -/

variable (sha : Bytes → Digest)

def Stored.image (h : Stored) : StateImage :=
  ⟨h.hardState, h.confState, h.snapshot, sha h.payload, h.fence, h.applied⟩

def Stored.withEntries (h : Stored) (es : List Entry) : Stored := { h with entries := es }

/-- The state file and the payload are those of `h`.  An empty payload needs no
file. -/
structure Described (h : Stored) (d : RaftDisk) : Prop where
  state : d.file .state = some (encodeState sha (h.image sha))
  payload : d.file (.payload (sha h.payload)) = some h.payload ∨
    d.file (.payload (sha h.payload)) = none ∧ h.payload = []
  fits : h.payload.length ≤ maxSnapshotBytes

/-- The entries that `open` makes of records `low` at or below the snapshot of `h`
and records `high` above. -/
def Stored.recovered (h : Stored) (low high : List Entry) : List Entry :=
  if low ≠ [] ∧ h.applied = .snapshotPending then [] else high

structure Reads (h : Stored) (bs : Bytes) (low high : List Entry) (part : Bytes) : Prop where
  bytes : bs = logBytes sha (low ++ high) ++ part
  torn : parseRecord sha part = none
  small : ∀ e ∈ low ++ high, e.Small
  size : logLen (low ++ high) ≤ maxLogBytes
  covered : ∀ e ∈ low, e.index ≤ h.snapshot.index
  contiguous : Contiguous h.snapshot.index.val high

/-- **Whatever a power loss makes of the files, they describe a state with
`P`.** -/
def Reopens (P : Stored → Prop) (d : RaftDisk) : Prop :=
  ∃ h f, Described sha h d ∧ d.log = some f ∧
    ∀ f', f.Settles f' → ∃ low high part, Reads sha h f'.content low high part ∧
      P (h.withEntries (h.recovered low high))

/-- Memory and files agree, and nothing is left to be synchronized. -/
structure Sound (c : Core) (d : RaftDisk) : Prop where
  health : c.health = .sound
  named : Described sha c.held d
  digest : c.digest = sha c.held.payload
  log : d.log = some (.synced (logBytes sha c.held.entries))
  offsets : c.offsets = offsetsFrom logMagic.length c.held.entries
  contiguous : Contiguous c.held.snapshot.index.val c.held.entries
  small : ∀ e ∈ c.held.entries, e.Small
  size : logLen c.held.entries ≤ maxLogBytes

variable {sha} {P Q : Stored → Prop} {h : Stored} {c c' : Core} {d d' : RaftDisk}
  {r : Outcome IoError Unit}
  {es : List Entry} {log : StorageProg Unit} {data : Bytes} {next : Stored → Stored}
  {floor : CommitIndex} {g : Core → Core} {first index : U64} {snap : Snapshot}

theorem Described.same (hn : Described sha h d) (hd : SameFor (sha h.payload) d d') :
    Described sha h d' where
  state := hd.state.trans hn.state
  payload := by rw [hd.payload]; exact hn.payload
  fits := hn.fits

theorem Described.withEntries (hn : Described sha h d) (es : List Entry) :
    Described sha (h.withEntries es) d :=
  ⟨hn.state, hn.payload, hn.fits⟩

theorem Described.relogged {f} (hn : Described sha h d) (hd : Relogged f d d') :
    Described sha h d' where
  state := hd.state.trans hn.state
  payload := by rw [hd.payload]; exact hn.payload
  fits := hn.fits

theorem Reopens.mono (hr : Reopens sha P d) (hPQ : ∀ h, P h → Q h) : Reopens sha Q d := by
  obtain ⟨h, f, hn, hf, hall⟩ := hr
  refine ⟨h, f, hn, hf, fun f' hf' => ?_⟩
  obtain ⟨low, high, part, hreads, hP⟩ := hall f' hf'
  exact ⟨low, high, part, hreads, hPQ _ hP⟩

theorem Reopens.same (hr : Reopens sha P d) (hd : ∀ g, SameFor g d d') : Reopens sha P d' := by
  obtain ⟨h, f, hn, hf, hall⟩ := hr
  exact ⟨h, f, hn.same (hd _), (hd Digest.zero).log.trans hf, hall⟩

theorem Reopens.settles (hr : Reopens sha P d) (hd : d.Settles d') : Reopens sha P d' := by
  obtain ⟨h, f, hn, hf, hall⟩ := hr
  rcases hd.log with ⟨hnone, -⟩ | ⟨f0, f', hf0, hf', hset⟩
  · rw [hf] at hnone
    cases hnone
  obtain rfl := Option.some.inj (hf.symm.trans hf0)
  refine ⟨h, f', ⟨hd.state.trans hn.state, by rw [hd.payload]; exact hn.payload, hn.fits⟩, hf', ?_⟩
  intro f'' hf''
  -- a settled file stays as it is
  obtain ⟨bs, rfl⟩ : ∃ bs, f' = .synced bs := by rcases hset with ⟨k, rfl⟩ | rfl <;> exact ⟨_, rfl⟩
  obtain rfl := hf''.synced
  exact hall _ hset

theorem reopens_synced {bs low high part} (hn : Described sha h d)
    (hlog : d.log = some (.synced bs)) (hreads : Reads sha h bs low high part)
    (hP : P (h.withEntries (h.recovered low high))) : Reopens sha P d := by
  refine ⟨h, _, hn, hlog, fun f' hf' => ⟨low, high, part, ?_, hP⟩⟩
  obtain rfl := hf'.synced
  rwa [content_synced]

theorem recovered_nil (h : Stored) (es : List Entry) : h.recovered [] es = es :=
  if_neg fun hc => hc.1 rfl

theorem withEntries_self (h : Stored) : h.withEntries h.entries = h := rfl

theorem Sound.reads (hs : Sound sha c d) :
    Reads sha c.held (logBytes sha c.held.entries) [] c.held.entries [] where
  bytes := by simp
  torn := parseRecord_nil
  small := hs.small
  size := hs.size
  covered := nofun
  contiguous := hs.contiguous

theorem Sound.reopens (hs : Sound sha c d) (hP : P c.held) : Reopens sha P d :=
  reopens_synced hs.named hs.log hs.reads (by rwa [recovered_nil, withEntries_self])

theorem Sound.same (hs : Sound sha c d) (hd : SameFor (sha c.held.payload) d d') :
    Sound sha c d' :=
  ⟨hs.health, hs.named.same hd, hs.digest, hd.log.trans hs.log, hs.offsets, hs.contiguous, hs.small,
    hs.size⟩

/-! ### Replacing the state file -/

section Programs

variable {α β : Type} {R : α → RaftDisk → Prop} {U : β → Core × RaftDisk → Prop}
  {W : Option IoError → Core × RaftDisk → Prop}

theorem leads_onDisk {p : FileProg β}
    (h : p.Leads d (fun a d' => U a (c, d')) fun w d' => W w (c, d')) :
    (onDisk p).Leads (c, d) U W := leads_zoom h

theorem leads_onDisk_bind {p : FileProg α} {k} (hp : p.Leads d R fun w d' => W w (c, d'))
    (hk : ∀ a d', R a d' → (k a).Leads (c, d') U W) : (onDisk p >>= k).Leads (c, d) U W := by
  refine Leads.bind (Q := fun a x => x.1 = c ∧ R a x.2)
    (leads_onDisk (hp.imp (fun _ _ h => ⟨rfl, h⟩) fun _ _ h => h)) ?_
  rintro a ⟨c', d'⟩ ⟨hc, hR⟩
  obtain rfl : c' = c := hc
  exact hk a d' hR

/-- A guarded operation runs on a storage that works, and changes nothing
otherwise. -/
theorem leads_guarded {p} (h : c.health = .sound → (p ()).Leads (c, d) U W)
    (hW : ∀ e, W (some e) (c, d)) : (refuseIfPoisoned >>= p).Leads (c, d) U W := by
  refine Leads.bind (Q := fun _ x => x = (c, d) ∧ c.health = .sound) (leads_get_bind ?_) ?_
  · split
    case h_1 hc => exact leads_pure ⟨rfl, hc⟩
    case h_2 => exact leads_throw (hW _)
  · rintro _ _ ⟨rfl, hc⟩
    exact h hc

theorem leads_fencedTo_bind {p} (h : ∀ f, fenceOnDisk sha d = .ok f → f ≤ c.held.hardState.term →
    (p (max f c.held.hardState.term)).Leads (c, d) U W) (hW : ∀ e, W (some e) (c, d)) :
    (fencedTo sha >>= p).Leads (c, d) U W := by
  refine Leads.bind (Q := fun t x => x = (c, d) ∧ ∃ f, fenceOnDisk sha d = .ok f ∧
    f ≤ c.held.hardState.term ∧ t = max f c.held.hardState.term) (leads_get_bind ?_) ?_
  · refine leads_ofExcept_bind
      (fun f hf => leads_ofExcept_bind (fun _ hle => leads_pure ⟨rfl, f, hf, ?_, rfl⟩) hW) hW
    simpa [Store.checkFence] using hle
  · rintro _ _ ⟨rfl, f, hf, hle, rfl⟩
    exact h f hf hle

end Programs

structure Written (sha : Bytes → Digest) (c : Core) (f : U64) (d d' : RaftDisk) : Prop where
  fence : fenceOnDisk sha d = .ok f
  le : f ≤ c.held.hardState.term
  state : d'.file .state = some (encodeState sha (c.image (max f c.held.hardState.term)))
  payload : ∀ g, d'.file (.payload g) = d.file (.payload g)
  log : d'.log = d.log

/-- **The state file is replaced as a whole**, and an error after that poisons the
storage. -/
theorem leads_persistState : (persistState sha).Leads (c, d)
    (fun _ x => ∃ f, Written sha c f d x.2 ∧ x.1 = c.withHeld (·.claim f))
    fun w x => (x.1 = c ∧ ∀ g, SameFor g d x.2) ∨
      ∃ f, Written sha c f d x.2 ∧ (w.isSome → x.1.health = .poisoned) := by
  refine leads_guarded (fun _ => leads_fencedTo_bind (fun f hf hle => leads_get_bind ?_) fun _ =>
    .inl ⟨rfl, fun g => .refl g d⟩) fun _ => .inl ⟨rfl, fun g => .refl g d⟩
  have hwritten :
      ∀ {d1}, Moved .stateTmp .state (encodeState sha (c.image (max f c.held.hardState.term))) d
      d1 → Written sha c f d d1 := fun h =>
    ⟨hf, hle, h.file, fun g => h.others _ nofun nofun, h.log⟩
  refine leads_onDisk_bind ((leads_atomicWrite scratch_stateTmp).imp (fun _ _ => hwritten) ?_)
    fun _ d1 hw => ?_
  · rintro w d1 (hsame | ⟨rfl, h⟩)
    · exact .inl ⟨rfl, hsame⟩
    · exact .inr ⟨f, hwritten h, nofun⟩
  · refine leads_modify_bind
      (leads_onErr (V := fun _ x => Written sha c f d x.2) (leads_onDisk (leads_syncDir.imp ?_ ?_))
      (fun _ _ h => .inr ⟨f, h, fun _ => rfl⟩) fun _ h => .inr ⟨f, h, nofun⟩)
    · rintro _ _ rfl
      exact ⟨f, hw, rfl⟩
    · rintro _ _ rfl
      exact hw

/-- **Fields of the state file are replaced**, or memory is as it was. -/
theorem leads_replaceState (hg : (g c).health = c.health) : (replaceState sha g).Leads (c, d)
    (fun _ x => ∃ f, Written sha (g c) f d x.2 ∧ x.1 = (g c).withHeld (·.claim f))
    fun w x => ((w.isSome → x.1 = c) ∧ ∀ k, SameFor k d x.2) ∨
      ∃ f, Written sha (g c) f d x.2 ∧ (w.isSome → x.1.health = .poisoned) := by
  refine leads_get_bind (leads_modify_bind (leads_onErr leads_persistState ?_ ?_))
  · rintro e ⟨c1, d1⟩ (⟨hc, hsame⟩ | h)
    · obtain rfl : c1 = g c := hc
      refine .inl ⟨fun _ => ?_, hsame⟩
      rw [Core.restore, hg]
    · exact .inr h
  · rintro ⟨c1, d1⟩ (⟨-, hsame⟩ | ⟨f, hw, -⟩)
    · exact .inl ⟨nofun, hsame⟩
    · exact .inr ⟨f, hw, nofun⟩

/-- A state file that can be read carries the fence that was written. -/
theorem Described.fence {f} (hn : Described sha h d) (hf : fenceOnDisk sha d = .ok f) :
    f = h.fence := by
  rw [fenceOnDisk, hn.state] at hf
  obtain ⟨image, hread, hf⟩ := bind_eq_ok.mp hf
  rw [← Except.ok.inj hf, eq_of_readState hread]
  rfl

/-! ### How an operation ends -/

/-- The storage works and holds a state in `B`. -/
def Done (sha : Bytes → Digest) (B : Stored → Prop) (x : Core × RaftDisk) : Prop :=
  Sound sha x.1 x.2 ∧ B x.1.held

/-- The files are reopened as a state in `A`, and after an error the storage is as it
was or poisoned. -/
def Stopped (sha : Bytes → Digest) (A : Stored → Prop) (c : Core) (w : Option IoError)
    (x : Core × RaftDisk) : Prop :=
  Reopens sha A x.2 ∧ (w.isSome → (x.1 = c ∧ Sound sha c x.2) ∨ x.1.health = .poisoned)

variable {A B : Stored → Prop}

theorem Sound.unchanged {w} (hs : Sound sha c d) (hA : A c.held) (hc : w.isSome → c' = c)
    (hd : SameFor (sha c.held.payload) d d') : Stopped sha A c w (c', d') :=
  ⟨(hs.same hd).reopens hA, fun h => .inl ⟨hc h, hs.same hd⟩⟩

theorem Sound.refused (hs : Sound sha c d) (hA : A c.held) (e : IoError) :
    Stopped sha A c (some e) (c, d) :=
  hs.unchanged hA (fun _ => rfl) (.refl _ d)

theorem leads_orPoison {p x} (h : p.Leads x (fun _ => Done sha B) fun _ y => Reopens sha A y.2) :
    (orElse Core.poison p).Leads x (fun _ => Done sha B) (Stopped sha A c) :=
  leads_onErr h (fun _ _ h => ⟨h, fun _ => .inr rfl⟩) fun _ h => ⟨h, nofun⟩

theorem Written.named {f h} (hw : Written sha c f d d')
    (himage : c.image (max f c.held.hardState.term) = h.image sha)
    (hpayload : d.file (.payload (sha h.payload)) = some h.payload ∨
      d.file (.payload (sha h.payload)) = none ∧ h.payload = [])
    (hfits : h.payload.length ≤ maxSnapshotBytes) : Described sha h d' where
  state := by rw [hw.state, himage]
  payload := by rw [hw.payload]; exact hpayload
  fits := hfits

/-- **A change of the hard state, the configuration or the count** is made or
not. -/
theorem ended_replaceState (hs : Sound sha c d)
    (hsnapshot : (next c.held).snapshot = c.held.snapshot)
    (hpayload : (next c.held).payload = c.held.payload)
    (hentries : (next c.held).entries = c.held.entries) (hA : A c.held)
    (hnext : c.held.fence ≤ (next c.held).hardState.term → A ((next c.held).claim c.held.fence) ∧
      B ((next c.held).claim c.held.fence)) :
    (replaceState sha (Core.withHeld next)).Leads (c, d) (fun _ => Done sha B)
      (Stopped sha A c) := by
  have hwritten : ∀ {f d'}, Written sha (c.withHeld next) f d d' → A ((next c.held).claim f) ∧
      Done sha B ((c.withHeld next).withHeld (·.claim f), d') := by
    intro f d' hw
    obtain rfl := hs.named.fence hw.fence
    obtain ⟨hA', hB'⟩ := hnext hw.le
    have himage : (c.withHeld next).image (max c.held.fence (next c.held).hardState.term) =
        ((next c.held).claim c.held.fence).image sha := by
      simp [Core.image, Core.withHeld, image, claim, hs.digest, hpayload]
    have hnamed : Described sha ((next c.held).claim c.held.fence) d' := by
      refine hw.named himage ?_ ?_
      · simp only [claim, hpayload]
        exact hs.named.payload
      · simp only [claim, hpayload]
        exact hs.named.fits
    -- the log is the same, and read above the same snapshot
    refine ⟨hA', ⟨hs.health, hnamed, ?_, ?_, ?_, ?_, ?_, ?_⟩, hB'⟩
    · show c.digest = sha (next c.held).payload
      rw [hpayload, hs.digest]
    · show d'.log = some (.synced (logBytes sha (next c.held).entries))
      rw [hw.log, hentries, hs.log]
    · show c.offsets = offsetsFrom _ (next c.held).entries
      rw [hentries, hs.offsets]
    · show Contiguous (next c.held).snapshot.index.val (next c.held).entries
      rw [hentries, hsnapshot]
      exact hs.contiguous
    · show ∀ e ∈ (next c.held).entries, e.Small
      rw [hentries]
      exact hs.small
    · show logLen (next c.held).entries ≤ maxLogBytes
      rw [hentries]
      exact hs.size
  refine (leads_replaceState rfl).imp ?_ ?_
  · rintro _ ⟨c', d'⟩ ⟨f, hw, hc⟩
    obtain rfl : c' = _ := hc
    exact (hwritten hw).2
  · rintro w ⟨c', d'⟩ (⟨hc, hsame⟩ | ⟨f, hw, hp⟩)
    · exact hs.unchanged hA hc (hsame _)
    · obtain ⟨hA', hs', -⟩ := hwritten hw
      exact ⟨hs'.reopens hA', fun h => .inr (hp h)⟩

/-! ### Replacing the snapshot -/

/-- The log of `c` is what the state `h` makes of its own entries. -/
structure Covers (h : Stored) (es low high : List Entry) : Prop where
  split : es = low ++ high
  covered : ∀ e ∈ low, e.index ≤ h.snapshot.index
  contiguous : Contiguous h.snapshot.index.val high
  entries : h.entries = h.recovered low high

theorem Covers.small {h low high} (hc : Covers h es low high) (hes : ∀ e ∈ es, e.Small) :
    ∀ e ∈ h.entries, e.Small := by
  intro e he
  rw [hc.entries, recovered] at he
  split at he
  · cases he
  · exact hes e (by rw [hc.split]; exact mem_append_right _ he)

theorem logLen_append (es fs : List Entry) :
    logLen (es ++ fs) = logLen es + (fs.map recordLen).sum := by
  simp only [logLen, map_append, sum_append]
  omega

theorem Covers.size {h low high} (hc : Covers h es low high) : logLen h.entries ≤ logLen es := by
  rw [hc.entries, hc.split, recovered]
  split
  · simp only [logLen, map_nil, sum_nil]
    omega
  · simp only [logLen, map_append, sum_append]
    omega

/-- The new state over the old log is already the new storage. -/
theorem Covers.reopens {h low high} (hs : Sound sha c d) (hcov : Covers h c.held.entries low high)
    (hnamed : Described sha h d') (hlog : d'.log = d.log) (hA : A h) : Reopens sha A d' := by
  refine reopens_synced hnamed (hlog.trans hs.log)
    ⟨by rw [hcov.split, append_nil], parseRecord_nil, ?_, ?_, hcov.covered, hcov.contiguous⟩ ?_
  · rw [← hcov.split]
    exact hs.small
  · rw [← hcov.split]
    exact hs.size
  · rwa [← hcov.entries]

def Core.behind (c : Core) (h : Stored) (digest : Digest) : Core :=
  ⟨h.withEntries c.held.entries, digest, c.offsets, c.trimmedTailBytes, c.health⟩

/-- What the last part of a snapshot operation does: it leaves the log or
replaces it by the entries `es`. -/
def Relogs (sha : Bytes → Digest) (es : List Entry) (c : Core) (p : StorageProg Unit) :
    Prop :=
  ∀ d, d.log = some (.synced (logBytes sha c.held.entries)) → p.Leads (c, d)
    (fun _ x => x.1 = c.rewritten es ∧ Relogged (.synced (logBytes sha es)) d x.2)
    fun _ x => (∀ g, SameFor g d x.2) ∨ Relogged (.synced (logBytes sha es)) d x.2

/-- **The end of a snapshot operation.**  The state file names the new snapshot
already, so the old log and the new one are reopened as the same state. -/
theorem ended_relogs {h low high} (hs : Sound sha c d) (hnamed : Described sha h d')
    (hlog : d'.log = d.log) (hcov : Covers h c.held.entries low high)
    (hrelogs : Relogs sha h.entries (c.behind h (sha h.payload)) log) (hA : A h) (hB : B h) :
    (orElse Core.poison log).Leads (c.behind h (sha h.payload), d')
      (fun _ => Done sha B) (Stopped sha A c) := by
  have hcontig : Contiguous h.snapshot.index.val h.entries := by
    rw [hcov.entries, recovered]
    split
    · trivial
    · exact hcov.contiguous
  have hsmall := hcov.small hs.small
  have hsize : logLen h.entries ≤ maxLogBytes := hcov.size.trans hs.size
  refine leads_orPoison ((hrelogs d' (hlog.trans hs.log)).imp ?_ ?_)
  · rintro _ ⟨c'', d''⟩ ⟨hc, hd⟩
    obtain rfl : c'' = _ := hc
    exact ⟨⟨hs.health, hnamed.relogged hd, rfl, hd.log, rfl, hcontig, hsmall, hsize⟩, hB⟩
  · rintro _ ⟨c'', d''⟩ (hd | hd)
    · exact hcov.reopens hs (hnamed.same (hd _)) ((hd Digest.zero).log.trans hlog) hA
    · have hreads : Reads sha h (logBytes sha h.entries) [] h.entries [] :=
        ⟨by simp, parseRecord_nil, hsmall, hsize, nofun, hcontig⟩
      exact reopens_synced (hnamed.relogged hd) hd.log hreads (by rwa [recovered_nil])

/-- A snapshot operation whose payload is in place. -/
theorem ended_announceSnapshot {low high} (hs : Sound sha c d)
    (hfile : d.file (.payload (sha (next c.held).payload)) = some (next c.held).payload)
    (hfits : (next c.held).payload.length ≤ maxSnapshotBytes)
    (hcov : Covers (next c.held) c.held.entries low high)
    (hrelogs : ∀ f, Relogs sha (next c.held).entries
      (c.behind ((next c.held).claim f) (sha (next c.held).payload)) log) (hA : A c.held)
    (hnext : c.held.fence ≤ (next c.held).hardState.term → A ((next c.held).claim c.held.fence) ∧
      B ((next c.held).claim c.held.fence)) :
    (announceSnapshot sha next (next c.held).payload log).Leads (c, d) (fun _ => Done sha B)
      (Stopped sha A c) := by
  have hcov' : Covers ((next c.held).claim c.held.fence) c.held.entries low high :=
    ⟨hcov.split, hcov.covered, hcov.contiguous, hcov.entries⟩
  refine (leads_replaceState rfl).seq ?_ ?_
  · rintro w ⟨c1, d1⟩ (⟨hc, hsame⟩ | ⟨f, hw, hp⟩)
    · exact hs.unchanged hA hc (hsame _)
    · obtain rfl := hs.named.fence hw.fence
      exact ⟨hcov'.reopens hs (hw.named rfl (.inl hfile) hfits) hw.log (hnext hw.le).1,
        fun h => .inr (hp h)⟩
  rintro _ ⟨c1, d1⟩ ⟨f, hw, hc⟩
  obtain rfl : c1 = _ := hc
  obtain rfl := hs.named.fence hw.fence
  have hnamed : Described sha ((next c.held).claim c.held.fence) d1 :=
    hw.named rfl (.inl hfile) hfits
  obtain ⟨hA', hB'⟩ := hnext hw.le
  refine leads_modify_bind (leads_onDisk_bind
    (c := c.behind ((next c.held).claim c.held.fence) (sha (next c.held).payload))
    (leads_removeOtherPayloads.imp (fun _ _ h => h) ?_) fun _ d2 hsame => ?_)
  · rintro _ d2 ⟨rfl, hsame⟩
    exact ⟨hcov'.reopens hs (hnamed.same hsame) (hsame.log.trans hw.log) hA', nofun⟩
  · exact ended_relogs hs (hnamed.same hsame) (hsame.log.trans hw.log) hcov' (hrelogs _) hA' hB'

/-- **A snapshot operation is made or not.**  The payload is in place before the
state names it; without a collision of digests it disturbs no other. -/
theorem ended_replaceSnapshot (next : Stored → Stored) {low high} (hs : Sound sha c d)
    (hfits : (next c.held).payload.length ≤ maxSnapshotBytes)
    (hcollide : sha (next c.held).payload = sha c.held.payload →
      (next c.held).payload = c.held.payload) (hcov : Covers (next c.held) c.held.entries low high)
    (hrelogs : ∀ f, Relogs sha (next c.held).entries
      (c.behind ((next c.held).claim f) (sha (next c.held).payload)) log) (hA : A c.held)
    (hnext : c.held.fence ≤ c.held.hardState.term → c.held.fence ≤ (next c.held).hardState.term →
      A ((next c.held).claim c.held.fence) ∧ B ((next c.held).claim c.held.fence)) :
    (replaceSnapshot sha next (next c.held).payload log).Leads (c, d) (fun _ => Done sha B)
      (Stopped sha A c) := by
  refine leads_fencedTo_bind (fun f hf hle => ?_) (hs.refused hA)
  obtain rfl := hs.named.fence hf
  -- a payload in place leaves a storage that works
  have hput : ∀ {d1}, Moved (.payloadTmp (sha (next c.held).payload))
      (.payload (sha (next c.held).payload)) (next c.held).payload d d1 → Sound sha c d1 := by
    intro d1 hd
    by_cases hg : sha (next c.held).payload = sha c.held.payload
    · refine ⟨hs.health,
        ⟨(hd.others .state nofun nofun).trans hs.named.state, .inl ?_, hs.named.fits⟩, hs.digest,
        hd.log.trans hs.log, hs.offsets, hs.contiguous, hs.small, hs.size⟩
      rw [← hg, hd.file, hcollide hg]
    · exact hs.same (hd.sameFor (Ne.symm hg))
  refine leads_onDisk_bind (leads_writePayload.imp (fun _ _ h => h) ?_) fun _ d1 hd =>
    ended_announceSnapshot (hput hd) hd.file hfits hcov hrelogs hA (hnext hle)
  rintro w d1 (hsame | hd)
  · exact hs.unchanged hA (fun _ => rfl) (hsame _)
  · exact (hput hd).unchanged hA (fun _ => rfl) (.refl _ d1)

theorem relogs_resetLog (c : Core) : Relogs sha [] c (resetLog sha) := fun _ _ =>
  leads_onDisk_bind leads_rewriteLog fun _ _ hd => leads_modify ⟨rfl, hd⟩

theorem relogs_compactTo (hoffsets : c.offsets = offsetsFrom logMagic.length c.held.entries) :
    Relogs sha (c.held.entries.drop (index.val + 1 - c.held.firstIndex.val)) c
      (compactTo sha index) := by
  intro d hlog
  refine leads_get_bind ?_
  by_cases hfirst : index < c.held.firstIndex
  · simp only [if_pos hfirst]
    have hdrop : index.val + 1 - c.held.firstIndex.val = 0 := by
      have : index.val < c.held.firstIndex.val := hfirst
      omega
    rw [hdrop, drop_zero]
    refine leads_pure ⟨?_, rfl, fun _ => rfl, hlog⟩
    rw [Core.rewritten, ← hoffsets]
  simp only [if_neg hfirst]
  split
  · exact leads_throw (.inl fun g => .refl g d)
  have hdrop : index.val - c.held.firstIndex.val + 1 = index.val + 1 - c.held.firstIndex.val := by
    have : c.held.firstIndex.val ≤ index.val := not_lt.mp hfirst
    omega
  rw [hdrop]
  refine leads_onDisk_bind
    ((leads_writeFile scratch_logRewrite).imp (fun _ _ h => h) fun _ _ => .inl) ?_
  rintro _ _ rfl
  refine leads_onDisk_bind leads_moveLog fun _ d2 hd =>
    leads_modify_bind (leads_onDisk (leads_syncDir.imp ?_ ?_))
  · rintro _ _ rfl
    exact ⟨rfl, hd⟩
  · rintro _ _ rfl
    exact .inr hd

/-! ### Appending -/

theorem records_prefix (hes : ∀ e ∈ es, e.Small) {bs} (hbs : bs <+: records sha es) :
    ∃ n part, bs = records sha (es.take n) ++ part ∧ parseRecord sha part = none := by
  induction es generalizing bs with
  | nil => exact ⟨0, [], by simpa using hbs, parseRecord_nil⟩
  | cons e es ih =>
    rcases lt_or_ge bs.length (recordLen e) with hlt | hge
    · refine ⟨0, bs, rfl, parseRecord_torn (hes e (by simp)) ?_ hlt⟩
      refine prefix_of_prefix_length_le hbs (prefix_append _ _) ?_
      rw [encodeRecord_length]
      omega
    · -- the first record is whole; the rest is a prefix of the others
      have hfirst : encodeRecord sha e <+: bs := by
        refine prefix_of_prefix_length_le (prefix_append _ _) hbs ?_
        rwa [encodeRecord_length]
      obtain ⟨rest, rfl⟩ := hfirst
      obtain ⟨n, part, rfl, hpart⟩ := ih (fun f hf => hes f (by simp [hf]))
        ((prefix_append_right_inj _).mp hbs)
      refine ⟨n + 1, part, ?_, hpart⟩
      rw [take_succ_cons, records_cons, append_assoc]

/-- A file that a power loss leaves as the log of `old`, or as the log of `kept`
with a part of the records of `es` behind. -/
def Partway (sha : Bytes → Digest) (old kept es : List Entry) (f : DiskFile) : Prop :=
  ∀ f', f.Settles f' → f'.content = logBytes sha old ∨
    ∃ bs, bs <+: records sha es ∧ f'.content = logBytes sha kept ++ bs

theorem partway_mk {old kept p q removed} (hpq : p ++ q <+: records sha es)
    (hremoved : removed = [] ∨ p = [] ∧ logBytes sha kept ++ removed = logBytes sha old) :
    Partway sha old kept es ⟨logBytes sha kept ++ p, q, removed⟩ := by
  rintro f' (⟨k, rfl⟩ | rfl)
  · have htake := take_prefix k q
    exact .inr ⟨p ++ q.take k, ((prefix_append_right_inj p).mpr htake).trans hpq, by simp⟩
  · rcases hremoved with rfl | ⟨rfl, hold⟩
    · exact .inr ⟨p, (prefix_append p q).trans hpq, by simp⟩
    · exact .inl (by simpa using hold)

theorem partway_old {old kept} : Partway sha old kept es (.synced (logBytes sha old)) := by
  intro f' hf'
  rw [hf'.synced, content_synced]
  exact .inl rfl

theorem offsetsFrom_getElem? {n k} (hk : k < es.length) :
    (offsetsFrom n es)[k]? = some (n + ((es.take k).map recordLen).sum) := by
  induction es generalizing n k with
  | nil => cases hk
  | cons e es ih =>
    cases k with
    | zero => rfl
    | succ =>
      rw [offsetsFrom, getElem?_cons_succ, ih (by simpa using hk)]
      simp [add_assoc]

theorem offsetsFrom_take (n k : Nat) (es : List Entry) :
    (offsetsFrom n es).take k = offsetsFrom n (es.take k) := by
  induction es generalizing n k with
  | nil => simp
  | cons e es ih =>
    cases k with
    | zero => rfl
    | succ => rw [offsetsFrom, take_succ_cons, ih, take_succ_cons, offsetsFrom]

theorem Sound.startOf_eq (hs : Sound sha c d) (keep : Nat) :
    startOf keep (c, d) = logLen (c.held.entries.take keep) := by
  rw [startOf, hs.offsets]
  rcases lt_or_ge keep c.held.entries.length with hlt | hge
  · rw [offsetsFrom_getElem? hlt, logLen, logMagic_length]
  · rw [getElem?_eq_none (by simpa using hge), take_of_length_le hge]
    simp [logContent, hs.log]

theorem logBytes_take_drop (sha : Bytes → Digest) (es : List Entry) (k : Nat) :
    logBytes sha (es.take k) ++ records sha (es.drop k) = logBytes sha es := by
  rw [logBytes, append_assoc, ← records_append, take_append_drop]
  rfl

theorem truncate_logBytes (es : List Entry) (k : Nat) :
    (synced (logBytes sha es)).truncate (logLen (es.take k)) =
      ⟨logBytes sha (es.take k), [], records sha (es.drop k)⟩ := by
  rw [← logBytes_take_drop sha es k]
  simp [truncate, synced]

theorem leads_shorten {keep} (es : List Entry) (hs : Sound sha c d) :
    (shorten keep (logLen (c.held.entries.take keep))).Leads (c, d)
      (fun _ x => x.1 = c ∧ Relogged ⟨logBytes sha (c.held.entries.take keep), [],
        records sha (c.held.entries.drop keep)⟩ d x.2)
      fun _ x => ∃ f, Relogged f d x.2 ∧
      Partway sha c.held.entries (c.held.entries.take keep) es f := by
  refine leads_get_bind ?_
  by_cases hk : keep < c.held.entries.length
  · simp only [if_pos hk]
    refine leads_onDisk (leads_logStep hs.log ?_ fun k _ => ⟨_, relogged_withLog _ _, ?_⟩)
    · rw [truncate_logBytes]
      exact ⟨rfl, relogged_withLog _ _⟩
    split
    · exact partway_old
    · have hcut := partway_mk (p := []) (⟨_, rfl⟩ : [] <+: records sha es)
        (.inr ⟨rfl, logBytes_take_drop sha c.held.entries keep⟩)
      rwa [truncate_logBytes, ← append_nil (logBytes sha _)]
  · simp only [if_neg hk]
    have htake : c.held.entries.take keep = c.held.entries := take_of_length_le (by omega)
    have hdrop : c.held.entries.drop keep = [] := drop_eq_nil_of_le (by omega)
    refine leads_pure ⟨rfl, rfl, fun _ => rfl, ?_⟩
    rw [htake, hdrop]
    exact hs.log

/-- **The files of an append at any of its steps.** -/
theorem leads_writeEntries {keep} (hs : Sound sha c d) :
    (writeEntries sha keep (logLen (c.held.entries.take keep)) es).Leads (c, d)
      (fun _ x => x.1 = c.extended keep (logLen (c.held.entries.take keep)) es ∧
        Relogged (.synced (logBytes sha (c.held.entries.take keep) ++ records sha es)) d x.2)
      fun _ x => ∃ f, Relogged f d x.2 ∧
      Partway sha c.held.entries (c.held.entries.take keep) es f := by
  refine (leads_shorten es hs).bind ?_
  rintro _ ⟨c1, d1⟩ ⟨hc, hd1⟩
  obtain rfl : c = c1 := hc.symm
  have hold := logBytes_take_drop sha c.held.entries keep
  refine leads_onDisk_bind
    (R := fun _ =>
    Relogged ⟨logBytes sha (c.held.entries.take keep), records sha es,
      records sha (c.held.entries.drop keep)⟩ d)
    (leads_logStep hd1.log (hd1.trans (relogged_withLog _ _)) fun k _ =>
    ⟨_, hd1.trans (relogged_withLog _ _), ?_⟩) fun _ d2 hd2 => ?_
  · -- the records were written in part
    have htake := take_prefix k (records sha es)
    have hpart := partway_mk (p := []) htake (.inr ⟨rfl, hold⟩)
    rwa [append_nil] at hpart
  refine leads_onDisk_bind
    (R := fun _ => Relogged (.synced (logBytes sha (c.held.entries.take keep) ++ records sha es)) d)
    (leads_logStep hd2.log (hd2.trans (relogged_withLog _ _)) fun k _ =>
    ⟨_, hd2.trans (relogged_withLog _ _), ?_⟩) fun _ d3 hd3 => leads_modify ⟨rfl, hd3⟩
  -- some of them reached the disk
  apply partway_mk (p := (records sha es).take k) (q := (records sha es).drop k)
  · exact ⟨[], by simp⟩
  · by_cases hk : k = 0
    · subst hk
      exact .inr ⟨take_zero, hold⟩
    · exact .inl (if_neg hk)

theorem checkConsecutive_small {p} (h : checkConsecutive first p es = .ok ()) :
    ∀ e ∈ es, e.Small := by
  induction es generalizing p with
  | nil => nofun
  | cons e es ih =>
    simp only [checkConsecutive, refuse_eq_ok, not_or, not_lt] at h
    obtain ⟨-, -, ⟨hdata, hcontext⟩, h⟩ := h
    intro f hf
    rcases mem_cons.mp hf with rfl | hf
    · exact ⟨hdata, hcontext⟩
    · exact ih h f hf

/-- **What an append lets into the log** is numbered in a row and within the
bounds, and so is any part of it. -/
theorem Sound.overwrite_fits (hs : Sound sha c d) (hcheck : c.held.checkAppend first es = .ok ())
    (n : Nat) :
    Contiguous c.held.snapshot.index.val (c.held.entries.take (c.held.keep first) ++ es.take n) ∧
      (∀ e ∈ c.held.entries.take (c.held.keep first) ++ es.take n, e.Small) ∧
      logLen (c.held.entries.take (c.held.keep first) ++ es.take n) ≤ maxLogBytes := by
  obtain ⟨hlen, -, hes⟩ := checkAppend_spec hs.contiguous hcheck
  simp only [checkAppend, bind_unit_eq_ok] at hcheck
  obtain ⟨horder, hsize⟩ := hcheck
  simp only [checkOrder, refuse_eq_ok] at horder
  have hsmall := checkConsecutive_small horder.2.2.2
  rw [checkSize, refuse_eq_ok] at hsize
  refine ⟨?_, ?_, ?_⟩
  · rw [Contiguous.append_iff, length_take, min_eq_left hlen]
    exact ⟨hs.contiguous.take _, hes.take n⟩
  · intro e he
    rcases mem_append.mp he with he | he
    · exact hs.small e (mem_of_mem_take he)
    · exact hsmall e (mem_of_mem_take he)
  · have hsum : ((es.take n).map recordLen).sum ≤ (es.map recordLen).sum := by
      conv_rhs => rw [← take_append_drop n es, map_append, sum_append]
      exact Nat.le_add_right _ _
    rw [logLen_append]
    omega

/-- A part of the records of an append is reopened as a part of its entries. -/
theorem Partway.reopens {f} (hs : Sound sha c d) (hcheck : c.held.checkAppend first es = .ok ())
    (hd : Relogged f d d')
    (hf : Partway sha c.held.entries (c.held.entries.take (c.held.keep first)) es f) (hA : A c.held)
    (hcut : ∀ n, A (c.held.overwrite (c.held.keep first) (es.take n))) : Reopens sha A d' := by
  have hes : ∀ e ∈ es, e.Small := fun e he => by
    refine (hs.overwrite_fits hcheck es.length).2.1 e ?_
    rw [take_length]
    exact mem_append_right _ he
  refine ⟨c.held, f, hs.named.relogged hd, hd.log, fun f' hf' => ?_⟩
  rcases hf f' hf' with hold | ⟨bs, hbs, hnew⟩
  · refine ⟨[], c.held.entries, [], ?_, ?_⟩
    · rw [hold]
      exact hs.reads
    · rwa [recovered_nil]
  · obtain ⟨n, part, rfl, hpart⟩ := records_prefix hes hbs
    obtain ⟨hcontig, hsmall, hsize⟩ := hs.overwrite_fits hcheck n
    refine ⟨[], c.held.entries.take (c.held.keep first) ++ es.take n, part,
      ⟨?_, hpart, hsmall, hsize, nofun, hcontig⟩, ?_⟩
    · rw [hnew, logBytes, logBytes]
      simp
    · exact hcut n

/-- **An append is made as a whole, not at all, or up to some entry.** -/
theorem ended_append (hs : Sound sha c d) (hA : A c.held) (hB : es = [] → B c.held)
    (hcut : ∀ first rest, es = first :: rest → c.held.fence ≤ c.held.hardState.term →
      c.held.checkAppend first.index es = .ok () →
        (∀ n, A (c.held.overwrite (c.held.keep first.index) (es.take n))) ∧
          B (c.held.overwrite (c.held.keep first.index) es)) :
    (append sha es).Leads (c, d) (fun _ => Done sha B) (Stopped sha A c) := by
  refine leads_guarded (fun _ => ?_) (hs.refused hA)
  cases es with
  | nil => exact leads_pure ⟨hs, hB rfl⟩
  | cons first rest =>
    refine leads_fencedTo_bind (fun f hf hle => leads_get_bind (leads_ofExcept_bind (fun _ horder =>
      leads_ofExcept_bind (fun _ hsize => ?_) (hs.refused hA)) (hs.refused hA))) (hs.refused hA)
    obtain rfl := hs.named.fence hf
    rw [hs.startOf_eq] at hsize ⊢
    have hcheck : c.held.checkAppend first.index (first :: rest) = .ok () := by
      simp only [checkAppend, bind_unit_eq_ok]
      exact ⟨horder, hsize⟩
    obtain ⟨hcutA, hcutB⟩ := hcut first rest rfl hle hcheck
    refine leads_orPoison ((leads_writeEntries hs).imp ?_ ?_)
    · rintro _ ⟨c1, d1⟩ ⟨hc, hd⟩
      obtain rfl : c1 = _ := hc
      obtain ⟨hcontig, hsmall, hfits⟩ := hs.overwrite_fits hcheck (first :: rest).length
      rw [take_length] at hcontig hsmall hfits
      refine ⟨⟨hs.health, (hs.named.relogged hd).withEntries _, hs.digest, ?_, ?_, hcontig, hsmall,
        hfits⟩, hcutB⟩
      · rw [hd.log]
        simp [Core.extended, overwrite, logBytes]
      · simp [Core.extended, overwrite, hs.offsets, offsetsFrom_append, offsetsFrom_take, logLen]
    · rintro _ ⟨c1, d1⟩ ⟨f, hd, hpart⟩
      exact hpart.reopens hs hcheck hd hA hcutA

/-! ### The operations -/

inductive Op
  | append (es : List Entry)
  | setHardState (h : HardState)
  | setCommit (commit : U64)
  | setAppliedEvents (n : U64)
  | setConfState (conf : ConfState)
  | applySnapshot (snap : Snapshot)
  | recordSnapshotWithin (index : U64) (data : Bytes) (floor : CommitIndex)
  | recordSnapshot (index : U64) (data : Bytes)

namespace Op

def exec (sha : Bytes → Digest) : Op → StorageProg Unit
  | .append es => Files.append sha es
  | .setHardState h => Files.setHardState sha h
  | .setCommit commit => Files.setCommit sha commit
  | .setAppliedEvents n => Files.setAppliedEvents sha n
  | .setConfState conf => Files.setConfState sha conf
  | .applySnapshot snap => Files.applySnapshot sha snap
  | .recordSnapshotWithin index data floor => Files.recordSnapshotWithin sha index data floor
  | .recordSnapshot index data => Files.recordSnapshot sha index data

def onStore : Op → Prog Store IoError Unit
  | .append es => Store.append es
  | .setHardState h => Store.setHardState h
  | .setCommit commit => Store.setCommit commit
  | .setAppliedEvents n => Store.setAppliedEvents n
  | .setConfState conf => Store.setConfState conf
  | .applySnapshot snap => Store.applySnapshot snap
  | .recordSnapshotWithin index data floor => Store.recordSnapshotWithin index data floor
  | .recordSnapshot index data => Store.recordSnapshot index data

def payload? : Op → Option Bytes
  | .applySnapshot snap => some snap.data
  | .recordSnapshotWithin _ data _ => some data
  | .recordSnapshot _ data => some data
  | _ => none

def Completes (op : Op) (h h' : Stored) : Prop :=
  ∃ s, op.onStore.Ends ⟨h, .sound⟩ (.ok ()) s ∧ s.held = h'

/-- `h'` is what an append that stopped leaves of `h`: the entries it keeps, and
some of its own behind. -/
def Cut (op : Op) (h h' : Stored) : Prop :=
  ∃ first rest n, op = .append (first :: rest) ∧
    h.checkAppend first.index (first :: rest) = .ok () ∧
    h' = h.overwrite (h.keep first.index) ((first :: rest).take n)

/-- What a stop in the operation can leave: the state before, the state after,
or a part of an append. -/
def Leaves (op : Op) (h h' : Stored) : Prop := h' = h ∨ op.Completes h h' ∨ op.Cut h h'

/-- The payload of the operation has the digest of the one in place only if it is
the same. -/
def Distinct (sha : Bytes → Digest) (op : Op) (h : Stored) : Prop :=
  ∀ data, op.payload? = some data → sha data = sha h.payload → data = h.payload

end Op

section Completes

-- a program whose checks pass and whose steps succeed is run by unfolding it
attribute [local simp] Op.onStore Store.refuseIfPoisoned Store.checkFence Store.persist Bind.bind
  Prog.bind Prog.get
  Pure.pure Prog.pure Prog.ofExcept Prog.step

theorem completes_persist {h} (hf : h.fence ≤ (next h).hardState.term) :
    (Store.persist next).Ends ⟨h, .sound⟩ (.ok ()) ⟨(next h).claim h.fence, .sound⟩ := by
  refine ⟨[], [], ?_⟩
  simp [not_lt.mpr hf]

theorem completes_append {first rest h} (hf : h.fence ≤ h.hardState.term)
    (hcheck : h.checkAppend first.index (first :: rest) = .ok ()) :
    (Op.append (first :: rest)).Completes h (h.overwrite (h.keep first.index) (first :: rest)) := by
  refine ⟨⟨h.overwrite (h.keep first.index) (first :: rest), .sound⟩, ⟨[], [], ?_⟩, rfl⟩
  simp [Store.append, not_lt.mpr hf, hcheck]

theorem completes_applySnapshot {h} (hcheck : h.checkInstall snap = .ok ())
    (hf : h.fence ≤ h.hardState.term) (hf' : h.fence ≤ (h.install snap).hardState.term) :
    (Op.applySnapshot snap).Completes h ((h.install snap).claim h.fence) := by
  refine ⟨⟨(h.install snap).claim h.fence, .sound⟩, ⟨[], [], ?_⟩, rfl⟩
  simp [Store.applySnapshot, not_lt.mpr hf, not_lt.mpr hf', hcheck]

theorem completes_recordSnapshotWithin {term events h}
    (hcheck : h.checkRecord index data floor = .ok (term, events))
    (hf : h.fence ≤ h.hardState.term) :
    (Op.recordSnapshotWithin index data floor).Completes h
      ((h.compact index term events data).claim h.fence) := by
  have hf' : h.fence ≤ (h.compact index term events data).hardState.term := hf
  refine ⟨⟨(h.compact index term events data).claim h.fence, .sound⟩, ⟨[], [], ?_⟩, rfl⟩
  simp [Store.recordSnapshotWithin, not_lt.mpr hf, not_lt.mpr hf', hcheck]

theorem completes_recordSnapshot {events h h'} (hevents : h.eventsThrough index = .ok events)
    (hdone : (Op.recordSnapshotWithin index data events).Completes h h') :
    (Op.recordSnapshot index data).Completes h h' := by
  obtain ⟨s, ⟨fs, fs', hend⟩, hs⟩ := hdone
  refine ⟨s, ⟨fs, fs', ?_⟩, hs⟩
  simpa [Store.recordSnapshot, hevents] using hend

end Completes

theorem covers_split {h h' : Stored} (hc : Contiguous h.snapshot.index.val h.entries)
    (hle : h.snapshot.index.val ≤ h'.snapshot.index.val) (hentries : h'.entries = h'.recovered
      (h.entries.take (h'.snapshot.index.val - h.snapshot.index.val))
      (h.entries.drop (h'.snapshot.index.val - h.snapshot.index.val))) :
    Covers h' h.entries (h.entries.take (h'.snapshot.index.val - h.snapshot.index.val))
      (h.entries.drop (h'.snapshot.index.val - h.snapshot.index.val)) where
  split := (take_append_drop _ _).symm
  covered e he := by
    have hmem := ((hc.take _).mem he).2
    rw [length_take] at hmem
    exact Fin.le_def.mpr (by omega)
  contiguous := by
    rcases Nat.lt_or_ge h.entries.length (h'.snapshot.index.val - h.snapshot.index.val)
      with hlen | hlen
    · rw [drop_eq_nil_of_le (by omega)]
      trivial
    · have hdrop := hc.drop hlen
      rwa [Nat.add_sub_cancel' hle] at hdrop
  entries := hentries

theorem snapshot_le_firstIndex {h : Stored} (hc : Contiguous h.snapshot.index.val h.entries) :
    h.snapshot.index.val ≤ h.firstIndex.val ∧
      (h.entries ≠ [] → h.snapshot.index.val < h.firstIndex.val) := by
  rw [firstIndex]
  cases hes : h.entries with
  | nil =>
    refine ⟨?_, fun hne => (hne rfl).elim⟩
    show h.snapshot.index.val ≤ (U64.saturatingAdd h.snapshot.index 1).val
    have hlt := h.snapshot.index.isLt
    rw [U64.saturatingAdd]
    split
    · exact Nat.le_add_right _ _
    · exact Nat.le_sub_one_of_lt hlt
  | cons =>
    rw [hes] at hc
    have hfirst := hc.1
    exact ⟨by simp only [head?_cons]; omega, fun _ => by simp only [head?_cons]; omega⟩

theorem covers_install {h : Stored} (hc : Contiguous h.snapshot.index.val h.entries)
    (hcheck : h.checkInstall snap = .ok ()) :
    Covers (h.install snap) h.entries (h.entries.take (snap.index.val - h.snapshot.index.val))
      (h.entries.drop (snap.index.val - h.snapshot.index.val)) := by
  simp only [checkInstall, refuse_eq_ok] at hcheck
  have hfirst : h.firstIndex.val ≤ snap.index.val := not_lt.mp hcheck.1
  obtain ⟨hle, hlt⟩ := snapshot_le_firstIndex hc
  refine covers_split hc (hle.trans hfirst) ?_
  -- a log that is not empty begins at or below the new snapshot
  show [] = (h.install snap).recovered (h.entries.take (snap.index.val - h.snapshot.index.val))
    (h.entries.drop (snap.index.val - h.snapshot.index.val))
  by_cases hnil : h.entries = []
  · rw [hnil, take_nil, drop_nil, recovered_nil]
  have hpos : 0 < snap.index.val - h.snapshot.index.val := by
    have := hlt hnil
    omega
  have hlow : h.entries.take (snap.index.val - h.snapshot.index.val) ≠ [] := by
    simp only [ne_eq, take_eq_nil_iff, not_or]
    exact ⟨by omega, hnil⟩
  rw [recovered, if_pos ⟨hlow, rfl⟩]

theorem covers_compact {term events : U64} {h : Stored}
    (hc : Contiguous h.snapshot.index.val h.entries)
    (hcheck : h.checkRecord index data floor = .ok (term, events)) :
    Covers (h.compact index term events data) h.entries
      (h.entries.take (index.val - h.snapshot.index.val))
      (h.entries.drop (index.val - h.snapshot.index.val)) := by
  simp only [checkRecord, refuse_eq_ok] at hcheck
  have hle : h.snapshot.index.val ≤ index.val := not_lt.mp hcheck.2.1
  refine covers_split hc hle ?_
  show h.entries.drop (index.val + 1 - h.firstIndex.val) = _
  rw [compact_drop hc, recovered, if_neg (fun h => by cases h.2)]
  rfl

theorem relogs_compact {term events f digest} (hs : Sound sha c d) :
    Relogs sha (c.held.compact index term events data).entries
      (c.behind ((c.held.compact index term events data).claim f) digest)
      (compactTo sha index) := by
  have hoffsets : (c.behind ((c.held.compact index term events data).claim f) digest).offsets =
      offsetsFrom logMagic.length c.held.entries := hs.offsets
  have hentries : (c.held.compact index term events data).entries =
      c.held.entries.drop (index.val + 1 -
        (c.behind
        ((c.held.compact index term events data).claim f) digest).held.firstIndex.val) := by
    show c.held.entries.drop _ = c.held.entries.drop _
    cases hes : c.held.entries with
    | nil => simp
    | cons e =>
      have h1 : c.held.firstIndex = e.index := by simp [firstIndex, hes]
      have h2 :
          (c.behind ((c.held.compact index term events data).claim f) digest).held.firstIndex =
          e.index := by simp [firstIndex, Core.behind, withEntries, hes]
      rw [h1, h2]
  rw [hentries]
  exact relogs_compactTo hoffsets

theorem ended_exec_persist {op : Op} (next : Stored → Stored)
    (hexec : op.exec sha = replaceState sha (Core.withHeld next))
    (hstore : op.onStore = Store.persist next)
    (hsnapshot : (next c.held).snapshot = c.held.snapshot)
    (hpayload : (next c.held).payload = c.held.payload)
    (hentries : (next c.held).entries = c.held.entries) (hs : Sound sha c d) :
    (op.exec sha).Leads (c, d) (fun _ => Done sha (op.Completes c.held))
      (Stopped sha (op.Leaves c.held) c) := by
  rw [hexec]
  refine ended_replaceState hs hsnapshot hpayload hentries (.inl rfl) fun hf => ?_
  have hdone : op.Completes c.held ((next c.held).claim c.held.fence) := by
    refine ⟨⟨(next c.held).claim c.held.fence, .sound⟩, ?_, rfl⟩
    rw [hstore]
    exact completes_persist hf
  exact ⟨.inr (.inl hdone), hdone⟩

theorem ended_exec_install (hs : Sound sha c d)
    (hop : (Op.applySnapshot snap).Distinct sha c.held) :
    (Files.applySnapshot sha snap).Leads (c, d)
      (fun _ => Done sha ((Op.applySnapshot snap).Completes c.held))
      (Stopped sha ((Op.applySnapshot snap).Leaves c.held) c) := by
  refine leads_guarded
    (fun _ => leads_get_bind (leads_ofExcept_bind (fun _ hcheck => ?_) (hs.refused (.inl rfl))))
    (hs.refused (.inl rfl))
  have hfits : (c.held.install snap).payload.length ≤ maxSnapshotBytes := by
    simp only [checkInstall, refuse_eq_ok, not_lt] at hcheck
    exact hcheck.2.1
  refine ended_replaceSnapshot (·.install snap) hs hfits (hop snap.data rfl)
    (covers_install hs.contiguous hcheck) (fun f => relogs_resetLog _) (.inl rfl) fun hf hf' => ?_
  have hdone := completes_applySnapshot hcheck hf hf'
  exact ⟨.inr (.inl hdone), hdone⟩

theorem ended_exec_record {op : Op} (hs : Sound sha c d)
    (hop : sha data = sha c.held.payload → data = c.held.payload)
    (hdone : ∀ h', (Op.recordSnapshotWithin index data floor).Completes c.held h' →
      op.Completes c.held h') :
    (Files.recordSnapshotWithin sha index data floor).Leads (c, d)
      (fun _ => Done sha (op.Completes c.held)) (Stopped sha (op.Leaves c.held) c) := by
  refine leads_guarded (fun _ => leads_get_bind (leads_ofExcept_bind (fun found hcheck => ?_)
    (hs.refused (.inl rfl)))) (hs.refused (.inl rfl))
  obtain ⟨term, events⟩ := found
  have hfits : (c.held.compact index term events data).payload.length ≤ maxSnapshotBytes := by
    simp only [checkRecord, refuse_eq_ok, not_lt] at hcheck
    exact hcheck.2.2.1
  refine ended_replaceSnapshot (·.compact index term events data) hs hfits hop
    (covers_compact hs.contiguous hcheck) (fun f => relogs_compact hs) (.inl rfl) fun hf _ => ?_
  have hrec := hdone _ (completes_recordSnapshotWithin hcheck hf)
  exact ⟨.inr (.inl hrec), hrec⟩

/-- **An operation on the files** leaves what the operation on the stored state
can leave: the state before, the state after, or some of the entries of an
append. -/
theorem ended_exec {op : Op} (hs : Sound sha c d) (hop : op.Distinct sha c.held) :
    (op.exec sha).Leads (c, d) (fun _ => Done sha (op.Completes c.held))
      (Stopped sha (op.Leaves c.held) c) := by
  cases op with
  | append =>
    refine ended_append hs (.inl rfl) ?_ ?_
    · rintro rfl
      exact ⟨⟨c.held, .sound⟩, ⟨[], [], rfl⟩, rfl⟩
    · rintro first rest rfl hf hcheck
      exact ⟨fun n => .inr (.inr ⟨first, rest, n, rfl, hcheck, rfl⟩), completes_append hf hcheck⟩
  | setHardState h => exact ended_exec_persist (·.withHardState h) rfl rfl rfl rfl rfl hs
  | setCommit commit =>
    exact ended_exec_persist (fun s => s.withHardState { s.hardState with commit := commit }) rfl
      rfl rfl rfl rfl hs
  | setAppliedEvents n => exact ended_exec_persist (·.withApplied n) rfl rfl rfl rfl rfl hs
  | setConfState conf => exact ended_exec_persist (·.withConfState conf) rfl rfl rfl rfl rfl hs
  | applySnapshot => exact ended_exec_install hs hop
  | recordSnapshotWithin index data => exact ended_exec_record hs (hop data rfl) fun _ h => h
  | recordSnapshot index data =>
    refine leads_guarded (fun _ => leads_get_bind (leads_ofExcept_bind (fun events hevents => ?_)
      (hs.refused (.inl rfl)))) (hs.refused (.inl rfl))
    exact ended_exec_record hs (hop data rfl) fun _ h => completes_recordSnapshot hevents h

theorem reopens_exec {op : Op} (hs : Sound sha c d) (hop : op.Distinct sha c.held)
    (he : (op.exec sha).Ends (c, d) r (c', d')) : Reopens sha (op.Leaves c.held) d' := by
  cases r with
  | ok =>
    obtain ⟨hs', hdone⟩ := (ended_exec hs hop).ok he
    exact hs'.reopens (.inr (.inl hdone))
  | err => exact ((ended_exec hs hop).err he).1
  | crash => exact ((ended_exec hs hop).crash he).1

end Ptr.Raft
