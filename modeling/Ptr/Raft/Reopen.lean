import Ptr.Raft.Atomicity

/-!
# Reopening the raft storage

What `openStorage` makes of files that an interrupted operation left, and whole
runs of a storage: operations, errors, stops, power losses and openings that are
themselves interrupted.

* `leads_openStorage`: an opening returns a storage that works, and whatever
  stops it leaves files that are reopened in the same way.
* `StorageStep`, `StorageLife.Holds`: what every careful operation keeps holds in every run.
-/

namespace Ptr.Raft

open Lib Ledger Files Prog RaftDisk DiskFile
open List hiding removeAll

variable {sha : Bytes → Digest} {P : Stored → Prop} {h : Stored} {d d' : RaftDisk} {f : DiskFile}
  {allowed : Op → Stored → Prop} {r : Outcome IoError Unit} {bs part : Bytes}

/-! ### Reading the files -/

theorem readState_described {image} (hn : Described sha h d)
    (hread : readState sha (d.file .state) = .ok image) : image = h.image sha := by
  rw [hn.state] at hread
  exact eq_of_readState hread

theorem loadPayload_described (hn : Described sha h d) :
    loadPayload sha (sha h.payload) d = .ok h.payload := by
  rw [loadPayload]
  rcases hn.payload with hfile | ⟨hfile, hnil⟩
  · rw [hfile]
    simp only
    rw [if_neg (not_lt.mpr hn.fits), if_neg (fun hne => hne rfl)]
  · rw [hfile, hnil]
    exact if_pos rfl

def imageOf (low high : List Entry) (part : Bytes) : LogImage :=
  ⟨high, offsetsFrom (logLen low) high, !low.isEmpty, logLen (low ++ high), part.length⟩

theorem Reads.scanLog {low high commit image} (hr : Reads sha h bs low high part) :
    scanLog sha bs h.snapshot.index commit = .ok image ↔
      logLen (low ++ high) + part.length ≤ maxLogBytes ∧
      commit.val ≤ h.snapshot.index.val + high.length ∧
      ¬ (part.all (· == 0) = false ∧ recordFollows sha part) ∧ imageOf low high part = image := by
  rw [hr.bytes]
  exact scanLog_records hr.small hr.covered hr.contiguous hr.torn

/-- The files `d'` of an opening are those of `d` as far as a reader of the state
`h` sees. -/
structure SameContent (h : Stored) (sha : Bytes → Digest) (d d' : RaftDisk) : Prop where
  state : d'.file .state = d.file .state
  payload : d'.file (.payload (sha h.payload)) = d.file (.payload (sha h.payload))
  log : d'.logContent = d.logContent

theorem RaftDisk.SameFor.content (hd : SameFor (sha h.payload) d d') : SameContent h sha d d' :=
  ⟨hd.state, hd.payload, by rw [logContent, logContent, hd.log]⟩

/-- **Reading the files** changes no content, and finds what they describe. -/
theorem leads_readFiles (hn : Described sha h d) (hf : d.log = some f)
    (hall : ∀ f', f.Settles f' → ∃ low high part, Reads sha h f'.content low high part ∧
      P (h.withEntries (h.recovered low high))) :
    (readFiles sha).Leads d (fun x d' => ∃ low high part, Reads sha h f.content low high part ∧
      P (h.withEntries (h.recovered low high)) ∧ Described sha h d' ∧
      d'.log = some (.synced f.content) ∧ x = (h.image sha, h.payload, imageOf low high part))
      fun _ d' => SameContent h sha d d' ∧ Reopens sha P d' := by
  have hsame : ∀ {d1}, SameFor (sha h.payload) d d1 → SameContent h sha d d1 ∧ Reopens sha P d1 :=
    fun hs => ⟨hs.content, h, f, hn.same hs, hs.log.trans hf, hall⟩
  refine leads_get_bind (leads_ofExcept_bind (fun image himage => ?_) fun _ => hsame (.refl _ d))
  obtain rfl := readState_described hn himage
  refine leads_ofExcept_bind (fun data hdata => ?_) fun _ => hsame (.refl _ d)
  obtain rfl : h.payload = data := Except.ok.inj ((loadPayload_described hn).symm.trans hdata)
  -- payloads that the state does not name go
  refine leads_removeOtherPayloads.seq (fun _ _ hs => hsame hs.2) fun _ d1 hs1 => ?_
  -- what the log holds becomes durable
  have hlogged : ∀ {f'}, f'.content = f.content → (∀ f'', f'.Settles f'' → f.Settles f'') →
      SameContent h sha d (d1.withLog f') ∧ Reopens sha P (d1.withLog f') := by
    intro f' hcontent hsettles
    refine ⟨⟨hs1.state, hs1.payload, ?_⟩, h, f', (hn.same hs1).relogged (relogged_withLog _ _), rfl,
      fun f'' hf'' => hall f'' (hsettles f'' hf'')⟩
    rw [logContent_of_some hf, logContent_of_some rfl, hcontent]
  refine (leads_logStep (hs1.log.trans hf) rfl fun k _ => ?_ :
    syncLog.Leads d1 (fun _ d2 => d2 = d1.withLog f.sync) _).bind ?_
  · exact hlogged (content_syncPart f k) fun _ hf' => hf'.of_syncPart
  rintro _ _ rfl
  refine leads_get_bind (leads_ofExcept_bind (fun image hscan => leads_pure ?_) fun _ =>
    hlogged (content_sync f) ?_)
  · obtain ⟨low, high, part, hreads, hP⟩ := hall _ f.settles_content
    rw [content_synced] at hreads
    rw [logContent_of_some rfl, content_sync] at hscan
    obtain ⟨-, -, -, rfl⟩ := hreads.scanLog.mp hscan
    exact ⟨low, high, part, hreads, hP, (hn.same hs1).relogged (relogged_withLog _ _), rfl, rfl⟩
  · intro f' hf'
    rw [hf'.synced]
    exact f.settles_content

/-! ### Finishing what a stop left -/

theorem Reads.whole {low high} (hr : Reads sha h bs low high part) :
    Reads sha h (logBytes sha (low ++ high)) low high [] :=
  ⟨by rw [append_nil], parseRecord_nil, hr.small, hr.size, hr.covered, hr.contiguous⟩

/-- A torn tail is cut off; until that is durable it may be back. -/
theorem leads_cutTail {low high} (hn : Described sha h d) (hlog : d.log = some (.synced bs))
    (hr : Reads sha h bs low high part) (hP : P (h.withEntries (h.recovered low high))) :
    (cutTail (imageOf low high part)).Leads d
      (fun _ d' => Described sha h d' ∧ d'.log = some (.synced (logBytes sha (low ++ high))))
      fun _ => Reopens sha P := by
  have hcut : (synced bs).truncate (logLen (low ++ high)) =
      ⟨logBytes sha (low ++ high), [], part⟩ := by
    rw [hr.bytes]
    simp [truncate, synced]
  -- a file with the tail gone, durably or not
  have hgone : ∀ {d1 : RaftDisk} {removed : Bytes}, (removed = [] ∨ removed = part) →
      Relogged ⟨logBytes sha (low ++ high), [], removed⟩ d d1 → Reopens sha P d1 := by
    intro d1 removed hremoved hd
    refine ⟨h, _, hn.relogged hd, hd.log, ?_⟩
    rintro f' (⟨k, rfl⟩ | rfl)
    · refine ⟨low, high, [], ?_, hP⟩
      simpa using hr.whole
    · rcases hremoved with rfl | rfl
      · refine ⟨low, high, [], ?_, hP⟩
        simpa using hr.whole
      · refine ⟨low, high, removed, ?_, hP⟩
        rw [content_synced, ← hr.bytes]
        exact hr
  rw [cutTail]
  by_cases hpart : part = []
  · rw [if_pos (by rw [hpart]; rfl)]
    refine leads_pure ⟨hn, ?_⟩
    rw [hlog, hr.bytes, hpart, append_nil]
  have htrimmed : (imageOf low high part).trimmed ≠ 0 := fun hzero =>
    hpart (length_eq_zero_iff.mp hzero)
  rw [if_neg htrimmed]
  have hd1 := relogged_withLog ⟨logBytes sha (low ++ high), [], part⟩ d
  refine (leads_logStep hlog (congrArg d.withLog hcut) fun k _ => ?_ : (setLen _).Leads d
    (fun _ d1 => d1 = d.withLog ⟨logBytes sha (low ++ high), [], part⟩) _).bind ?_
  · split
    · exact reopens_synced (hn.relogged (relogged_withLog _ _)) rfl hr hP
    · rw [hcut]
      exact hgone (.inr rfl) hd1
  rintro _ _ rfl
  have hd2 : ∀ f, Relogged f d (withLog f (d.withLog ⟨logBytes sha (low ++ high), [], part⟩)) :=
    fun f => hd1.trans (relogged_withLog f _)
  refine leads_logStep hd1.log ⟨hn.relogged (hd2 _), congrArg some ?_⟩ fun k _ => ?_
  · simp [sync, content]
  · have hfile : (mk (logBytes sha (low ++ high)) [] part).syncPart k =
        ⟨logBytes sha (low ++ high), [], if k = 0 then part else []⟩ := by simp [syncPart]
    rw [hfile]
    refine hgone ?_ (hd2 _)
    split
    · exact .inr rfl
    · exact .inl rfl

theorem recovered_contiguous {low high} (hr : Reads sha h bs low high part) :
    Contiguous h.snapshot.index.val (h.recovered low high) ∧ (∀ e ∈ h.recovered low high, e.Small) ∧
      logLen (h.recovered low high) ≤ maxLogBytes := by
  have hsize := hr.size
  rw [Stored.recovered]
  split
  · refine ⟨trivial, forall_mem_nil _, ?_⟩
    simp only [logLen, map_nil, sum_nil, maxLogBytes]
    omega
  · refine ⟨hr.contiguous, fun e he => hr.small e (mem_append_right _ he), ?_⟩
    simp only [logLen, map_append, sum_append] at hsize ⊢
    omega

/-- A log that begins at or below the snapshot is replaced by what it is read
as. -/
theorem leads_settleLog {low high} (hn : Described sha h d)
    (hlog : d.log = some (.synced (logBytes sha (low ++ high)))) (hr : Reads sha h bs low high part)
    (hP : P (h.withEntries (h.recovered low high))) :
    (settleLog sha h.applied (imageOf low high part)).Leads d (fun x d' =>
      x = (h.recovered low high, offsetsFrom logMagic.length (h.recovered low high)) ∧
      Described sha h d' ∧ d'.log = some (.synced (logBytes sha (h.recovered low high)))) fun _ =>
      Reopens sha P := by
  cases low with
  | nil => exact leads_pure ⟨rfl, hn, hlog⟩
  | cons e low =>
    have hes : (if h.applied = .snapshotPending then [] else high) =
        h.recovered (e :: low) high := by
      rw [Stored.recovered]
      simp
    have hsettle : settleLog sha h.applied (imageOf (e :: low) high part) =
        (rewriteLog sha (h.recovered (e :: low) high) >>= fun _ =>
        Pure.pure (h.recovered (e :: low) high,
          offsetsFrom logMagic.length (h.recovered (e :: low) high))) := by
      rw [← hes]
      rfl
    rw [hsettle]
    obtain ⟨hcontig, hsmall, hsize⟩ := recovered_contiguous hr
    have hnew : Reads sha h (logBytes sha (h.recovered (e :: low) high)) []
        (h.recovered (e :: low) high) [] :=
      ⟨by simp, parseRecord_nil, hsmall, hsize, forall_mem_nil _, hcontig⟩
    refine leads_rewriteLog.seq (fun _ d1 hd => ?_) fun _ d1 hd =>
      leads_pure ⟨rfl, hn.relogged hd, hd.log⟩
    rcases hd with hsame | hd
    · exact reopens_synced (hn.same (hsame _)) ((hsame Digest.zero).log.trans hlog) hr.whole hP
    · exact reopens_synced (hn.relogged hd) hd.log hnew (by rwa [recovered_nil])

/-! ### Opening -/

theorem leads_reopen (hr : Reopens sha P d) :
    (reopen sha).Leads d (fun c d' => Sound sha c d' ∧ P c.held) fun _ => Reopens sha P := by
  obtain ⟨h, f, hn, hf, hall⟩ := hr
  refine (leads_readFiles hn hf hall).seq (fun _ _ hd => hd.2) fun x d1 hx => ?_
  obtain ⟨low, high, part, hreads, hP, hn1, hlog1, rfl⟩ := hx
  refine (leads_cutTail hn1 hlog1 hreads hP).bind fun _ d2 h2 => ?_
  refine (leads_settleLog h2.1 h2.2 hreads hP).bind fun y d3 h3 => leads_pure ?_
  obtain ⟨rfl, hn3, hlog3⟩ := h3
  obtain ⟨hcontig, hsmall, hsize⟩ := recovered_contiguous hreads
  exact ⟨⟨rfl, hn3.withEntries _, rfl, hlog3, rfl, hcontig, hsmall, hsize⟩, hP⟩

/-- A directory whose first opening was not finished: no state, no payload, and at
most a header in the log. -/
structure Unborn (d : RaftDisk) : Prop where
  state : d.file .state = none
  payload : ∀ g, d.file (.payload g) = none
  log : ∀ f, d.log = some f → ∀ f', f.Settles f' → f'.content.length ≤ logMagic.length

theorem Unborn.same (hu : Unborn d) (hd : ∀ g, SameFor g d d') : Unborn d' where
  state := (hd Digest.zero).state.trans hu.state
  payload g := (hd g).payload.trans (hu.payload g)
  log f hf := hu.log f ((hd Digest.zero).log.symm.trans hf)

theorem Unborn.relogged (hu : Unborn d) (hd : Relogged f d d')
    (hf : ∀ f', f.Settles f' → f'.content.length ≤ logMagic.length) : Unborn d' where
  state := hd.state.trans hu.state
  payload g := (hd.payload g).trans (hu.payload g)
  log g hg := by
    obtain rfl := Option.some.inj (hd.log.symm.trans hg)
    exact hf

theorem Unborn.settles (hu : Unborn d) (hd : d.Settles d') : Unborn d' where
  state := hd.state.trans hu.state
  payload g := (hd.payload g).trans (hu.payload g)
  log f' hf' := by
    rcases hd.log with ⟨-, hnone⟩ | ⟨f, g, hf, hg, hset⟩
    · rw [hf'] at hnone
      cases hnone
    obtain rfl := Option.some.inj (hg.symm.trans hf')
    obtain ⟨bs, rfl⟩ : ∃ bs, g = .synced bs := by rcases hset with ⟨k, rfl⟩ | rfl <;> exact ⟨_, rfl⟩
    intro f'' hf''
    obtain rfl := hf''.synced
    exact hu.log f hf _ hset

theorem unborn_empty : Unborn .empty := ⟨rfl, fun _ => rfl, nofun⟩

theorem header_settles (hbs : bs.length ≤ logMagic.length)
    (hf : ∀ f', f.Settles f' → f'.content.length ≤ logMagic.length) :
    ∀ f', ((f.truncate 0).write bs).Settles f' → f'.content.length ≤ logMagic.length := by
  rintro f' (⟨k, rfl⟩ | rfl)
  · simp only [truncate, write, content_synced, take_zero,
      Nat.zero_sub, nil_append, length_take]
    omega
  · have hback := hf _ (.inr rfl)
    simpa [truncate, write] using hback

theorem leads_writeLogHeader (hu : Unborn d) (hf : d.log = some f) :
    writeLogHeader.Leads d (fun _ d' => Unborn d' ∧ d'.log = some (.synced logMagic))
      fun _ => Unborn := by
  have hheader := header_settles (le_refl logMagic.length) (hu.log f hf)
  have hd1 := relogged_withLog ((f.truncate 0).write logMagic) d
  refine Leads.bind (Q := fun _ d1 => d1 = d.withLog ((f.truncate 0).write logMagic))
    (leads_logStep hf rfl fun k _ => hu.relogged (relogged_withLog _ _) ?_) ?_
  · split
    · exact hu.log f hf
    · refine header_settles ?_ (hu.log f hf)
      rw [length_take]
      omega
  rintro _ _ rfl
  refine leads_logStep hd1.log ⟨hu.relogged (hd1.trans (relogged_withLog _ _)) ?_, congrArg some ?_⟩
    fun k _ => hu.relogged (hd1.trans (relogged_withLog _ _)) fun f' hf' =>
    hheader f' hf'.of_syncPart
  · intro f' hf'
    rw [hf'.synced]
    exact hheader _ (settles_content _)
  · simp [sync]

/-- **The first opening** leaves a directory that is still to be opened for the
first time, or the fresh state. -/
theorem leads_startFresh {voters learners} (hu : Unborn d) (hf : d.log = some f)
    (hP : P (.fresh voters learners)) :
    (startFresh sha voters learners).Leads d (fun c d' => Sound sha c d' ∧ P c.held)
      fun _ d' => Unborn d' ∨ Reopens sha P d' := by
  refine leads_get_bind ?_
  split
  · exact leads_throw (.inl hu)
  refine (leads_writeLogHeader hu hf).seq (fun _ _ => .inl) fun _ d1 h1 => ?_
  obtain ⟨hu1, hlog⟩ := h1
  refine (leads_withLocal (Q := fun x d' => Sound sha x.2 d' ∧ P x.2.held) ?_).bind
    fun _ _ h => leads_pure h
  have hwritten : ∀ {f d2}, Written sha (Core.fresh sha voters learners) f d1 d2 →
      f = 0 ∧ Sound sha (Core.fresh sha voters learners) d2 := by
    intro f d2 hw
    obtain rfl : f = 0 := by
      have hfence := hw.fence
      rw [fenceOnDisk, hu1.state] at hfence
      exact (Except.ok.inj hfence).symm
    refine ⟨rfl, rfl, hw.named rfl (.inr ⟨hu1.payload _, rfl⟩) (bot_le), rfl, ?_, rfl, trivial,
      forall_mem_nil _, ?_⟩
    · rw [hw.log, hlog]
      simp [Core.fresh, Stored.fresh, logBytes]
    · simp [Core.fresh, Stored.fresh, logLen, maxLogBytes]
  refine leads_persistState.imp ?_ ?_
  · rintro _ ⟨c', d2⟩ ⟨f, hw, hc⟩
    obtain rfl : c' = _ := hc
    obtain ⟨rfl, hs⟩ := hwritten hw
    exact ⟨hs, hP⟩
  · rintro _ ⟨c', d2⟩ (⟨-, hsame⟩ | ⟨f, hw, -⟩)
    · exact .inl (hu1.same hsame)
    · exact .inr ((hwritten hw).2.reopens hP)

theorem leads_prepare_some (hf : d.log = some f) :
    prepare.Leads d (fun _ d' => ∀ g, SameFor g d d') fun _ d' => ∀ g, SameFor g d d' := by
  have hsame : ∀ {d'}, Prepared d d' → ∀ g, SameFor g d d' := by
    rintro d' (hsame | ⟨hnone, -⟩)
    · exact hsame
    · rw [hf] at hnone
      cases hnone
  exact leads_prepare.imp (fun _ _ h => hsame h.1) fun _ _ => hsame

/-- **An opening** returns a storage that works, and whatever stops it leaves files
that are reopened as before. -/
theorem leads_openStorage {voters learners} (hr : Reopens sha P d) :
    (openStorage sha voters learners).Leads d (fun c d' => Sound sha c d' ∧ P c.held) fun _ =>
      Reopens sha P := by
  obtain ⟨h, f, hn, hf, -⟩ := id hr
  refine (leads_prepare_some hf).seq (fun _ _ hs => hr.same hs) fun _ d1 hs => leads_get_bind ?_
  simp only [(hn.same (hs _)).state]
  exact leads_reopen (hr.same hs)

theorem leads_openStorage_unborn {voters learners} (hu : Unborn d)
    (hP : P (.fresh voters learners)) :
    (openStorage sha voters learners).Leads d (fun c d' => Sound sha c d' ∧ P c.held)
      fun _ d' => Unborn d' ∨ Reopens sha P d' := by
  have hprep : ∀ {d1}, Prepared d d1 → Unborn d1 := by
    rintro d1 (hsame | ⟨-, hd⟩)
    · exact hu.same hsame
    · refine hu.relogged hd fun f' hf' => ?_
      rw [hf'.synced]
      exact bot_le
  refine leads_prepare.seq (fun _ _ h => .inl (hprep h)) fun _ d1 h1 => leads_get_bind ?_
  obtain ⟨hd1, f, hf⟩ := h1
  have hu1 := hprep hd1
  simp only [hu1.state]
  exact leads_startFresh hu1 hf hP

/-! ### Refusals -/

theorem removeAll_succeeds (ns : List FileName) : (removeAll ns).Succeeds d := by
  induction ns generalizing d with
  | nil => exact succeeds_pure ()
  | cons n ns ih => exact succeeds_bind ⟨(), _, rfl⟩ fun _ _ _ => ih

theorem prepare_succeeds : prepare.Succeeds d := by
  refine succeeds_bind ⟨(), _, rfl⟩ fun _ _ _ => succeeds_bind ⟨(), _, rfl⟩ fun _ d _ => ?_
  refine succeeds_get_bind ?_
  cases d.log with
  | some => exact succeeds_pure ()
  | none => exact succeeds_step _ _ _

theorem calm_prepare : prepare.Calm := calm_of_succeeds fun _ => prepare_succeeds

theorem calm_readFiles : (readFiles sha).Calm := by
  refine calm_get.bind fun _ => (calm_ofExcept _).bind fun _ => ?_
  refine (calm_ofExcept _).bind fun _ =>
    (calm_get.bind fun _ => calm_of_succeeds fun _ => removeAll_succeeds _).bind fun _ => ?_
  refine (calm_step _ _ _).bind fun _ => calm_get.bind fun _ => ?_
  exact (calm_ofExcept _).bind fun _ => calm_pure _

theorem cutTail_succeeds (image : LogImage) : (cutTail image).Succeeds d := by
  rw [cutTail]
  split
  · exact succeeds_pure ()
  · exact succeeds_bind (succeeds_step ..) fun _ _ _ => succeeds_step ..

theorem settleLog_succeeds (applied : AppliedEvents) (image : LogImage) :
    (settleLog sha applied image).Succeeds d := by
  rw [settleLog]
  split
  · refine succeeds_bind ?_ fun _ _ _ => succeeds_pure _
    refine succeeds_bind (succeeds_step ..) fun _ _ _ => ?_
    exact succeeds_bind (succeeds_allOrNothing ..) fun _ _ _ => succeeds_step ..
  · exact succeeds_pure _

/-- **A log that can be read is opened**, and what it is read as is there. -/
theorem returns_openStorage {low high} (hn : Described sha h d)
    (hstate : (encodeState sha (h.image sha)).length ≤ maxStateBytes) (hf : d.log = some f)
    (hr : Reads sha h f.content low high part)
    (hscan : scanLog sha f.content h.snapshot.index h.hardState.commit =
      .ok (imageOf low high part)) (voters learners : List U64) :
    (openStorage sha voters learners).Returns d fun c _ =>
      c.held = h.withEntries (h.recovered low high) := by
  refine prepare_succeeds.returns.bind fun _ d1 h1 => returns_get_bind ?_
  have hs1 := (leads_prepare_some hf).ok h1 (sha h.payload)
  have hn1 := hn.same hs1
  have hread : readState sha (d1.file .state) = .ok (h.image sha) := by
    rw [hn1.state, readState_encodeState hstate]
  have hreads : (readFiles sha).Returns d1 fun x d2 =>
      x = (h.image sha, h.payload, imageOf low high part) ∧ Described sha h d2 ∧
      d2.log = some (.synced f.content) := by
    refine returns_get_bind
      (returns_ofExcept_bind hread (returns_ofExcept_bind (loadPayload_described hn1) ?_))
    refine (succeeds_get_bind (removeAll_succeeds _)).returns.bind fun _ d2 h2 => ?_
    have hs2 := leads_removeOtherPayloads.ok h2
    refine (succeeds_step ..).returns.bind fun _ d3 h3 => returns_get_bind ?_
    obtain rfl : d3 = d2.withLog f.sync := (leads_logStep (Q := fun _ d3 => d3 = d2.withLog f.sync)
      (W := fun _ _ => True) (hs2.log.trans (hs1.log.trans hf)) rfl fun _ _ => trivial).ok h3
    refine returns_ofExcept_bind ?_
      ⟨_, _, rfl, rfl, (hn1.same hs2).relogged (relogged_withLog _ _), rfl⟩
    rw [logContent_of_some rfl, content_sync]
    exact hscan
  simp only [hn1.state]
  refine hreads.bind fun x d2 ⟨hx, hn2, hlog2⟩ => ?_
  subst hx
  refine (cutTail_succeeds _).returns.bind fun _ d3 h3 => ?_
  refine (settleLog_succeeds _ _).returns.bind fun y d4 h4 => ⟨_, _, rfl, ?_⟩
  obtain ⟨hn3, hlog3⟩ := (leads_cutTail (P := fun _ => True) hn2 hlog2 hr trivial).ok h3
  obtain ⟨rfl, -⟩ := (leads_settleLog (P := fun _ => True) hn3 hlog3 hr trivial).ok h4
  rfl

theorem scanned_of_opened {voters learners c} (hn : Described sha h d) (hf : d.log = some f)
    (he : (openStorage sha voters learners).Ends d (.ok c) d') :
    ∃ image, scanLog sha f.content h.snapshot.index h.hardState.commit = .ok image := by
  refine Leads.ok
    (Q := fun _ _ => ∃ image, scanLog sha f.content h.snapshot.index h.hardState.commit = .ok image)
    (W := fun _ _ => True) ?_ he
  refine (leads_prepare_some hf).seq (fun _ _ _ => trivial) fun _ d1 hs1 => leads_get_bind ?_
  have hn1 := hn.same (hs1 _)
  simp only [hn1.state]
  refine Leads.bind
    (Q := fun _ _ => ∃ image, scanLog sha f.content h.snapshot.index h.hardState.commit = .ok image)
    ?_ fun _ _ hscan => (leads_of_ends fun _ _ _ => hscan).imp (fun _ _ h => h) fun _ _ _ => trivial
  refine leads_get_bind (leads_ofExcept_bind (fun image himage => ?_) fun _ => trivial)
  obtain rfl := readState_described hn1 himage
  refine leads_ofExcept_bind (fun _ _ => ?_) fun _ => trivial
  refine leads_removeOtherPayloads.seq (fun _ _ _ => trivial) fun _ d2 hs2 => ?_
  refine (leads_logStep (hs2.log.trans ((hs1 Digest.zero).log.trans hf)) rfl fun _ _ => trivial :
    syncLog.Leads d2 (fun _ d3 => d3 = d2.withLog f.sync) _).bind ?_
  rintro _ _ rfl
  refine leads_get_bind
    (leads_ofExcept_bind (fun image hscan => leads_pure ⟨image, ?_⟩) fun _ => trivial)
  rwa [logContent_of_some rfl, content_sync] at hscan

/-- **A refused opening** changes neither the state, nor the payload it names, nor
the log. -/
theorem refused_openStorage {voters learners e fs} (hn : Described sha h d) (hf : d.log = some f)
    (hall : ∀ f', f.Settles f' → ∃ low high part, Reads sha h f'.content low high part)
    (hrun : openStorage sha voters learners d [] = (.err e, d', fs)) : SameContent h sha d d' := by
  rcases calm_prepare.bind_err hrun with h1 | ⟨⟨⟩, d1, h1, hrun⟩
  · exact ((leads_prepare_some hf).failed h1 trivial _).content
  have hs1 := (leads_prepare_some hf).ok h1 (sha h.payload)
  have hn1 := hn.same hs1
  have hrun' : reopen sha d1 [] = (.err e, d', fs) := by
    simpa only [Bind.bind, Prog.bind, Prog.get, hn1.state] using hrun
  rcases calm_readFiles.bind_err hrun' with h2 | ⟨x, d2, h2, hrun⟩
  · have hcontent := ((leads_readFiles (P := fun _ => True) hn1 (hs1.log.trans hf) fun f' hf' => by
        obtain ⟨low, high, part, hreads⟩ := hall f' hf'
        exact ⟨low, high, part, hreads, trivial⟩).failed h2 trivial).1
    have hfirst := hs1.content
    exact ⟨hcontent.state.trans hfirst.state, hcontent.payload.trans hfirst.payload,
      hcontent.log.trans hfirst.log⟩
  · refine (Prog.Succeeds.not_err ?_ hrun).elim
    refine Prog.succeeds_bind (cutTail_succeeds _) fun _ _ _ => ?_
    exact Prog.succeeds_bind (settleLog_succeeds _ _) fun _ _ _ => Prog.succeeds_pure _

theorem calm_persistState : (persistState sha).Calm := by
  have hguard : refuseIfPoisoned.Calm := calm_get.bind fun s => by
    cases s.1.health with
    | sound => exact calm_pure ()
    | poisoned => exact calm_throw _
  have hfence : (fencedTo sha).Calm :=
    calm_get.bind fun _ => (calm_ofExcept _).bind fun _ => (calm_ofExcept _).bind fun _ =>
      calm_pure _
  refine hguard.bind fun _ => hfence.bind fun _ => calm_get.bind fun _ => ?_
  refine ((calm_step _ _ _).bind fun _ => calm_allOrNothing _ _).zoom.bind fun _ => ?_
  exact (calm_modify _).bind fun _ => (calm_step _ _ _).zoom.onErr _

theorem calm_openStorage (voters learners : List U64) : (openStorage sha voters learners).Calm := by
  refine calm_prepare.bind fun _ => calm_get.bind fun d => ?_
  cases d.file .state with
  | some =>
    refine calm_readFiles.bind fun _ => (calm_of_succeeds fun _ => cutTail_succeeds _).bind fun _ =>
      ?_
    exact (calm_of_succeeds fun _ => settleLog_succeeds _ _).bind fun _ => calm_pure _
  | none =>
    refine calm_get.bind fun _ => ?_
    split
    · exact calm_throw _
    · refine ((calm_step _ _ _).bind fun _ => calm_step _ _ _).bind fun _ => ?_
      exact calm_persistState.withLocal.bind fun _ => calm_pure _

/-! ### Runs of a storage -/

inductive StorageLife
  | off (d : RaftDisk)
  | running (c : Core) (d : RaftDisk)

/-- What can happen to a storage: openings, operations that return or stop,
restarts and power losses.  `allowed` says which operations its caller makes. -/
inductive StorageStep (sha : Bytes → Digest) (allowed : Op → Stored → Prop) :
    StorageLife → StorageLife → Prop
  | opened {voters learners : List U64} {c : Core} {d d' : RaftDisk} :
      (openStorage sha voters learners).Ends d (.ok c) d' →
      StorageStep sha allowed (.off d) (.running c d')
  | openFailed {voters learners : List U64} {r : Outcome IoError Core} {d d' : RaftDisk} :
      (openStorage sha voters learners).Ends d r d' → r.Failed →
      StorageStep sha allowed (.off d) (.off d')
  | called {op : Op} {r : Outcome IoError Unit} {c c' : Core} {d d' : RaftDisk} :
      allowed op c.held → (op.exec sha).Ends (c, d) r (c', d') → r ≠ .crash →
        StorageStep sha allowed (.running c d) (.running c' d')
  | stopped {op : Op} {c c' : Core} {d d' : RaftDisk} :
      allowed op c.held → (op.exec sha).Ends (c, d) .crash (c', d') →
        StorageStep sha allowed (.running c d) (.off d')
  | closed {c : Core} {d : RaftDisk} : StorageStep sha allowed (.running c d) (.off d)
  | powerLoss {d d' : RaftDisk} : d.Settles d' → StorageStep sha allowed (.off d) (.off d')

def StorageLife.Holds (sha : Bytes → Digest) (P : Stored → Prop) : StorageLife → Prop
  | .off d => Reopens sha P d
  | .running c d => (Sound sha c d ∧ P c.held) ∨ (c.health = .poisoned ∧ Reopens sha P d)

theorem StorageLife.Holds.reopens {c} (hl : StorageLife.Holds sha P (.running c d)) :
    Reopens sha P d := by
  rcases hl with ⟨hs, hP⟩ | ⟨-, hr⟩
  · exact hs.reopens hP
  · exact hr

/-- **A poisoned storage refuses every operation** and leaves the files alone. -/
theorem exec_poisoned {op : Op} {c} (hc : c.health = .poisoned) :
    (op.exec sha).Leads (c, d) (fun _ _ => False)
      fun w x => w.isSome ∧ x.1.health = .poisoned ∧ x.2 = d := by
  have hguarded : ∀ {p : Unit → StorageProg Unit} {c : Core}, c.health = .poisoned →
      (refuseIfPoisoned >>= p).Leads (c, d) (fun _ _ => False) fun w x => w.isSome ∧
      x.1.health = .poisoned ∧ x.2 = d :=
    fun hc => leads_guarded (fun hs => nomatch hc.symm.trans hs) fun _ => ⟨rfl, hc, rfl⟩
  have hreplace : ∀ {next : Stored → Stored}, (replaceState sha (Core.withHeld next)).Leads (c, d)
      (fun _ _ => False) fun w x => w.isSome ∧ x.1.health = .poisoned ∧ x.2 = d :=
    leads_get_bind (leads_modify_bind (leads_onErr (hguarded hc) (fun _ _ h => h) fun _ h => h))
  cases op with
  | append | applySnapshot | recordSnapshotWithin | recordSnapshot => exact hguarded hc
  | setHardState | setCommit | setAppliedEvents | setConfState => exact hreplace

/-- **One step keeps what every allowed operation keeps.** -/
theorem StorageStep.holds {l l' : StorageLife}
    (hdistinct : ∀ op h, allowed op h → op.Distinct sha h)
    (hkeeps : ∀ op h h', P h → allowed op h → op.Leaves h h' → P h') (hl : l.Holds sha P)
    (hstep : StorageStep sha allowed l l') : l'.Holds sha P := by
  cases hstep with
  | opened he => exact .inl ((leads_openStorage hl).ok he)
  | openFailed he hr => exact (leads_openStorage hl).failed he hr
  | @called op r c c' d d' hop he hr =>
    rcases hl with ⟨hs, hP⟩ | ⟨hc, hre⟩
    · have hend := ended_exec hs (hdistinct _ _ hop)
      cases r with
      | ok =>
        obtain ⟨hs', hdone⟩ := hend.ok he
        exact .inl ⟨hs', hkeeps _ _ _ hP hop (.inr (.inl hdone))⟩
      | err e =>
        obtain ⟨hre, hc⟩ := hend.err he
        rcases hc rfl with ⟨rfl, hs'⟩ | hc'
        · exact .inl ⟨hs', hP⟩
        · exact .inr ⟨hc', hre.mono fun h' => hkeeps _ _ _ hP hop⟩
      | crash => exact (hr rfl).elim
    · cases r with
      | ok => exact ((exec_poisoned hc).ok he).elim
      | err =>
        obtain ⟨-, hc', hd⟩ := (exec_poisoned hc).err he
        obtain rfl : d' = d := hd
        exact .inr ⟨hc', hre⟩
      | crash => exact (hr rfl).elim
  | @stopped op c c' d d' hop he =>
    rcases hl with ⟨hs, hP⟩ | ⟨hc, -⟩
    · exact (reopens_exec hs (hdistinct _ _ hop) he).mono fun h' => hkeeps _ _ _ hP hop
    · cases ((exec_poisoned hc).crash he).1
  | closed => exact StorageLife.Holds.reopens hl
  | powerLoss hd => exact Reopens.settles hl hd

def StorageLife.Started (sha : Bytes → Digest) (P : Stored → Prop) (l : StorageLife) : Prop :=
  (∃ d, l = .off d ∧ Unborn d) ∨ l.Holds sha P

theorem StorageStep.started {l l'} (hdistinct : ∀ op h, allowed op h → op.Distinct sha h)
    (hfresh : ∀ voters learners, P (.fresh voters learners))
    (hkeeps : ∀ op h h', P h → allowed op h → op.Leaves h h' → P h') (hl : l.Started sha P)
    (hstep : StorageStep sha allowed l l') : l'.Started sha P := by
  rcases hl with ⟨d, rfl, hu⟩ | hl
  swap; · exact .inr (hstep.holds hdistinct hkeeps hl)
  cases hstep with
  | opened he => exact .inr (.inl ((leads_openStorage_unborn hu (hfresh _ _)).ok he))
  | openFailed he hr =>
    rcases (leads_openStorage_unborn hu (hfresh _ _)).failed he hr with hu' | hre
    · exact .inl ⟨_, rfl, hu'⟩
    · exact .inr hre
  | powerLoss hd => exact .inl ⟨_, rfl, hu.settles hd⟩

/-- **Every state of a run** from an empty directory. -/
theorem run_started {l} (hdistinct : ∀ op h, allowed op h → op.Distinct sha h)
    (hfresh : ∀ voters learners, P (.fresh voters learners))
    (hkeeps : ∀ op h h', P h → allowed op h → op.Leaves h h' → P h')
    (run : Relation.ReflTransGen (StorageStep sha allowed) (.off .empty) l) : l.Started sha P := by
  induction run with
  | refl => exact .inl ⟨_, rfl, unborn_empty⟩
  | tail _ hstep ih => exact hstep.started hdistinct hfresh hkeeps ih

theorem run_holds {l l'} (hdistinct : ∀ op h, allowed op h → op.Distinct sha h)
    (hkeeps : ∀ op h h', P h → allowed op h → op.Leaves h h' → P h') (hl : l.Holds sha P)
    (run : Relation.ReflTransGen (StorageStep sha allowed) l l') : l'.Holds sha P := by
  induction run with
  | refl => exact hl
  | tail _ hstep ih => exact hstep.holds hdistinct hkeeps ih

end Ptr.Raft
