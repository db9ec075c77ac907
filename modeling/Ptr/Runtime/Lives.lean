import Ptr.Runtime.Restored

/-!
# Runtimes across restarts

`Lives log r` says that the runtime `r` holds the records `log`, however it came to
be: by calls on a new runtime, by a replay of records, or by restoring an exported
snapshot with records above it.  A process can stop at any record of a call, so the
records of a restart are any that a ledger can hold.

`lives_invariant` is the rule for what holds of all of them.
-/

namespace Ptr.Runtime

open Lib Ledger Semdb Relation List

variable {ρ τ : Type} {R : Rules ρ τ} {F : ExpertFormat ρ} {G : ExpertReader ρ}

namespace PtrRuntime

variable {r r' : PtrRuntime ρ τ} {log : List CommittedEvent} {semantic : Option PreparedDelta}
  {c : CommittedEvent}

/-! ### Changes that no record makes -/

structure Untouched (r r' : PtrRuntime ρ τ) : Prop where
  base : r'.base = r.base
  ledger : r'.ledger = r.ledger
  certain : r'.uncertain = false → r.uncertain = false
  history : ∃ g s, r'.history = { r.history with executionManifests := g, revokedSessions := s }

theorem untouched_of_history (hbase : r'.base = r.base) (hledger : r'.ledger = r.ledger)
    (hcertain : r'.uncertain = false → r.uncertain = false) (hhistory : r'.history = r.history) :
    Untouched r r' :=
  ⟨hbase, hledger, hcertain, _, _, hhistory⟩

/-- A change is a record, or it leaves what the records determine. -/
theorem moves_untouched (h : Moves R r r') :
    (∃ c semantic, r.Appends R c ∧ r.Beside R c.event semantic ∧
      r' = completed ((r.begun c).applyCommitted R c semantic)) ∨ Untouched r r' := by
  cases h with
  | append happends hbeside => exact .inl ⟨_, _, happends, hbeside, rfl⟩
  | exhausted => exact .inr (untouched_of_history rfl rfl (fun h => absurd h (by simp)) rfl)
  | detached | recovery | permissions | ready | authority =>
    exact .inr (untouched_of_history rfl rfl id rfl)
  | sessions s => exact .inr ⟨rfl, rfl, id, _, s, rfl⟩

theorem step_untouched (R : Rules ρ τ) (r : PtrRuntime ρ τ) {call} (h : call.isShared = true) :
    Untouched r (r.step R call).1 := by
  cases call with
  | authority => exact untouched_of_history rfl rfl id rfl
  | registry => exact ⟨rfl, rfl, id, _, _, rfl⟩
  | _ => cases h

/-! ### New and replayed records -/

/-- What is known of the change beside a record, whether its writer or a replay
prepared it. -/
inductive Readied (R : Rules ρ τ) (r : PtrRuntime ρ τ) : LedgerEvent → Option PreparedDelta → Prop
  | change {origin : SemanticOrigin} {d : SemanticDelta} {encoded : Bytes} {p : PreparedDelta}
      {index : Option CommitIndex} (decode : SemanticDelta.decode encoded = .ok d)
      (prepared : r.history.semdb.prepareDelta d = .ok p) (changes : p.next.revision ≠ r.revision)
      (allowed : validateSemanticOrigin R.sha r.history.state.values index r.revision encoded d
        origin = .ok ())
      (kept : bySomeone origin = true → evictedIngressKey p = none) :
      Readied R r (.semanticDeltaCommitted r.revision p.next.revision encoded origin) (some p)
  | nothing {e : LedgerEvent} (other : isSemantic e = false) : Readied R r e none

theorem Beside.readied {e} (h : r.Beside R e semantic) : r.Readied R e semantic := by
  cases h with
  | change encode prepared changes allowed kept =>
    exact .change (SemanticDelta.decode_encode encode) prepared changes allowed kept
  | nothing other => exact .nothing other

theorem prepareSemanticRecord_eq_ok {sha values semdb index base revision encoded origin p} :
    prepareSemanticRecord sha values semdb index base revision encoded origin = .ok p ↔
      base = semdb.state.revision ∧ revision = p.next.revision ∧
      p.next.revision ≠ semdb.state.revision ∧
      (bySomeone origin = true → evictedIngressKey p = none) ∧
      checkEncodable (.semanticDeltaCommitted base revision encoded origin) = .ok () ∧
      ∃ d, SemanticDelta.decode encoded = .ok d ∧ semdb.prepareDelta d = .ok p ∧
        validateSemanticOrigin sha values index base encoded d origin = .ok () := by
  constructor
  · intro h
    rw [prepareSemanticRecord] at h
    split at h
    · cases h
    next hbase =>
    obtain ⟨d, hdecode, h⟩ := bind_eq_ok.mp h
    obtain ⟨hallowed, h⟩ := bind_unit_eq_ok.mp h
    dsimp only at h
    split at h
    · cases h
    next hencodable =>
    obtain ⟨prepared, hprepared, h⟩ := bind_eq_ok.mp h
    split at h
    · cases h
    next hkept =>
    split at h
    · cases h
    next hchanges =>
    split at h
    · cases h
    next hrevision =>
    cases h
    refine ⟨not_not.mp hbase, (not_not.mp hrevision).symm, hchanges, ?_, ?_, d,
      mapError_eq_ok.mp hdecode, mapError_eq_ok.mp hprepared, hallowed⟩
    · intro hsigned
      simpa [hsigned] using hkept
    · rw [Bool.not_eq_true', Bool.not_eq_false, isOk_iff] at hencodable
      exact hencodable
  · rintro ⟨hbase, hrevision, hchanges, hkept, hencodable, d, hdecode, hprepared, hallowed⟩
    have hkept' : ¬ (bySomeone origin = true ∧ (evictedIngressKey p).isSome = true) := by
      rintro ⟨hsigned, hsome⟩
      rw [hkept hsigned] at hsome
      cases hsome
    rw [prepareSemanticRecord, if_neg (not_not.mpr hbase), bind_eq_ok]
    refine ⟨d, mapError_eq_ok.mpr hdecode, bind_unit_eq_ok.mpr ⟨hallowed, ?_⟩⟩
    rw [hencodable, if_neg (by decide), bind_eq_ok]
    refine ⟨p, mapError_eq_ok.mpr hprepared, ?_⟩
    rw [if_neg hkept', if_neg hchanges, if_neg (not_not.mpr hrevision.symm)]

theorem readied_of_replay {e index} (h : r.prepareSemanticEvent R index e = .ok semantic) :
    r.Readied R e semantic := by
  cases e with
  | semanticDeltaCommitted =>
    obtain ⟨p, hp, h⟩ := bind_eq_ok.mp h
    cases h
    obtain ⟨rfl, rfl, hchanges, hkept, -, d, hdecode, hprepared, hallowed⟩ :=
      prepareSemanticRecord_eq_ok.mp hp
    exact .change hdecode hprepared hchanges hallowed hkept
  | _ =>
    cases h
    exact .nothing rfl

def holding (r : PtrRuntime ρ τ) (c : CommittedEvent) (uncertain : Bool) : PtrRuntime ρ τ :=
  { r with ledger := r.ledger ++ [c], uncertain := uncertain }

/-- `r'` is `r` with one more record, new or replayed.  A record that fails while it is
applied leaves the commit uncertain. -/
structure Takes (R : Rules ρ τ) (r : PtrRuntime ρ τ) (c : CommittedEvent) (r' : PtrRuntime ρ τ) :
    Prop where
  certain : r.uncertain = false
  valid : r.validateLifecycleEvent R c.event = .ok ()
  encodable : checkEncodable c.event = .ok ()
  index : r.nextIndex = some c.index
  base : r'.base = r.base
  ledger : r'.ledger = r.ledger ++ [c]
  applied : ∃ uncertain semantic, r.Readied R c.event semantic ∧
    ((∃ e next, (r.holding c uncertain).applyEvent R c semantic = (.error e, next) ∧
      r'.history = next.history ∧ r'.uncertain = true) ∨
    ∃ next, (r.holding c uncertain).applyEvent R c semantic = (.ok (), next) ∧
    r'.history = { next.history with state := next.history.state.apply R.expertEntries c })

theorem Appends.takes (h : r.Appends R c) (hbeside : r.Beside R c.event semantic) :
    r.Takes R c (completed ((r.begun c).applyCommitted R c semantic)) := by
  obtain ⟨hbase, hledger⟩ := completed_appended (R := R) (r := r) c semantic
  refine ⟨h.certain, h.valid, h.encodable, h.index, hbase, hledger, true, semantic,
    hbeside.readied, ?_⟩
  have hholding : r.holding c true = r.begun c := rfl
  have hframe := sameProcess_applyEvent (R := R) (r.begun c) c semantic
  rw [hholding, applyCommitted]
  cases hevent : (r.begun c).applyEvent R c semantic with
  | mk result next =>
    rw [hevent] at hframe
    cases result with
    | error e => exact .inl ⟨e, next, rfl, rfl, hframe.uncertain⟩
    | ok => exact .inr ⟨next, rfl, rfl⟩

theorem Replays.takes (h : Replays R r c r') (hcertain : r.uncertain = false)
    (hencodable : checkEncodable c.event = .ok ()) : r.Takes R c r' := by
  obtain ⟨semantic, hsemantic, happly⟩ := h.applied
  obtain ⟨next, hnext, rfl⟩ := applyCommitted_ok happly
  exact ⟨hcertain, h.valid, hencodable, h.index, h.process.base, h.process.ledger, r.uncertain,
    semantic, readied_of_replay hsemantic, .inr ⟨next, hnext, rfl⟩⟩

/-! ### Lives -/

inductive Lives (R : Rules ρ τ) (F : ExpertFormat ρ) (G : ExpertReader ρ) :
    List CommittedEvent → PtrRuntime ρ τ → Prop
  | new (owner : Nat) (boundary : ActionBoundaryConfig) : Lives R F G [] (.new R owner boundary)
  | call {log : List CommittedEvent} {r : PtrRuntime ρ τ} (call : Call) (h : Lives R F G log r) :
      Lives R F G (log ++ (r.step R call).1.ledger.drop r.ledger.length) (r.step R call).1
  | replay {events : List CommittedEvent} {r : PtrRuntime ρ τ} {owner : Nat}
    {boundary : ActionBoundaryConfig}
      (hencodable : ∀ c ∈ events, checkEncodable c.event = .ok ())
      (hreplay : replay R owner boundary events = .ok r) :
      Lives R F G events r
  | restore {log above : List CommittedEvent} {r₀ r : PtrRuntime ρ τ}
    {s : CompactedSnapshot} {owner : Nat}
      {boundary : ActionBoundaryConfig} (h : Lives R F G log r₀)
      (hencodable : ∀ c ∈ above, checkEncodable c.event = .ok ())
        (hexport : r₀.exportCompactedSnapshot R F = .ok s)
      (hrestore : restoreCompacted R G owner boundary s.bytes s.anchor above = .ok r) :
      Lives R F G (log ++ above) r

/-- What one call adds, and that a property of the records and the runtime goes along:
every change of the call keeps it. -/
theorem step_along {P : List CommittedEvent → PtrRuntime ρ τ → Prop}
    (huntouched : ∀ log r r', P log r → Untouched r r' → P log r')
    (happend : ∀ log r c semantic, P log r → r.Appends R c → r.Beside R c.event semantic →
      P (log ++ [c]) (completed ((r.begun c).applyCommitted R c semantic)))
    (call : Call) (hr : P log r) :
    P (log ++ (r.step R call).1.ledger.drop r.ledger.length) (r.step R call).1 := by
  have hadded : ∃ more, (r.step R call).1.ledger = r.ledger ++ more ∧
      P (log ++ more) (r.step R call).1 := by
    cases hshared : call.isShared with
    | true =>
      have hsame := step_untouched R r hshared
      exact ⟨[], by rw [hsame.ledger, append_nil], by
        rw [append_nil]; exact huntouched _ _ _ hr hsame⟩
    | false =>
      refine moves_invariant (P := fun r' => ∃ more, r'.ledger = r.ledger ++ more ∧
        P (log ++ more) r') ?_ (step_moves R r hshared)
        ⟨[], (append_nil _).symm, by rw [append_nil]; exact hr⟩
      rintro s s' ⟨more, hledger, hs⟩ hm
      rcases moves_untouched hm with ⟨c, semantic, happends, hbeside, rfl⟩ | hsame
      · refine ⟨more ++ [c], ?_, ?_⟩
        · rw [(completed_appended c semantic).2, hledger, append_assoc]
        · rw [← append_assoc]
          exact happend _ s c semantic hs happends hbeside
      · exact ⟨more, hsame.ledger.trans hledger, huntouched _ _ _ hs hsame⟩
  obtain ⟨more, hledger, hmore⟩ := hadded
  rw [hledger, drop_left]
  exact hmore

theorem step_ledger (R : Rules ρ τ) (r : PtrRuntime ρ τ) (call : Call) :
    r.ledger ++ (r.step R call).1.ledger.drop r.ledger.length = (r.step R call).1.ledger := by
  refine step_along (P := fun log r => log = r.ledger) ?_ ?_ call rfl
  · intro log r r' hlog hsame
    rw [hlog, hsame.ledger]
  · intro log r c semantic hlog _ _
    rw [hlog, (completed_appended c semantic).2]

theorem lives_of_owned (F : ExpertFormat ρ) (G : ExpertReader ρ) (h : r.Owned R) :
    Lives R F G r.ledger r := by
  obtain ⟨owner, boundary, calls, rfl⟩ := h
  induction calls using reverseRecOn with
  | nil => exact .new owner boundary
  | append_singleton calls call ih =>
    rw [run, foldl_append]
    have hstep := Lives.call call ih
    rw [step_ledger] at hstep
    exact hstep

/-! ### The rule -/

theorem restoreRecord_ok {floor} (h : restoreRecord R floor r c = .ok r') : Replays R r c r' := by
  rw [restoreRecord, refuse_eq_ok] at h
  exact replayRecord_ok h.2

theorem restoredAt_certain {owner boundary bytes trusted}
    (h : restoredAt R G owner boundary bytes trusted = .ok r) : r.uncertain = false := by
  obtain ⟨sections, -, h⟩ := bind_eq_ok.mp h
  obtain ⟨delta, -, h⟩ := bind_eq_ok.mp h
  obtain ⟨lifecycle, -, h⟩ := bind_eq_ok.mp h
  obtain ⟨semdb, -, h⟩ := bind_eq_ok.mp h
  obtain ⟨execution, -, h⟩ := bind_eq_ok.mp h
  rw [refuse_eq_ok] at h
  obtain ⟨scopes, -, h⟩ := bind_eq_ok.mp h.2
  obtain ⟨taint, -, h⟩ := bind_eq_ok.mp h
  obtain ⟨heads, -, h⟩ := bind_eq_ok.mp h
  cases h
  rfl

section Invariant

variable {P : List CommittedEvent → PtrRuntime ρ τ → Prop}
  (htakes : ∀ log r c r', P log r → r.Takes R c r' → P (log ++ [c]) r')

include htakes

theorem records_along
    {take : PtrRuntime ρ τ → CommittedEvent → Except RuntimeError (PtrRuntime ρ τ)}
    (htake : ∀ r c r', take r c = .ok r' → Replays R r c r') {events}
    (hencodable : ∀ c ∈ events, checkEncodable c.event = .ok ()) {r₀ : PtrRuntime ρ τ}
    (hr : P log r₀) (hcertain : r₀.uncertain = false) (h : events.foldlM take r₀ = .ok r) :
    P (log ++ events) r := by
  have hstart : P (log ++ []) r₀ ∧ r₀.uncertain = false := ⟨by rwa [append_nil], hcertain⟩
  refine (foldlM_along (P := fun done r => P (log ++ done) r ∧ r.uncertain = false) h hstart ?_).1
  rintro done r c hc next ⟨hr, hcertain⟩ hnext
  have hreplays := htake r c next hnext
  rw [← append_assoc]
  exact ⟨htakes _ r c next hr (hreplays.takes hcertain (hencodable c hc)),
    hreplays.process.uncertain.trans hcertain⟩

/-- **What holds of every runtime and its records**: it holds of a new runtime, it does
not depend on what no record determines, every record keeps it, and so does a
snapshot. -/
theorem lives_invariant (hnew : ∀ owner boundary, P [] (.new R owner boundary))
    (huntouched : ∀ log r r', P log r → Untouched r r' → P log r')
    (hrestore : ∀ log r s owner boundary r', P log r → r.exportCompactedSnapshot R F = .ok s →
      restoredAt R G owner boundary s.bytes s.anchor = .ok r' → P log r')
    (h : Lives R F G log r) : P log r := by
  induction h with
  | new owner boundary => exact hnew owner boundary
  | call call _ ih =>
    exact step_along huntouched (fun _ _ _ _ hr happends hbeside =>
      htakes _ _ _ _ hr (happends.takes hbeside)) call ih
  | @replay events r owner boundary hencodable hok =>
    obtain ⟨next, hnext, hok⟩ := bind_eq_ok.mp hok
    cases hok
    have hnext : P ([] ++ events) next :=
      records_along htakes (fun _ _ _ => replayRecord_ok) hencodable (hnew owner boundary) rfl hnext
    exact huntouched _ next _ hnext (untouched_of_history rfl rfl id rfl)
  | @restore log above r0 r s owner boundary h hencodable hexport hok ih =>
    obtain ⟨floor, hfloor, hok⟩ := bind_eq_ok.mp hok
    obtain ⟨next, hnext, hok⟩ := bind_eq_ok.mp hok
    cases hok
    have hbase := hrestore log r0 s owner boundary floor ih hexport hfloor
    exact huntouched _ next _
      (records_along htakes (fun _ _ _ => restoreRecord_ok) hencodable hbase
      (restoredAt_certain hfloor) hnext)
      (untouched_of_history rfl rfl id rfl)

end Invariant

end PtrRuntime

def plainReader : ExpertReader Unit where
  read _ := do
    let _ ← SectionReader.count
    SectionReader.expectMagic (utf8 "PTREV001")
    let _ ← SectionReader.count
    let _ ← SectionReader.count
    pure ()
  check _ _ := .ok ()

end Ptr.Runtime
