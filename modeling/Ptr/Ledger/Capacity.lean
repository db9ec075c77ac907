import Ptr.Ledger.Crash
import Ptr.Ledger.LogCodec

/-!
# The capacity of a ledger

A log file holds at most `maxRecords` records in `maxLogBytes` bytes.  A cutover removes
records from the file, but `encodeRecord` compares the index of a record, which counts the
removed ones too, with `maxRecords`.

* `cutover_restores_capacity`: below that index an append is refused only for bytes.
* `cutover_at_last_index`: at it, every append is refused, even with an empty log.
-/

namespace Ptr.Ledger

open Lib AcknowledgedLedger Prog Disk

variable {sha : Bytes → Digest} {key : AnchorKey} {e : LedgerEvent}

/-- **A cutover restores the capacity** of a ledger that has numbered fewer than
`maxRecords` records.  In any careful life its handle finds room for the record of an
encodable event, and an append without faults is refused only for its bytes, exactly if
the retained file and the record are too long together. -/
theorem cutover_restores_capacity {d₀ d h₀ h s} (hc : (create sha key).Ends d₀ (.ok h₀) d)
    (run : Relation.ReflTransGen (CarefulStep sha key) (Life.start h₀ d) s) (hs : s.handle = some h)
    (hfenced : h.fenced = false) (hclean : h.log.poisoned = false)
    (hindex : h.log.anchor.index.val < maxRecords) (he : checkEncodable e = .ok ()) :
    ∃ record a bs, encodeRecord sha e h.log.anchor = .ok (record, a) ∧
      s.disk.logs[h.log.base.index]? = some (.synced bs) ∧
      (FileLedger.appendDurable sha e (h.log, s.disk) []).1 =
        if maxLogBytes < bs.length + record.length then .err (invalid "PTR_LOG_SIZE_LIMIT")
        else .ok a.index := by
  obtain ⟨hist, a, hi⟩ := Inv.of_run hc run
  obtain ⟨bs, -, hfile, hlen, -⟩ := (hi.handle h hs hfenced).1.file hclean
  obtain ⟨record, a, hx, -⟩ := @encodeRecord_of_encodable sha _ _ he (Nat.succ_le_of_lt hindex)
  refine ⟨record, a, logMagic ++ bs, hx, hfile, ?_⟩
  rw [← hlen]
  split
  · next hlong =>
    simp [FileLedger.appendDurable, Bind.bind, Prog.bind, Prog.get, Prog.throw, hclean, hx,
      Prog.ofExcept, Prog.pure, hlong]
  · next hroom =>
    have hsame : (s.disk.logs[h.log.base.index]?).map (·.content.length) = some h.log.length := by
      rw [hfile, hlen]
      simp
    obtain ⟨i, s', hrun, hends⟩ :=
      (FileLedger.appendDurable_succeeds hclean hx (not_lt.mp hroom) hsame).ends
    obtain ⟨_, _, _, happ, rfl, -⟩ := FileLedger.leads_appendDurable.ok hends
    cases hx.symm.trans happ.record
    rw [hrun]

/-- Two records, and a cutover at the first. -/
theorem cutover_restores_capacity_behind :
    ∃ h₀ d h, (create lengthHash (.fill 7)).Ends empty (.ok h₀) d ∧
      let s := (sampleCalls.take 3).foldl (Life.call lengthHash (.fill 7)) (Life.start h₀ d)
      s.handle = some h ∧ h.log.base.index = 1 ∧ h.log.anchor.index = 2 ∧
      ∃ record a bs, encodeRecord lengthHash (sampleEvent 3) h.log.anchor = .ok (record, a) ∧
        s.disk.logs[h.log.base.index]? = some (.synced bs) ∧
        (FileLedger.appendDurable lengthHash (sampleEvent 3) (h.log, s.disk) []).1 =
          if maxLogBytes < bs.length + record.length then .err (invalid "PTR_LOG_SIZE_LIMIT")
          else .ok a.index := by
  obtain ⟨⟨h₀, d⟩, hs⟩ : ∃ s, session lengthHash (.fill 7) [] = some s :=
    Option.isSome_iff_exists.mp (by decide +kernel)
  have hall : (session lengthHash (.fill 7) []).all (fun p =>
      let s := (sampleCalls.take 3).foldl (Life.call lengthHash (.fill 7)) (Life.start p.1 p.2)
      s.handle.map (fun h => (h.fenced, h.log.poisoned, h.log.base.index, h.log.anchor.index)) =
        some (false, false, 1, 2)) = true := by
    decide +kernel
  rw [hs, Option.all_some, decide_eq_true_iff] at hall
  obtain ⟨h, hhandle, heq⟩ := Option.map_eq_some_iff.mp hall
  simp only [Prod.mk.injEq] at heq
  obtain ⟨hfenced, hclean, hbase, hindex⟩ := heq
  have hc := created_of_session hs
  exact ⟨h₀, d, h, hc, hhandle, hbase, hindex,
    cutover_restores_capacity hc (Life.run_calls _ _) hhandle hfenced hclean
    (by rw [hindex]; decide) (by decide)⟩

/-- What is left of a ledger of `maxRecords` records that was cut over below its last one. -/
def full.disk : Disk :=
  let base : LogAnchor := ⟨99999, .fill 7⟩
  match encodeRecord lengthHash (sampleEvent 1) base with
  | .ok (bs, tail) => { Disk.empty with
      logs := Disk.empty.logs.insert 99999 (.synced (logMagic ++ bs))
      anchor :=
        some (.synced (ProtectedAnchor.record lengthHash (.fill 7) ⟨1, tail, .fill 7, base⟩)) }
  | .error _ => .empty

/-- The records that a cutover at the tail retains, and an append behind it. -/
def full.cutover : Option (List CommittedEvent × Outcome IoError CommitIndex) :=
  match openLedger lengthHash (.fill 7) 0 .refuse full.disk [] with
  | (.ok (h, _), d, _) =>
    match h.planCompaction lengthHash 0 ⟨100000, true, 0⟩ with
    | .ok (.compact plan) =>
      match compact lengthHash (.fill 7) plan (h, d) [] with
      | (.ok _, (h, d), _) =>
        some (h.log.events, (FileLedger.appendDurable lengthHash (sampleEvent 1) (h.log, d) []).1)
      | _ => none
    | _ => none
  | _ => none

/-- **A ledger that has numbered `maxRecords` records** is cut over to a log without a record,
and refuses the next event for the number of records. -/
theorem cutover_at_last_index :
    checkEncodable (sampleEvent 1) = .ok () ∧
      full.cutover = some ([], .err (invalid "PTR_LOG_RECORD_LIMIT")) := by
  decide +kernel

end Ptr.Ledger
