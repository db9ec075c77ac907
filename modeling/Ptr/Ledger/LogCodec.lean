import Ptr.Ledger.Canonical
import Ptr.Ledger.Integrity

/-!
# The two directions of the log codec

What `encode_log_from` writes above any base is read back by `decode_log_from`, and
what `decode_log_from` accepts is what `encode_log_from` would write, as long as no
record passes the bound of the writer.  The writer bounds the index of a record and
the scanner the number of records in the file: the two agree only on logs that end at
or below `maxRecords`.

* `scanStep_inv`: an accepted frame is the frame of its event.
* `scanLoop_inv`: an accepted file is a chain.
* `log_codec_exact`: both directions.
-/

namespace Ptr.Ledger

open Lib List

variable {sha : Bytes → Digest} {es : List LedgerEvent} {remaining : Bytes} {a : LogAnchor}
  {e : LedgerEvent}

/-! ### One frame -/

theorem take_split {x : Bytes} {m n} : x.take (m + n) = x.take m ++ (x.drop m).take n := take_add ..

theorem head_of_fields {header : Bytes} {next} {length : Nat} {d : Digest}
    (hlen : header.length = 84) (hmagic : header.take 8 = frameMagic)
    (hindex : ofLeBytes ((header.drop 8).take 8) = next.val)
    (hlength : ofLeBytes ((header.drop 16).take 4) = length)
    (hdigest : (header.drop 20).take 32 = d.bytes) :
    header.take 52 = frameMagic ++ putU64 next ++ leBytes 4 length ++ d.bytes := by
  have h1 : (header.drop 8).take 8 = putU64 next := by
    rw [putU64, ← hindex]
    have := leBytes_ofLeBytes ((header.drop 8).take 8)
    rw [length_take, length_drop, hlen] at this
    exact this.symm
  have h2 : (header.drop 16).take 4 = leBytes 4 length := by
    rw [← hlength]
    have := leBytes_ofLeBytes ((header.drop 16).take 4)
    rw [length_take, length_drop, hlen] at this
    exact this.symm
  rw [show 52 = 8 + 8 + 4 + 32 from rfl, take_split, take_split, take_split, hmagic,
    h1, h2, hdigest]

/-- **An accepted frame is the frame of its event.** -/
theorem scanFrame_inv {a' : LogAnchor} {next} {total : Nat} (hmagic : remaining.take 8 = frameMagic)
    (hfull : 84 ≤ remaining.length)
    (h : scanFrame sha remaining a next = .ok (.record e a' total)) :
    checkOriginBounds e = .ok () ∧ encodeEvent e ≠ [] ∧ (encodeEvent e).length ≤ maxRecordBytes ∧
      total = (frame sha next (encodeEvent e) a.digest).length ∧
      remaining.take total = frame sha next (encodeEvent e) a.digest ∧
      a' = ⟨next, recordHash sha (frameHeader sha next (encodeEvent e) a.digest)
        (encodeEvent e)⟩ := by
  rw [scanFrame] at h
  generalize hheader : remaining.take frameHeaderBytes = header at h
  generalize hlength : ofLeBytes ((header.drop 16).take 4) = length at h
  simp only [refuse_eq_ok, not_or, not_not] at h
  obtain ⟨hhash, ⟨hindex, hdigest⟩, ⟨hpos, hbound⟩, h⟩ := h
  split at h
  · cases h
  next htotal =>
  simp only [refuse_eq_ok, not_or, not_not, bind_eq_ok] at h
  obtain ⟨⟨hrecord, hend⟩, event, hevent, hpayload, hres⟩ := h
  obtain ⟨rfl, rfl, rfl⟩ := ScanStep.record.inj (Except.ok.inj hres)
  obtain ⟨-, hcheck⟩ := decodeEvent_spells hevent
  have hpay : (encodeEvent event).length = length := by
    rw [hpayload, length_take, length_drop]
    omega
  have hheaderLen : header.length = 84 := by
    rw [← hheader, length_take]
    unfold frameHeaderBytes
    omega
  have hhead : header.take 52 = frameHead next (encodeEvent event) a.digest := by
    rw [frameHead, hpay]
    refine head_of_fields hheaderLen ?_ hindex hlength hdigest
    rw [← hheader, take_take]
    exact hmagic
  have hwhole : header = frameHeader sha next (encodeEvent event) a.digest := by
    rw [frameHeader, ← hhead, ← hhash, take_append_drop]
  refine ⟨hcheck, ?_, by omega, ?_, ?_, ?_⟩
  · intro hnil
    rw [hnil] at hpay
    exact hpos hpay.symm
  · rw [frame_length]
    unfold frameHeaderBytes frameTrailerBytes
    omega
  · have hparts : remaining.take (frameHeaderBytes + length + 32 + 8) =
        header ++ (remaining.drop frameHeaderBytes).take length ++
          (remaining.drop (frameHeaderBytes + length)).take 32 ++
          (remaining.drop (frameHeaderBytes + length + 32)).take 8 := by
      rw [take_split, take_split, take_split, hheader]
    show remaining.take (frameHeaderBytes + length + 32 + 8) = _
    rw [hparts, hrecord, hend, ← hpayload, hwhole]
    rfl
  · rw [← hpayload, ← hwhole]

/-- **An accepted record** is a frame of its event, and is accepted whatever follows it. -/
theorem scanStep_inv {a' total} (h : scanStep sha remaining a = .ok (.record e a' total)) :
    U64.checkedAdd a.index 1 = some a'.index ∧ total = (remaining.take total).length ∧ 0 < total ∧
      (a'.index.val ≤ maxRecords → encodeRecord sha e a = .ok (remaining.take total, a')) ∧
      ∀ rest, scanStep sha (remaining.take total ++ rest) a = .ok (.record e a' total) := by
  rw [scanStep] at h
  split at h
  · cases h
  rw [refuse_eq_ok, not_not] at h
  obtain ⟨hmagic, h⟩ := h
  cases hnext : U64.checkedAdd a.index 1 with
  | none => simp [hnext] at h
  | some next =>
    simp only [hnext, refuse_eq_ok] at h
    obtain ⟨-, -, h⟩ := h
    split at h
    · cases h
    next hfull =>
    have hfull' : 84 ≤ remaining.length := not_lt.mp hfull
    have hmagic' : remaining.take 8 = frameMagic := by
      rw [frameMagic_length] at hmagic
      rw [hmagic, take_of_length_le]
      rw [frameMagic_length]
      omega
    obtain ⟨hcheck, hne, hlen, htotal, hframe, rfl⟩ := scanFrame_inv hmagic' hfull' h
    refine ⟨rfl, by rw [hframe, htotal], by rw [htotal, frame_length]; omega, fun hindex => ?_,
      fun rest => ?_⟩
    swap
    · have hread := fun d hd => @scanStep_frame sha e a ⟨next, d⟩ hnext hcheck hne hlen hd rest
      rw [hframe, htotal]
      exact hread _ rfl
    rw [encodeRecord, hnext]
    simp only [refuse_eq_ok, bind_unit_eq_ok]
    refine ⟨not_lt.mpr hindex, hcheck, not_or.mpr ⟨hne, not_lt.mpr hlen⟩, ?_⟩
    rw [hframe]

/-! ### Whole files -/

/-- **An accepted file is a chain**, if its last index is within the bound of the
writer. -/
theorem scanLoop_inv {fuel p q} (hp : p.incomplete = false) (hfuel : remaining.length ≤ fuel)
    (h : scanLoop sha fuel remaining p = .ok q) (hq : q.incomplete = false) :
    ∃ es, q.events = p.events ++ number p.anchor.index es ∧
      q.anchor.index.val = p.anchor.index.val + es.length ∧
      (p.events.length ≤ maxRecords → q.events.length ≤ maxRecords) ∧
      (es = [] ∨ q.anchor.index.val ≤ maxRecords → Chain sha p.anchor es remaining q.anchor) := by
  induction fuel generalizing remaining p with
  | zero =>
    obtain rfl := length_eq_zero_iff.mp (Nat.le_zero.mp hfuel)
    cases h
    exact ⟨[], by simp [number], rfl, id, fun _ => .nil _⟩
  | succ fuel ih =>
    rw [scanLoop] at h
    split at h
    · next hnil =>
      cases h
      exact ⟨[], by simp [number], rfl, id, fun _ => hnil ▸ .nil _⟩
    rw [refuse_eq_ok, bind_eq_ok] at h
    obtain ⟨hlimit, step, hstep, h⟩ := h
    cases step with
    | stop =>
      cases h
      cases hq
    | record e a' total =>
      obtain ⟨hnext, -, hpos, hencode, -⟩ := scanStep_inv hstep
      have hsucc : a'.index.val = p.anchor.index.val + 1 := by
        simpa using U64.checkedAdd_eq_some hnext
      have hsum : p.anchor.index + 1 = a'.index := by
        apply Fin.ext
        exact (Nat.mod_eq_of_lt (hsucc ▸ a'.index.isLt)).trans hsucc.symm
      have hshort : (remaining.drop total).length ≤ fuel := by
        rw [length_drop]
        omega
      obtain ⟨es, hevents, hindex, hcount, hchain⟩ := ih (by exact hp) hshort h
      simp only at hevents hindex hcount hchain
      refine ⟨e :: es, ?_, ?_, fun _ => hcount ?_, fun hle => ?_⟩
      · rw [hevents, number, hsum, append_assoc]
        rfl
      · rw [length_cons]
        omega
      · rw [length_append, length_singleton]
        omega
      · have hlast : q.anchor.index.val ≤ maxRecords := by
          rcases hle with hnil | hle
          · cases hnil
          · exact hle
        have := Chain.cons (hencode (by omega)) (hchain (.inr hlast))
        rwa [take_append_drop] at this

theorem decodeLogFrom_inv {b base p} (h : decodeLogFrom sha b base = .ok p) :
    b.length ≤ maxLogBytes ∧ p.events.length ≤ maxRecords ∧ ∃ es bs, b = logMagic ++ bs ∧
      p.events = number base.index es ∧ p.anchor.index.val = base.index.val + es.length ∧
      (es = [] ∨ p.anchor.index.val ≤ maxRecords → Chain sha base es bs p.anchor) := by
  rw [decodeLogFrom, bind_eq_ok] at h
  obtain ⟨q, hscan, h⟩ := h
  rw [refuse_eq_ok] at h
  obtain ⟨hcomplete, h⟩ := h
  obtain rfl := Except.ok.inj h
  rw [scanFrom, refuse_eq_ok, refuse_eq_ok, not_not] at hscan
  obtain ⟨hsize, hmagic, hloop⟩ := hscan
  obtain ⟨es, hevents, hindex, hcount, hchain⟩ :=
    scanLoop_inv rfl (by simp) hloop (by simpa using hcomplete)
  refine ⟨not_lt.mp hsize, hcount (bot_le), es, b.drop logMagic.length, ?_, hevents, hindex, hchain⟩
  have := take_append_drop logMagic.length b
  rw [hmagic] at this
  exact this.symm

theorem encodeLogLoop_chain {t bs out} (h : Chain sha a es bs t)
    (hlen : (out ++ bs).length ≤ maxLogBytes) :
    encodeLogLoop sha (number a.index es) a out = .ok (out ++ bs) := by
  induction h generalizing out with
  | nil => simp [number, encodeLogLoop]
  | @cons a m t e es bs rest he hrest ih =>
    rw [← append_assoc] at hlen ⊢
    have hshort : (out ++ bs).length ≤ maxLogBytes := by
      simp only [length_append] at hlen ⊢
      omega
    rw [number, encodeLogLoop, bind_eq_ok]
    refine ⟨(bs, m), he, ?_⟩
    simp only [refuse_eq_ok, not_not]
    refine ⟨encodeRecord_succ he, by rw [← length_append]; omega, ?_⟩
    rw [encodeRecord_succ he]
    exact ih hlen

theorem encodeLogFrom_chain {base t bs} (h : Chain sha base es bs t)
    (hcount : es.length ≤ maxRecords) (hlen : (logMagic ++ bs).length ≤ maxLogBytes) :
    encodeLogFrom sha (number base.index es) base = .ok (logMagic ++ bs) := by
  rw [encodeLogFrom, number_length, if_neg (not_lt.mpr hcount)]
  exact encodeLogLoop_chain h hlen

theorem chainLoop_chain {t bs} (h : Chain sha a es bs t) :
    ∃ as, chainLoop sha (number a.index es) a = .ok as ∧ as.getLast?.getD a = t := by
  induction h with
  | nil => exact ⟨[], rfl, rfl⟩
  | @cons a m t e es bs rest he hrest ih =>
    obtain ⟨as, has, hlast⟩ := ih
    refine ⟨m :: as, ?_, ?_⟩
    · rw [number, chainLoop, bind_eq_ok]
      refine ⟨(bs, m), he, ?_⟩
      simp only [refuse_eq_ok, not_not, bind_eq_ok]
      exact ⟨encodeRecord_succ he, as, by rw [encodeRecord_succ he]; exact has, rfl⟩
    · rw [getLast?_cons]
      simpa using hlast

theorem encodeLogLoop_numbered {cs bs out} (h : encodeLogLoop sha cs a bs = .ok out) :
    cs = number a.index (cs.map CommittedEvent.event) := by
  induction cs generalizing a bs with
  | nil => rfl
  | cons c cs ih =>
    rw [encodeLogLoop, bind_eq_ok] at h
    obtain ⟨⟨record, next⟩, he, h⟩ := h
    simp only [refuse_eq_ok, not_not] at h
    obtain ⟨hindex, -, h⟩ := h
    have hnext := encodeRecord_succ he
    rw [map_cons, number, hnext, ← ih h, ← hindex]

theorem encodeEvent_ne_nil (e : LedgerEvent) : encodeEvent e ≠ [] := by
  cases e <;> exact cons_ne_nil _ _

def logLength (es : List LedgerEvent) : Nat :=
  8 + (es.map fun e => 124 + (encodeEvent e).length).sum

theorem encodeRecord_of_encodable (he : checkEncodable e = .ok ())
    (hcount : a.index.val + 1 ≤ maxRecords) :
    ∃ bs t, encodeRecord sha e a = .ok (bs, t) ∧ bs.length = 124 + (encodeEvent e).length := by
  rw [checkEncodable_eq_ok] at he
  have hlimit : maxRecords = 100000 := rfl
  have hnext : U64.checkedAdd a.index 1 = some ⟨a.index.val + 1, by omega⟩ :=
    dif_pos (show a.index.val + 1 < 2 ^ 64 by omega)
  have hrecord : encodeRecord sha e a =
      .ok (frame sha ⟨a.index.val + 1, by omega⟩ (encodeEvent e) a.digest,
        ⟨⟨a.index.val + 1, by omega⟩, recordHash sha
        (frameHeader sha ⟨a.index.val + 1, by omega⟩ (encodeEvent e) a.digest)
        (encodeEvent e)⟩) := by
    rw [encodeRecord, hnext]
    simp only [refuse_eq_ok, bind_unit_eq_ok]
    exact ⟨not_lt.mpr hcount, he.1, not_or.mpr ⟨encodeEvent_ne_nil e, not_lt.mpr he.2⟩, trivial⟩
  exact ⟨_, _, hrecord, frame_length ..⟩

theorem exists_chain (hes : ∀ e ∈ es, checkEncodable e = .ok ())
    (hcount : a.index.val + es.length ≤ maxRecords) :
    ∃ bs t, Chain sha a es bs t ∧ (logMagic ++ bs).length = logLength es := by
  induction es generalizing a with
  | nil => exact ⟨[], a, .nil a, by simp [logLength]⟩
  | cons e es ih =>
    rw [forall_mem_cons] at hes
    rw [length_cons] at hcount
    obtain ⟨record, next, hrecord, hlength⟩ := encodeRecord_of_encodable hes.1 (a := a) (by omega)
    obtain ⟨bs, t, hchain, hrest⟩ := ih hes.2 (by rw [encodeRecord_index hrecord]; omega)
    refine ⟨record ++ bs, t, .cons hrecord hchain, ?_⟩
    simp only [logLength, length_append, map_cons, sum_cons] at hrest ⊢
    omega

theorem decodeLogFrom_encodeLogFrom {cs base b} (h : encodeLogFrom sha cs base = .ok b) :
    ∃ p bs, decodeLogFrom sha b base = .ok p ∧ p.events = cs ∧
      Chain sha base (cs.map CommittedEvent.event) bs p.anchor ∧
      cs = number base.index (cs.map CommittedEvent.event) ∧ b.length ≤ maxLogBytes := by
  obtain ⟨bs, t, hchain, rfl, hlen⟩ := encodeLogFrom_ok h
  rw [encodeLogFrom, refuse_eq_ok] at h
  have hcs := encodeLogLoop_numbered h.2
  obtain ⟨p, hdecode, rfl, hevents⟩ := decodeLogFrom_chain hchain hlen
  exact ⟨p, bs, hdecode, hevents.trans hcs.symm, hchain, hcs, hlen⟩

/-- **The log codec over any base.**  What the writer writes is read back, with the
last anchor of the chain; and what the reader accepts is what the writer writes exactly
if the records end within the bound of the writer on their indices. -/
theorem log_codec_exact (sha : Bytes → Digest) (base : LogAnchor) :
    (∀ cs b, encodeLogFrom sha cs base = .ok b → ∃ p as, decodeLogFrom sha b base = .ok p ∧
      p.events = cs ∧ chainAnchors sha cs base = .ok as ∧ p.anchor = as.getLast?.getD base) ∧
    ∀ b p, decodeLogFrom sha b base = .ok p →
      (encodeLogFrom sha p.events base = .ok b ↔
        p.events = [] ∨ base.index.val + p.events.length ≤ maxRecords) := by
  refine ⟨fun cs b h => ?_, fun b p h => ⟨fun hencode => ?_, fun hbound => ?_⟩⟩
  · obtain ⟨p, bs, hdecode, hevents, hchain, hcs, -⟩ := decodeLogFrom_encodeLogFrom h
    obtain ⟨as, has, hlast⟩ := chainLoop_chain hchain
    rw [← hcs] at has
    rw [encodeLogFrom, refuse_eq_ok] at h
    refine ⟨p, as, hdecode, hevents, ?_, hlast.symm⟩
    rw [chainAnchors, if_neg h.1, has]
  · obtain ⟨bs, t, hchain, -⟩ := encodeLogFrom_ok hencode
    refine or_iff_not_imp_left.mpr fun hne => ?_
    have hlast := hchain.index_le (by simpa using hne)
    rwa [hchain.index, length_map] at hlast
  · obtain ⟨hlen, hcount, es, bs, rfl, hevents, hindex, hchain⟩ := decodeLogFrom_inv h
    have hes : es = [] ∨ p.anchor.index.val ≤ maxRecords := by
      rw [hevents, number_length, ← hindex] at hbound
      rcases hbound with hnil | hle
      · left
        have := congrArg length hnil
        rw [number_length] at this
        exact length_eq_zero_iff.mp this
      · exact .inr hle
    rw [hevents, number_length] at hcount
    rw [hevents]
    exact encodeLogFrom_chain (hchain hes) hcount hlen

def oneRecord (base : LogAnchor) : Bytes :=
  logMagic ++ frame blankHash (base.index + 1) (encodeEvent (.snapshotCommitted 1 1)) base.digest

theorem log_codec_exact_first :
    (decodeLogFrom blankHash (oneRecord (.empty blankHash)) (.empty blankHash)).toOption.map
      (·.events) = some [⟨1, .snapshotCommitted 1 1⟩] ∧
      encodeLogFrom blankHash [⟨1, .snapshotCommitted 1 1⟩] (.empty blankHash) =
        .ok (oneRecord (.empty blankHash)) := by
  have hencode : encodeLogFrom blankHash [⟨1, .snapshotCommitted 1 1⟩] (.empty blankHash) =
      .ok (oneRecord (.empty blankHash)) := by decide +kernel
  obtain ⟨p, -, hdecode, hevents, -⟩ := (log_codec_exact blankHash (.empty blankHash)).1 _ _ hencode
  have hback := ((log_codec_exact blankHash (.empty blankHash)).2 _ p hdecode).mpr
    (.inr (by rw [hevents]; decide))
  rw [hevents] at hback
  exact ⟨by rw [hdecode, ← hevents]; rfl, hback⟩

/-- The base of a ledger that was compacted at the bound of the writer. -/
def farBase : LogAnchor := ⟨100000, .zero⟩

/-- **The reader accepts what the writer does not write**: one record above a base at
the bound. -/
theorem far_record_accepted :
    (decodeLogFrom blankHash (oneRecord farBase) farBase).toOption.map (·.events) =
        some [⟨100001, .snapshotCommitted 1 1⟩] ∧
      encodeLogFrom blankHash [⟨100001, .snapshotCommitted 1 1⟩] farBase =
        .error (invalid "PTR_LOG_RECORD_LIMIT") := by
  decide +kernel

end Ptr.Ledger
