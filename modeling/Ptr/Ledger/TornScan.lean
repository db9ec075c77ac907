import Ptr.Ledger.LogCodec

/-!
# Scanning a log that was cut

A log cut anywhere behind its magic is the records before the cut and a part of the next
one (`Chain.cut`), and the scanner finds just that.  Zero bytes behind a record are
counted and also make the log incomplete.  The scanner bounds the bytes and the records
it takes before it looks at what remains, so zeros past a bound are refused
(`zeros_refused`).
-/

namespace Ptr.Ledger

open Lib CommittedEvent List

variable {sha : Bytes → Digest}

/-- **A prefix of a chain** is a chain and a part of the record behind it. -/
theorem Chain.cut {a t es bs c} (h : Chain sha a es bs t) (hc : c <+: bs) :
    ∃ k m whole part, Chain sha a (es.take k) whole m ∧ c = whole ++ part ∧
      Torn sha (fun _ => True) m part ∧
      (k < es.length → ∃ next m', Chain sha a (es.take (k + 1)) next m' ∧
        c.length < next.length) := by
  induction h generalizing c with
  | nil a =>
    obtain rfl := prefix_nil.mp hc
    exact ⟨0, a, [], [], .nil a, rfl, .inl rfl, fun h => absurd h (by simp)⟩
  | @cons a m t e es bs rest he hrest ih =>
    rcases lt_or_ge c.length bs.length with hlt | hge
    · have hpre : c <+: bs := prefix_of_prefix_length_le hc (prefix_append _ _) hlt.le
      refine ⟨0, a, [], c, .nil a, rfl, .inr ⟨e, bs, m, trivial, he, hpre, hlt⟩, fun _ => ?_⟩
      exact ⟨bs, m, .single he, hlt⟩
    · obtain ⟨c', rfl⟩ := prefix_of_prefix_length_le (prefix_append bs rest) hc hge
      obtain ⟨k, m', whole, part, hchain, rfl, htorn, hnext⟩ :=
        ih ((prefix_append_right_inj bs).mp hc)
      refine ⟨k + 1, m', bs ++ whole, part, .cons he hchain, (append_assoc ..).symm, htorn, ?_⟩
      intro hlt
      obtain ⟨next, m'', hchain', hlength⟩ := hnext (Nat.lt_of_succ_lt_succ hlt)
      refine ⟨bs ++ next, m'', .cons he hchain', ?_⟩
      simp only [length_append] at hlength ⊢
      omega

theorem number_take (i : CommitIndex) (es : List LedgerEvent) (k : Nat) :
    number i (es.take k) = (number i es).take k := by
  induction es generalizing i k with
  | nil => simp [number]
  | cons e es ih =>
    cases k with
    | zero => rfl
    | succ => rw [take_succ_cons, number, number, take_succ_cons, ih]

theorem encodeLogFrom_take {cs base t b whole k} (h : encodeLogFrom sha cs base = .ok b)
    (hchain : Chain sha base ((cs.map event).take k) whole t) :
    encodeLogFrom sha (cs.take k) base = .ok (logMagic ++ whole) := by
  obtain ⟨bs, t', hall, rfl, hlen⟩ := encodeLogFrom_ok h
  rw [encodeLogFrom, refuse_eq_ok] at h
  have hshort : (logMagic ++ whole).length ≤ (logMagic ++ bs).length := by
    rw [← take_append_drop k (cs.map event)] at hall
    obtain ⟨m, bs1, bs2, rfl, hfirst, -⟩ := hall.split
    obtain ⟨rfl, -⟩ := hfirst.unique hchain
    simp only [length_append]
    omega
  have hwritten := encodeLogFrom_chain hchain (by rw [length_take, length_map]; omega)
    (hshort.trans hlen)
  rwa [number_take, ← encodeLogLoop_numbered h.2] at hwritten

/-- **The scan of a torn log.**  A log that is cut behind its magic is scanned to the
records in front of the cut; it is incomplete exactly if a part of a record is left.  A
log that ends at a record and goes on with zeros, within the bounds of the scanner, is
scanned to its records; it is incomplete exactly if there are zeros, and these are
counted. -/
theorem torn_scan (sha : Bytes → Digest) {cs : List CommittedEvent} {base : LogAnchor} {b : Bytes}
    (h : encodeLogFrom sha cs base = .ok b) :
    (∀ n, logMagic.length ≤ n → n ≤ b.length → ∃ k whole p,
      encodeLogFrom sha (cs.take k) base = .ok whole ∧ whole.length ≤ n ∧
      (k < cs.length → ∃ next, encodeLogFrom sha (cs.take (k + 1)) base = .ok next ∧
        n < next.length) ∧
      scanFrom sha (b.take n) base = .ok p ∧ p.events = cs.take k ∧ p.completeBytes = whole.length ∧
      (p.incomplete = true ↔ whole.length < n) ∧ p.zeroTail = 0) ∧
    ∀ k zeros, ∃ whole, encodeLogFrom sha (cs.take k) base = .ok whole ∧
      (whole.length + zeros ≤ maxLogBytes → zeros = 0 ∨ (cs.take k).length < maxRecords → ∃ p,
        scanFrom sha (whole ++ replicate zeros 0) base = .ok p ∧ p.events = cs.take k ∧
        p.completeBytes = whole.length ∧ (p.incomplete = true ↔ 0 < zeros) ∧
        p.zeroTail = zeros) := by
  obtain ⟨bs, t, hall, rfl, hlen⟩ := encodeLogFrom_ok h
  have hnumbered : ∀ k, number base.index ((cs.map event).take k) = cs.take k := by
    intro k
    have h' := h
    rw [encodeLogFrom, refuse_eq_ok] at h'
    rw [number_take, ← encodeLogLoop_numbered h'.2]
  constructor
  · intro n hlow hhigh
    have hcut : (logMagic ++ bs).take n = logMagic ++ bs.take (n - logMagic.length) := by
      rw [take_append, take_of_length_le hlow]
    have htake := take_prefix (n - logMagic.length) bs
    obtain ⟨k, m, whole, part, hchain, hpart, htorn, hnext⟩ := hall.cut htake
    have hn : n = (logMagic ++ whole).length + part.length := by
      have := congrArg length hpart
      rw [length_take] at this
      simp only [length_append] at this hhigh ⊢
      omega
    have hscan := scanFrom_chain hchain htorn (by
      rw [← hpart, ← hcut, length_take]
      omega)
    rw [← hpart, ← hcut, hnumbered] at hscan
    refine ⟨k, logMagic ++ whole, _, encodeLogFrom_take h hchain, by omega, fun hk => ?_, hscan,
      rfl, ?_, ?_, rfl⟩
    · rw [length_map] at hnext
      obtain ⟨next, m', hchain', hlength⟩ := hnext hk
      refine ⟨_, encodeLogFrom_take h hchain', ?_⟩
      rw [hpart] at hlength
      simp only [length_append] at hn hlength ⊢
      omega
    · exact (length_append ..).symm
    · rw [Bool.not_eq_true', isEmpty_eq_false_iff, ← length_pos_iff]
      omega
  · intro k zeros
    rw [← take_append_drop k (cs.map event)] at hall
    obtain ⟨m, whole, -, -, hchain, -⟩ := hall.split
    refine ⟨_, encodeLogFrom_take h hchain, fun hsize hroom => ?_⟩
    have hstop : replicate zeros (0 : UInt8) ≠ [] → ((cs.map event).take k).length < maxRecords ∧
        scanStep sha (replicate zeros 0) m = .ok (.stop zeros) := by
      intro hne
      rw [ne_eq, replicate_eq_nil_iff] at hne
      refine ⟨?_, ?_⟩
      · rw [← map_take, length_map]
        exact hroom.resolve_left hne
      · rw [scanStep, if_pos (by simp), length_replicate]
    have hscan := scanFrom_stop zeros hchain (by simpa [add_assoc] using hsize) hstop
    rw [hnumbered] at hscan
    refine ⟨_, hscan, rfl, (length_append ..).symm, ?_, ?_⟩
    · simp
    · by_cases hzero : zeros = 0
      · simp [hzero]
      · simp [hzero]

/-- A record and five zeros behind it. -/
theorem torn_scan_first : ∃ p,
    scanFrom blankHash (oneRecord (.empty blankHash) ++ replicate 5 0) (.empty blankHash) = .ok p ∧
    p.events = [⟨1, .snapshotCommitted 1 1⟩] ∧ p.zeroTail = 5 := by
  have hwritten : encodeLogFrom blankHash [⟨1, .snapshotCommitted 1 1⟩] (.empty blankHash) =
      .ok (oneRecord (.empty blankHash)) := by decide +kernel
  obtain ⟨whole, hwhole, hscan⟩ := (torn_scan blankHash hwritten).2 1 5
  obtain rfl := Except.ok.inj (hwritten.symm.trans hwhole)
  obtain ⟨p, hp, hevents, -, -, hzeros⟩ := hscan (by decide +kernel) (.inr (by decide))
  exact ⟨p, hp, hevents, hzeros⟩

/-- **Zeros past the bound of the scanner are refused, and any zeros make a log
incomplete.** -/
theorem zeros_refused :
    encodeLogFrom blankHash [] (.empty blankHash) = .ok logMagic ∧
    scanFrom blankHash (logMagic ++ replicate maxLogBytes 0) (.empty blankHash) =
      .error (invalid "PTR_LOG_SIZE_LIMIT") ∧
    (scanFrom blankHash (logMagic ++ [0]) (.empty blankHash)).toOption.map
      (fun p => (p.incomplete, p.zeroTail)) = some (true, 1) := by
  refine ⟨by decide, ?_, by decide +kernel⟩
  rw [scanFrom, if_pos]
  rw [length_append, length_replicate, logMagic_length]
  omega

end Ptr.Ledger
