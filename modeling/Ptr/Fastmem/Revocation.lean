import Mathlib.Data.List.Forall2
import Mathlib.Data.List.Induction
import Ptr.Fastmem.Memory
import Ptr.Lib.Checkpoints

/-!
# Revocation is exact

A memory is at every point what a fold of its journal gives, copies included (`Whole`),
so a revocation leaves what a memory would hold that never had the revoked writes.  The
copies in front of the first revoked write stand for fronts of the journal that stay,
and the refold goes on from the last of them.

`Runs` follows a memory together with the requests that a store keeps beside it and the
numbers it has given out.
-/

namespace Ptr.Fastmem

open Lib FastMemory List

variable {F σ : Type} {K : Numerics F σ}

def step (K : Numerics F σ) (s : FastWeightState σ) (w : MemoryWrite F) : FastWeightState σ :=
  (s.apply K w).1

def foldOf (K : Numerics F σ) (c : FastMemoryConfig) (ws : List (MemoryWrite F)) :
    FastWeightState σ :=
  ws.foldl (step K) (.empty K c)

def copiesOf (K : Numerics F σ) (c : FastMemoryConfig) (ws : List (MemoryWrite F)) :
    List (FastWeightState σ) :=
  kept (step K) c.checkpointInterval.val (.empty K c) ws

theorem applied_foldOf (c : FastMemoryConfig) (ws : List (MemoryWrite F)) (w : MemoryWrite F) :
    (foldOf K c (ws ++ [w])).applied = w.seq := by
  rw [foldOf, foldl_append]
  rfl

/-- A state stands for the last write it folds, so its number is one of theirs. -/
theorem applied_foldOf_mem (c : FastMemoryConfig) {ws} (h : ws ≠ []) :
    ∃ w ∈ ws, (foldOf K c ws).applied = w.seq := by
  rcases eq_nil_or_concat ws with rfl | ⟨front, w, rfl⟩
  · exact absurd rfl h
  · rw [concat_eq_append]
    exact ⟨w, by simp, applied_foldOf c front w⟩

def Ascends (ws : List (MemoryWrite F)) : Prop := ws.Pairwise fun a b => a.seq < b.seq

/-- The memory is a fold of its journal. -/
structure Whole (K : Numerics F σ) (m : FastMemory F σ) : Prop where
  state : m.state = foldOf K m.config m.writes
  checkpoints : m.checkpoints = copiesOf K m.config m.writes
  ascends : Ascends m.writes
  positive : ∀ w ∈ m.writes, 0 < w.seq

/-! ### The loop of a revocation -/

theorem replay_skip {interval start front rest} (h : ∀ w ∈ front, w.seq ≤ start) (i : Nat)
    (p : FastWeightState σ × List (FastWeightState σ) × Nat) :
    replay K interval start i p (front ++ rest) =
      replay K interval start (i + front.length) p rest := by
  induction front generalizing i with
  | nil => rfl
  | cons w front ih =>
    rw [forall_mem_cons] at h
    rw [cons_append, replay, if_pos h.1, ih h.2, length_cons, Nat.add_right_comm, add_assoc]

/-- Behind the copy it restarts from, the loop is a fold with copies. -/
theorem replay_fold (interval : Nat) {start ws} (h : ∀ w ∈ ws, start < w.seq) (i : Nat)
    (state : FastWeightState σ) (copies : List (FastWeightState σ)) (replayed : Nat) :
    ((replay K interval start i (state, copies, replayed) ws).1,
      (replay K interval start i (state, copies, replayed) ws).2.1) =
      foldFrom (step K) interval i (state, copies) ws := by
  induction ws generalizing i state copies replayed with
  | nil => rfl
  | cons w ws ih =>
    rw [forall_mem_cons] at h
    rw [replay, if_neg (not_le.mpr h.1)]
    exact ih h.2 (i + 1) _ _ _

/-! ### The writes that stay -/

section Survivors

variable {α : Type}

theorem survivors_cons (a : α) (as : List α) (b : Bool) (bs : List Bool) :
    survivors (a :: as) (b :: bs) = if b then survivors as bs else a :: survivors as bs := by
  cases b with
  | true | false => rfl

theorem survivors_sublist (as : List α) (bs : List Bool) : (survivors as bs).Sublist as := by
  induction as generalizing bs with
  | nil => exact Sublist.slnil
  | cons a as ih =>
    cases bs with
    | nil => exact nil_sublist _
    | cons b bs =>
      rw [survivors_cons]
      split
      · exact (ih bs).cons a
      · exact (ih bs).cons_cons a

theorem survivors_of_none {as : List α} {bs} (h : (as.zip bs).find? Prod.snd = none)
    (hlen : bs.length = as.length) : survivors as bs = as := by
  induction as generalizing bs with
  | nil => rfl
  | cons a as ih =>
    cases bs with
    | nil => cases hlen
    | cons b =>
      cases b with
      | true => cases h
      | false =>
        exact congrArg (a :: ·) (ih h (Nat.succ.inj hlen))

theorem survivors_split {as} {bs : List Bool} {a : α} {b}
    (h : (as.zip bs).find? Prod.snd = some (a, b)) :
    ∃ front rest back, as = front ++ a :: rest ∧ survivors as bs = front ++ back := by
  induction as generalizing bs with
  | nil => simp at h
  | cons x as ih =>
    cases bs with
    | nil => simp at h
    | cons y bs =>
      rw [survivors_cons]
      cases y with
      | true =>
        obtain ⟨rfl, -⟩ := Prod.mk.inj (Option.some.inj h)
        exact ⟨[], as, _, rfl, rfl⟩
      | false =>
        obtain ⟨front, rest, back, rfl, hstay⟩ := ih h
        exact ⟨x :: front, rest, back, rfl, by rw [hstay]; rfl⟩

end Survivors

/-! ### One revocation -/

section Revoke

variable {c : FastMemoryConfig} {front rest : List (MemoryWrite F)} {a : MemoryWrite F}

theorem retained_copies (h : Ascends (front ++ a :: rest)) (hpos : 0 < a.seq) :
    (copiesOf K c (front ++ a :: rest)).filter (fun s => s.applied < a.seq) =
      copiesOf K c front := by
  obtain ⟨more, hmore, hlater⟩ := kept_append (f := step K) (.empty K c) front (a :: rest)
  have hsplit := pairwise_append.mp h
  rw [copiesOf, hmore, filter_append, filter_eq_self.mpr, filter_eq_nil_iff.mpr, append_nil]
  · rfl
  · -- A later copy folds the revoked write, and numbers ascend.
    intro s hs
    obtain ⟨m, hlt, -, rfl⟩ := hlater s hs
    obtain ⟨k, rfl⟩ := Nat.exists_eq_add_of_lt hlt
    rw [decide_eq_true_eq, not_lt, take_append, take_of_length_le (by omega)]
    have htake : (a :: rest).take (front.length + k + 1 - front.length) = a :: rest.take k := by
      rw [show front.length + k + 1 - front.length = k + 1 by omega, take_succ_cons]
    rw [htake]
    obtain ⟨w, hw, happlied⟩ := applied_foldOf_mem c (cons_ne_nil a (rest.take k))
    have hsame : ((front ++ a :: rest.take k).foldl (step K) (.empty K c)).applied =
        (foldOf K c (a :: rest.take k)).applied := by
      rcases eq_nil_or_concat (a :: rest.take k) with hnil | ⟨init, last, hlast⟩
      · cases hnil
      · rw [hlast, concat_eq_append, ← append_assoc]
        exact (applied_foldOf c (front ++ init) last).trans (applied_foldOf c init last).symm
    rw [hsame, happlied]
    rcases mem_cons.mp hw with rfl | hw
    · exact le_rfl
    · exact le_of_lt (rel_of_pairwise_cons hsplit.2.1 (mem_of_mem_take hw))
  · intro s hs
    obtain ⟨k, hk⟩ := getElem?_of_mem hs
    obtain ⟨rfl, -⟩ := getElem?_kept hk
    rw [decide_eq_true_eq]
    by_cases hempty : front.take ((k + 1) * c.checkpointInterval.val) = []
    · rw [hempty]
      exact hpos
    obtain ⟨w, hw, happlied⟩ := applied_foldOf_mem c hempty
    rw [foldOf] at happlied
    rw [happlied]
    exact hsplit.2.2 w (mem_of_mem_take hw) a mem_cons_self

/-- The refold from the last retained copy gives the fold of all that stays. -/
theorem replay_copies {back} (hascends : Ascends (front ++ back))
    (hpos : ∀ w ∈ front ++ back, 0 < w.seq) :
    ∃ replayed, replay K c.checkpointInterval.val
        ((copiesOf K c front).getLast?.getD (.empty K c)).applied 0
        ((copiesOf K c front).getLast?.getD (.empty K c), copiesOf K c front, 0) (front ++ back) =
      (foldOf K c (front ++ back), copiesOf K c (front ++ back), replayed) := by
  set n := c.checkpointInterval.val with hn
  set q := front.length / n * n with hq
  have hlast : (copiesOf K c front).getLast?.getD (.empty K c) = foldOf K c (front.take q) :=
    getLast?_kept _ front
  have hcopies : copiesOf K c front = copiesOf K c (front.take q) := (kept_take _ front).symm
  have hparts : front ++ back = front.take q ++ (front.drop q ++ back) := by
    rw [← append_assoc, take_append_drop]
  rw [hlast, hcopies, hparts]
  rw [hparts] at hascends hpos
  have hsplit := pairwise_append.mp hascends
  -- The copy stands for the first `q` writes, and their numbers end with its own.
  have hskip : ∀ w ∈ front.take q, w.seq ≤ (foldOf K c (front.take q)).applied := by
    intro w hw
    rcases eq_nil_or_concat (front.take q) with hnil | ⟨init, last, hconcat⟩
    · rw [hnil] at hw
      cases hw
    rw [concat_eq_append] at hconcat
    rw [hconcat] at hw hsplit ⊢
    rw [applied_foldOf]
    rcases mem_append.mp hw with hw | hw
    · exact le_of_lt ((pairwise_append.mp hsplit.1).2.2 w hw last (mem_singleton_self last))
    · rw [mem_singleton.mp hw]
  have hrest : ∀ w ∈ front.drop q ++ back, (foldOf K c (front.take q)).applied < w.seq := by
    intro w hw
    by_cases hempty : front.take q = []
    · rw [hempty]
      exact hpos w (mem_append_right _ hw)
    · obtain ⟨v, hv, happlied⟩ := applied_foldOf_mem c hempty
      rw [happlied]
      exact hsplit.2.2 v hv w hw
  rw [replay_skip hskip, zero_add]
  have hfold := replay_fold (K := K) n hrest (front.take q).length (foldOf K c (front.take q))
    (copiesOf K c (front.take q)) 0
  have hwhole : foldFrom (step K) n (front.take q).length
      (foldOf K c (front.take q), copiesOf K c (front.take q)) (front.drop q ++ back) =
      (foldOf K c (front.take q ++ (front.drop q ++ back)),
        copiesOf K c (front.take q ++ (front.drop q ++ back))) :=
    foldFrom_kept (FastWeightState.empty K c) (front.take q) (front.drop q ++ back)
  rw [hwhole, Prod.mk.injEq] at hfold
  refine ⟨_, Prod.ext hfold.1 (Prod.ext hfold.2 rfl)⟩

end Revoke

/-- **A revocation is exact**: the memory is what a fold of the writes that stay gives. -/
theorem Whole.revoke {m : FastMemory F σ} (h : Whole K m) (isRevoked : Nat → SourceRef → Bool) :
    Whole K (m.revoke K isRevoked).2 ∧
      (m.revoke K isRevoked).2 = { m with
        state :=
          foldOf K m.config
          (FastMemory.survivors m.writes (FastMemory.decisions isRevoked m.writes))
        writes := FastMemory.survivors m.writes (FastMemory.decisions isRevoked m.writes)
        checkpoints := copiesOf K m.config
          (FastMemory.survivors m.writes (FastMemory.decisions isRevoked m.writes)) } := by
  have hstay := survivors_sublist m.writes (FastMemory.decisions isRevoked m.writes)
  suffices hresult : (m.revoke K isRevoked).2 = _ by
    refine ⟨?_, hresult⟩
    rw [hresult]
    exact ⟨rfl, rfl, h.ascends.sublist hstay, fun w hw => h.positive w (hstay.subset hw)⟩
  rw [FastMemory.revoke]
  cases hfirst : (m.writes.zip (FastMemory.decisions isRevoked m.writes)).find? Prod.snd with
  | none =>
    have hall : FastMemory.survivors m.writes (FastMemory.decisions isRevoked m.writes) =
        m.writes := by
      rw [survivors_of_none hfirst (by simp [FastMemory.decisions])]
    dsimp only
    rw [hall, ← h.state, ← h.checkpoints]
  | some p =>
    obtain ⟨first, b⟩ := p
    obtain ⟨front, rest, back, hwrites, hsurvive⟩ := survivors_split hfirst
    have hascends : Ascends (front ++ first :: rest) := hwrites ▸ h.ascends
    have hmem : (front ++ back).Sublist m.writes := by rw [← hsurvive]; exact hstay
    have hretained : m.checkpoints.filter (fun s => s.applied < first.seq) =
        copiesOf K m.config front := by
      rw [h.checkpoints, hwrites]
      exact retained_copies hascends (h.positive first (by rw [hwrites]; simp))
    obtain ⟨replayed, hreplay⟩ := replay_copies (K := K) (c := m.config) (h.ascends.sublist hmem)
      fun w hw => h.positive w (hmem.subset hw)
    dsimp only
    rw [hretained, hsurvive, hreplay]

/-! ### Writing and restoring -/

theorem foldOf_append (c : FastMemoryConfig) (ws : List (MemoryWrite F)) (w : MemoryWrite F) :
    foldOf K c (ws ++ [w]) = step K (foldOf K c ws) w := by
  rw [foldOf, foldl_append]
  rfl

theorem copiesOf_append (c : FastMemoryConfig) (ws : List (MemoryWrite F)) (w : MemoryWrite F) :
    copiesOf K c (ws ++ [w]) = if (ws ++ [w]).length % c.checkpointInterval.val = 0 then
      copiesOf K c ws ++ [step K (foldOf K c ws) w] else copiesOf K c ws := by
  rw [copiesOf, kept_append_singleton, length_append, length_singleton, ← foldOf,
    foldOf_append, copiesOf]
  split
  · rfl
  · rw [append_nil]

theorem Whole.fold {m} (h : Whole K m) {w} (habove : ∀ v ∈ m.writes, v.seq < w.seq)
    (hpos : 0 < w.seq) : Whole K (m.fold K w).1 where
  state := by
    show step K m.state w = foldOf K m.config (m.writes ++ [w])
    rw [foldOf_append, h.state]
  checkpoints := by
    show (if (m.writes ++ [w]).length % m.config.checkpointInterval.val = 0 then
      m.checkpoints ++ [step K m.state w]
      else m.checkpoints) = copiesOf K m.config (m.writes ++ [w])
    rw [copiesOf_append, h.checkpoints, h.state]
  ascends := pairwise_append.mpr ⟨h.ascends, pairwise_singleton _ _, fun v hv x hx => by
    rw [mem_singleton.mp hx]
    exact habove v hv⟩
  positive v hv := by
    rcases mem_append.mp hv with hv | hv
    · exact h.positive v hv
    · rw [mem_singleton.mp hv]
      exact hpos

/-! ### Memories and their stores -/

/-- What a store keeps of a memory: the requests of its journal, as they were composed,
and the numbers of all writes so far. -/
structure Store (F : Type) where
  rows : List (WriteSeq × WriteRequest F)
  given : List WriteSeq

/-- A memory restored from the requests that are left, with the high-water mark of the
live one. -/
def reopen (K : Numerics F σ) (m : FastMemory F σ) (s : Store F) : Checked F (FastMemory F σ) := do
  let r ← restore K m.config m.codebook m.projection s.rows
  r.withSequenceHighWater (m.nextSeq - 1)

inductive Runs (K : Numerics F σ) (c : FastMemoryConfig) (codebook : IdentifierCodebook)
    (projection : Option Digest) : FastMemory F σ → Store F → Prop
  | opened {rows : List (WriteSeq × WriteRequest F)} {m : FastMemory F σ}
      (hok : restore K c codebook projection rows = .ok m) :
      Runs K c codebook projection m ⟨rows, rows.map Prod.fst⟩
  | write {m m' : FastMemory F σ} {s : Store F} {q : WriteRequest F} {receipt : WriteReceipt F}
      (h : Runs K c codebook projection m s) (hok : m.write K q = (.ok receipt, m')) :
      Runs K c codebook projection m' ⟨s.rows ++ [(receipt.seq, q)], s.given ++ [receipt.seq]⟩
  | revoke {m : FastMemory F σ} {s : Store F} (isRevoked : Nat → SourceRef → Bool)
      (h : Runs K c codebook projection m s) :
      Runs K c codebook projection (m.revoke K isRevoked).2
        ⟨survivors s.rows (decisions isRevoked m.writes), s.given⟩
  | restore {m m' : FastMemory F σ} {s : Store F} (h : Runs K c codebook projection m s)
      (hok : reopen K m s = .ok m') : Runs K c codebook projection m' s
  | limit {m m' : FastMemory F σ} {s : Store F} {limit : WriteSeq}
    (h : Runs K c codebook projection m s)
      (hok : m.withSequenceLimit limit = .ok m') : Runs K c codebook projection m' s
  | highWater {m m' : FastMemory F σ} {s : Store F} {mark : WriteSeq}
    (h : Runs K c codebook projection m s)
      (hok : m.withSequenceHighWater mark = .ok m') : Runs K c codebook projection m' s

def blank (K : Numerics F σ) (c : FastMemoryConfig) (codebook : IdentifierCodebook)
    (projection : Option Digest) : FastMemory F σ :=
  ⟨c, codebook, projection, .empty K c, [], [], 1, 2 ^ 64 - 1⟩

def Admits (K : Numerics F σ) (c : FastMemoryConfig) :
    List (MemoryWrite F) → List (WriteSeq × WriteRequest F) → Prop :=
  Forall₂ fun w row => admitWrite K c row.1 row.2 = .ok w

/-- The invariant of a memory and its store. -/
structure Held (K : Numerics F σ) (c : FastMemoryConfig) (codebook : IdentifierCodebook)
    (projection : Option Digest) (m : FastMemory F σ) (s : Store F) : Prop where
  opens : empty K c codebook projection = .ok (blank K c codebook projection)
  config : m.config = c
  codebook : m.codebook = codebook
  projection : m.projection = projection
  whole : Whole K m
  admits : Admits K c m.writes s.rows
  capacity : m.writes.length ≤ c.maxWrites.val
  first : 1 ≤ m.nextSeq
  below : ∀ w ∈ m.writes, w.seq < m.nextSeq
  last : m.nextSeq ≤ 2 ^ 64 - 1
  limit : m.seqLimit ≤ 2 ^ 64 - 1
  ascends : s.given.Pairwise (· < ·)
  given : ∀ n ∈ s.given, n < m.nextSeq

section Runs

variable {c : FastMemoryConfig} {codebook : IdentifierCodebook} {projection : Option Digest}
  {m m' : FastMemory F σ}
  {s : Store F} {rows : List (WriteSeq × WriteRequest F)}

theorem admitWrite_seq {seq q w} (h : admitWrite K c seq q = .ok w) : w.seq = seq := by
  rw [admitWrite, refuse_eq_ok] at h
  obtain ⟨-, -, h⟩ := bind_eq_ok.mp h.2
  obtain ⟨-, -, h⟩ := bind_eq_ok.mp h
  obtain ⟨-, -, h⟩ := bind_eq_ok.mp h
  obtain ⟨-, -, h⟩ := bind_eq_ok.mp h
  obtain ⟨key, -, h⟩ := bind_eq_ok.mp h
  cases h
  rfl

theorem restoreRow_eq_ok {row} :
    restoreRow K m row = .ok m' ↔ m.nextSeq ≤ row.1 ∧ m.writes.length < m.config.maxWrites.val ∧
      row.1 < m.seqLimit ∧ ∃ w, admitWrite K m.config row.1 row.2 = .ok w ∧
        m' = (({ m with nextSeq := row.1 + 1 }).fold K w).1 := by
  simp only [restoreRow, checkCapacity, successor, refuse_eq_ok, bind_eq_ok, not_lt,
    not_le]
  constructor
  · rintro ⟨hnext, -, ⟨hcap, -⟩, nextSeq, ⟨hlimit, hnextSeq⟩, w, hw, hm⟩
    cases hnextSeq
    exact ⟨hnext, hcap, hlimit, w, hw, (Except.ok.inj hm).symm⟩
  · rintro ⟨hnext, hcap, hlimit, w, hw, rfl⟩
    exact ⟨hnext, (), ⟨hcap, trivial⟩, row.1 + 1, ⟨hlimit, rfl⟩, w, hw, rfl⟩

theorem write_ok {q receipt} (h : m.write K q = (.ok receipt, m')) :
    receipt.seq = m.nextSeq ∧ restoreRow K m (m.nextSeq, q) = .ok m' := by
  rw [write] at h
  cases hadmitted : m.checkWrite K q with
  | error => simp [hadmitted] at h
  | ok p =>
    obtain ⟨nextSeq, w⟩ := p
    simp only [hadmitted, Prod.mk.injEq, Except.ok.injEq] at h
    obtain ⟨hreceipt, hm⟩ := h
    refine ⟨by rw [← hreceipt], ?_⟩
    simp only [checkWrite, checkCapacity, successor, refuse_eq_ok, bind_eq_ok, not_le]
      at hadmitted
    obtain ⟨-, ⟨hcap, -⟩, next, ⟨hlimit, hnext⟩, w', hw, hp⟩ := hadmitted
    cases hnext
    cases hp
    exact restoreRow_eq_ok.mpr ⟨le_rfl, hcap, hlimit, w, hw, hm.symm⟩

theorem Held.row {row} (h : Held K c codebook projection m s) (hok : restoreRow K m row = .ok m') :
    Held K c codebook projection m' ⟨s.rows ++ [row], s.given ++ [row.1]⟩ := by
  obtain ⟨hnext, hcap, hlimit, w, hw, rfl⟩ := restoreRow_eq_ok.mp hok
  have hseq := admitWrite_seq hw
  rw [h.config] at hw hcap
  have hbefore : Whole K { m with nextSeq := row.1 + 1 } :=
    ⟨h.whole.state, h.whole.checkpoints, h.whole.ascends, h.whole.positive⟩
  have habove : ∀ v ∈ m.writes, v.seq < w.seq := fun v hv => by
    rw [hseq]
    exact lt_of_lt_of_le (h.below v hv) hnext
  have hpos : 0 < w.seq := by
    rw [hseq]
    exact lt_of_lt_of_le h.first hnext
  have hlast : row.1 + 1 ≤ 2 ^ 64 - 1 := le_trans hlimit h.limit
  refine ⟨h.opens, h.config, h.codebook, h.projection, hbefore.fold habove hpos, ?_, ?_,
    Nat.le_add_left 1 row.1, ?_, hlast, h.limit, ?_, ?_⟩
  · exact rel_append h.admits (.cons hw .nil)
  · show (m.writes ++ [w]).length ≤ _
    rw [length_append]
    exact hcap
  · intro v hv
    rcases mem_append.mp hv with hv | hv
    · exact Nat.lt_succ_of_lt (hseq ▸ habove v hv)
    · rw [mem_singleton.mp hv, hseq]
      exact Nat.lt_succ_self _
  · refine pairwise_append.mpr ⟨h.ascends, pairwise_singleton _ _, ?_⟩
    intro n hn k hk
    rw [mem_singleton.mp hk]
    exact lt_of_lt_of_le (h.given n hn) hnext
  · intro n hn
    rcases mem_append.mp hn with hn | hn
    · exact Nat.lt_succ_of_lt (lt_of_lt_of_le (h.given n hn) hnext)
    · rw [mem_singleton.mp hn]
      exact Nat.lt_succ_self _

theorem held_rows (h : Held K c codebook projection m s)
    (hok : rows.foldlM (restoreRow K) m = .ok m') :
    Held K c codebook projection m' ⟨s.rows ++ rows, s.given ++ rows.map Prod.fst⟩ := by
  refine foldlM_along (P := fun done m => Held K c codebook projection m
    ⟨s.rows ++ done, s.given ++ done.map Prod.fst⟩) hok (by simpa using h)
    fun done m row _ next hm hnext => ?_
  rw [map_append, ← append_assoc, ← append_assoc]
  exact hm.row hnext

theorem empty_ok {m} (h : empty K c codebook projection = .ok m) :
    m = blank K c codebook projection := by
  obtain ⟨-, h⟩ := bind_unit_eq_ok.mp h
  rw [refuse_eq_ok] at h
  exact (Except.ok.inj h.2).symm

theorem held_blank (h : empty K c codebook projection = .ok (blank K c codebook projection)) :
    Held K c codebook projection (blank K c codebook projection) ⟨[], []⟩ where
  opens := h
  config := rfl
  codebook := rfl
  projection := rfl
  whole := ⟨rfl, (kept_nil _).symm, Pairwise.nil, fun _ hw => by cases hw⟩
  admits := .nil
  capacity := Nat.zero_le _
  first := Nat.le_refl 1
  below _ hw := by cases hw
  last := (by decide : 1 ≤ 2 ^ 64 - 1)
  limit := Nat.le_refl _
  ascends := Pairwise.nil
  given _ hn := by cases hn

theorem held_restore (h : restore K c codebook projection rows = .ok m) :
    Held K c codebook projection m ⟨rows, rows.map Prod.fst⟩ := by
  obtain ⟨m0, hempty, hrows⟩ := bind_eq_ok.mp h
  obtain rfl := empty_ok hempty
  exact held_rows (held_blank hempty) hrows

/-- Rows that a memory once admitted are admitted again, in any memory that has the room
and has not passed their numbers. -/
theorem rows_ok {ws} (hadmits : Admits K c ws rows) (hconfig : m.config = c)
    (hnext : ∀ w ∈ ws, m.nextSeq ≤ w.seq) (hascends : Ascends ws)
    (hlimit : ∀ w ∈ ws, w.seq < m.seqLimit) (hcap : m.writes.length + ws.length ≤ c.maxWrites.val)
    {bound} (hbound : m.nextSeq ≤ bound) (hbelow : ∀ w ∈ ws, w.seq < bound) :
    ∃ r, rows.foldlM (restoreRow K) m = .ok r ∧ r.writes = m.writes ++ ws ∧
      r.seqLimit = m.seqLimit ∧ r.nextSeq ≤ bound := by
  induction hadmits generalizing m with
  | nil => exact ⟨m, rfl, (append_nil _).symm, rfl, hbound⟩
  | @cons w row ws rows hw hadmits ih =>
    rw [forall_mem_cons] at hnext hlimit hbelow
    have hseq := admitWrite_seq hw
    have hlen : m.writes.length < m.config.maxWrites.val := by
      rw [length_cons] at hcap
      rw [hconfig]
      omega
    have hok : restoreRow K m row = .ok (({ m with nextSeq := row.1 + 1 }).fold K w).1 :=
      restoreRow_eq_ok.mpr ⟨hseq ▸ hnext.1, hlen, hseq ▸ hlimit.1, w, hconfig ▸ hw, rfl⟩
    obtain ⟨r, hr, hwrites, hsame, hle⟩ :=
      ih (m := (({ m with nextSeq := row.1 + 1 }).fold K w).1) hconfig
      (fun v hv => hseq ▸ rel_of_pairwise_cons hascends hv) hascends.of_cons hlimit.2 (by
        show (m.writes ++ [w]).length + ws.length ≤ _
        rw [length_append, length_singleton]
        rw [length_cons] at hcap
        omega)
      (hseq ▸ hbelow.1) hbelow.2
    refine ⟨r, ?_, ?_, hsame, hle⟩
    · rw [foldlM_cons, hok]
      exact hr
    · rw [hwrites]
      show m.writes ++ [w] ++ ws = _
      rw [append_assoc]
      rfl

/-- **A restored memory is the live one.** -/
theorem Held.reopen (h : Held K c codebook projection m s) :
    ∃ r, reopen K m s = .ok r ∧ r.state = m.state ∧ r.writes = m.writes ∧
      r.checkpoints = m.checkpoints ∧ r.nextSeq = m.nextSeq := by
  have hlast := h.last
  have hfirst := h.first
  obtain ⟨r, hr, hwrites, hsame, hle⟩ := rows_ok (m := blank K c codebook projection) h.admits rfl
    (fun w hw => h.whole.positive w hw) h.whole.ascends
    (fun w hw => lt_of_lt_of_le (h.below w hw) hlast) (by
      show 0 + m.writes.length ≤ _
      rw [zero_add]
      exact h.capacity) (show 1 ≤ m.nextSeq from hfirst) h.below
  have hrestore : restore K c codebook projection s.rows = .ok r := by
    rw [restore, h.opens]
    exact hr
  have hheld := held_restore hrestore
  have hwrites : r.writes = m.writes := hwrites
  have hsame : r.seqLimit = 2 ^ 64 - 1 := hsame
  refine ⟨{ r with nextSeq := m.nextSeq }, ?_, ?_, hwrites, ?_, rfl⟩
  · rw [Fastmem.reopen, h.config, h.codebook, h.projection, hrestore]
    show r.withSequenceHighWater (m.nextSeq - 1) = _
    rw [withSequenceHighWater, successor, hsame,
      if_neg (not_le.mpr (lt_of_lt_of_le (Nat.sub_lt hfirst Nat.one_pos) hlast))]
    show .ok _ = Except.ok _
    rw [Nat.sub_add_cancel hfirst, max_eq_right hle]
  · rw [hheld.whole.state, h.whole.state, hheld.config, h.config, hwrites]
  · rw [hheld.whole.checkpoints, h.whole.checkpoints, hheld.config, h.config, hwrites]

theorem survivors_admits {ws} (h : Admits K c ws rows) (bs : List Bool) :
    Admits K c (survivors ws bs) (survivors rows bs) := by
  induction h generalizing bs with
  | nil => exact .nil
  | cons hw _ ih =>
    cases bs with
    | nil => exact .nil
    | cons b bs =>
      rw [survivors_cons, survivors_cons]
      split
      · exact ih bs
      · exact .cons hw (ih bs)

theorem held_of_runs (h : Runs K c codebook projection m s) : Held K c codebook projection m s := by
  induction h with
  | opened hok => exact held_restore hok
  | write _ hok ih =>
    obtain ⟨hseq, hrow⟩ := write_ok hok
    rw [hseq]
    exact ih.row hrow
  | @revoke m s isRevoked _ ih =>
    obtain ⟨hwhole, hresult⟩ := ih.whole.revoke isRevoked
    have hstay := survivors_sublist m.writes (decisions isRevoked m.writes)
    rw [hresult] at hwhole ⊢
    exact ⟨ih.opens, ih.config, ih.codebook, ih.projection, hwhole, survivors_admits ih.admits _,
      le_trans hstay.length_le ih.capacity, ih.first, fun w hw =>
      ih.below w (hstay.subset hw), ih.last, ih.limit,
      ih.ascends, ih.given⟩
  | @restore m m' s _ hok ih =>
    obtain ⟨r, hr, hnext⟩ := bind_eq_ok.mp hok
    rw [ih.config, ih.codebook, ih.projection] at hr
    have hheld := held_restore hr
    obtain ⟨r', hr', -, hwrites, -, hsame⟩ := ih.reopen
    cases hr'.symm.trans hok
    obtain ⟨next, hsucc, hm⟩ := bind_eq_ok.mp hnext
    cases hm
    exact ⟨ih.opens, hheld.config, hheld.codebook, hheld.projection,
      ⟨hheld.whole.state, hheld.whole.checkpoints, hheld.whole.ascends, hheld.whole.positive⟩,
      hheld.admits,
      hheld.capacity, hsame ▸ ih.first, by rw [hwrites, hsame]; exact ih.below, hsame ▸ ih.last,
        hheld.limit, ih.ascends,
      hsame ▸ ih.given⟩
  | limit _ hok ih =>
    rw [withSequenceLimit, refuse_eq_ok] at hok
    cases hok.2
    exact ⟨ih.opens, ih.config, ih.codebook, ih.projection,
      ⟨ih.whole.state, ih.whole.checkpoints, ih.whole.ascends, ih.whole.positive⟩, ih.admits,
      ih.capacity, ih.first,
      ih.below, ih.last, le_trans (min_le_left _ _) ih.limit, ih.ascends, ih.given⟩
  | @highWater m m' s mark _ hok ih =>
    obtain ⟨next, hsucc, hm⟩ := bind_eq_ok.mp hok
    rw [successor, refuse_eq_ok, not_le] at hsucc
    cases hsucc.2
    cases hm
    have hraised : m.nextSeq ≤ max m.nextSeq (mark + 1) := le_max_left _ _
    exact ⟨ih.opens, ih.config, ih.codebook, ih.projection,
      ⟨ih.whole.state, ih.whole.checkpoints, ih.whole.ascends, ih.whole.positive⟩,
      ih.admits, ih.capacity,
      le_trans ih.first hraised, fun w hw => lt_of_lt_of_le (ih.below w hw) hraised,
      Nat.max_le.mpr ⟨ih.last, le_trans hsucc.1 ih.limit⟩, ih.limit, ih.ascends,
      fun n hn => lt_of_lt_of_le (ih.given n hn) hraised⟩

end Runs

/-! ### The memory that never had the revoked writes -/

def foldedMemory (K : Numerics F σ) (c : FastMemoryConfig) (codebook : IdentifierCodebook)
    (projection : Option Digest) (ws : List (MemoryWrite F)) : FastMemory F σ :=
  ws.foldl (fun m w => (m.fold K w).1) (blank K c codebook projection)

theorem foldedMemory_eq (c : FastMemoryConfig) (codebook : IdentifierCodebook)
    (projection : Option Digest) (ws : List (MemoryWrite F)) :
    foldedMemory K c codebook projection ws = { blank K c codebook projection with
      state := foldOf K c ws, writes := ws, checkpoints := copiesOf K c ws } := by
  induction ws using reverseRecOn with
  | nil =>
    rw [copiesOf, kept_nil]
    rfl
  | append_singleton ws w ih =>
    rw [foldedMemory, foldl_append, ← foldedMemory, ih, foldOf_append, copiesOf_append]
    rfl

/-- **Revocation is exact.**  After any writes, revocations and restarts, the journal
holds the requests that no revocation took, at their numbers; state, journal and copies
are those of a new memory that folds just these, and the state is what a refold gives.
Every copy is the fold of the front of the journal it stands for.  A memory restored
from these requests with the live memory's high-water mark is the live one, and no
number was given to two writes. -/
theorem revocation_is_exact (K : Numerics F σ) {c : FastMemoryConfig}
    {codebook : IdentifierCodebook} {projection : Option Digest} {m : FastMemory F σ} {s : Store F}
    (h : Runs K c codebook projection m s) :
    (∃ ws, Admits K c ws s.rows ∧ m.writes = (foldedMemory K c codebook projection ws).writes ∧
      m.state = (foldedMemory K c codebook projection ws).state ∧
      m.checkpoints = (foldedMemory K c codebook projection ws).checkpoints) ∧
    m.state = m.refoldFromJournal K ∧
    (∀ i copy, m.checkpoints[i]? = some copy →
      (i + 1) * c.checkpointInterval.val ≤ m.writes.length ∧
      copy =
        ({ m with writes := m.writes.take ((i + 1) * c.checkpointInterval.val) }).refoldFromJournal
        K) ∧
    (∃ r, reopen K m s = .ok r ∧ r.state = m.state ∧ r.writes = m.writes ∧
      r.checkpoints = m.checkpoints ∧ r.nextSeq = m.nextSeq) ∧
    s.given.Nodup := by
  have hheld := held_of_runs h
  have hstate := hheld.whole.state
  have hcopies := hheld.whole.checkpoints
  rw [hheld.config] at hstate hcopies
  refine ⟨⟨m.writes, hheld.admits, ?_⟩, ?_, ?_, hheld.reopen, hheld.ascends.imp Nat.ne_of_lt⟩
  · rw [foldedMemory_eq]
    exact ⟨rfl, hstate, hcopies⟩
  · rw [refoldFromJournal, hheld.config]
    exact hstate
  · intro i copy hcopy
    rw [hcopies] at hcopy
    obtain ⟨hfold, hle⟩ := getElem?_kept hcopy
    rw [refoldFromJournal, hheld.config]
    exact ⟨hle, hfold⟩

/-! ### A memory to look at -/

def listNumerics : Numerics Nat (List Nat) where
  isFinite _ := true
  isFactor x := x == 1
  isLarge _ := false
  unit := some
  zeros _ := []
  update _ cells w := (cells ++ w.value, 0)

def smallConfig : FastMemoryConfig := ⟨1, 1, 1, 2, 8⟩

def smallRequest (key : String) (value : Nat) : WriteRequest Nat :=
  ⟨⟨key, 1, Digest.zero⟩, [1], [value], 1, .none⟩

def smallCodebook : IdentifierCodebook := ⟨0, 1⟩

def smallRun : FastMemory Nat (List Nat) :=
  let m₀ := blank listNumerics smallConfig smallCodebook none
  let m₁ := (m₀.write listNumerics (smallRequest "a" 7)).2
  let m₂ := (m₁.write listNumerics (smallRequest "b" 8)).2
  let m₃ := (m₂.write listNumerics (smallRequest "c" 9)).2
  (m₃.revoke listNumerics fun _ s => s.key == "a").2

theorem smallRun_runs : Runs listNumerics smallConfig smallCodebook none smallRun
    ⟨[(2, smallRequest "b" 8), (3, smallRequest "c" 9)], [1, 2, 3]⟩ := by
  have h0 :
      Runs listNumerics smallConfig smallCodebook
      none (blank listNumerics smallConfig smallCodebook none) ⟨[], []⟩ :=
    .opened rfl
  have h1 := h0.write (rfl : write _ _ (smallRequest "a" 7) = (.ok ⟨1, 0⟩, _))
  have h2 := h1.write (rfl : write _ _ (smallRequest "b" 8) = (.ok ⟨2, 0⟩, _))
  have h3 := h2.write (rfl : write _ _ (smallRequest "c" 9) = (.ok ⟨3, 0⟩, _))
  exact h3.revoke fun _ s => s.key == "a"

theorem smallRun_exact :
    smallRun.state.cells = [8, 9] ∧ smallRun.state = smallRun.refoldFromJournal listNumerics ∧
      smallRun.nextSeq = 4 ∧ [1, 2, 3].Nodup := by
  obtain ⟨-, hfold, -, -, hnodup⟩ := revocation_is_exact listNumerics smallRun_runs
  exact ⟨by decide, hfold, by decide, hnodup⟩

end Ptr.Fastmem
