import Ptr.Lib.Checks
import Ptr.Types

/-!
# Fast-weight memories

A memory folds its writes into a state and keeps them in a journal, with a copy of the
state after every `checkpoint_interval` writes.  Each write names the input it came
from; revoking inputs takes their writes out of the journal and folds the rest again
from the last copy in front of them.

What the cells are and how a write changes them is a parameter (`Numerics`), and so are
the checks of single numbers: nothing here depends on the arithmetic.
-/

namespace Ptr.Fastmem

open Lib

/-! ### Configuration -/

def maxHeads : Nat := 64

def maxHeadDim : Nat := 1024

def maxStateCells : Nat := 16 * 1024 * 1024

def maxCheckpointInterval : Nat := 1000000

def maxWrites : Nat := 65536

structure FastMemoryConfig where
  heads : Nat
  keyDim : Nat
  valueDim : Nat
  checkpointInterval : U32
  maxWrites : U32

def saturatingMul (a b : Nat) : Nat := min (a * b) (2 ^ 64 - 1)

def FastMemoryConfig.keyLen (c : FastMemoryConfig) : Nat := saturatingMul c.heads c.keyDim

def FastMemoryConfig.valueLen (c : FastMemoryConfig) : Nat := saturatingMul c.heads c.valueDim

abbrev WriteSeq := Nat

inductive FastMemoryError (F : Type)
  | invalidConfig (field : String) (value : Nat) (message : String)
  | dimensionMismatch (field : String) (expected actual : Nat)
  | invalidBeta (value : F)
  | invalidDecay (index : Nat) (value : F)
  | zeroKey (head : Nat)
  | nonFinite (field : String) (index : Nat)
  | valueOutOfRange (index : Nat) (value : F)
  | outOfOrderWrite (expected actual : WriteSeq)
  | sequenceExhausted (seq : WriteSeq)
  | journalFull (limit : U32)

abbrev Checked (F : Type) := Except (FastMemoryError F)

variable {F σ : Type}

def checkRange (field : String) (value max : Nat) : Checked F Unit :=
  if value = 0 ∨ max < value then
    .error (.invalidConfig field value
      "dimension must be at least 1 and within the supported maximum")
  else .ok ()

/-- The product of the dimensions, which may not fit a `usize`. -/
def checkCells (c : FastMemoryConfig) : Checked F Unit :=
  let cells := c.heads * c.keyDim * c.valueDim
  if 2 ^ 64 ≤ cells then .error (.invalidConfig "state_cells" (2 ^ 64 - 1) "state size overflows")
  else if maxStateCells < cells then
    .error (.invalidConfig "state_cells" cells "state exceeds MAX_STATE_CELLS, 64 MiB of f32 cells")
  else .ok ()

def checkConfig (c : FastMemoryConfig) : Checked F Unit := do
  checkRange "heads" c.heads maxHeads
  checkRange "key_dim" c.keyDim maxHeadDim
  checkRange "value_dim" c.valueDim maxHeadDim
  checkCells c
  if c.maxWrites = 0 ∨ maxWrites < c.maxWrites.val then
    .error (.invalidConfig "max_writes" c.maxWrites.val "journal bound must be in 1..=65_536")
  else if c.checkpointInterval = 0 ∨ maxCheckpointInterval < c.checkpointInterval.val then
    .error (.invalidConfig "checkpoint_interval" c.checkpointInterval.val
      "checkpoint interval must be in 1..=1_000_000")
  else .ok ()

/-! ### Writes -/

structure SourceRef where
  key : String
  generation : Generation
  inputDigest : Digest

inductive Decay (F : Type)
  | none
  | scalar (factor : F)
  | perChannel (factors : List F)

structure WriteRequest (F : Type) where
  source : SourceRef
  key : List F
  value : List F
  beta : F
  decay : Decay F

structure MemoryWrite (F : Type) where
  seq : WriteSeq
  source : SourceRef
  key : List F
  value : List F
  beta : F
  decay : Decay F

/-- The arithmetic of a memory over numbers `F` and cells `σ`. -/
structure Numerics (F σ : Type) where
  isFinite : F → Bool
  isFactor : F → Bool
  isLarge : F → Bool
  unit : List F → Option (List F)
  zeros : FastMemoryConfig → σ
  update : FastMemoryConfig → σ → MemoryWrite F → σ × F

def checkLen (field : String) (expected actual : Nat) : Checked F Unit :=
  if expected ≠ actual then .error (.dimensionMismatch field expected actual) else .ok ()

def checkFinite (K : Numerics F σ) (field : String) (values : List F) : Checked F Unit :=
  match values.findIdx? fun x => !K.isFinite x with
  | some index => .error (.nonFinite field index)
  | none => .ok ()

def checkMagnitude (K : Numerics F σ) : Nat → List F → Checked F Unit
  | _, [] => .ok ()
  | index, x :: xs =>
    if K.isLarge x then .error (.valueOutOfRange index x) else checkMagnitude K (index + 1) xs

def checkDecay (K : Numerics F σ) (index : Nat) (value : F) : Checked F Unit :=
  if !(K.isFinite value && K.isFactor value) then .error (.invalidDecay index value) else .ok ()

def checkDecays (K : Numerics F σ) : Nat → List F → Checked F Unit
  | _, [] => .ok ()
  | index, x :: xs => do
    checkDecay K index x
    checkDecays K (index + 1) xs

def checkDecayFactors (K : Numerics F σ) (c : FastMemoryConfig) : Decay F → Checked F Unit
  | .none => .ok ()
  | .scalar factor => checkDecay K 0 factor
  | .perChannel factors => do
    checkLen "decay" c.keyLen factors.length
    checkDecays K 0 factors

def unitHeads (K : Numerics F σ) : Nat → List (List F) → Checked F (List F)
  | _, [] => .ok []
  | head, chunk :: chunks =>
    match K.unit chunk with
    | none => .error (.zeroKey head)
    | some unit => do
      let rest ← unitHeads K (head + 1) chunks
      .ok (unit ++ rest)

def normalizedHeads (K : Numerics F σ) (c : FastMemoryConfig) (field : String) (raw : List F) :
    Checked F (List F) := do
  checkLen field c.keyLen raw.length
  checkFinite K field raw
  unitHeads K 0 (raw.toChunks c.keyDim)

/-- `admit_write`: nothing here reads the state. -/
def admitWrite (K : Numerics F σ) (c : FastMemoryConfig) (seq : WriteSeq) (q : WriteRequest F) :
    Checked F (MemoryWrite F) :=
  if !(K.isFinite q.beta && K.isFactor q.beta) then .error (.invalidBeta q.beta)
  else do
    checkLen "value" c.valueLen q.value.length
    checkFinite K "value" q.value
    checkMagnitude K 0 q.value
    checkDecayFactors K c q.decay
    let key ← normalizedHeads K c "key" q.key
    .ok ⟨seq, q.source, key, q.value, q.beta, q.decay⟩

/-! ### The state -/

/-- The cells after the write `applied`; no write has the number 0. -/
structure FastWeightState (σ : Type) where
  config : FastMemoryConfig
  cells : σ
  applied : WriteSeq

namespace FastWeightState

def empty (K : Numerics F σ) (c : FastMemoryConfig) : FastWeightState σ := ⟨c, K.zeros c, 0⟩

def apply (K : Numerics F σ) (s : FastWeightState σ) (w : MemoryWrite F) : FastWeightState σ × F :=
  let (cells, surprise) := K.update s.config s.cells w
  (⟨s.config, cells, w.seq⟩, surprise)

end FastWeightState

/-! ### Memories -/

structure IdentifierCodebook where
  seed : U64
  len : Nat

structure FastMemory (F σ : Type) where
  config : FastMemoryConfig
  codebook : IdentifierCodebook
  projection : Option Digest
  state : FastWeightState σ
  writes : List (MemoryWrite F)
  checkpoints : List (FastWeightState σ)
  nextSeq : WriteSeq
  seqLimit : WriteSeq

structure WriteReceipt (F : Type) where
  seq : WriteSeq
  surprise : F

structure RevocationReport where
  removed : Nat
  replayed : Nat
  restartedFrom : WriteSeq

namespace FastMemory

def empty (K : Numerics F σ) (c : FastMemoryConfig) (codebook : IdentifierCodebook)
    (projection : Option Digest) : Checked F (FastMemory F σ) := do
  checkConfig c
  if codebook.len ≠ c.valueLen then .error (.dimensionMismatch "codebook" c.valueLen codebook.len)
  else .ok ⟨c, codebook, projection, .empty K c, [], [], 1, 2 ^ 64 - 1⟩

def checkCapacity (m : FastMemory F σ) : Checked F Unit :=
  if m.config.maxWrites.val ≤ m.writes.length then .error (.journalFull m.config.maxWrites)
  else .ok ()

def successor (m : FastMemory F σ) (seq : WriteSeq) : Checked F WriteSeq :=
  if m.seqLimit ≤ seq then .error (.sequenceExhausted seq) else .ok (seq + 1)

def fold (K : Numerics F σ) (m : FastMemory F σ) (w : MemoryWrite F) : FastMemory F σ × F :=
  let (state, surprise) := m.state.apply K w
  let writes := m.writes ++ [w]
  let checkpoints := if writes.length % m.config.checkpointInterval.val = 0 then
    m.checkpoints ++ [state] else m.checkpoints
  ({ m with state := state, writes := writes, checkpoints := checkpoints }, surprise)

def restoreRow (K : Numerics F σ) (m : FastMemory F σ) (row : WriteSeq × WriteRequest F) :
    Checked F (FastMemory F σ) :=
  if row.1 < m.nextSeq then .error (.outOfOrderWrite m.nextSeq row.1)
  else do
    m.checkCapacity
    let nextSeq ← m.successor row.1
    let w ← admitWrite K m.config row.1 row.2
    .ok (({ m with nextSeq := nextSeq }).fold K w).1

def restore (K : Numerics F σ) (c : FastMemoryConfig) (codebook : IdentifierCodebook)
    (projection : Option Digest) (journal : List (WriteSeq × WriteRequest F)) :
    Checked F (FastMemory F σ) := do
  let m ← empty K c codebook projection
  journal.foldlM (restoreRow K) m

def withSequenceLimit (m : FastMemory F σ) (limit : WriteSeq) : Checked F (FastMemory F σ) :=
  let taken := m.nextSeq - 1
  if 0 < taken ∧ limit ≤ taken then .error (.sequenceExhausted taken)
  else .ok { m with seqLimit := min m.seqLimit limit }

def withSequenceHighWater (m : FastMemory F σ) (highWater : WriteSeq) :
    Checked F (FastMemory F σ) := do
  let nextSeq ← m.successor highWater
  .ok { m with nextSeq := max m.nextSeq nextSeq }

/-- The checks of `write`: the number after the next one, and the write. -/
def checkWrite (K : Numerics F σ) (m : FastMemory F σ) (q : WriteRequest F) :
    Checked F (WriteSeq × MemoryWrite F) := do
  m.checkCapacity
  let nextSeq ← m.successor m.nextSeq
  let w ← admitWrite K m.config m.nextSeq q
  .ok (nextSeq, w)

def write (K : Numerics F σ) (m : FastMemory F σ) (q : WriteRequest F) :
    Checked F (WriteReceipt F) × FastMemory F σ :=
  match m.checkWrite K q with
  | .error e => (.error e, m)
  | .ok (nextSeq, w) =>
    let (next, surprise) := ({ m with nextSeq := nextSeq }).fold K w
    (.ok ⟨m.nextSeq, surprise⟩, next)

/-- The loop of a revocation: the position of a write is its place in the journal. -/
def replay (K : Numerics F σ) (interval : Nat) (restartedFrom : WriteSeq) :
    Nat → FastWeightState σ × List (FastWeightState σ) × Nat → List (MemoryWrite F) →
      FastWeightState σ × List (FastWeightState σ) × Nat
  | _, p, [] => p
  | position, (state, checkpoints, replayed), w :: ws =>
    if w.seq ≤ restartedFrom then
      replay K interval restartedFrom (position + 1) (state, checkpoints, replayed) ws
    else
      let next := (state.apply K w).1
      replay K interval restartedFrom (position + 1)
        (next, if (position + 1) % interval = 0 then checkpoints ++ [next] else checkpoints,
        replayed + 1) ws

/-- The answers of a predicate, asked about each write once and in order.  It may answer
differently each time it is asked. -/
def decisions (isRevoked : Nat → SourceRef → Bool) (writes : List (MemoryWrite F)) : List Bool :=
  writes.mapIdx fun i w => isRevoked i w.source

def survivors {α : Type} (items : List α) (revoked : List Bool) : List α :=
  (items.zip revoked).filterMap fun p => if p.2 then none else some p.1

def revoke (K : Numerics F σ) (m : FastMemory F σ) (isRevoked : Nat → SourceRef → Bool) :
    RevocationReport × FastMemory F σ :=
  let revoked := decisions isRevoked m.writes
  match m.writes.zip revoked |>.find? Prod.snd with
  | none => (⟨0, 0, m.state.applied⟩, m)
  | some (first, _) =>
    let writes := survivors m.writes revoked
    let retained := m.checkpoints.filter fun s => s.applied < first.seq
    let restart := retained.getLast?.getD (.empty K m.config)
    let (state, checkpoints, replayed) :=
      replay K m.config.checkpointInterval.val restart.applied 0 (restart, retained, 0) writes
    (⟨m.writes.length - writes.length, replayed, restart.applied⟩,
      { m with state := state, writes := writes, checkpoints := checkpoints })

def refoldFromJournal (K : Numerics F σ) (m : FastMemory F σ) : FastWeightState σ :=
  m.writes.foldl (fun s w => (s.apply K w).1) (.empty K m.config)

end FastMemory

end Ptr.Fastmem
