import Ptr.Runtime.ReadBack
import Ptr.Semdb.Restore

/-!
# What a snapshot restores

A snapshot that a runtime exported is taken apart into the sections that were written,
and each section gives its part of the history back.  `restored` is the runtime that
comes out: everything that travels is as it was, and everything else is new.
-/

namespace Ptr.Runtime

open Lib Ledger Semdb List

variable {ρ τ : Type} {R : Rules ρ τ} {F : ExpertFormat ρ} {G : ExpertReader ρ}

/-! ### The framing -/

theorem slice_skip {a b i n} (h : a.length ≤ i) :
    slice (a ++ b) i n = slice b (i - a.length) n := by
  rw [slice, drop_append, drop_of_length_le h, nil_append, slice]

theorem slice_here {a b n} (h : a.length = n) : slice (a ++ b) 0 n = a := by
  rw [slice, drop_zero, ← h, take_left]

theorem slice_add (bs : Bytes) (i j n : Nat) : slice bs (i + j) n = slice (bs.drop i) j n := by
  rw [slice, slice, drop_drop]

theorem ofLeBytes_number {n} (hn : n < 2 ^ 64) : ofLeBytes (leBytes 8 n) = n :=
  ofLeBytes_leBytes (lt_of_lt_of_eq hn (by norm_num))

attribute [local simp] slice_skip slice_here ofLeBytes_putU64

structure Framed where
  magic : Bytes
  revision : Revision
  floor : LogAnchor
  semantic : Bytes
  lifecycle : Bytes
  execution : Bytes

namespace Framed

def bytes (f : Framed) : Bytes :=
  f.magic ++ putU64 f.revision ++ putU64 f.floor.index ++ f.floor.digest.bytes ++
    leBytes 8 f.semantic.length ++ leBytes 8 f.lifecycle.length ++ leBytes 8 f.execution.length ++
    f.semantic ++ f.lifecycle ++ f.execution

variable {f : Framed} {t : Bytes}

theorem length_bytes (hmagic : f.magic.length = 8) :
    f.bytes.length =
      snapshotHeader + (f.semantic.length + f.lifecycle.length + f.execution.length) := by
  simp only [bytes, length_append, putU64_length, leBytes_length, Digest.bytes_length,
    snapshotHeader]
  omega

theorem take_magic (hmagic : f.magic.length = 8) : (f.bytes ++ t).take 8 = f.magic := by
  simp only [bytes, append_assoc]
  rw [← hmagic, take_left]

theorem head_read (hmagic : f.magic.length = 8) : numberAt (f.bytes ++ t) 8 = f.revision.val ∧
    numberAt (f.bytes ++ t) 16 = f.floor.index.val ∧
      slice (f.bytes ++ t) 24 32 = f.floor.digest.bytes := by
  simp [bytes, numberAt, hmagic]

structure Fits (f : Framed) : Prop where
  magic : f.magic.length = 8
  semantic : f.semantic.length ≤ maxSectionBytes
  lifecycle : f.lifecycle.length ≤ maxSectionBytes
  execution : f.execution.length ≤ maxSectionBytes

theorem numberAt_lengths (h : f.Fits) : numberAt (f.bytes ++ t) 56 = f.semantic.length ∧
    numberAt (f.bytes ++ t) 64 = f.lifecycle.length ∧
      numberAt (f.bytes ++ t) 72 = f.execution.length := by
  have hmax : maxSectionBytes < 2 ^ 64 := by decide
  simp [bytes, numberAt, h.magic, ofLeBytes_number (lt_of_le_of_lt h.semantic hmax),
    ofLeBytes_number (lt_of_le_of_lt h.lifecycle hmax),
    ofLeBytes_number (lt_of_le_of_lt h.execution hmax)]

theorem slices (h : f.Fits) : slice (f.bytes ++ t) snapshotHeader f.semantic.length = f.semantic ∧
    slice (f.bytes ++ t) (snapshotHeader + f.semantic.length) f.lifecycle.length = f.lifecycle ∧
    slice (f.bytes ++ t)
      (snapshotHeader + f.semantic.length + f.lifecycle.length) f.execution.length =
      f.execution := by
  have hdrop : (f.bytes ++ t).drop snapshotHeader =
      f.semantic ++ (f.lifecycle ++ (f.execution ++ t)) := by
    simp [bytes, snapshotHeader, drop_append, drop_of_length_le, h.magic]
  refine ⟨(slice_add _ snapshotHeader 0 _).trans ?_, ?_, ?_⟩
  all_goals simp [add_assoc, slice_add, hdrop]

/-- What is framed is taken apart again, under its own anchor. -/
theorem sections (h : f.Fits) (sha : Bytes → Digest) {outer layout hasScopes}
    (houter : outerLayout f.magic = some (outer, hasScopes))
    (hlayout : (if hasScopes then innerLayout (f.lifecycle.take 8) else some outer) = some layout) :
    compactedSections sha (f.bytes ++ (sha f.bytes).bytes) ⟨f.revision, f.floor, sha f.bytes⟩ =
      .ok ⟨layout, hasScopes, f.semantic, f.lifecycle, f.execution⟩ := by
  have hlength := length_bytes h.magic
  obtain ⟨hrevision, hfloor, hfloorDigest⟩ := head_read h.magic
  obtain ⟨hs, hl, he⟩ := numberAt_lengths h
  obtain ⟨hsemantic, hlifecycle, hexecution⟩ := slices h
  have htotal : (f.bytes ++ (sha f.bytes).bytes).length = f.bytes.length + 32 := by
    rw [length_append, Digest.bytes_length]
  have hsize : ¬ ((f.bytes ++ (sha f.bytes).bytes).length < snapshotHeader + 32 ∨
      maxCompactedBytes < (f.bytes ++ (sha f.bytes).bytes).length) := by
    have hs := h.semantic
    have hl := h.lifecycle
    have he := h.execution
    rw [maxCompactedBytes]
    omega
  have hbounds : ¬ (maxSectionBytes < f.semantic.length ∨ maxSectionBytes < f.lifecycle.length ∨
      maxSectionBytes < f.execution.length) := by
    have hs := h.semantic
    have hl := h.lifecycle
    have he := h.execution
    omega
  have hsum : ¬ f.semantic.length + f.lifecycle.length + f.execution.length ≠
      (f.bytes ++ (sha f.bytes).bytes).length - snapshotHeader - 32 := by
    omega
  rw [compactedSections, if_neg hsize, take_magic h.magic, houter]
  dsimp only
  rw [hs, hl, he, if_neg hbounds, if_neg hsum, hrevision, hfloor, hfloorDigest, hsemantic,
    hlifecycle, hexecution, if_neg (by simp)]
  cases hasScopes with
  | false =>
    cases hlayout
    rfl
  | true =>
    rw [if_pos rfl] at hlayout ⊢
    rw [hlayout]

end Framed

/-! ### The layouts -/

theorem outerLayout_magic (layout : ExpertLayout) :
    outerLayout layout.magic = some (layout.snapshotLayout, false) := by
  cases layout <;> decide +kernel

theorem outerLayout_scoped : outerLayout (utf8 "PTRCS010") = some (.evidence, true) := by
  decide +kernel

theorem innerLayout_magic (layout : ExpertLayout) :
    innerLayout layout.snapshotLayout.lifecycleMagic = some layout.snapshotLayout := by
  cases layout <;> decide +kernel

theorem length_magic (layout : ExpertLayout) : layout.magic.length = 8 := by
  cases layout <;> decide +kernel

theorem take_lifecycle {h : History ρ τ} {bs}
    (hwritten : writeSection (lifecycleItems F h) = .ok bs) :
    bs.take 8 = (F.layout h.experts).snapshotLayout.lifecycleMagic := by
  obtain ⟨-, -, rfl⟩ := writeSection_eq_ok.mp hwritten
  have hraw : itemBytes [.raw (F.layout h.experts).snapshotLayout.lifecycleMagic] =
      (F.layout h.experts).snapshotLayout.lifecycleMagic := flatMap_singleton ..
  rw [lifecycleItems_eq, projectionItems, append_assoc, itemBytes_append, hraw]
  nth_rewrite 1 [← length_lifecycleMagic]
  exact take_left

/-! ### The restored runtime -/

namespace PtrRuntime

structure Whole (r : PtrRuntime ρ τ) : Prop where
  merges : MergesCanonical r.history.state.values
  targets : r.history.lifecycle.checkPodTargets = .ok ()
  attempts : ∀ (i : CommitIndex) u, r.history.obligations.unsettled[i]? = some u → u.attempt = i
  formed : r.history.scopes.Formed
  accounted : ScopesAccounted r.history.scopes
  revision : ∀ revision ∈ r.history.scopes.lastRevision, revision ≤ r.revision
  semantic : r.history.semdb.state.WellFormed
  heads : podHeadFormat.Reflects r.history.state.values r.history.podHeads
  taint : taintFormat.Reflects r.history.state.values r.history.taint
  room : r.history.taint.size ≤ maxLiveTaintSubjects

def restored (R : Rules ρ τ) (owner : Nat) (boundary : ActionBoundaryConfig) (r : PtrRuntime ρ τ)
    (experts : ρ) : PtrRuntime ρ τ :=
  { new R owner boundary with
    history := { History.empty R owner with
      semdb := ⟨r.history.semdb.state, owner⟩
      obligations := r.history.obligations
      scopes := r.history.scopes.carried
      taint := r.history.taint
      podHeads := r.history.podHeads
      state := r.history.state
      lifecycle := r.history.lifecycle
      experts := experts }
    base := r.history.state.lastApplied }

def expertsRestored (R : Rules ρ τ) (F : ExpertFormat ρ) (G : ExpertReader ρ) (h : History ρ τ) :
    Except RuntimeError ρ := do
  let experts ← expertsRead R G (F.layout h.experts).snapshotLayout
    (itemBytes (expertItems F h.experts))
  G.check (F.layout h.experts).snapshotLayout ⟨h.state.values, h.lifecycle, experts⟩
  .ok experts

variable {r : PtrRuntime ρ τ}

theorem export_eq_ok {s} (h : r.exportCompactedSnapshot R F = .ok s) :
    ∃ f : Framed, f.Fits ∧ f.magic = snapshotMagic F r.history ∧ f.revision = r.revision ∧
      f.floor.index = r.history.state.lastApplied ∧
      r.history.semdb.exportState.encode = .ok f.semantic ∧
      writeSection (lifecycleItems F r.history) = .ok f.lifecycle ∧
      writeSection (executionItems r.history.obligations r.history.scopes) = .ok f.execution ∧
      s = ⟨f.bytes ++ (R.sha f.bytes).bytes, f.revision, f.floor, R.sha f.bytes⟩ := by
  rw [exportCompactedSnapshot] at h
  split at h
  · cases h
  obtain ⟨floor, -, h⟩ := bind_eq_ok.mp h
  rw [refuse_eq_ok, not_not] at h
  obtain ⟨hlast, h⟩ := h
  obtain ⟨semantic, hsemantic, h⟩ := bind_eq_ok.mp h
  obtain ⟨lifecycle, hlifecycle, h⟩ := bind_eq_ok.mp h
  obtain ⟨execution, hexecution, h⟩ := bind_eq_ok.mp h
  rw [refuse_eq_ok, not_or, not_or] at h
  obtain ⟨⟨hs, hl, he⟩, h⟩ := h
  cases h
  have hmagic : (snapshotMagic F r.history).length = 8 := by
    rw [snapshotMagic]
    split
    · exact length_magic _
    · decide +kernel
  exact ⟨⟨snapshotMagic F r.history, r.revision, floor, semantic, lifecycle, execution⟩,
    ⟨hmagic, not_lt.mp hs, not_lt.mp hl, not_lt.mp he⟩, rfl, rfl, hlast.symm,
    mapError_eq_ok.mp hsemantic,
    hlifecycle, hexecution, rfl⟩

theorem sections_export {f : Framed} (hfits : f.Fits) (hmagic : f.magic = snapshotMagic F r.history)
    (hlifecycle : writeSection (lifecycleItems F r.history) = .ok f.lifecycle)
    (sha : Bytes → Digest) :
    compactedSections sha (f.bytes ++ (sha f.bytes).bytes) ⟨f.revision, f.floor, sha f.bytes⟩ =
      .ok ⟨(F.layout r.history.experts).snapshotLayout, !r.history.scopes.scopes.isEmpty,
        f.semantic, f.lifecycle,
        f.execution⟩ := by
  cases hempty : r.history.scopes.scopes.isEmpty with
  | true =>
    have houter : outerLayout f.magic =
        some ((F.layout r.history.experts).snapshotLayout, false) := by
      rw [hmagic, snapshotMagic, if_pos hempty]
      exact outerLayout_magic _
    exact Framed.sections hfits sha houter rfl
  | false =>
    have houter : outerLayout f.magic = some (.evidence, true) := by
      rw [hmagic, snapshotMagic, if_neg (by rw [hempty]; exact Bool.false_ne_true)]
      exact outerLayout_scoped
    refine Framed.sections hfits sha houter ?_
    rw [take_lifecycle hlifecycle]
    exact innerLayout_magic _

theorem taint_rebuilt (h : r.Whole) :
    Taint.fromMaterialized r.history.state.values = .ok r.history.taint := by
  refine h.taint.rebuild ?_
  intro n hn
  have hroom := h.room
  rw [taintRoom, if_neg (by omega)]

theorem heads_rebuilt (h : r.Whole) :
    PodHeads.fromMaterialized r.history.state.values = .ok r.history.podHeads :=
  h.heads.rebuild fun _ _ => rfl

/-- **A snapshot restores the runtime that exported it**, if its experts can be read. -/
theorem restoredAt_export {s : CompactedSnapshot} (h : r.Whole)
    (hs : r.exportCompactedSnapshot R F = .ok s) (owner : Nat) (boundary : ActionBoundaryConfig) :
    restoredAt R G owner boundary s.bytes s.anchor =
      (expertsRestored R F G r.history).map (r.restored R owner boundary) := by
  obtain ⟨f, hfits, hmagic, hrevision, hfloor, hsemantic, hlifecycle, hexecution, rfl⟩ :=
    export_eq_ok hs
  have hsections := sections_export hfits hmagic hlifecycle R.sha
  have hdecoded : decodeLifecycle R G (F.layout r.history.experts).snapshotLayout f.lifecycle = _ :=
    decodeLifecycle_written h.merges h.targets hlifecycle
  have hrestore : SemanticHost.restore owner r.revision r.history.semdb.exportState =
      .ok ⟨r.history.semdb.state, owner⟩ := restore_export h.semantic hsemantic owner
  have hahead : ¬ (r.history.scopes.lastRevision.any fun revision =>
        decide (r.revision < revision)) = true := by
    cases hlast : r.history.scopes.lastRevision with
    | none => simp
    | some revision => simpa using h.revision revision hlast
  have hscopes := h.formed.fromCompactedParts h.accounted
  have hobligations := decodeExecution_written h.formed h.attempts hexecution
  rw [restoredAt, CompactedSnapshot.anchor, hsections]
  simp only [bind, Except.bind, SemanticDelta.decode_encode hsemantic, Except.mapError, hdecoded,
    expertsRestored]
  cases expertsRead R G (F.layout r.history.experts).snapshotLayout
      (itemBytes (expertItems F r.history.experts)) with
  | error => rfl
  | ok experts =>
    simp only
    cases G.check (F.layout r.history.experts).snapshotLayout
        ⟨r.history.state.values, r.history.lifecycle, experts⟩ with
    | error => rfl
    | ok =>
      simp only [hrevision, hrestore, hobligations, executionRead, if_neg hahead, hscopes,
        taint_rebuilt h, heads_rebuilt h, hfloor]
      rfl

end PtrRuntime

end Ptr.Runtime
