import Ptr.Lib.Sums
import Ptr.Runtime.Compacted

/-!
# The registry of experts in a snapshot

The lifecycle section ends with what the registry of experts holds: the experts with
their evidence, and a fence block, a dependency block and an authority block where there
is something to write in them.  Every list stands behind its length and every text is
bounded, as anywhere in the section.  `Fits` and `bytes` say over the maps of the
registry what the writer asks of it and how much room it takes.
-/

namespace Ptr.Runtime

open Lib Ledger Std List

/-! ### What the registry holds -/

abbrev ExpertRef := String × String × Generation

abbrev InputKey := String × Generation

structure BaseModelRef where
  id : String
  digest : Digest
  generation : U64

inductive ExpertLevel
  | token (layer index : UInt16)
  | segment

structure ExpertEntry where
  state : ExpertState
  stateVersion : U64
  generation : Generation
  manifestDigest : Digest
  level : ExpertLevel
  baseModel : BaseModelRef

structure FenceStanding where
  cause : ExpertFenceCause
  resume : ExpertFenceResume

structure ExpertInputSet where
  training : List InputKey
  evaluation : List InputKey
  base : InputKey
  commitment : Digest

/-- `ExpertDependencyIndex`, without the relations that are derived from the others. -/
structure ExpertDependencyIndex where
  byExpert : ExtTreeMap ExpertRef ExpertInputSet := ∅
  children : ExtTreeMap ExpertRef (ExtTreeSet ExpertRef) := ∅
  digests : ExtTreeMap InputKey Digest := ∅
  revoked : ExtTreeSet InputKey := ∅
  floors : ExtTreeMap String Generation := ∅

structure ExpertAuthorityStanding where
  epoch : U64
  idDigest : Digest

structure ExpertAdmissionEpochs where
  gateConfig : U64
  evaluator : U64

structure AuthorityState where
  gateConfig : Option ExpertAuthorityStanding := none
  evaluator : Option ExpertAuthorityStanding := none
  admissions : ExtTreeMap (String × String) ExpertAdmissionEpochs := ∅

/-- `ExpertRegistryProjection`, without the grants of the host, which no snapshot carries. -/
structure ExpertRegistryProjection where
  entries : ExtTreeMap (String × String) ExpertEntry := ∅
  legacy : ExtTreeSet (String × String) := ∅
  epochGateConfigs : ExtTreeMap U64 Digest := ∅
  fenceCauses : ExtTreeMap (String × String) FenceStanding := ∅
  readmitGateEpoch : U64 := 0
  fencedEpochs : ExtTreeMap (String × String) U64 := ∅
  deps : ExpertDependencyIndex := {}
  authority : AuthorityState := {}

/-- `edge_entries`. -/
def ExpertDependencyIndex.edges (d : ExpertDependencyIndex) : List (ExpertRef × ExpertRef) :=
  d.children.toList.flatMap fun p => p.2.toList.map fun result => (p.1, result)

def ExpertDependencyIndex.isEmpty (d : ExpertDependencyIndex) : Bool :=
  d.byExpert.isEmpty && d.children.isEmpty && d.digests.isEmpty && d.revoked.isEmpty &&
    d.floors.isEmpty

def AuthorityState.isDefault (a : AuthorityState) : Bool :=
  a.gateConfig.isNone && a.evaluator.isNone && a.admissions.isEmpty

/-! ### What is written -/

def stateTag : ExpertState → U64
  | .candidate => 0
  | .gated => 1
  | .serving => 2
  | .frozen => 3
  | .fenced => 4
  | .superseded => 5
  | .retiredPruned => 6
  | .retiredSuperseded => 7
  | .retiredGateFailed => 8
  | .retiredInputRevoked => 9

def flag (b : Bool) : Item := .number (if b then 1 else 0)

def putName (p : String × String) : List Item := [.text p.1, .text p.2]

def putRef (p : ExpertRef) : List Item := [.text p.1, .text p.2.1, .number p.2.2]

def putKey (p : InputKey) : List Item := [.text p.1, .number p.2]

def putLevel : ExpertLevel → List Item
  | .token layer index =>
    [.number 0, .number (.ofNat _ layer.toNat), .number (.ofNat _ index.toNat)]
  | .segment => [.number 1]

def putEntry (p : (String × String) × ExpertEntry) : List Item :=
  putName p.1 ++
    [.number p.2.generation, .number p.2.stateVersion, .raw p.2.manifestDigest.bytes,
      .number (stateTag p.2.state)] ++
    putLevel p.2.level ++
    [.text p.2.baseModel.id, .raw p.2.baseModel.digest.bytes, .number p.2.baseModel.generation]

def putInputSet (p : ExpertRef × ExpertInputSet) : List Item :=
  putRef p.1 ++ counted putKey p.2.training ++ counted putKey p.2.evaluation ++ putKey p.2.base ++
    [.raw p.2.commitment.bytes]

/-- `encode_dependency_block`. -/
def dependencyBlock (d : ExpertDependencyIndex) : List Item :=
  .raw (utf8 "PTRDX001") :: (counted putInputSet d.byExpert.toList ++
    counted (fun p => putRef p.1 ++ putRef p.2) d.edges ++
    counted (fun p => putKey p.1 ++ [.raw p.2.bytes]) d.digests.toList ++
    counted putKey d.revoked.toList ++
    counted putKey d.floors.toList)

def putStanding : Option ExpertAuthorityStanding → List Item
  | some standing => [.number 1, .number standing.epoch, .raw standing.idDigest.bytes]
  | none => [.number 0]

/-- `encode_authority_block`. -/
def authorityBlock (a : AuthorityState) : List Item :=
  .raw (utf8 "PTRAU001") :: (putStanding a.gateConfig ++ putStanding a.evaluator ++
    counted (fun p => putName p.1 ++ [.number p.2.gateConfig, .number p.2.evaluator])
    a.admissions.toList)

namespace ExpertRegistryProjection

variable (x : ExpertRegistryProjection)

def hasFenceBlock : Bool :=
  !x.fenceCauses.isEmpty || !x.fencedEpochs.isEmpty || x.readmitGateEpoch != 0

def hasDependencyBlock : Bool := !x.deps.isEmpty

def hasAuthorityBlock : Bool := !x.authority.isDefault

def layout : ExpertLayout :=
  if x.hasAuthorityBlock then .authority
  else if x.hasDependencyBlock then .dependency
  else if x.hasFenceBlock then .fenceCause
  else .evidence

def flags : List Item :=
  if x.hasAuthorityBlock then [flag x.hasFenceBlock, flag x.hasDependencyBlock]
  else if x.hasDependencyBlock then [flag x.hasFenceBlock]
  else []

def fenceBlock : List Item :=
  .raw (utf8 "PTRFC001") ::
    (counted
    (fun p =>
      putName p.1 ++
      [.number (.ofNat _ (expertFenceCauseCodes.code p.2.cause).toNat),
      .number (.ofNat _ (expertFenceResumeCodes.code p.2.resume).toNat)]) x.fenceCauses.toList ++
    counted (fun p => putName p.1 ++ [.number p.2]) x.fencedEpochs.toList ++
    [.number x.readmitGateEpoch])

/-- The registry in `LifecycleState::encode`, behind its magic number. -/
def items : List Item :=
  counted putEntry x.entries.toList ++ [.raw (utf8 "PTREV001")] ++
    counted putName x.legacy.toList ++ counted
    (fun p => [.number p.1, .raw p.2.bytes]) x.epochGateConfigs.toList ++ x.flags ++
    (if x.hasFenceBlock then x.fenceBlock else []) ++
    (if x.hasDependencyBlock then dependencyBlock x.deps else []) ++ if x.hasAuthorityBlock then
    authorityBlock x.authority else []

end ExpertRegistryProjection

def expertFormat : ExpertFormat ExpertRegistryProjection where
  layout := ExpertRegistryProjection.layout
  items := ExpertRegistryProjection.items

/-! ### What the writer asks -/

def NameFits (p : String × String) : Prop := TextFits p.1 ∧ TextFits p.2

def RefFits (p : ExpertRef) : Prop := TextFits p.1 ∧ TextFits p.2.1

structure ExpertDependencyIndex.Fits (d : ExpertDependencyIndex) : Prop where
  experts : Listed (fun p => RefFits p.1 ∧ Listed (TextFits ·.1) p.2.training ∧
    Listed (TextFits ·.1) p.2.evaluation ∧ TextFits p.2.base.1) d.byExpert.toList
  edges : Listed (fun p => RefFits p.1 ∧ RefFits p.2) d.edges
  digests : Listed (TextFits ·.1.1) d.digests.toList
  revoked : Listed (TextFits ·.1) d.revoked.toList
  floors : Listed (TextFits ·.1) d.floors.toList

structure ExpertRegistryProjection.Fits (x : ExpertRegistryProjection) : Prop where
  entries : Listed (fun p => NameFits p.1 ∧ TextFits p.2.baseModel.id) x.entries.toList
  legacy : Listed NameFits x.legacy.toList
  epochs : x.epochGateConfigs.size ≤ maxSectionItems
  causes : Listed (NameFits ·.1) x.fenceCauses.toList
  fenced : Listed (NameFits ·.1) x.fencedEpochs.toList
  deps : x.deps.Fits
  admissions : Listed (NameFits ·.1) x.authority.admissions.toList

/-! ### How much room it takes -/

def textBytes (s : String) : Nat := 4 + s.utf8ByteSize

def nameBytes (p : String × String) : Nat := textBytes p.1 + textBytes p.2

def refBytes (p : ExpertRef) : Nat := textBytes p.1 + textBytes p.2.1 + 8

def keyBytes (p : InputKey) : Nat := textBytes p.1 + 8

def entryBytes (p : (String × String) × ExpertEntry) : Nat :=
  nameBytes p.1 + 56 + (match p.2.level with | .token .. => 24 | .segment => 8) +
    textBytes p.2.baseModel.id + 40

def inputSetBytes (p : ExpertRef × ExpertInputSet) : Nat :=
  refBytes p.1 + countedBytes keyBytes p.2.training + countedBytes keyBytes p.2.evaluation +
    keyBytes p.2.base + 32

def ExpertDependencyIndex.bytes (d : ExpertDependencyIndex) : Nat :=
  8 + countedBytes inputSetBytes d.byExpert.toList +
    countedBytes (fun p => refBytes p.1 + refBytes p.2) d.edges +
    countedBytes (fun p => keyBytes p.1 + 32) d.digests.toList +
    countedBytes keyBytes d.revoked.toList + countedBytes keyBytes d.floors.toList

def AuthorityState.bytes (a : AuthorityState) : Nat :=
  8 + (if a.gateConfig.isSome then 48 else 8) + (if a.evaluator.isSome then 48 else 8) +
    countedBytes (fun p => nameBytes p.1 + 16) a.admissions.toList

def ExpertRegistryProjection.bytes (x : ExpertRegistryProjection) : Nat :=
  countedBytes entryBytes x.entries.toList + 8 + countedBytes nameBytes x.legacy.toList +
    (4 + 40 * x.epochGateConfigs.size) +
    (if x.hasAuthorityBlock then 16 else if x.hasDependencyBlock then 8 else 0) +
    (if x.hasFenceBlock then 16 + countedBytes (fun p => nameBytes p.1 + 16) x.fenceCauses.toList +
      countedBytes (fun p => nameBytes p.1 + 8) x.fencedEpochs.toList else 0) +
    (if x.hasDependencyBlock then x.deps.bytes else 0) +
    if x.hasAuthorityBlock then x.authority.bytes else 0

/-! ### The writer and the maps -/

attribute [local simp] allowed_append allowed_cons allowed_nil allowed_number allowed_raw
  allowed_text allowed_counted

theorem allowed_name {p : String × String} : Allowed (putName p) ↔ NameFits p := by
  simp [putName, NameFits]

theorem allowed_key {p : InputKey} : Allowed (putKey p) ↔ TextFits p.1 := by
  simp [putKey]

theorem length_tags : (utf8 "PTREV001").length = 8 ∧ (utf8 "PTRFC001").length = 8 ∧
    (utf8 "PTRDX001").length = 8 ∧ (utf8 "PTRAU001").length = 8 := by decide +kernel

theorem toList_of_isEmpty {κ ν : Type} [Ord κ] [Std.TransOrd κ] {m : Std.ExtTreeMap κ ν}
    (h : m.isEmpty = true) : m.toList = [] := by
  rw [Std.ExtTreeMap.isEmpty_iff] at h
  rw [h, toList_empty]

theorem allowed_dependencyBlock {d : ExpertDependencyIndex} :
    Allowed (dependencyBlock d) ↔ d.Fits := by
  simp only [dependencyBlock, allowed_append, allowed_cons, allowed_nil, allowed_number,
    allowed_raw, allowed_text, allowed_counted, allowed_key, putInputSet, putRef,
    and_true, true_and]
  constructor
  · rintro ⟨⟨⟨⟨h1, h2⟩, h3⟩, h4⟩, h5⟩
    exact ⟨by simpa [RefFits, and_assoc] using h1, h2, h3, h4, h5⟩
  · rintro ⟨h1, h2, h3, h4, h5⟩
    exact ⟨⟨⟨⟨by simpa [RefFits, and_assoc] using h1, h2⟩, h3⟩, h4⟩, h5⟩

theorem allowed_putEntry {p} : Allowed (putEntry p) ↔ NameFits p.1 ∧ TextFits p.2.baseModel.id := by
  cases hlevel : p.2.level with
  | token | segment => simp [putEntry, putLevel, hlevel, allowed_name]

theorem allowed_standing (s : Option ExpertAuthorityStanding) : Allowed (putStanding s) := by
  cases s with
  | none | some => simp [putStanding]

theorem itemsLength_standing (s : Option ExpertAuthorityStanding) :
    itemsLength (putStanding s) = if s.isSome then 48 else 8 := by
  cases s with
  | none | some => simp [putStanding]

theorem ExpertDependencyIndex.fits_of_isEmpty {d : ExpertDependencyIndex} (h : d.isEmpty = true) :
    d.Fits := by
  simp only [isEmpty, Bool.and_eq_true] at h
  obtain ⟨⟨⟨⟨hexperts, hchildren⟩, hdigests⟩, hrevoked⟩, hfloors⟩ := h
  rw [Std.ExtTreeSet.isEmpty_iff] at hrevoked
  refine ⟨?_, ?_, ?_, ?_, ?_⟩
  · simp [toList_of_isEmpty hexperts]
  · simp [edges, toList_of_isEmpty hchildren]
  · simp [toList_of_isEmpty hdigests]
  · rw [hrevoked]
    simp [Listed]
  · simp [toList_of_isEmpty hfloors]

namespace ExpertRegistryProjection

variable {x : ExpertRegistryProjection}

theorem allowed_flags (x : ExpertRegistryProjection) : Allowed x.flags := by
  rw [flags]
  split
  · simp [flag]
  split
  · simp [flag]
  · simp

theorem allowed_fence : Allowed (if x.hasFenceBlock then x.fenceBlock else []) ↔
    Listed (NameFits ·.1) x.fenceCauses.toList ∧ Listed (NameFits ·.1) x.fencedEpochs.toList := by
  split
  · simp [fenceBlock, allowed_name]
  · next h =>
    simp only [hasFenceBlock, Bool.not_eq_true, Bool.or_eq_false_iff, Bool.not_eq_false'] at h
    simp [toList_of_isEmpty h.1.1, toList_of_isEmpty h.1.2]

theorem allowed_dependency :
    Allowed (if x.hasDependencyBlock then dependencyBlock x.deps else []) ↔ x.deps.Fits := by
  split
  · exact allowed_dependencyBlock
  · next h =>
    simp only [hasDependencyBlock, Bool.not_eq_true, Bool.not_eq_false'] at h
    simp [ExpertDependencyIndex.fits_of_isEmpty h]

theorem allowed_authority :
    Allowed (if x.hasAuthorityBlock then authorityBlock x.authority else []) ↔
      Listed (NameFits ·.1) x.authority.admissions.toList := by
  split
  · simp [authorityBlock, allowed_standing, allowed_name]
  · next h =>
    simp only [hasAuthorityBlock, AuthorityState.isDefault, Bool.not_eq_true, Bool.not_eq_false',
      Bool.and_eq_true] at h
    simp [toList_of_isEmpty h.2]

/-- The writer takes the registry exactly if its maps are within their bounds. -/
theorem allowed_items : Allowed x.items ↔ x.Fits := by
  simp only [items, allowed_append, allowed_counted, allowed_fence, allowed_dependency,
    allowed_authority, allowed_cons, allowed_raw, allowed_number, allowed_nil, allowed_name,
    allowed_putEntry, x.allowed_flags, and_true]
  have hepochs : Listed (fun _ => True) x.epochGateConfigs.toList ↔
      x.epochGateConfigs.size ≤ maxSectionItems := by
    simp [Listed]
  rw [hepochs]
  constructor
  · rintro ⟨⟨⟨⟨⟨hentries, hlegacy⟩, hconfigs⟩, hcauses, hfenced⟩, hdeps⟩, hadmissions⟩
    exact ⟨hentries, hlegacy, hconfigs, hcauses, hfenced, hdeps, hadmissions⟩
  · rintro ⟨hentries, hlegacy, hconfigs, hcauses, hfenced, hdeps, hadmissions⟩
    exact ⟨⟨⟨⟨⟨hentries, hlegacy⟩, hconfigs⟩, hcauses, hfenced⟩, hdeps⟩, hadmissions⟩

end ExpertRegistryProjection

theorem itemsLength_name (p : String × String) : itemsLength (putName p) = nameBytes p := by
  simp [putName, nameBytes, textBytes]

theorem itemsLength_ref (p : ExpertRef) : itemsLength (putRef p) = refBytes p := by
  simp [putRef, refBytes, textBytes]
  omega

theorem itemsLength_key (p : InputKey) : itemsLength (putKey p) = keyBytes p := by
  simp [putKey, keyBytes, textBytes]

theorem itemsLength_entry (p : (String × String) × ExpertEntry) :
    itemsLength (putEntry p) = entryBytes p := by
  cases hlevel : p.2.level with
  | token | segment =>
    simp [putEntry, putLevel, entryBytes, hlevel, itemsLength_name, textBytes]
    omega

theorem itemsLength_inputSet (p : ExpertRef × ExpertInputSet) :
    itemsLength (putInputSet p) = inputSetBytes p := by
  simp [putInputSet, inputSetBytes, itemsLength_ref, itemsLength_key,
    itemsLength_counted itemsLength_key]
  omega

theorem itemsLength_dependencyBlock (d : ExpertDependencyIndex) :
    itemsLength (dependencyBlock d) = d.bytes := by
  have hedge : ∀ p : ExpertRef × ExpertRef, itemsLength (putRef p.1 ++ putRef p.2) =
      refBytes p.1 + refBytes p.2 := by
    simp [itemsLength_ref]
  have hdigest : ∀ p : InputKey × Digest, itemsLength (putKey p.1 ++ [.raw p.2.bytes]) =
      keyBytes p.1 + 32 := by
    simp [itemsLength_key]
  simp only [dependencyBlock, ExpertDependencyIndex.bytes, itemsLength_cons, itemsLength_append,
    length_raw, length_tags, itemsLength_counted itemsLength_inputSet, itemsLength_counted hedge,
    itemsLength_counted hdigest, itemsLength_counted itemsLength_key]
  omega

theorem itemsLength_authorityBlock (a : AuthorityState) :
    itemsLength (authorityBlock a) = a.bytes := by
  have hadmission : ∀ p : (String × String) × ExpertAdmissionEpochs,
      itemsLength (putName p.1 ++ [.number p.2.gateConfig, .number p.2.evaluator]) =
      nameBytes p.1 + 16 := by
    simp [itemsLength_name]
  simp only [authorityBlock, AuthorityState.bytes, itemsLength_cons, itemsLength_append, length_raw,
    length_tags, itemsLength_standing, itemsLength_counted hadmission]
  omega

theorem ExpertRegistryProjection.itemsLength_fenceBlock (x : ExpertRegistryProjection) :
    itemsLength x.fenceBlock =
      16 + countedBytes (fun p => nameBytes p.1 + 16) x.fenceCauses.toList +
      countedBytes (fun p => nameBytes p.1 + 8) x.fencedEpochs.toList := by
  have hcause : ∀ p : (String × String) × FenceStanding, itemsLength (putName p.1 ++
      [.number (.ofNat _ (expertFenceCauseCodes.code p.2.cause).toNat),
        .number (.ofNat _ (expertFenceResumeCodes.code p.2.resume).toNat)]) =
        nameBytes p.1 + 16 := by
    simp [itemsLength_name]
  have hepoch : ∀ p : (String × String) × U64, itemsLength (putName p.1 ++ [.number p.2]) =
      nameBytes p.1 + 8 := by
    simp [itemsLength_name]
  simp only [fenceBlock, itemsLength_cons, itemsLength_append, itemsLength_nil, length_raw,
    length_number, length_tags, itemsLength_counted hcause, itemsLength_counted hepoch]
  omega

theorem ExpertRegistryProjection.itemsLength_flags (x : ExpertRegistryProjection) :
    itemsLength x.flags = if x.hasAuthorityBlock then 16 else if x.hasDependencyBlock then
      8 else 0 := by
  rw [flags]
  split
  · simp [flag]
  split
  · simp [flag]
  · rfl

theorem itemsLength_if (c : Prop) [Decidable c] (items : List Item) :
    itemsLength (if c then items else []) = if c then itemsLength items else 0 := by
  split
  · rfl
  · rfl

/-- What is written of the registry is as long as its maps say. -/
theorem ExpertRegistryProjection.itemsLength_items (x : ExpertRegistryProjection) :
    itemsLength x.items = x.bytes := by
  have hconfig : ∀ p : U64 × Digest, itemsLength [.number p.1, .raw p.2.bytes] = 40 := by simp
  have hconfigs : countedBytes (fun _ => 40) x.epochGateConfigs.toList =
      4 + 40 * x.epochGateConfigs.size := by
    simp [countedBytes, Nat.mul_comm]
  simp only [items, bytes, itemsLength_append, itemsLength_if, itemsLength_fenceBlock,
    itemsLength_flags, itemsLength_dependencyBlock, itemsLength_authorityBlock,
    itemsLength_counted itemsLength_entry, itemsLength_counted itemsLength_name,
    itemsLength_counted hconfig, hconfigs, itemsLength_cons, itemsLength_nil,
    length_raw, length_tags]

end Ptr.Runtime
