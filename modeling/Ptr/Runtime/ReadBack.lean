import Ptr.Runtime.ScopeParts

/-!
# A snapshot is read back

`Takes r put P` says that the reader `r` takes exactly the bytes of the items of a value
with `P`, if they may be written, and no others.  So what a section was written from is
read back, and bytes that are read are the ones that its value is written as.
-/

namespace Ptr.Runtime

open Lib Ledger Semdb SectionReader Reader ScopeRegistry
open List hiding count

variable {α β : Type} {previous : Option String} {r : Reader RuntimeError α} {bs rest : Bytes}

def itemBytes (items : List Item) : Bytes := items.flatMap sectionFormat.bytes

abbrev Takes (r : Reader RuntimeError α) (put : α → List Item) (P : α → Prop) : Prop :=
  Exact r (fun a => itemBytes (put a)) fun a => Allowed (put a) ∧ P a

theorem itemBytes_append (xs ys : List Item) :
    itemBytes (xs ++ ys) = itemBytes xs ++ itemBytes ys :=
  flatMap_append

theorem itemBytes_cons (i : Item) (items : List Item) :
    itemBytes (i :: items) = sectionFormat.bytes i ++ itemBytes items := rfl

theorem itemBytes_nil : itemBytes [] = [] := rfl

attribute [local simp] itemBytes_append itemBytes_cons itemBytes_nil allowed_append
  allowed_cons allowed_nil
  allowed_number allowed_raw bind_iff ite_iff fail_iff and_assoc

/-! ### The items -/

theorem takes_number : Takes number (fun n => [.number n]) fun _ => True := by
  intro bs n rest
  simp [SectionReader.number, exact_u64, sectionFormat]

theorem takes_digest :
    Takes (Digest.read lengthMismatch) (fun d => [.raw d.bytes]) fun _ => True := by
  intro bs d rest
  simp [Digest.exact_read, sectionFormat]

theorem takes_token : Takes (u128 lengthMismatch) (fun t => [.raw (putU128 t)]) fun _ => True := by
  intro bs t rest
  simp [exact_u128, sectionFormat]

theorem takes_field : Takes field (fun s => [.field s]) fun _ => True := by
  intro bs s rest
  simp [field, exact_string, sectionFormat, putString, putBytes]

theorem takes_text : Takes text (fun s => [.text s]) fun _ => True := by
  intro bs s rest
  simp [text, exact_u32, exact_take, sectionFormat, ← String.utf8ByteSize_eq_zero_iff]
  constructor
  · rintro ⟨n, a, _, rfl, hn, hmax, hlength, h⟩
    cases hs : ofUtf8 a with
    | none =>
      rw [hs] at h
      cases h
    | some =>
      rw [hs] at h
      cases h
      obtain rfl := ofUtf8_iff.mp hs
      rw [utf8_length] at hlength
      rw [hlength]
      exact ⟨rfl, Fin.val_ne_zero_iff.mpr hn, hmax⟩
  · rintro ⟨rfl, hn, hmax⟩
    refine ⟨⟨s.utf8ByteSize, lt_of_le_of_lt hmax (by decide)⟩, utf8 s, rest, rfl, ?_, hmax,
      utf8_length s, ?_⟩
    · exact fun h => hn (congrArg Fin.val h)
    · rw [ofUtf8_utf8]
      rfl

theorem takes_blob : Takes blob (fun bs => [.blob bs]) fun _ => True := by
  intro bs a rest
  refine bind_iff.trans ?_
  simp only [exact_u32, refuse_eq_ok, exact_take]
  simp [sectionFormat]
  constructor
  · rintro ⟨n, rfl, hmax, -, hlength⟩
    rw [hlength]
    exact ⟨rfl, hmax⟩
  · rintro ⟨rfl, hmax⟩
    exact ⟨⟨a.length, lt_of_le_of_lt hmax (by decide)⟩, rfl, hmax, Nat.le_add_right _ _, rfl⟩

theorem count_iff {n} : count bs = .ok (n, rest) ↔
    bs = itemBytes [.count n] ++ rest ∧ Allowed [.count n] ∧ n ≤ rest.length := by
  refine bind_iff.trans ?_
  simp only [exact_u32, refuse_eq_ok]
  simp [sectionFormat]
  constructor
  · rintro ⟨n, rfl, hmax, hrest, rfl⟩
    exact ⟨rfl, hmax, hrest⟩
  · rintro ⟨rfl, hmax, hrest⟩
    exact ⟨⟨n, lt_of_le_of_lt hmax (by decide)⟩, rfl, hmax, hrest, rfl⟩

theorem takes_magic {m} (h : m.length = 8) :
    Takes (expectMagic m) (fun _ => [.raw m]) fun _ => True := by
  intro bs u rest
  simp [expectMagic, exact_take, sectionFormat, h]

attribute [local simp] takes_number takes_digest takes_token takes_field takes_text takes_blob

theorem takes_identity : Takes identity putIdentity fun _ => True := by
  rintro bs ⟨⟩ rest
  simp [identity, putIdentity]

theorem takes_flagged {bad put} (h : Takes r (fun a => [put a]) fun _ => True) :
    Takes (flagged bad r) (putOptional put) fun _ => True := by
  rintro bs (_ | a) rest <;> simp [flagged, putOptional, h]

theorem ascending_iff {κ : Type} [Ord κ] {previous} {k : κ} {u} :
    ascending previous k bs = .ok (u, rest) ↔ Above previous k ∧ bs = rest := by
  cases previous <;> simp [ascending, Above]

attribute [local simp] ascending_iff takes_identity

/-! ### Maps -/

theorem itemBytes_flatMap (f : α → List Item) (xs : List α) :
    itemBytes (xs.flatMap f) = xs.flatMap fun x => itemBytes (f x) := by
  simp [itemBytes, flatMap_assoc]

theorem length_le_flatMap {f} (h : ∀ x, 0 < itemsLength (f x)) (xs : List α) (rest : Bytes) :
    xs.length ≤ (itemBytes (xs.flatMap f) ++ rest).length := by
  induction xs with
  | nil => exact bot_le
  | cons x xs ih =>
    have hhead := h x
    rw [itemsLength] at hhead
    simp only [flatMap_cons, length_cons, length_append, itemBytes, flatMap_append] at ih ⊢
    omega

section Maps

variable {κ : Type} [Ord κ] [Std.TransOrd κ] [Std.LawfulEqOrd κ]
  {item : Option κ → Reader RuntimeError (κ × β)}
  {put : κ × β → List Item} {Q : κ × β → Prop}

theorem takes_entries
    (hitem : ∀ previous, Takes (item previous) put fun p => Above previous p.1 ∧ Q p) (n : Nat) :
    Takes (entries item store n none ∅) (fun m => m.toList.flatMap put) fun m => m.size = n ∧
      ∀ p ∈ m.toList, Q p := by
  intro bs m rest
  rw [exact_entries hitem]
  simp only [itemBytes_flatMap, allowed_flatMap]
  exact and_congr_right fun _ =>
    ⟨fun h => ⟨fun p hp => (h.2 p hp).1, h.1, fun p hp => (h.2 p hp).2⟩,
    fun h => ⟨h.2.1, fun p hp => ⟨h.1 p hp, h.2.2 p hp⟩⟩⟩

theorem takes_mapOf
    (hitem : ∀ previous, Takes (item previous) put fun p => Above previous p.1 ∧ Q p)
    (hput : ∀ p, 0 < itemsLength (put p)) :
    Takes (mapOf item) (fun m => .count m.size :: m.toList.flatMap put) fun m =>
      ∀ p ∈ m.toList, Q p := by
  intro bs m rest
  have hroom := length_le_flatMap hput m.toList rest
  rw [Std.ExtTreeMap.length_toList] at hroom
  simp [mapOf, count_iff, takes_entries hitem]
  exact fun _ _ _ _ => length_append ▸ hroom

end Maps

/-! ### The lifecycle section -/

def MergesCanonical (values : Std.ExtTreeMap String String) : Prop :=
  ∀ k v, values[k]? = some v → hasPrefix mergedBranchPrefix k = true →
    (mergedBranchOf k).isSome = true ∧ (parseMergedBranchEntry v).isSome = true

theorem takes_materialized {layout} (hlayout : layout ≠ .preAttestation)
    (previous : Option String) :
    Takes (readMaterialized layout previous) (fun p => [.text p.1, .text p.2]) fun p =>
      Above previous p.1 ∧ (hasPrefix mergedBranchPrefix p.1 = true →
        (mergedBranchOf p.1).isSome = true ∧ (parseMergedBranchEntry p.2).isSome = true) := by
  rintro bs ⟨k, v⟩ rest
  simp [readMaterialized, hlayout, Option.isSome_iff_ne_none]

theorem takes_generation (previous : Option String) : Takes (readGeneration previous)
    (fun p => [.text p.1, .number p.2]) fun p => Above previous p.1 ∧ True := by
  rintro bs ⟨k, g⟩ rest
  simp [readGeneration]

theorem takes_project (previous : Option String) : Takes (readProject previous)
    (fun p => [.text p.1, .text p.2]) fun p => Above previous p.1 ∧ True := by
  rintro bs ⟨k, v⟩ rest
  simp [readProject]

theorem takes_tombstone (previous : Option (String × Generation)) : Takes (readTombstone previous)
    (fun p => [.text p.1.1, .number p.1.2]) fun p => Above previous p.1 := by
  rintro bs ⟨⟨k, g⟩, u⟩ rest
  simp [readTombstone]

theorem readTombstones_put {s}
    (h : Allowed (.count s.size :: s.toList.flatMap fun p => [.text p.1, .number p.2]))
    (rest : Bytes) :
    readTombstones
      (itemBytes (.count s.size :: s.toList.flatMap fun p => [.text p.1, .number p.2]) ++ rest) =
      .ok (s, rest) := by
  rw [allowed_cons, allowed_flatMap] at h
  have hroom := length_le_flatMap (f := fun p => [.text p.1, .number p.2]) (by simp) s.toList rest
  rw [Std.ExtTreeSet.length_toList] at hroom
  rw [itemBytes_flatMap] at hroom
  have hcount := count_iff.mpr ⟨rfl, (allowed_cons _ _).mpr ⟨h.1, nofun⟩, hroom⟩
  have hentries := entries_set s (fun k hk previous habove _ =>
    (takes_tombstone previous).of_put ⟨h.2 k hk, habove⟩) rest
  rw [itemBytes_cons, itemBytes_flatMap]
  refine (bind_of_ok hcount).trans ?_
  exact hentries

def projectionItems (magic : Bytes) (values : Std.ExtTreeMap String String) (l : Lifecycle) :
    List Item :=
  [.raw magic] ++ ((.count values.size :: values.toList.flatMap fun p => [.text p.1, .text p.2]) ++
    ((.count l.liveGenerations.size :: l.liveGenerations.toList.flatMap fun p =>
      [.text p.1, .number p.2]) ++
    ((.count l.capsuleProjects.size :: l.capsuleProjects.toList.flatMap fun p =>
      [.text p.1, .text p.2]) ++
      (.count l.revokedGenerations.size :: l.revokedList.flatMap fun p =>
      [.text p.1, .number p.2]))))

theorem length_lifecycleMagic (layout : SnapshotLayout) : layout.lifecycleMagic.length = 8 := by
  cases layout <;> decide +kernel

theorem readProjections_put {layout values l} (hlayout : layout ≠ .preAttestation)
    (hmerges : MergesCanonical values) (htargets : l.checkPodTargets = .ok ())
    (hallowed : Allowed (projectionItems layout.lifecycleMagic values l)) (rest : Bytes) :
    readProjections layout (itemBytes (projectionItems layout.lifecycleMagic values l) ++ rest) =
      .ok ((values, l), rest) := by
  simp only [projectionItems, allowed_append, itemBytes_append, append_assoc] at hallowed ⊢
  obtain ⟨hmagic, hvalues, hlive, hprojects, hrevoked⟩ := hallowed
  refine (bind_of_ok
    ((takes_magic (length_lifecycleMagic layout)).of_put (a := ()) ⟨hmagic, trivial⟩)).trans ?_
  refine (bind_of_ok
    ((takes_mapOf (takes_materialized hlayout) (by simp)).of_put ⟨hvalues, ?_⟩)).trans ?_
  · rintro ⟨k, v⟩ hp
    exact hmerges k v (Std.ExtTreeMap.mem_toList_iff_getElem?_eq_some.mp hp)
  refine (bind_of_ok ((takes_mapOf takes_generation (by simp)).of_put ⟨hlive, by simp⟩)).trans ?_
  refine (bind_of_ok ((takes_mapOf takes_project (by simp)).of_put ⟨hprojects, by simp⟩)).trans ?_
  refine (bind_of_ok ((check_iff (u := ())).mpr ⟨htargets, rfl⟩)).trans ?_
  exact (bind_of_ok (readTombstones_put hrevoked rest)).trans rfl

variable {ρ τ : Type} {R : Rules ρ τ} {F : ExpertFormat ρ} {G : ExpertReader ρ}

def expertsRead (R : Rules ρ τ) (G : ExpertReader ρ) (layout : SnapshotLayout) (bs : Bytes) :
    Except RuntimeError ρ :=
  match readExperts R G layout bs with
  | .error e => .error e
  | .ok (experts, rest) => if rest ≠ [] then .error lengthMismatch else .ok experts

def expertItems (F : ExpertFormat ρ) (experts : ρ) : List Item :=
  .raw (utf8 "PTREG001") :: F.items experts

theorem snapshotLayout_magic
    (layout : ExpertLayout) : layout.snapshotLayout.lifecycleMagic = layout.lifecycleMagic := by
  cases layout <;> rfl

theorem snapshotLayout_attested (layout : ExpertLayout) :
    layout.snapshotLayout ≠ .preAttestation := by
  cases layout <;> decide

theorem lifecycleItems_eq (F : ExpertFormat ρ) (h : History ρ τ) :
    lifecycleItems F h =
      projectionItems (F.layout h.experts).snapshotLayout.lifecycleMagic h.state.values
      h.lifecycle ++ expertItems F h.experts := by
  simp [lifecycleItems, projectionItems, expertItems, snapshotLayout_magic]

theorem writeSection_eq_ok {items} :
    writeSection items = .ok bs ↔
      (∀ i ∈ items, sectionFormat.allowed i = true) ∧ (itemBytes items).length ≤ maxSectionBytes ∧
      itemBytes items = bs := by
  rw [writeSection, ItemFormat.putAll_eq_ok (bot_le)]
  rfl

/-- The section of a history gives its values and its lifecycle back; what stands
behind them is left to the reader of the experts. -/
theorem decodeLifecycle_written {h : History ρ τ} (hmerges : MergesCanonical h.state.values)
    (htargets : h.lifecycle.checkPodTargets = .ok ())
    (hwritten : writeSection (lifecycleItems F h) = .ok bs) :
    decodeLifecycle R G (F.layout h.experts).snapshotLayout bs = (do
      let experts ← expertsRead R G (F.layout h.experts).snapshotLayout
        (itemBytes (expertItems F h.experts))
      G.check (F.layout h.experts).snapshotLayout ⟨h.state.values, h.lifecycle, experts⟩
      .ok ⟨h.state.values, h.lifecycle, experts⟩) := by
  obtain ⟨hallowed, hlength, rfl⟩ := writeSection_eq_ok.mp hwritten
  rw [lifecycleItems_eq] at hallowed hlength ⊢
  rw [forall_mem_append] at hallowed
  have hread := readProjections_put (snapshotLayout_attested _) hmerges htargets hallowed.1
    (itemBytes (expertItems F h.experts))
  rw [decodeLifecycle, if_neg (not_lt.mpr hlength), itemBytes_append, readLifecycle,
    bind_of_ok hread, bind_apply, expertsRead]
  cases readExperts R G (F.layout h.experts).snapshotLayout
    (itemBytes (expertItems F h.experts)) with
  | error => rfl
  | ok p =>
    dsimp only [pure_apply]
    by_cases hrest : p.2 ≠ []
    · rw [if_pos hrest, if_pos hrest]
      rfl
    · rw [if_neg hrest, if_neg hrest]
      rfl

/-! ### The execution section -/

theorem takes_tagged {f} {tag : α → U64} {put}
    (hf : ∀ n, Takes (f n) put fun a => n.val = (tag a).val) :
    Takes (SectionReader.number >>= f) (fun a => .number (tag a) :: put a) fun _ => True := by
  intro bs a rest
  simp [hf, ← Fin.ext_iff]

theorem takes_effect : Takes readEffect (fun e => [.number (effectNumber e)]) fun _ => True := by
  refine takes_tagged fun n => ?_
  split <;> rintro bs (_ | _) rest <;> simp_all [effectNumber]

theorem takes_scopeState :
    Takes readScopeState (fun s => [.number (scopeStateTag s)]) fun _ => True := by
  refine takes_tagged fun n => ?_
  split <;> rintro bs (_ | _) rest <;> simp_all [scopeStateTag]

theorem takes_cancellation :
    Takes readCancellation (fun b : Bool => [.number (if b then 1 else 0)]) fun _ => True := by
  refine takes_tagged fun n => ?_
  split <;> rintro bs (_ | _) rest <;> simp_all

attribute [local simp] takes_effect takes_scopeState takes_cancellation

theorem takes_unsettled (previous : Option CommitIndex) :
    Takes (readUnsettled previous) unsettledItems fun p => Above previous p.1 ∧
      p.2.attempt = p.1 := by
  rintro bs ⟨i, attempt, _, _, _, _, _⟩ rest
  simp [readUnsettled, unsettledItems, takes_flagged takes_text]
  constructor
  · rintro ⟨rfl, habove, hkey, htarget, hoperation, hidentity, rfl⟩
    exact ⟨rfl, hkey, htarget, hoperation, hidentity, habove, rfl⟩
  · rintro ⟨rfl, hkey, htarget, hoperation, hidentity, habove, rfl⟩
    exact ⟨rfl, habove, hkey, htarget, hoperation, hidentity, rfl⟩

theorem takes_outcome (key : String) :
    Takes readOutcome (fun o => (settledItems (key, o)).tail) fun _ => True := by
  have htag : (fun o => (settledItems (key, o)).tail) = fun o => .number (.ofNat _ o.ctorIdx) ::
      (settledItems (key, o)).tail.tail := by
    funext o
    cases o <;> rfl
  rw [htag]
  refine takes_tagged fun n => ?_
  split <;> rintro bs (_ | _) rest <;> simp_all [settledItems, SettledOutcome.ctorIdx]

theorem takes_settled (previous : Option String) :
    Takes (readSettled previous) settledItems fun p => Above previous p.1 ∧ True := by
  rintro bs ⟨key, o⟩ rest
  show _ ↔ bs = itemBytes (.text key :: (settledItems (key, o)).tail) ++ rest ∧
    Allowed (.text key :: (settledItems (key, o)).tail) ∧ Above previous key ∧ True
  simp [readSettled, takes_outcome key]
  exact fun _ _ => and_comm

def partItems (p : ScopeId × (ExecutionScope × ScopeLeaseBinding)) : List Item :=
  .field p.1 :: putOptional .field p.2.1.parent ++
    [.field p.2.1.session, .field p.2.1.project, .number p.2.1.createdAt] ++
    putOptional .number p.2.1.deadline ++
    [.number (scopeStateTag p.2.1.state), .number (if p.2.1.cancellationRequested then 1 else 0)] ++
    putOptional .field p.2.2.stateId ++ putOptional .field p.2.2.podId ++
    putOptional .number p.2.2.placementEpoch ++
      putOptional (fun t => .raw (putU128 t)) p.2.2.fencingToken ++
    putOptional .number p.2.2.generation ++ putOptional .field p.2.2.resourceLeaseId

theorem takes_lease :
    Takes readLease (fun l => putOptional .field l.stateId ++ (putOptional .field l.podId ++
      (putOptional .number l.placementEpoch ++
        (putOptional (fun t => .raw (putU128 t)) l.fencingToken ++
        (putOptional .number l.generation ++ putOptional .field l.resourceLeaseId)))))
        fun _ => True := by
  rintro bs ⟨⟩ rest
  simp [readLease, SectionReader.optional, takes_flagged takes_field, takes_flagged takes_number,
    takes_flagged takes_token]

theorem takes_scope (previous : Option ScopeId) :
    Takes (readScope previous) partItems fun p => Above previous p.1 ∧ p.1 = p.2.1.id := by
  rintro bs ⟨id, ⟨id', _, _, _, _, _, _, _ | _⟩, l⟩ rest
  all_goals
    simp [readScope, SectionReader.optional, partItems, takes_flagged takes_field,
      takes_flagged takes_number, takes_lease]
    tauto

namespace ExecutionObligations

def blockItems (e : ExecutionObligations) : List Item :=
  .raw (utf8 "PTRSC001") :: .count e.scopes.size :: e.scopes.toList.flatMap partItems ++
    putOptional .number e.scopeRevision

def items (e : ExecutionObligations) : List Item :=
  .raw (if e.scopes.isEmpty then utf8 "PTREX002" else utf8 "PTREX003") ::
    .count e.obligations.unsettled.size :: e.obligations.unsettled.toList.flatMap unsettledItems ++
    .count e.obligations.settled.size :: e.obligations.settled.toList.flatMap settledItems ++
    if e.scopes.isEmpty then [] else e.blockItems

def encode (e : ExecutionObligations) : Except RuntimeError Bytes := writeSection e.items

/-- What `decode` gives: every entry carries its key, and a revision stands behind the
scopes if there are any. -/
structure Canonical (e : ExecutionObligations) : Prop where
  attempts : ∀ (i : CommitIndex) u, e.obligations.unsettled[i]? = some u → u.attempt = i
  ids : ∀ (id : ScopeId) part, e.scopes[id]? = some part → part.1.id = id
  revision : e.scopes.isEmpty = e.scopeRevision.isNone

theorem takes_block : Takes readScopeBlock (fun p => blockItems ⟨⟨∅, ∅⟩, p.1, p.2⟩)
    fun p => (∀ q ∈ p.1.toList, q.1 = q.2.1.id) ∧ p.1 ≠ ∅ ∧ p.2 ≠ none := by
  rintro bs ⟨scopes, revision⟩ rest
  have hroom := length_le_flatMap (f := partItems) (by simp [partItems]) scopes.toList
    (itemBytes (putOptional .number revision) ++ rest)
  rw [Std.ExtTreeMap.length_toList, length_append, length_append] at hroom
  simp [readScopeBlock, blockItems, takes_magic length_magics.2.2, count_iff,
    takes_entries takes_scope, SectionReader.optional, takes_flagged takes_number,
    Std.ExtTreeMap.eq_empty_iff_size_eq_zero]
  tauto

theorem takes_execution (hasScopes : Bool) : Takes (readExecution hasScopes) items
    fun e => e.Canonical ∧ e.scopes.isEmpty = !hasScopes := by
  rintro bs ⟨⟨unsettled, settled⟩, scopes, revision⟩ rest
  have hcanonical : Canonical ⟨⟨unsettled, settled⟩, scopes, revision⟩ ↔
      (∀ (i : CommitIndex) u, unsettled[i]? = some u → u.attempt = i) ∧
      (∀ (id : ScopeId) s l, scopes[id]? = some (s, l) → id = s.id) ∧
        (scopes = ∅ ↔ revision = none) := by
    rw [← Std.ExtTreeMap.isEmpty_iff, ← Option.isNone_iff_eq_none, ← Bool.eq_iff_iff]
    exact ⟨fun h => ⟨h.1, fun id s l hp => (h.2 id _ hp).symm, h.3⟩,
      fun h => ⟨h.1, fun id p hp => (h.2.1 id _ _ hp).symm, h.2.2⟩⟩
  have hunsettled := takes_mapOf takes_unsettled (by simp [unsettledItems])
  have hsettled := takes_mapOf takes_settled (by simp [settledItems])
  simp only [hcanonical]
  by_cases hempty : scopes = ∅
  all_goals
    cases hasScopes <;>
      simp [readExecution, items, takes_magic length_magics.1, takes_magic length_magics.2.1,
        hunsettled, hsettled, takes_block, hempty]
    tauto

/-- A section is read exactly if it is what a canonical value is written as. -/
theorem decodeExecution_iff {hasScopes bs e} :
    decodeExecution hasScopes bs = .ok e ↔ e.encode = .ok bs ∧ e.Canonical ∧
      e.scopes.isEmpty = !hasScopes := by
  have hwhole : decodeExecution hasScopes bs = .ok e ↔
      ¬ maxSectionBytes < bs.length ∧ readExecution hasScopes bs = .ok (e, []) := by
    rw [decodeExecution, refuse_eq_ok]
    cases readExecution hasScopes bs with
    | error => simp
    | ok => simp [Prod.ext_iff, and_comm, ite_eq_iff]
  rw [hwhole, takes_execution, encode, writeSection_eq_ok, append_nil]
  constructor
  · rintro ⟨hlength, rfl, hallowed, h⟩
    exact ⟨⟨hallowed, not_lt.mp hlength, rfl⟩, h⟩
  · rintro ⟨⟨hallowed, hlength, rfl⟩, h⟩
    exact ⟨not_lt.mpr hlength, rfl, hallowed, h⟩

end ExecutionObligations

def executionRead (o : Obligations) (g : ScopeRegistry) : ExecutionObligations :=
  ⟨o, g.parts, g.lastRevision⟩

theorem isEmpty_parts (g : ScopeRegistry) : g.parts.isEmpty = g.scopes.isEmpty := by
  rw [Std.ExtTreeMap.isEmpty_eq_size_beq_zero, size_parts,
    ← Std.ExtTreeMap.isEmpty_eq_size_beq_zero]

theorem items_executionRead (o : Obligations) (g : ScopeRegistry) :
    (executionRead o g).items = executionItems o g := by
  simp only [ExecutionObligations.items, executionRead, isEmpty_parts,
    ExecutionObligations.blockItems, size_parts, toList_parts, flatMap_map]
  rfl

theorem decodeExecution_written {o g} (hg : g.Formed)
    (ho : ∀ (i : CommitIndex) u, o.unsettled[i]? = some u → u.attempt = i)
    (hwritten : writeSection (executionItems o g) = .ok bs) :
    decodeExecution (!g.scopes.isEmpty) bs = .ok (executionRead o g) := by
  have hcanonical : (executionRead o g).Canonical := by
    refine ⟨ho, ?_, (isEmpty_parts g).trans hg.revision⟩
    intro id part hpart
    rw [executionRead, getElem?_parts, Option.map_eq_some_iff] at hpart
    obtain ⟨s, hs, rfl⟩ := hpart
    exact hg.ids id s hs
  rw [← items_executionRead] at hwritten
  rw [← isEmpty_parts]
  exact ExecutionObligations.decodeExecution_iff.mpr ⟨hwritten, hcanonical, (Bool.not_not _).symm⟩

end Ptr.Runtime
