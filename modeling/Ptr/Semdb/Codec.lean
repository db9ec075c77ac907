import Ptr.Semdb.Delta

/-!
# Decoding semantic deltas

`decode` reads a delta with a cursor over the bytes.  The cursor's model keeps the
panics of the source as an outcome of their own, and a record of every number of
items that was accepted with the bytes that were left at that moment.  What the
reader takes of the bytes of a delta is the delta (`takes_delta`), and no input
drives it into a panic (`safe_delta`).
-/

namespace Ptr.Semdb

open Lib Std SemanticDelta List ExtTreeSet

/-- `Reader`, with the accepted numbers of items and the bytes left at each. -/
structure DeltaReader where
  bytes : Bytes
  offset : Nat
  counts : List (Nat × Nat)

inductive ReadFault
  | refused (e : SemanticError)
  | panicked

abbrev Read := EStateM ReadFault DeltaReader

namespace Read

variable {α β σ : Type}

def refuse (e : SemanticError) : Read α := throw (.refused e)

def crash : Read α := throw .panicked

/-- The range check of the slice includes that its end does not overflow. -/
def take (length : Nat) : Read Bytes := fun r =>
  if r.offset + length ≤ r.bytes.length then
    .ok ((r.bytes.drop r.offset).take length) { r with offset := r.offset + length }
  else .error (.refused .invalidEncoding) r

def u32 : Read Nat := do
  let value ← take 4
  if value.length = 4 then pure (ofLeBytes value) else crash

/-- The bytes left; the subtraction panics where the offset has passed the end. -/
def left : Read Nat := fun r =>
  if r.bytes.length < r.offset then .error .panicked r else .ok (r.bytes.length - r.offset) r

def accept (count left : Nat) : Read Unit :=
  modify fun r => { r with counts := r.counts ++ [(count, left)] }

def count : Read Nat := do
  let count ← u32
  let left ← left
  if maxDeltaItems < count ∨ left / 4 < count then refuse .limitExceeded
  else do
    accept count left
    pure count

def bytes : Read Bytes := do
  let n ← u32
  take n

def string : Read String := do
  let value ← bytes
  match ofUtf8 value with
  | some s => pure s
  | none => refuse .invalidEncoding

def key : Read String := do
  let value ← string
  match checkKey value with
  | .ok () => pure value
  | .error e => refuse e

/-- `take(1)?[0]`. -/
def byte : Read UInt8 := do
  let value ← take 1
  match value with
  | b :: _ => pure b
  | [] => crash

def value : Read SemanticValue := do
  let kind ← byte
  if kind = 0 then do
    let text ← string
    pure (.text text)
  else if kind = 1 then do
    let typeId ← key
    let source ← key
    let bytes ← bytes
    pure (.payload ⟨typeId, source, bytes⟩)
  else refuse .invalidEncoding

/-- `for _ in 0..n`, with an item that is there already refused. -/
def collect (item : Read β) (add : σ → β → Option σ) : Nat → σ → Read σ
  | 0, s => pure s
  | n + 1, s => do
    let b ← item
    match add s b with
    | some s => collect item add n s
    | none => refuse .invalidEncoding

/-- `for _ in 0..reader.count()?`. -/
def counted (item : Read β) (add : σ → β → Option σ) (s : σ) : Read σ := do
  let n ← count
  collect item add n s

def addEntry (m : ExtTreeMap String α) (p : String × α) : Option (ExtTreeMap String α) :=
  if p.1 ∈ m then none else some (m.insert p.1 p.2)

def addKey (s : ExtTreeSet String) (k : String) : Option (ExtTreeSet String) :=
  if k ∈ s then none else some (s.insert k)

def upsert : Read (String × SemanticValue) := do
  let name ← key
  let value ← value
  pure (name, value)

def dependency : Read (String × ExtTreeSet String) := do
  let name ← key
  let inputs ← counted key addKey ∅
  pure (name, inputs)

/-- The last checks: every byte is read, and the delta is written as it was read. -/
def finish (bs : Bytes) (d : SemanticDelta) : Read SemanticDelta := fun r =>
  if r.offset ≠ bs.length then .error (.refused .invalidEncoding) r
  else match d.encode with
    | .error e => .error (.refused e) r
    | .ok out => if out ≠ bs then .error (.refused .invalidEncoding) r else .ok d r

def parts : Read SemanticDelta := do
  let upserts ← counted upsert addEntry ∅
  let removals ← counted key addKey ∅
  let dependencies ← counted dependency addEntry ∅
  pure ⟨upserts, removals, dependencies⟩

def delta (bs : Bytes) : Read SemanticDelta := do
  let head ← take 8
  if head ≠ magic then refuse .invalidEncoding
  else do
    let d ← parts
    finish bs d

end Read

def SemanticDelta.decodeRun (bs : Bytes) : EStateM.Result ReadFault DeltaReader SemanticDelta :=
  if maxDeltaBytes < bs.length then .error (.refused .limitExceeded) ⟨bs, 0, []⟩
  else Read.delta bs ⟨bs, 0, []⟩

def SemanticDelta.decode (bs : Bytes) : Except ReadFault SemanticDelta :=
  match decodeRun bs with
  | .ok d _ => .ok d
  | .error e _ => .error e

/-- The numbers of items that a run of the decoder accepted, each with the bytes
left at that moment.  No loop of the decoder takes more items than that. -/
def SemanticDelta.reserved (bs : Bytes) : List (Nat × Nat) :=
  match decodeRun bs with
  | .ok _ r => r.counts
  | .error _ r => r.counts

/-! ### No panic -/

/-- The offset is inside the bytes and no accepted number passed the bytes left. -/
def DeltaReader.Sound (r : DeltaReader) : Prop :=
  r.offset ≤ r.bytes.length ∧ ∀ p ∈ r.counts, p.1 ≤ p.2

namespace Read

variable {α β σ : Type} {Q : α → Prop} {Q' : β → Prop}

/-- A run that ended in a sound reader, with a value that has `Q` or a refusal. -/
def Ended (Q : α → Prop) : EStateM.Result ReadFault DeltaReader α → Prop
  | .ok a r => r.Sound ∧ Q a
  | .error e r => r.Sound ∧ e ≠ .panicked

def Safe (x : Read α) (Q : α → Prop) : Prop := ∀ r : DeltaReader, r.Sound → Ended Q (x r)

theorem safe_pure {a} (h : Q a) : Safe (pure a) Q := fun _ hr => ⟨hr, h⟩

theorem safe_refuse (e : SemanticError) : Safe (refuse e) Q := fun _ hr => ⟨hr, by simp⟩

theorem Safe.bind {x f} (hx : Safe x Q) (hf : ∀ a, Q a → Safe (f a) Q') : Safe (x >>= f) Q' := by
  intro r hr
  have hend := hx r hr
  simp only [Bind.bind, EStateM.bind]
  cases hrun : x r with
  | ok a r' =>
    rw [hrun] at hend
    exact hf a hend.2 r' hend.1
  | error =>
    rw [hrun] at hend
    exact hend

theorem safe_take (n : Nat) : Safe (take n) fun bs => bs.length = n := by
  intro r hr
  rw [take]
  split
  · next h =>
    have hlen : ((r.bytes.drop r.offset).take n).length = n := by
      rw [length_take, length_drop]
      omega
    exact ⟨⟨h, hr.2⟩, hlen⟩
  · exact ⟨hr, by simp⟩

theorem safe_u32 : Safe u32 fun _ => True := by
  refine (safe_take 4).bind fun bs hlen => ?_
  rw [if_pos hlen]
  exact safe_pure trivial

theorem safe_left : Safe left fun _ => True := by
  intro r hr
  rw [left, if_neg (Nat.not_lt.mpr hr.1)]
  exact ⟨hr, trivial⟩

theorem safe_accept {count left} (h : count ≤ left) : Safe (accept count left) fun _ => True := by
  intro r hr
  refine ⟨⟨hr.1, fun p hp => ?_⟩, trivial⟩
  rcases mem_append.mp hp with hp | hp
  · exact hr.2 p hp
  · rw [mem_singleton.mp hp]
    exact h

theorem safe_count : Safe count fun _ => True := by
  refine safe_u32.bind fun n _ => safe_left.bind fun left _ => ?_
  split
  · exact safe_refuse _
  · next h =>
    have hle : n ≤ left := by omega
    exact (safe_accept hle).bind fun _ _ => safe_pure trivial

theorem Safe.weaken {x} (hx : Safe x Q) : Safe x fun _ => True := by
  intro r hr
  have hend := hx r hr
  cases hrun : x r with
  | ok =>
    rw [hrun] at hend
    exact ⟨hend.1, trivial⟩
  | error =>
    rw [hrun] at hend
    exact hend

theorem safe_bytes : Safe bytes fun _ => True := safe_u32.bind fun n _ => (safe_take n).weaken

theorem safe_string : Safe string fun _ => True := by
  refine safe_bytes.bind fun bs _ => ?_
  cases ofUtf8 bs with
  | some => exact safe_pure trivial
  | none => exact safe_refuse _

theorem safe_key : Safe key fun _ => True := by
  refine safe_string.bind fun s _ => ?_
  cases checkKey s with
  | ok => exact safe_pure trivial
  | error => exact safe_refuse _

theorem safe_byte : Safe byte fun _ => True := by
  refine (safe_take 1).bind fun bs hlen => ?_
  cases bs with
  | nil => cases hlen
  | cons => exact safe_pure trivial

theorem safe_value : Safe value fun _ => True := by
  refine safe_byte.bind fun kind _ => ?_
  split
  · exact safe_string.bind fun _ _ => safe_pure trivial
  split
  · exact safe_key.bind fun _ _ => safe_key.bind fun _ _ => safe_bytes.bind fun _ _ =>
      safe_pure trivial
  · exact safe_refuse _

theorem safe_collect {item} (hitem : Safe item fun _ => True) (add : σ → β → Option σ) (n : Nat)
    (s : σ) : Safe (collect item add n s) fun _ => True := by
  induction n generalizing s with
  | zero => exact safe_pure trivial
  | succ n ih =>
    refine hitem.bind fun b _ => ?_
    cases add s b with
    | some s' => exact ih s'
    | none => exact safe_refuse _

theorem safe_counted {item} (hitem : Safe item fun _ => True) (add : σ → β → Option σ) (s : σ) :
    Safe (counted item add s) fun _ => True :=
  safe_count.bind fun n _ => safe_collect hitem add n s

theorem safe_upsert : Safe upsert fun _ => True :=
  safe_key.bind fun _ _ => safe_value.bind fun _ _ => safe_pure trivial

theorem safe_dependency : Safe dependency fun _ => True :=
  safe_key.bind fun _ _ => (safe_counted safe_key addKey ∅).bind fun _ _ => safe_pure trivial

theorem safe_finish (bs : Bytes) (d : SemanticDelta) : Safe (finish bs d) fun _ => True := by
  intro r hr
  rw [finish]
  split
  · exact ⟨hr, by simp⟩
  split
  · exact ⟨hr, by simp⟩
  split
  · exact ⟨hr, by simp⟩
  · exact ⟨hr, trivial⟩

theorem safe_parts : Safe parts fun _ => True := by
  refine (safe_counted safe_upsert addEntry ∅).bind fun _ _ =>
    (safe_counted safe_key addKey ∅).bind fun _ _ => ?_
  exact (safe_counted safe_dependency addEntry ∅).bind fun _ _ => safe_pure trivial

theorem safe_delta (bs : Bytes) : Safe (delta bs) fun _ => True := by
  refine (safe_take 8).bind fun head _ => ?_
  split
  · exact safe_refuse _
  · exact safe_parts.bind fun d _ => safe_finish bs d

/-! ### The round trip -/

def between (pre rest : Bytes) (counts : List (Nat × Nat)) : DeltaReader :=
  ⟨pre ++ rest, pre.length, counts⟩

/-- The reader takes `bs` and gives `a`, whatever is around `bs`. -/
def Takes (x : Read α) (bs : Bytes) (a : α) : Prop :=
  ∀ pre rest counts, ∃ counts',
    x (between pre (bs ++ rest) counts) = .ok a (between (pre ++ bs) rest counts')

theorem takes_pure (a : α) : Takes (pure a) [] a := by
  intro pre rest counts
  exact ⟨counts, by rw [append_nil]; rfl⟩

theorem Takes.bind {x} {f : α → Read β} {bs bs'} {a : α} {b} (hx : Takes x bs a)
    (hf : Takes (f a) bs' b) : Takes (x >>= f) (bs ++ bs') b := by
  intro pre rest counts
  obtain ⟨counts1, hx⟩ := hx pre (bs' ++ rest) counts
  obtain ⟨counts2, hf⟩ := hf (pre ++ bs) rest counts1
  refine ⟨counts2, ?_⟩
  rw [append_assoc, ← append_assoc pre, ← hf]
  simp [Bind.bind, EStateM.bind, hx]

theorem Takes.last {x} {f : α → Read β} {bs} {a : α} {b} (hx : Takes x bs a) (hf : f a = pure b) :
    Takes (x >>= f) bs b := by
  have h : Takes (x >>= f) (bs ++ []) b := hx.bind (hf ▸ takes_pure b)
  rwa [append_nil] at h

theorem takes_take {bs n} (h : bs.length = n) : Takes (take n) bs bs := by
  intro pre rest counts
  subst h
  refine ⟨counts, ?_⟩
  simp [take, between]

theorem takes_u32 {n} (h : n < 2 ^ 32) : Takes u32 (leBytes 4 n) n := by
  refine (takes_take (leBytes_length 4 n)).last ?_
  rw [if_pos (leBytes_length 4 n), ofLeBytes_leBytes h]

theorem takes_bytes {bs} (h : bs.length < 2 ^ 32) : Takes bytes (putBytes bs) bs :=
  (takes_u32 h).bind (takes_take rfl)

theorem takes_string {s} (h : s.utf8ByteSize < 2 ^ 32) : Takes string (putString s) s := by
  refine (takes_bytes (by rwa [utf8_length])).last ?_
  rw [ofUtf8_utf8]

theorem ValidKey.lt {k} (h : ValidKey k) : k.utf8ByteSize < 2 ^ 32 := by
  have := h.2
  rw [maxKeyBytes] at this
  omega

theorem takes_key {k} (h : ValidKey k) : Takes key (putString k) k := by
  refine (takes_string (ValidKey.lt h)).last ?_
  rw [checkKey_eq_ok.mpr h]

theorem takes_byte (b : UInt8) : Takes byte [b] b := (takes_take rfl).last rfl

theorem takes_value {v} (hvalid : v.Valid) (hlen : (putValue v).length < 2 ^ 32) :
    Takes value (putValue v) v := by
  cases v with
  | text =>
    refine (takes_byte 0).bind ((takes_string ?_).last rfl)
    rw [putValue, length_cons, putString_length] at hlen
    omega
  | payload p =>
    have hbytes : p.bytes.length < 2 ^ 32 := by
      simp only [putValue, length_cons, length_append, putBytes_length] at hlen
      omega
    have hassoc : putValue (.payload p) =
        [1] ++ (putString p.typeId ++ (putString p.source ++ putBytes p.bytes)) := by
      simp [putValue]
    rw [hassoc]
    exact (takes_byte 1).bind
      ((takes_key hvalid.1).bind ((takes_key hvalid.2).bind ((takes_bytes hbytes).last rfl)))

theorem takes_collect {item} {add : σ → β → Option σ} {put} {bs : List β} {s s'}
    (hitem : ∀ b ∈ bs, Takes item (put b) b) (hadd : bs.foldlM add s = some s') :
    Takes (collect item add bs.length s) (bs.flatMap put) s' := by
  induction bs generalizing s with
  | nil =>
    obtain rfl := Option.some.inj hadd
    exact takes_pure _
  | cons b bs ih =>
    rw [foldlM_cons] at hadd
    cases hb : add s b with
    | none =>
      rw [hb] at hadd
      cases hadd
    | some =>
      rw [hb] at hadd
      refine (hitem b mem_cons_self).bind ?_
      rw [hb]
      exact ih (fun c hc => hitem c (mem_cons_of_mem _ hc)) hadd

theorem left_between (pre rest : Bytes) (counts : List (Nat × Nat)) :
    left (between pre rest counts) = .ok rest.length (between pre rest counts) := by
  simp [left, between]

theorem count_between {n} (hn : n ≤ maxDeltaItems) (pre : Bytes) {rest}
    (hrest : 4 * n ≤ rest.length) (counts : List (Nat × Nat)) :
    ∃ counts', count (between pre (leBytes 4 n ++ rest) counts) =
      .ok n (between (pre ++ leBytes 4 n) rest counts') := by
  have hsmall : n < 2 ^ 32 := by
    rw [maxDeltaItems] at hn
    omega
  obtain ⟨counts1, hu32⟩ := takes_u32 hsmall pre rest counts
  refine ⟨counts1 ++ [(n, rest.length)], ?_⟩
  have hfits : ¬ (maxDeltaItems < n ∨ rest.length / 4 < n) := by omega
  simp only [count, Bind.bind, EStateM.bind, hu32, left_between, if_neg hfits]
  rfl

theorem takes_counted {item} {add : σ → β → Option σ} {put} {bs : List β} {s s'}
    (hlen : bs.length ≤ maxDeltaItems) (hput : ∀ b, 4 ≤ (put b).length)
    (hitem : ∀ b ∈ bs, Takes item (put b) b) (hadd : bs.foldlM add s = some s') :
    Takes (counted item add s) (putCounted put bs) s' := by
  intro pre rest counts
  have hbytes : 4 * bs.length ≤ (bs.flatMap put).length := by
    clear hlen hitem hadd
    induction bs with
    | nil => exact le_rfl
    | cons b =>
      have := hput b
      rw [flatMap_cons, length_append, length_cons]
      omega
  have hrest : 4 * bs.length ≤ (bs.flatMap put ++ rest).length := by
    rw [length_append]
    omega
  obtain ⟨counts1, hcount⟩ := count_between hlen pre hrest counts
  obtain ⟨counts2, hcollect⟩ := takes_collect hitem hadd (pre ++ leBytes 4 bs.length) rest counts1
  refine ⟨counts2, ?_⟩
  rw [putCounted, append_assoc, ← append_assoc pre, ← hcollect]
  simp [counted, Bind.bind, EStateM.bind, hcount]

theorem foldlM_addEntry {l : List (String × α)} {m}
    (hdistinct : l.Pairwise fun p q => ¬ compare p.1 q.1 = .eq) (hnew : ∀ p ∈ l, p.1 ∉ m) :
    l.foldlM addEntry m = some (m.insertMany l) := by
  induction l generalizing m with
  | nil => rfl
  | cons p l ih =>
    obtain ⟨hp, hdistinct⟩ := pairwise_cons.mp hdistinct
    rw [foldlM_cons, addEntry, if_neg (hnew p mem_cons_self), ExtTreeMap.insertMany_cons]
    apply ih hdistinct
    intro q hq
    rw [ExtTreeMap.mem_insert, not_or]
    exact ⟨hp q hq, hnew q (mem_cons_of_mem _ hq)⟩

theorem foldlM_addKey {l : List String} {s} (hdistinct : l.Pairwise fun j k => ¬ compare j k = .eq)
    (hnew : ∀ k ∈ l, k ∉ s) : l.foldlM addKey s = some (s.insertMany l) := by
  induction l generalizing s with
  | nil => rfl
  | cons k l ih =>
    obtain ⟨hk, hdistinct⟩ := pairwise_cons.mp hdistinct
    rw [foldlM_cons, addKey, if_neg (hnew k mem_cons_self), insertMany_cons]
    apply ih hdistinct
    intro j hj
    rw [mem_insert, not_or]
    exact ⟨hk j hj, hnew j (mem_cons_of_mem _ hj)⟩

theorem foldlM_addEntry_toList (m : ExtTreeMap String α) : m.toList.foldlM addEntry ∅ = some m := by
  rw [foldlM_addEntry ExtTreeMap.distinct_keys_toList fun p _ => ExtTreeMap.not_mem_empty]
  refine congrArg some (ExtTreeMap.ext_getElem? fun k => ?_)
  cases hk : m[k]? with
  | some v =>
    have hmem : (k, v) ∈ m.toList := ExtTreeMap.mem_toList_iff_getElem?_eq_some.mpr hk
    exact ExtTreeMap.getElem?_insertMany_list_of_mem ReflOrd.compare_self
      ExtTreeMap.distinct_keys_toList hmem
  | none =>
    rw [ExtTreeMap.getElem?_insertMany_list_of_contains_eq_false]
    · exact ExtTreeMap.getElem?_empty
    · rw [ExtTreeMap.map_fst_toList_eq_keys, ExtTreeMap.contains_keys]
      rw [← Bool.not_eq_true, ExtTreeMap.contains_iff_mem, ExtTreeMap.mem_iff_isSome_getElem?, hk]
      exact Bool.false_ne_true

theorem foldlM_addKey_toList (s : ExtTreeSet String) : s.toList.foldlM addKey ∅ = some s := by
  rw [foldlM_addKey distinct_toList fun k _ => not_mem_empty]
  refine congrArg some (ext_mem fun k => ?_)
  simp

theorem takes_keys {s} (hlen : s.size ≤ maxDeltaItems) (hvalid : ∀ k ∈ s.toList, ValidKey k) :
    Takes (counted key addKey ∅) (putCounted putString s.toList) s :=
  takes_counted (by rwa [length_toList]) (fun k => by rw [putString_length]; omega)
    (fun k hk => takes_key (hvalid k hk)) (foldlM_addKey_toList s)

theorem takes_entries {item} {put : String × α → Bytes} {m} (hlen : m.size ≤ maxDeltaItems)
    (hput : ∀ p, 4 ≤ (put p).length) (hitem : ∀ p ∈ m.toList, Takes item (put p) p) :
    Takes (counted item addEntry ∅) (putCounted put m.toList) m :=
  takes_counted (by rwa [ExtTreeMap.length_toList]) hput hitem (foldlM_addEntry_toList m)

theorem takes_upsert {p} (hkey : ValidKey p.1) (hvalue : p.2.Valid)
    (hlen : (putUpsert p).length < 2 ^ 32) : Takes upsert (putUpsert p) p := by
  rw [putUpsert, length_append] at hlen
  exact (takes_key hkey).bind ((takes_value hvalue (by omega)).last rfl)

theorem takes_dependency {p} (hkey : ValidKey p.1) (hlen : p.2.size ≤ maxDeltaItems)
    (hinputs : ∀ k ∈ p.2.toList, ValidKey k) : Takes dependency (putDependency p) p :=
  (takes_key hkey).bind ((takes_keys hlen hinputs).last rfl)

theorem length_le_putCounted (put : β → Bytes) {b bs} (h : b ∈ bs) :
    (put b).length ≤ (putCounted put bs).length := by
  obtain ⟨l, r, rfl⟩ := append_of_mem h
  simp only [putCounted, flatMap_append, flatMap_cons, length_append]
  omega

theorem takes_parts {d} (hvalid : d.Valid) (hfits : d.image.length ≤ maxDeltaBytes) :
    Takes parts (putCounted putUpsert d.upserts.toList ++ (putCounted putString d.removals.toList ++
      putCounted putDependency d.dependencies.toList)) d := by
  rw [image, length_append, length_append, length_append, maxDeltaBytes] at hfits
  have hupserts : Takes (counted upsert addEntry ∅)
      (putCounted putUpsert d.upserts.toList) d.upserts := by
    refine takes_entries hvalid.upserts_count (fun p => ?_) fun p hp => ?_
    · rw [putUpsert, length_append, putString_length]
      omega
    · have hp' := length_le_putCounted putUpsert hp
      exact takes_upsert (hvalid.upserts_valid p hp).1 (hvalid.upserts_valid p hp).2 (by omega)
  have hremovals := takes_keys hvalid.removals_count hvalid.removals_valid
  have hdependencies : Takes (counted dependency addEntry ∅)
      (putCounted putDependency d.dependencies.toList) d.dependencies := by
    refine takes_entries hvalid.dependencies_count (fun p => ?_) fun p hp => ?_
    · rw [putDependency, length_append, putString_length]
      omega
    · obtain ⟨hkey, hcount, hinputs⟩ := hvalid.dependencies_valid p hp
      exact takes_dependency hkey hcount hinputs
  exact hupserts.bind (hremovals.bind (hdependencies.last rfl))

end Read

open Read in
theorem SemanticDelta.decode_encode {d bs} (h : d.encode = .ok bs) : decode bs = .ok d := by
  obtain ⟨hvalid, hfits, rfl⟩ := encode_eq_ok.mp h
  have hmagic : Takes (take 8) magic magic := takes_take rfl
  obtain ⟨counts1, hhead⟩ := hmagic [] (putCounted putUpsert d.upserts.toList ++
    (putCounted putString d.removals.toList ++ putCounted putDependency d.dependencies.toList) ++
    []) []
  obtain ⟨counts2, hparts⟩ := takes_parts hvalid hfits magic [] counts1
  have himage : d.image = magic ++ (putCounted putUpsert d.upserts.toList ++
      (putCounted putString d.removals.toList ++
      putCounted putDependency d.dependencies.toList)) := by
    rw [image, append_assoc, append_assoc]
  rw [nil_append] at hhead
  rw [← himage] at hparts
  have hstart : (⟨d.image, 0, []⟩ : DeltaReader) =
      between []
      (magic ++
        (putCounted putUpsert d.upserts.toList ++
        (putCounted putString d.removals.toList ++
        putCounted putDependency d.dependencies.toList) ++ [])) [] := by
    rw [append_nil, ← himage]
    rfl
  have hrun : delta d.image ⟨d.image, 0, []⟩ = finish d.image d (between d.image [] counts2) := by
    rw [hstart]
    simp only [delta, Bind.bind, EStateM.bind, hhead, ne_eq, not_true_eq_false, if_false, hparts]
  have hfinish : finish d.image d (between d.image [] counts2) =
      .ok d (between d.image [] counts2) := by
    simp [finish, between, h]
  rw [decode, decodeRun, if_neg (Nat.not_lt.mpr hfits), hrun, hfinish]

open Read in
theorem finish_eq_ok {bs d d' r r'} (h : finish bs d r = .ok d' r') : d'.encode = .ok bs := by
  rw [finish] at h
  split at h
  · cases h
  cases hd : d.encode with
  | error =>
    rw [hd] at h
    cases h
  | ok out =>
    rw [hd] at h
    by_cases hout : out = bs
    · simp only [hout, ne_eq] at h
      cases h
      rw [hd, hout]
    · simp only [ne_eq, hout] at h
      cases h

theorem Read.bind_eq_ok {α β : Type} {x} {f : α → Read β} {b} {r r' : DeltaReader}
    (h : (x >>= f) r = .ok b r') : ∃ a r₁, f a r₁ = .ok b r' := by
  simp only [Bind.bind, EStateM.bind] at h
  cases hx : x r with
  | ok a r₁ =>
    rw [hx] at h
    exact ⟨a, r₁, h⟩
  | error =>
    rw [hx] at h
    cases h

/-- What the decoder accepts is what the encoder writes: the decoder compares. -/
theorem SemanticDelta.encode_decode {d bs} (h : decode bs = .ok d) : d.encode = .ok bs := by
  rw [decode, decodeRun] at h
  split at h
  · next hrun =>
    obtain rfl := Except.ok.inj h
    split at hrun
    · cases hrun
    obtain ⟨head, r1, hrun⟩ := Read.bind_eq_ok hrun
    split at hrun
    · cases hrun
    obtain ⟨d', r2, hrun⟩ := Read.bind_eq_ok hrun
    exact finish_eq_ok hrun
  · cases h

theorem SemanticDelta.decodeRun_ended (bs : Bytes) : Read.Ended (fun _ => True) (decodeRun bs) := by
  have hsound : (⟨bs, 0, []⟩ : DeltaReader).Sound := ⟨bot_le, forall_mem_nil _⟩
  rw [decodeRun]
  split
  · exact ⟨hsound, by simp⟩
  · exact Read.safe_delta bs _ hsound

/-- The codec is exact in both directions, and no input makes the decoder panic
or accept more items than bytes are left. -/
theorem delta_codec :
    (∀ (d : SemanticDelta) (bs : Bytes), d.encode = .ok bs → decode bs = .ok d) ∧
      (∀ (bs : Bytes) (d : SemanticDelta), decode bs = .ok d → d.encode = .ok bs) ∧
      ∀ bs : Bytes, decode bs ≠ .error .panicked ∧ ∀ p ∈ reserved bs, p.1 ≤ p.2 := by
  refine ⟨fun d bs => decode_encode, fun bs d => encode_decode, fun bs => ?_⟩
  have hend := decodeRun_ended bs
  rw [decode, reserved]
  cases hrun : decodeRun bs with
  | ok =>
    rw [hrun] at hend
    exact ⟨by simp, hend.1.2⟩
  | error =>
    rw [hrun] at hend
    exact ⟨fun h => hend.2 (Except.error.inj h), hend.1.2⟩

def oneText : SemanticDelta where
  upserts := (∅ : ExtTreeMap String SemanticValue).insert "k" (.text "v")

def oneTextBytes : Bytes :=
  magic ++ [1, 0, 0, 0, 1, 0, 0, 0, 107, 0, 1, 0, 0, 0, 118, 0, 0, 0, 0, 0, 0, 0, 0]

theorem delta_codec_oneText :
    oneText.encode = .ok oneTextBytes ∧ decode oneTextBytes = .ok oneText :=
  ⟨by decide +kernel, delta_codec.1 _ _ (by decide +kernel)⟩

end Ptr.Semdb
