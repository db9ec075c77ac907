import Mathlib.Tactic.Common
import Mathlib.Data.Nat.Notation
import Mathlib.Tactic.Ring
import Mathlib.Data.List.Basic
import Mathlib.Order.Fin.Basic

/-!
# Byte strings and readers

Fixed-width little-endian numbers, UTF-8 text and length-prefixed strings, each
as a writer and a reader.  A reader consumes a prefix of its input and returns
the rest.  Each `read_put` lemma says that a reader takes back exactly what its
writer put in front of any rest, so the round trip of a record is one rewriting
step for each field.  The errors of the readers are parameters: every format
names its own.
-/

namespace Ptr.Lib

open List

abbrev Bytes := List UInt8

/-! ### Little-endian numbers -/

def leBytes : Nat → Nat → Bytes
  | 0, _ => []
  | w + 1, n => UInt8.ofNat n :: leBytes w (n / 256)

def ofLeBytes : Bytes → Nat
  | [] => 0
  | b :: bs => b.toNat + 256 * ofLeBytes bs

@[simp] theorem leBytes_length (w n : Nat) : (leBytes w n).length = w := by
  induction w generalizing n with
  | zero => rfl
  | succ w ih => simp [leBytes, ih]

theorem ofLeBytes_lt (bs : Bytes) : ofLeBytes bs < 256 ^ bs.length := by
  induction bs with
  | nil => simp [ofLeBytes]
  | cons b =>
    have hb := b.toNat_lt
    simp only [ofLeBytes, length_cons]
    omega

theorem ofLeBytes_leBytes {w n} (h : n < 256 ^ w) : ofLeBytes (leBytes w n) = n := by
  induction w generalizing n with
  | zero => simp [leBytes, ofLeBytes] at h ⊢; omega
  | succ w ih =>
    have hq : n / 256 < 256 ^ w := by
      exact Nat.div_lt_of_lt_mul (by omega)
    simp only [leBytes, ofLeBytes, ih hq, UInt8.toNat_ofNat']
    omega

theorem leBytes_ofLeBytes (bs : Bytes) : leBytes bs.length (ofLeBytes bs) = bs := by
  induction bs with
  | nil => rfl
  | cons b bs ih =>
    have hb := b.toNat_lt
    have hq : (b.toNat + 256 * ofLeBytes bs) / 256 = ofLeBytes bs := by omega
    have hr : UInt8.ofNat (b.toNat + 256 * ofLeBytes bs) = b := by
      apply UInt8.toNat_inj.mp
      simp only [UInt8.toNat_ofNat']
      omega
    simp [leBytes, ofLeBytes, hq, ih]

abbrev U32 := Fin (2 ^ 32)
abbrev U64 := Fin (2 ^ 64)
abbrev U128 := Fin (2 ^ 128)

-- the facts that literals and maps over these types need, by name
instance neZeroU32 : NeZero (2 ^ 32 : Nat) := ⟨by decide⟩
instance neZeroU64 : NeZero (2 ^ 64 : Nat) := ⟨by decide⟩
instance neZeroU128 : NeZero (2 ^ 128 : Nat) := ⟨by decide⟩
instance transCmpU64 : Std.TransCmp (compare : U64 → U64 → Ordering) := inferInstance

def U64.checkedAdd (a b : U64) : Option U64 :=
  if h : a.val + b.val < 2 ^ 64 then some ⟨a.val + b.val, h⟩ else none

theorem U64.checkedAdd_eq_some {a b c} (h : U64.checkedAdd a b = some c) :
    c.val = a.val + b.val := by
  unfold U64.checkedAdd at h
  split at h
  · rw [← Option.some.inj h]
  · cases h

def U64.saturatingAdd (a b : U64) : U64 :=
  if h : a.val + b.val < 2 ^ 64 then ⟨a.val + b.val, h⟩ else ⟨2 ^ 64 - 1, by decide⟩

theorem U64.saturatingAdd_val {a b} (h : a.val + b.val < 2 ^ 64) :
    (U64.saturatingAdd a b).val = a.val + b.val := by
  rw [U64.saturatingAdd, dif_pos h]

theorem U64.le_saturatingAdd (a b : U64) : a ≤ U64.saturatingAdd a b := by
  rw [U64.saturatingAdd]
  split
  · exact Nat.le_add_right ..
  · exact Nat.le_pred_of_lt a.isLt

/-! ### UTF-8 text -/

def utf8 (s : String) : Bytes := s.toByteArray.data.toList

def ofUtf8 (bs : Bytes) : Option String := String.fromUTF8? ⟨bs.toArray⟩

@[simp] theorem ofUtf8_utf8 (s : String) : ofUtf8 (utf8 s) = some s := by
  have h : (⟨(utf8 s).toArray⟩ : ByteArray) = s.toByteArray := by simp [utf8]
  rw [ofUtf8, h, String.fromUTF8?, dif_pos]
  rfl

theorem utf8_of_ofUtf8 {bs s} (h : ofUtf8 bs = some s) : utf8 s = bs := by
  rw [ofUtf8, String.fromUTF8?] at h
  split at h
  · rw [← Option.some.inj h]
    rfl
  · cases h

@[simp] theorem utf8_length (s : String) : (utf8 s).length = s.utf8ByteSize := by
  rfl

/-! ### Writers -/

def putU32 (n : U32) : Bytes := leBytes 4 n.val

def putU64 (n : U64) : Bytes := leBytes 8 n.val

def putU128 (n : U128) : Bytes := leBytes 16 n.val

def putBytes (bs : Bytes) : Bytes := leBytes 4 bs.length ++ bs

def putString (s : String) : Bytes := putBytes (utf8 s)

def putCounted {α : Type} (put : α → Bytes) (as : List α) : Bytes :=
  leBytes 4 as.length ++ as.flatMap put

theorem length_le_flatMap_of_pos {α : Type} {put : α → Bytes} (hput : ∀ a, 0 < (put a).length)
    (as : List α) : as.length ≤ (as.flatMap put).length := by
  induction as with
  | nil => exact le_refl 0
  | cons a =>
    have := hput a
    rw [length_cons, flatMap_cons, length_append]
    omega

@[simp] theorem putU64_length (n : U64) : (putU64 n).length = 8 := leBytes_length _ _
@[simp] theorem putU128_length (n : U128) : (putU128 n).length = 16 := leBytes_length _ _
@[simp] theorem putBytes_length (bs : Bytes) : (putBytes bs).length = 4 + bs.length := by
  simp [putBytes]
@[simp] theorem putString_length (s : String) : (putString s).length = 4 + s.utf8ByteSize := by
  simp [putString]

/-! ### Readers -/

/-- A reader consumes a prefix of the bytes and returns the rest with its
value. -/
def Reader (ε α : Type) : Type := Bytes → Except ε (α × Bytes)

namespace Reader

variable {ε α β : Type}

instance : Monad (Reader ε) where
  pure a := fun bs => .ok (a, bs)
  bind r f := fun bs =>
    match r bs with
    | .ok (a, rest) => f a rest
    | .error e => .error e

def fail (e : ε) : Reader ε α := fun _ => .error e

def check (r : Except ε α) : Reader ε α := fun bs => r.map (·, bs)

theorem bind_apply (r : Reader ε α) (f : α → Reader ε β) (bs : Bytes) :
    (r >>= f) bs = match r bs with
      | .ok (a, rest) => f a rest
      | .error e => .error e := rfl

@[simp] theorem pure_apply (a : α) (bs : Bytes) : (pure a : Reader ε α) bs = .ok (a, bs) := rfl

theorem bind_of_ok {r} {f : α → Reader ε β} {bs rest} {a : α} (h : r bs = .ok (a, rest)) :
    (r >>= f) bs = f a rest := by rw [bind_apply, h]

def take (e : ε) (n : Nat) : Reader ε Bytes := fun bs =>
  if n ≤ bs.length then .ok (bs.take n, bs.drop n) else .error e

def u8 (e : ε) : Reader ε UInt8 := fun bs =>
  match bs with
  | [] => .error e
  | b :: rest => .ok (b, rest)

def u32 (e : ε) : Reader ε U32 := do
  let bs ← take e 4
  pure (Fin.ofNat _ (ofLeBytes bs))

def u64 (e : ε) : Reader ε U64 := do
  let bs ← take e 8
  pure (Fin.ofNat _ (ofLeBytes bs))

def u128 (e : ε) : Reader ε U128 := do
  let bs ← take e 16
  pure (Fin.ofNat _ (ofLeBytes bs))

def bytes (e : ε) : Reader ε Bytes := do
  let n ← u32 e
  take e n.val

def string (e bad : ε) : Reader ε String := do
  let bs ← bytes e
  match ofUtf8 bs with
  | some s => pure s
  | none => fail bad

def replicate : Nat → Reader ε α → Reader ε (List α)
  | 0, _ => pure []
  | n + 1, r => do
    let a ← r
    let as ← replicate n r
    pure (a :: as)

/-! ### Readers that are exact -/

/-- **The reader is exact for a writer**: it takes what the writer puts for a value
with `P`, and nothing else. -/
abbrev Exact (r : Reader ε α) (put : α → Bytes) (P : α → Prop) : Prop :=
  ∀ (bs : Bytes) (a : α) (rest : Bytes), r bs = .ok (a, rest) ↔ bs = put a ++ rest ∧ P a

/-- More bytes behind the input of the reader are left in its rest. -/
def Stable (r : Reader ε α) : Prop :=
  ∀ ⦃bs rest : Bytes⦄ ⦃a : α⦄, r bs = .ok (a, rest) → ∀ more, r (bs ++ more) = .ok (a, rest ++ more)

section Exact

variable {e : ε} {bs rest : Bytes} {putA : α → Bytes} {PA : α → Prop} {r : Reader ε α}
  {f : α → Reader ε β}

theorem Exact.of_put (hr : Exact r putA PA) {a} (ha : PA a) : r (putA a ++ rest) = .ok (a, rest) :=
  (hr _ a rest).mpr ⟨rfl, ha⟩

theorem Exact.stable (hr : Exact r putA PA) : r.Stable := by
  intro bs rest a h more
  obtain ⟨rfl, ha⟩ := (hr bs a rest).mp h
  rw [append_assoc]
  exact hr.of_put ha

theorem bind_iff {b} :
    (r >>= f) bs = .ok (b, rest) ↔ ∃ a mid, r bs = .ok (a, mid) ∧ f a mid = .ok (b, rest) := by
  rw [bind_apply]
  cases r bs with
  | error => simp
  | ok => simp [Prod.ext_iff]

theorem check_iff {x : Except ε Unit} {u} :
    check x bs = .ok (u, rest) ↔ x = .ok () ∧ bs = rest := by
  cases x <;> simp [check, Except.map]

theorem ite_iff {c : Prop} [Decidable c] {r' a} :
    (if c then r else r') bs = .ok (a, rest) ↔ c ∧ r bs = .ok (a, rest) ∨
      ¬ c ∧ r' bs = .ok (a, rest) := by
  split <;> simp [*]

theorem fail_iff {a : α} : fail e bs = .ok (a, rest) ↔ False := by simp [fail]

theorem exact_take (n : Nat) : Exact (take e n) id fun a => a.length = n := by
  intro bs a rest
  rw [take]
  constructor
  · intro h
    split at h
    · next hn =>
      cases h
      exact ⟨(take_append_drop n bs).symm, length_take_of_le hn⟩
    · cases h
  · rintro ⟨rfl, rfl⟩
    simp

theorem exact_u8 : Exact (u8 e) (fun b => [b]) fun _ => True := by
  rintro (_ | ⟨b, bs⟩) a rest <;> simp [u8]

theorem exact_word {w m} [NeZero m] (hm : 256 ^ w = m) :
    Exact (take e w >>= fun bs => pure (Fin.ofNat m (ofLeBytes bs))) (fun n => leBytes w n.val)
      fun _ => True := by
  subst hm
  intro bs n rest
  simp only [bind_iff, exact_take]
  constructor
  · rintro ⟨word, mid, ⟨rfl, rfl⟩, h⟩
    cases h
    rw [Fin.val_ofNat, Nat.mod_eq_of_lt (ofLeBytes_lt word), leBytes_ofLeBytes]
    exact ⟨rfl, trivial⟩
  · rintro ⟨rfl, -⟩
    refine ⟨_, _, ⟨rfl, leBytes_length ..⟩, ?_⟩
    rw [ofLeBytes_leBytes n.isLt, Fin.ofNat_val_eq_self]
    rfl

theorem exact_u32 : Exact (u32 e) putU32 fun _ => True := exact_word rfl

theorem exact_u64 : Exact (u64 e) putU64 fun _ => True := exact_word rfl

theorem exact_u128 : Exact (u128 e) putU128 fun _ => True := exact_word rfl

theorem exact_bytes : Exact (bytes e) putBytes fun bs => bs.length < 2 ^ 32 := by
  intro bs a rest
  simp only [bytes, bind_iff, exact_u32, exact_take, putBytes]
  constructor
  · rintro ⟨n, mid, ⟨rfl, -⟩, rfl, hlength⟩
    rw [hlength]
    exact ⟨rfl, n.isLt⟩
  · rintro ⟨rfl, h⟩
    exact ⟨⟨a.length, h⟩, a ++ rest, ⟨append_assoc .., trivial⟩, rfl, rfl⟩

theorem ofUtf8_iff {a s} : ofUtf8 a = some s ↔ a = utf8 s :=
  ⟨fun h => (utf8_of_ofUtf8 h).symm, fun h => h ▸ ofUtf8_utf8 s⟩

theorem exact_string {bad} : Exact (string e bad) putString fun s => s.utf8ByteSize < 2 ^ 32 := by
  intro bs s rest
  simp only [string, bind_iff, exact_bytes]
  constructor
  · rintro ⟨a, mid, ⟨rfl, hlength⟩, h⟩
    cases ha : ofUtf8 a with
    | none => simp [ha, fail] at h
    | some =>
      obtain rfl := ofUtf8_iff.mp ha
      simp only [ha] at h
      cases h
      exact ⟨rfl, hlength⟩
  · rintro ⟨rfl, h⟩
    refine ⟨utf8 s, rest, ⟨rfl, h⟩, ?_⟩
    rw [ofUtf8_utf8]
    rfl

theorem exact_replicate (hr : Exact r putA PA) (n : Nat) :
    Exact (replicate n r) (fun as => as.flatMap putA) fun as => as.length = n ∧ ∀ a ∈ as, PA a := by
  induction n with
  | zero => rintro bs (_ | ⟨a, as⟩) rest <;> simp [replicate]
  | succ n ih =>
    rintro bs (_ | ⟨a, as⟩) rest
    · simp [replicate, bind_iff]
    · simp [replicate, bind_iff, hr, ih, and_assoc, and_left_comm]

end Exact

@[simp] theorem u8_cons (e : ε) (b : UInt8) (rest : Bytes) : u8 e (b :: rest) = .ok (b, rest) := rfl

@[simp] theorem u32_put (e : ε) (n : U32) (rest : Bytes) :
    u32 e (putU32 n ++ rest) = .ok (n, rest) :=
  exact_u32.of_put trivial

@[simp] theorem u64_put (e : ε) (n : U64) (rest : Bytes) :
    u64 e (putU64 n ++ rest) = .ok (n, rest) :=
  exact_u64.of_put trivial

theorem string_put (e bad : ε) {s} (h : s.utf8ByteSize < 2 ^ 32) (rest : Bytes) :
    string e bad (putString s ++ rest) = .ok (s, rest) := exact_string.of_put h

/-! ### Presence bytes, flags and codes -/

/-- An optional field: an absent one is the byte 0, a present one follows the
byte 1.  Any other byte is refused. -/
def option (e : ε) (bad : UInt8 → ε) (r : Reader ε α) : Reader ε (Option α) := do
  let b ← u8 e
  if b = 0 then pure none
  else if b = 1 then do
    let a ← r
    pure (some a)
  else fail (bad b)

def bool (e : ε) (bad : UInt8 → ε) : Reader ε Bool := do
  let b ← u8 e
  if b = 0 then pure false else if b = 1 then pure true else fail (bad b)

end Reader

def putOption {α : Type} (put : α → Bytes) : Option α → Bytes
  | none => [0]
  | some a => 1 :: put a

def putBool (b : Bool) : Bytes := [if b then 1 else 0]

theorem Reader.exact_option {ε α : Type} {e : ε} {bad} {r : Reader ε α} {put} {P : α → Prop}
    (hr : Exact r put P) : Exact (option e bad r) (putOption put) fun x => ∀ a ∈ x, P a := by
  rintro bs (_ | a) rest <;> simp [option, putOption, bind_iff, ite_iff, fail_iff, exact_u8, hr]

theorem Reader.exact_bool {ε : Type} {e : ε} {bad} : Exact (bool e bad) putBool fun _ => True := by
  rintro bs (_ | _) rest <;> simp [bool, putBool, bind_iff, ite_iff, fail_iff, exact_u8]

/-- The codes of an enumeration: the member at position `n` is stored as the
byte `n`. -/
structure CodeTable (α : Type) where
  members : List α
  complete : ∀ a, a ∈ members
  small : members.length ≤ 256

namespace CodeTable

variable {ε α : Type} [DecidableEq α]

variable (t : CodeTable α)

def code (a : α) : UInt8 := UInt8.ofNat (t.members.idxOf a)

def fromCode (c : UInt8) : Option α := t.members[c.toNat]?

theorem fromCode_code (a : α) : t.fromCode (t.code a) = some a := by
  have hlt : t.members.idxOf a < t.members.length := idxOf_lt_length_of_mem (t.complete a)
  have hc : (t.code a).toNat = t.members.idxOf a := by
    exact Nat.mod_eq_of_lt (lt_of_lt_of_le hlt t.small)
  rw [fromCode, hc, getElem?_eq_getElem hlt, getElem_idxOf]

def read (e : ε) (bad : UInt8 → ε) : Reader ε α := do
  let c ← Reader.u8 e
  match t.fromCode c with
  | some a => pure a
  | none => Reader.fail (bad c)

@[simp] theorem read_code (e : ε) (bad : UInt8 → ε) (a : α) (rest : Bytes) :
    t.read e bad (t.code a :: rest) = .ok (a, rest) := by
  rw [read, Reader.bind_of_ok (Reader.u8_cons e _ rest), fromCode_code]
  rfl

theorem code_of_fromCode (hnodup : t.members.Nodup) {c a} (h : t.fromCode c = some a) :
    t.code a = c := by
  obtain ⟨-, rfl⟩ := List.getElem?_eq_some_iff.mp h
  rw [code, List.Nodup.idxOf_getElem hnodup, UInt8.ofNat_toNat]

end CodeTable

namespace Reader

variable {ε α : Type}

theorem exact_code [DecidableEq α] {t : CodeTable α} (hnodup : t.members.Nodup) {e}
    {bad : UInt8 → ε} : Exact (t.read e bad) (fun a => [t.code a]) fun _ => True := by
  intro bs a rest
  constructor
  · intro h
    obtain ⟨c, mid, hc, hmatch⟩ := bind_iff.mp h
    obtain ⟨rfl, -⟩ := (exact_u8 _ _ _).mp hc
    cases ha : t.fromCode c with
    | none => simp [ha, fail] at hmatch
    | some =>
      simp only [ha] at hmatch
      cases hmatch
      obtain rfl := t.code_of_fromCode hnodup ha
      exact ⟨rfl, trivial⟩
  · rintro ⟨rfl, -⟩
    exact t.read_code e bad a rest

end Reader

end Ptr.Lib
