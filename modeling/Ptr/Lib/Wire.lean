import Ptr.Lib.Bytes

/-!
# Tagged fields

What a writer needs of the protocol buffer format: numbers in groups of seven bits, and
fields behind their tags.  A number that is zero and a string that is empty are left out.
The bounds say how much a field adds to what it carries.
-/

namespace Ptr.Lib.Wire

open List

/-- A number, the lowest group first; the high bit says that more follow. -/
def varint (n : Nat) : Bytes :=
  if n < 128 then [n.toUInt8] else (n % 128 + 128).toUInt8 :: varint (n / 128)

def scalar (tag n : Nat) : Bytes := if n = 0 then [] else varint (8 * tag) ++ varint n

def delimited (tag : Nat) (bs : Bytes) : Bytes := varint (8 * tag + 2) ++ (varint bs.length ++ bs)

def string (tag : Nat) (bs : Bytes) : Bytes := if bs = [] then [] else delimited tag bs

def packed (tag : Nat) (ns : List Nat) : Bytes :=
  if ns = [] then [] else delimited tag (ns.flatMap varint)

def message (tag : Nat) (o : Option Bytes) : Bytes := o.elim [] (delimited tag)

variable {n tag : Nat} {bs : Bytes}

theorem varint_length_le {k} (h : n < 128 ^ (k + 1)) : (varint n).length ≤ k + 1 := by
  induction k generalizing n with
  | zero => rw [varint, if_pos (by simpa using h), length_singleton]
  | succ k ih =>
    rw [varint]
    split
    · simp
    · have hrest := ih (n := n / 128) (Nat.div_lt_of_lt_mul (by rwa [pow_succ, mul_comm] at h))
      rw [length_cons]
      omega

theorem word_length_le (h : n < 2 ^ 64) : (varint n).length ≤ 10 := varint_length_le (by omega)

theorem tag_length_le (h : n ≤ 16) : (varint (8 * n + 2)).length ≤ 2 :=
  varint_length_le (by omega)

theorem scalar_length_le (htag : tag ≤ 16) (h : n < 2 ^ 64) : (scalar tag n).length ≤ 12 := by
  have htag : (varint (8 * tag)).length ≤ 2 := varint_length_le (by omega)
  have hword := word_length_le h
  rw [scalar]
  split
  · simp
  · rw [length_append]
    omega

theorem delimited_length_le (bs : Bytes) (htag : tag ≤ 16) (h : bs.length < 2 ^ 64) :
    (delimited tag bs).length ≤ bs.length + 12 := by
  have htag := tag_length_le htag
  have hword := word_length_le h
  rw [delimited, length_append, length_append]
  omega

theorem le_delimited_length (tag : Nat) (bs : Bytes) : bs.length ≤ (delimited tag bs).length := by
  rw [delimited, length_append, length_append]
  omega

theorem string_length_le (bs : Bytes) (htag : tag ≤ 16) (h : bs.length < 2 ^ 64) :
    (string tag bs).length ≤ bs.length + 12 := by
  rw [string]
  split
  · simp
  · exact delimited_length_le bs htag h

theorem le_string_length (tag : Nat) (bs : Bytes) : bs.length ≤ (string tag bs).length := by
  rw [string]
  split
  · next h => simp [h]
  · exact le_delimited_length tag bs

theorem packed_length_le {ns : List Nat} (htag : tag ≤ 16) (hns : ∀ n ∈ ns, n < 2 ^ 64)
    (h : ns.length < 2 ^ 32) : (packed tag ns).length ≤ 10 * ns.length + 12 := by
  have hwords : (ns.flatMap varint).length ≤ 10 * ns.length := by
    clear h
    induction ns with
    | nil => simp
    | cons n ns ih =>
      have hword := word_length_le (hns n mem_cons_self)
      have hrest := ih fun n hn => hns n (mem_cons_of_mem _ hn)
      rw [flatMap_cons, length_append, length_cons]
      omega
  rw [packed]
  split
  · simp
  · exact (delimited_length_le _ htag (by omega)).trans (by omega)

end Ptr.Lib.Wire
