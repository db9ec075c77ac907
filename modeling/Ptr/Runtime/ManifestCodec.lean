import Ptr.Ledger.RoundTrip
import Ptr.Runtime.Manifest

/-!
# Reading a manifest back

The bytes of a manifest that a record can carry are read back as that manifest, or not
at all: the reader bounds its lists, the writer does not.
-/

namespace Ptr.Runtime.ExecutionManifest

open Lib Ledger Reader List

variable {m m' : ExecutionManifest}

theorem exact_binding : Exact Cursor.binding putBinding fun b => b.key.utf8ByteSize < 2 ^ 32 := by
  rintro bs ⟨⟩ rest
  simp [Cursor.binding, putBinding, bind_iff, Cursor.string, exact_string, Cursor.u64, exact_u64,
    Cursor.digest, Digest.exact_read _ _ _ _]

theorem short_binding {b} (h : (putBinding b).length < 2 ^ 32) : b.key.utf8ByteSize < 2 ^ 32 := by
  simp only [putBinding, length_append, putString_length] at h
  omega

theorem optional_put {b} (h : (putOption putBinding b).length < 2 ^ 32) (rest : Bytes) :
    Cursor.optional (putOption putBinding b ++ rest) = .ok (b, rest) := by
  refine (exact_option exact_binding).of_put ?_
  rintro a ⟨⟩
  exact short_binding (Nat.lt_of_succ_lt h)

theorem counted_put {α β : Type} {item} {put : α → Bytes} {P} {as rest}
    {next : List α → Reader ManifestError β} {out} (hitem : Exact item put P)
    (hP : ∀ a, (put a).length < 2 ^ 32 → P a) (hput : ∀ a, 0 < (put a).length)
    (hlength : (putCounted put as).length < 2 ^ 32)
    (h : (Cursor.counted item >>= next) (putCounted put as ++ rest) = .ok out) :
    next as rest = .ok out := by
  rw [putCounted, length_append] at hlength
  have hcount := length_le_flatMap_of_pos hput as
  have hn : as.length < 2 ^ 32 := by omega
  have hread : u32 ManifestError.invalidEncoding (leBytes 4 as.length ++ (as.flatMap put ++ rest)) =
      .ok (⟨as.length, hn⟩, as.flatMap put ++ rest) := u32_put _ ⟨as.length, hn⟩ _
  have hitems : replicate as.length item (as.flatMap put ++ rest) = .ok (as, rest) := by
    refine (exact_replicate hitem _).of_put ⟨rfl, fun a ha => hP a ?_⟩
    have := length_le_flatMap put ha
    omega
  rw [bind_apply, Cursor.counted, putCounted, append_assoc, bind_of_ok hread] at h
  split at h
  · next hbound =>
    split at hbound
    · cases hbound
    · rw [hitems] at hbound
      cases hbound
      exact h
  · cases h

/-- **A manifest that is read from what was written is the one that was written.** -/
theorem decode_of_encode {sha} {bs : Bytes} (hencode : m.encodeCanonical sha = .ok bs)
    (hlength : bs.length < 2 ^ 32) (hdecode : decodeCanonical sha bs = .ok m') : m' = m := by
  obtain ⟨-, h⟩ := bind_unit_eq_ok.mp hencode
  cases h
  simp only [length_cons, length_append, putString_length] at hlength
  have hbinding : ∀ b, 0 < (putBinding b).length := by simp [putBinding]
  have hstring : ∀ s, 0 < (putString s).length := by simp
  obtain ⟨_, hversion, hbody⟩ := bind_eq_ok.mp hdecode
  cases hversion
  obtain ⟨⟨read, rest⟩, hread, hchecks⟩ := bind_eq_ok.mp hbody
  have hsame : read = m := by
    rw [← append_nil m.manifestDigest.bytes, Cursor.manifest] at hread
    simp only [append_assoc] at hread
    rw [Cursor.u64, Reader.bind_of_ok (Reader.u64_put ..)] at hread
    replace hread := counted_put exact_binding (fun _ => short_binding) hbinding (by omega) hread
    replace hread := counted_put exact_binding (fun _ => short_binding) hbinding (by omega) hread
    replace hread := counted_put exact_string
      (fun _ hs => by rw [putString_length] at hs; omega) hstring (by omega) hread
    rw [Reader.bind_of_ok (optional_put (by omega) _), if_neg (by decide)] at hread
    simp (disch := omega) only [Reader.bind_apply, optional_put, Cursor.digest, Cursor.string,
      Reader.u64_put, Digest.read_put, Reader.string_put] at hread
    cases hread
    rfl
  dsimp only at hchecks
  split at hchecks
  · cases hchecks
  · rw [bind_unit_eq_ok] at hchecks
    exact (Except.ok.inj hchecks.2).symm.trans hsame

end Ptr.Runtime.ExecutionManifest
