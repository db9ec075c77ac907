import Mathlib.Tactic.IntervalCases
import Ptr.Lib.Checks
import Ptr.Lib.Text
import Ptr.Types

/-!
# The uri of a pod

A pod address and a pod revision address are printed as a uri and parsed from one.  A
text is parsed exactly if it is what its address prints (`pod_uri_exact`), so a pod
revision has one spelling.
-/

open Ptr.Lib List

namespace Ptr.Runtime

/-! ### Numbers and digests -/

def decimal (n : U64) : String := toString n.val

def hexDigit (n : Nat) : Char := "0123456789abcdef".toList.getD n '0'

def hexByte (b : UInt8) : List Char := [hexDigit (b.toNat / 16), hexDigit (b.toNat % 16)]

def hexDigest (d : Digest) : String := String.ofList (d.bytes.flatMap hexByte)

def hexValue (c : Char) : Option Nat :=
  if '0' ≤ c ∧ c ≤ '9' then some (c.toNat - '0'.toNat)
  else if 'a' ≤ c ∧ c ≤ 'f' then some (c.toNat - 'a'.toNat + 10)
  else none

def ofHex : List Char → Option Bytes
  | [] => some []
  | [_] => none
  | c :: d :: cs => do
    let hi ← hexValue c
    let lo ← hexValue d
    let bs ← ofHex cs
    some (UInt8.ofNat (16 * hi + lo) :: bs)

def parseHexDigest (text : List Char) : Option Digest :=
  match ofHex text with
  | some bs => if h : bs.length = 32 then some ⟨bs, h⟩ else none
  | none => none

/-- A number in the one spelling that is printed. -/
def parseNumber (text : List Char) : Option U64 :=
  match (String.ofList text).toNat? with
  | some n =>
    if h : n < 2 ^ 64 then if (decimal ⟨n, h⟩).toList = text then some ⟨n, h⟩ else none else none
  | none => none

theorem hexValue_hexDigit : ∀ n < 16, hexValue (hexDigit n) = some n := by decide

theorem ofHex_hexBytes (bs : Bytes) : ofHex (bs.flatMap hexByte) = some bs := by
  induction bs with
  | nil => rfl
  | cons b bs ih =>
    have hb := b.toNat_lt
    have hhi := hexValue_hexDigit (b.toNat / 16) (by omega)
    have hlo := hexValue_hexDigit (b.toNat % 16) (by omega)
    have hbyte : UInt8.ofNat (16 * (b.toNat / 16) + b.toNat % 16) = b := by
      rw [Nat.div_add_mod, UInt8.ofNat_toNat]
    simp only [flatMap_cons, hexByte, cons_append, nil_append, ofHex, hhi, hlo, ih,
      Option.bind_eq_bind, Option.bind_some, hbyte]

variable {c : Char} {text : List Char}

theorem hexDigit_hexValue {n} (h : hexValue c = some n) : n < 16 ∧ hexDigit n = c := by
  have hchar : ∀ m, c.toNat = m → Char.ofNat m = c := by
    rintro m rfl
    exact Char.ofNat_toNat c
  rw [hexValue] at h
  split at h
  · next hdigit =>
    have hlo : 48 ≤ c.toNat := hdigit.1
    have hhi : c.toNat ≤ 57 := hdigit.2
    obtain rfl : c.toNat - 48 = n := Option.some.inj h
    generalize hm : c.toNat = m at hlo hhi
    have hc := hchar m hm
    interval_cases m <;> exact ⟨by decide, hc⟩
  · split at h
    · next hletter =>
      have hlo : 97 ≤ c.toNat := hletter.1
      have hhi : c.toNat ≤ 102 := hletter.2
      obtain rfl : c.toNat - 97 + 10 = n := Option.some.inj h
      generalize hm : c.toNat = m at hlo hhi
      have hc := hchar m hm
      interval_cases m <;> exact ⟨by decide, hc⟩
    · cases h

theorem hexBytes_of_ofHex {cs bs} (h : ofHex cs = some bs) : bs.flatMap hexByte = cs := by
  induction cs using ofHex.induct generalizing bs with
  | case1 =>
    cases h
    rfl
  | case2 => cases h
  | case3 c d cs ih =>
    simp only [ofHex, Option.bind_eq_bind, Option.bind_eq_some_iff, Option.some.injEq] at h
    obtain ⟨hi, hhi, lo, hlo, rest, hrest, rfl⟩ := h
    obtain ⟨hi16, rfl⟩ := hexDigit_hexValue hhi
    obtain ⟨lo16, rfl⟩ := hexDigit_hexValue hlo
    have hbyte : (UInt8.ofNat (16 * hi + lo)).toNat = 16 * hi + lo := by
      rw [UInt8.toNat_ofNat']
      omega
    have hdiv : (16 * hi + lo) / 16 = hi := by omega
    have hmod : (16 * hi + lo) % 16 = lo := by omega
    rw [flatMap_cons, ih hrest, hexByte, hbyte, hdiv, hmod]
    rfl

theorem parseHexDigest_hexDigest (d : Digest) : parseHexDigest (hexDigest d).toList = some d := by
  rw [parseHexDigest, hexDigest, String.toList_ofList, ofHex_hexBytes]
  simp

theorem hexDigest_of_parseHexDigest {d} (h : parseHexDigest text = some d) :
    (hexDigest d).toList = text := by
  rw [parseHexDigest] at h
  cases hhex : ofHex text with
  | none => simp [hhex] at h
  | some =>
    simp only [hhex] at h
    split at h
    · cases h
      rw [hexDigest, String.toList_ofList]
      exact hexBytes_of_ofHex hhex
    · cases h

theorem parseNumber_decimal (n : U64) : parseNumber (decimal n).toList = some n := by
  have h : (String.ofList (decimal n).toList).toNat? = some n.val := by
    rw [String.ofList_toList]
    exact Nat.toNat?_repr n.val
  rw [parseNumber, h]
  simp

theorem isDigit_of_mem_decimal {n} (h : c ∈ (decimal n).toList) : c.isDigit := by
  have hrepr : (decimal n).toList = Nat.toDigits 10 n.val := by
    change (Nat.repr n.val).toList = _
    rw [Nat.repr, String.toList_ofList]
  rw [hrepr] at h
  exact Nat.isDigit_of_mem_toDigits (by decide) (by decide) h

theorem not_mem_hexDigest (hc : ∀ n < 16, hexDigit n ≠ c) (d : Digest) :
    c ∉ (hexDigest d).toList := by
  rw [hexDigest, String.toList_ofList, mem_flatMap]
  rintro ⟨b, -, hmem⟩
  have hb := b.toNat_lt
  rcases mem_cons.mp hmem with heq | hmem
  · exact hc _ (by omega) heq.symm
  · exact hc _ (by omega) (mem_singleton.mp hmem).symm

theorem decimal_of_parseNumber {n} (h : parseNumber text = some n) : (decimal n).toList = text := by
  rw [parseNumber] at h
  split at h
  · split at h
    · split at h
      · next heq =>
        cases h
        exact heq
      · cases h
    · cases h
  · cases h

end Ptr.Runtime

open Ptr.Runtime

namespace Ptr

/-! ### Addresses -/

def uriScheme : String := "ptr://"

def PodAddress.canonicalUri (a : PodAddress) : Except ResolveError String := do
  a.validate
  .ok (uriScheme ++ a.project ++ "/" ++ a.namespace ++ "/" ++ a.podId)

/-- `PodAddress::parse`: a part that is not there is empty. -/
def PodAddress.parse (value : String) : Except ResolveError PodAddress :=
  match stripPrefix uriScheme.toList value.toList with
  | none => .error .invalidScheme
  | some rest =>
    match rest.splitOn '/' with
    | [project, ns, pod] =>
      if project = [] ∨ ns = [] ∨ pod = [] then .error (.invalidAddress "address")
      else do
        let a : PodAddress := ⟨String.ofList project, String.ofList ns, String.ofList pod⟩
        a.validate
        .ok a
    | _ => .error (.invalidAddress "address")

def PodRevisionAddress.canonicalUri (a : PodRevisionAddress) : Except ResolveError String := do
  a.validate
  let uri ← a.address.canonicalUri
  .ok (uri ++ "@revision:" ++ hexDigest a.semanticRevision ++ "#generation:" ++
    decimal a.generation)

def PodRevisionAddress.parse (value : String) : Except ResolveError PodRevisionAddress :=
  match splitOnce "#generation:".toList value.toList with
  | none => .error (.invalidAddress "generation")
  | some (base, fragment) =>
    match parseNumber fragment with
    | none => .error (.invalidAddress "generation")
    | some generation =>
      match splitOnce "@revision:".toList base with
      | none => .error (.invalidAddress "semantic_revision")
      | some (base, revision) =>
        match parseHexDigest revision with
        | none => .error (.invalidAddress "semantic_revision")
        | some semanticRevision => do
          let address ← PodAddress.parse (String.ofList base)
          let a : PodRevisionAddress := ⟨address, semanticRevision, generation⟩
          a.validate
          .ok a

variable {a : PodAddress} {c : Char} {s : String}

theorem utf8_eq_flatMap (s : String) : utf8 s = s.toList.flatMap String.utf8EncodeChar := by
  rw [utf8, ← String.utf8Encode_toList, utf8Encode]
  simp

/-- A character that stands for one byte which no segment may have is in no
segment. -/
theorem not_mem_of_isSegment {s b} (h : isSegment s = true) (hc : String.utf8EncodeChar c = [b])
    (hb : isSegmentByte b = false) : c ∉ s.toList := by
  intro hmem
  rw [isSegment, Bool.and_eq_true, all_eq_true, utf8_eq_flatMap] at h
  have hbyte := h.2 b (mem_flatMap.mpr ⟨c, hmem, by rw [hc]; exact mem_singleton_self b⟩)
  rw [hb] at hbyte
  cases hbyte

theorem validate_podAddress_ok (h : a.validate = .ok ()) :
    isSegment a.project = true ∧ isSegment a.namespace = true ∧ isSegment a.podId = true := by
  rw [PodAddress.validate, refuse_eq_ok, refuse_eq_ok] at h
  simpa using h

theorem not_mem_uri {b} (h : a.validate = .ok ()) (hc : String.utf8EncodeChar c = [b])
    (hb : isSegmentByte b = false) (hscheme : c ∉ uriScheme.toList) (hslash : c ≠ '/') :
    c ∉ (uriScheme ++ a.project ++ "/" ++ a.namespace ++ "/" ++ a.podId).toList := by
  obtain ⟨hproject, hns, hpod⟩ := validate_podAddress_ok h
  have hp := not_mem_of_isSegment hproject hc hb
  have hn := not_mem_of_isSegment hns hc hb
  have hi := not_mem_of_isSegment hpod hc hb
  simp [hscheme, hp, hn, hi, hslash]

theorem PodAddress.parse_iff : PodAddress.parse s = .ok a ↔ a.canonicalUri = .ok s := by
  rw [PodAddress.parse, PodAddress.canonicalUri, bind_unit_eq_ok]
  constructor
  · intro h
    split at h
    · cases h
    next rest hstrip =>
    split at h
    swap; · cases h
    next project ns pod hsplit =>
    obtain ⟨-, h⟩ := refuse_eq_ok.mp h
    obtain ⟨hvalid, h⟩ := bind_unit_eq_ok.mp h
    cases h
    have hjoin : ['/'].intercalate (rest.splitOn '/') = rest := intercalate_splitOn '/'
    rw [hsplit] at hjoin
    refine ⟨hvalid, congrArg Except.ok (String.toList_inj.mp ?_)⟩
    rw [stripPrefix_eq_some.mp hstrip, ← hjoin]
    simp
  · rintro ⟨hvalid, h⟩
    cases h
    obtain ⟨hproject, hns, hpod⟩ := validate_podAddress_ok hvalid
    have hslash : ∀ {s : String}, isSegment s = true → '/' ∉ s.toList := fun hs =>
      not_mem_of_isSegment (b := 47) hs (by decide) (by decide)
    have hstrip : stripPrefix uriScheme.toList
        (uriScheme ++ a.project ++ "/" ++ a.namespace ++ "/" ++ a.podId).toList =
        some (a.project.toList ++ '/' :: (a.namespace.toList ++ '/' :: a.podId.toList)) := by
      rw [stripPrefix_eq_some]
      simp
    have hfilled : ∀ {s : String}, isSegment s = true → s.toList ≠ [] := fun hs => by
      simpa using (Bool.and_eq_true_iff.mp hs).1
    rw [hstrip]
    simp only [splitOn_three (hslash hproject) (hslash hns) (hslash hpod), String.ofList_toList,
      hvalid, hfilled hproject, hfilled hns, hfilled hpod, or_self, if_false]
    rfl

/-! ### Addresses of revisions -/

theorem PodRevisionAddress.canonicalUri_of_valid {a : PodRevisionAddress}
    (h : a.validate = .ok ()) :
    ∃ uri, a.canonicalUri = .ok uri := by
  rw [PodRevisionAddress.canonicalUri, h, PodAddress.canonicalUri, (bind_unit_eq_ok.mp h).1]
  exact ⟨_, rfl⟩

theorem PodRevisionAddress.parse_iff {a} :
    PodRevisionAddress.parse s = .ok a ↔ a.canonicalUri = .ok s := by
  rw [PodRevisionAddress.parse, PodRevisionAddress.canonicalUri, bind_unit_eq_ok, bind_eq_ok]
  constructor
  · intro h
    split at h
    · cases h
    next base fragment hfragment =>
    split at h
    · cases h
    next generation hgeneration =>
    split at h
    · cases h
    next uri revision hrevision =>
    split at h
    · cases h
    next d hd =>
    obtain ⟨address, haddress, h⟩ := bind_eq_ok.mp h
    obtain ⟨hvalid, h⟩ := bind_unit_eq_ok.mp h
    cases h
    refine ⟨hvalid, _, PodAddress.parse_iff.mp haddress,
      congrArg Except.ok (String.toList_inj.mp ?_)⟩
    rw [splitOnce_eq_some hfragment, splitOnce_eq_some hrevision,
      ← decimal_of_parseNumber hgeneration, ← hexDigest_of_parseHexDigest hd]
    simp
  · rintro ⟨hvalid, uri, huri, h⟩
    cases h
    have haddress := (bind_unit_eq_ok.mp hvalid).1
    have htext : uri = uriScheme ++ a.address.project ++ "/" ++ a.address.namespace ++ "/" ++
        a.address.podId := by
      rw [PodAddress.canonicalUri, haddress] at huri
      exact (Except.ok.inj huri).symm
    let base := uri.toList ++ "@revision:".toList ++ (hexDigest a.semanticRevision).toList
    have hhash : '#' ∉ base := by
      have hnot : '#' ∉ uri.toList :=
        htext ▸ not_mem_uri (b := 35) haddress (by decide) (by decide) (by decide) (by decide)
      have hhex := not_mem_hexDigest (c := '#') (by decide) a.semanticRevision
      rw [mem_append, mem_append, not_or, not_or]
      exact ⟨⟨hnot, by decide⟩, hhex⟩
    have hat : '@' ∉ uri.toList :=
      htext ▸ not_mem_uri (b := 64) haddress (by decide) (by decide) (by decide) (by decide)
    have hgeneration : splitOnce "#generation:".toList
        (uri ++ "@revision:" ++ hexDigest a.semanticRevision ++ "#generation:" ++
          decimal a.generation).toList = some (base, (decimal a.generation).toList) := by
      simp only [String.toList_append]
      exact splitOnce_append hhash
    have hrevision : splitOnce "@revision:".toList base =
        some (uri.toList, (hexDigest a.semanticRevision).toList) := splitOnce_append hat
    rw [hgeneration]
    simp only [parseNumber_decimal, hrevision, parseHexDigest_hexDigest, String.ofList_toList,
      PodAddress.parse_iff.mpr huri]
    exact bind_unit_eq_ok.mpr ⟨hvalid, rfl⟩

/-- **The uri of a pod is exact.**  A text is parsed exactly if it is what the address
prints, and an address prints exactly if it is valid. -/
theorem pod_uri_exact :
    (∀ s a, PodAddress.parse s = .ok a ↔ a.canonicalUri = .ok s) ∧
    (∀ a : PodAddress, a.canonicalUri.isOk = a.validate.isOk) ∧
    (∀ s a, PodRevisionAddress.parse s = .ok a ↔ a.canonicalUri = .ok s) ∧
    ∀ a : PodRevisionAddress, a.canonicalUri.isOk = a.validate.isOk := by
  refine ⟨fun s a => PodAddress.parse_iff, ?_, fun s a => PodRevisionAddress.parse_iff, ?_⟩
  · intro a
    rw [PodAddress.canonicalUri]
    cases a.validate <;> rfl
  · intro a
    cases h : a.validate with
    | error =>
      rw [PodRevisionAddress.canonicalUri, h]
      rfl
    | ok =>
      obtain ⟨uri, huri⟩ := PodRevisionAddress.canonicalUri_of_valid h
      rw [huri]
      rfl

end Ptr
