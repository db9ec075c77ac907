import Ptr.Lib.Stored
import Ptr.Runtime.History

/-!
# Projections kept in the materialized values

The taint registry and the pod heads are kept a second time, as entries of the
materialized values, and are rebuilt from them after a restart.  `readPodHead` and
`readTaint` read one entry; what a record writes is read back as what the record did
to the registry.
-/

namespace Ptr.Runtime

open Lib Ledger List

/-! ### Digests -/

/-- `parse_digest`: no entry has the digest zero. -/
def parseDigest (text : List Char) : Option Digest :=
  (parseHexDigest text).filter fun d => d ≠ Digest.zero

variable {x : TaintSubject}

theorem parseDigest_hexDigest {d} (h : d ≠ Digest.zero) :
    parseDigest (hexDigest d).toList = some d := by
  rw [parseDigest, parseHexDigest_hexDigest]
  simp [h]

theorem hexDigest_of_parseDigest {text d} (h : parseDigest text = some d) :
    (hexDigest d).toList = text :=
  hexDigest_of_parseHexDigest (Option.filter_eq_some_iff.mp h).1

/-! ### Pod heads -/

def podHeadPrefix : String := "pod-head:"

/-- One entry of `from_materialized`: the entry must be the one its own address
belongs to. -/
def readPodHead (key value : String) :
    Except RuntimeError (Option ((ProjectId × PodIdentity) × PodRevisionAddress)) :=
  match stripPrefix podHeadPrefix.toList key.toList with
  | none => .ok none
  | some rest =>
    match PodRevisionAddress.parse value with
    | .error _ => .error (.podHeadMalformed key)
    | .ok a =>
      match splitOnce ['/'] rest with
      | none => .error (.podHeadMalformed key)
      | some (project, identity) =>
        if project = [] ∨ identity = [] ∨ a.address.project.toList ≠ project then
          .error (.podHeadMalformed key)
        else .ok (some ((String.ofList project, String.ofList identity), a))

theorem readPodHead_eq_some {key value x a} (h : readPodHead key value = .ok (some (x, a))) :
    ∃ rest, stripPrefix podHeadPrefix.toList key.toList = some rest ∧
      splitOnce ['/'] rest = some (x.1.toList, x.2.toList) := by
  rw [readPodHead] at h
  cases hstrip : stripPrefix podHeadPrefix.toList key.toList with
  | none => simp [hstrip] at h
  | some rest =>
    refine ⟨rest, rfl, ?_⟩
    simp only [hstrip] at h
    cases hparse : PodRevisionAddress.parse value with
    | error => simp [hparse] at h
    | ok =>
      simp only [hparse] at h
      cases hsplit : splitOnce ['/'] rest with
      | none => simp [hsplit] at h
      | some =>
        simp only [hsplit, refuse_eq_ok] at h
        obtain ⟨-, rfl, -⟩ := h
        simp

def podHeadFormat : EntryFormat RuntimeError (ProjectId × PodIdentity) PodRevisionAddress where
  under key := hasPrefix podHeadPrefix key
  key x := podHeadKey x.1 x.2
  read := readPodHead
  key_of_read {k v x b} h := by
    obtain ⟨rest, hstrip, hsplit⟩ := readPodHead_eq_some h
    have hk := stripPrefix_eq_some.mp hstrip
    have hrest := splitOnce_eq_some hsplit
    rw [← String.toList_inj, hk, hrest]
    simp [podHeadKey, podHeadPrefix, String.toList_append]
  read_same {k v v' x b x' b'} h h' := by
    obtain ⟨rest, hstrip, hsplit⟩ := readPodHead_eq_some h
    obtain ⟨rest', hstrip', hsplit'⟩ := readPodHead_eq_some h'
    rw [hstrip, Option.some.injEq] at hstrip'
    subst hstrip'
    rw [hsplit, Option.some.injEq, Prod.mk.injEq, String.toList_inj, String.toList_inj] at hsplit'
    exact Prod.ext hsplit'.1.symm hsplit'.2.symm

def PodHeads.fromMaterialized (values : Std.ExtTreeMap String String) :
    Except RuntimeError PodHeads :=
  podHeadFormat.rebuild (fun _ => .ok ()) values

theorem parse_podHeadEntry {a} (h : a.validate = .ok ()) :
    PodRevisionAddress.parse (podHeadEntry a) = .ok a := by
  obtain ⟨uri, huri⟩ := PodRevisionAddress.canonicalUri_of_valid h
  rw [podHeadEntry, huri]
  exact PodRevisionAddress.parse_iff.mpr huri

theorem readPodHead_entry {a} (hcheck : checkPodHeadAdvanced a = .ok ())
    (hvalid : a.new.validate = .ok ()) :
    readPodHead (podHeadKey a.project a.identity) (podHeadEntry a.new) =
      .ok (some ((a.project, a.identity), a.new)) := by
  rw [checkPodHeadAdvanced, refuse_eq_ok, refuse_eq_ok, not_or, not_or, not_or, not_or] at hcheck
  obtain ⟨⟨hidentity, -, -⟩, ⟨hproject, hslash, hsame⟩, -⟩ := hcheck
  have hstrip : stripPrefix podHeadPrefix.toList (podHeadKey a.project a.identity).toList =
      some (a.project.toList ++ ['/'] ++ a.identity.toList) := by
    rw [stripPrefix_eq_some]
    simp [podHeadKey, podHeadPrefix]
  have hsplit : splitOnce ['/'] (a.project.toList ++ ['/'] ++ a.identity.toList) =
      some (a.project.toList, a.identity.toList) := splitOnce_append (by simpa using hslash)
  have hparts : ¬ (a.project.toList = [] ∨ a.identity.toList = [] ∨
        a.new.address.project.toList ≠ a.project.toList) := by
    rw [String.isEmpty_iff] at hproject hidentity
    simpa [not_not.mp hsame] using ⟨hproject, hidentity⟩
  rw [readPodHead, hstrip]
  simp only [parse_podHeadEntry hvalid, hsplit, if_neg hparts, String.ofList_toList]

/-! ### Taint -/

def kvTaintPrefix : String := "kv-taint:"

def taintKindOf (name : List Char) : Option KvTaintSubjectKind :=
  [KvTaintSubjectKind.action, .derivation, .content, .podOutput, .request].find? fun k =>
    (taintKindName k).toList = name

def malformedTaint (reason : String) : RuntimeError := .kvTaint (.malformedStateEntry reason)

def parseTaintSubject (rest : List Char) : Except RuntimeError TaintSubject :=
  match splitOnce [':'] rest with
  | none => .error (malformedTaint "key has no digest")
  | some (name, hex) =>
    match taintKindOf name with
    | none => .error (malformedTaint "unknown subject kind")
    | some kind =>
      match parseDigest hex with
      | none => .error (malformedTaint "bad subject digest")
      | some digest => .ok (kind, digest)

def parseTaintValue (value : List Char) : Except RuntimeError (Option TaintEntry) :=
  match stripPrefix "cleared:".toList value with
  | some cleared =>
    match parseDigest cleared with
    | none => .error (malformedTaint "bad recompute digest")
    | some _ => .ok none
  | none =>
    match stripPrefix "approx:".toList value with
    | none => .error (malformedTaint "unknown value form")
    | some approx =>
      match splitOnce [':'] approx with
      | none => .error (malformedTaint "approx value has no recipe")
      | some (report, recipe) =>
        match parseDigest report with
        | none => .error (malformedTaint "bad report digest")
        | some report =>
          match parseDigest recipe with
          | none => .error (malformedTaint "bad recipe digest")
          | some recipe => .ok (some ⟨report, recipe⟩)

def readTaint (key value : String) : Except RuntimeError (Option (TaintSubject × TaintEntry)) :=
  match stripPrefix kvTaintPrefix.toList key.toList with
  | none => .ok none
  | some rest => do
    let subject ← parseTaintSubject rest
    let entry ← parseTaintValue value.toList
    .ok (entry.map fun e => (subject, e))

theorem taintKindOf_name (k : KvTaintSubjectKind) :
    taintKindOf (taintKindName k).toList = some k := by
  cases k <;> decide

theorem name_of_taintKindOf {name k} (h : taintKindOf name = some k) :
    (taintKindName k).toList = name := by
  simpa using find?_some h

theorem parseTaintSubject_ok {rest} (h : parseTaintSubject rest = .ok x) :
    rest = (taintKindName x.1).toList ++ [':'] ++ (hexDigest x.2).toList := by
  rw [parseTaintSubject] at h
  cases hsplit : splitOnce [':'] rest with
  | none => simp [hsplit] at h
  | some p =>
    simp only [hsplit] at h
    cases hkind : taintKindOf p.1 with
    | none => simp [hkind] at h
    | some =>
      simp only [hkind] at h
      cases hdigest : parseDigest p.2 with
      | none => simp [hdigest] at h
      | some =>
        simp only [hdigest, Except.ok.injEq] at h
        subst h
        rw [splitOnce_eq_some hsplit, name_of_taintKindOf hkind, hexDigest_of_parseDigest hdigest]

theorem readTaint_eq_some {key value e} (h : readTaint key value = .ok (some (x, e))) :
    ∃ rest, stripPrefix kvTaintPrefix.toList key.toList = some rest ∧
      parseTaintSubject rest = .ok x := by
  rw [readTaint] at h
  cases hstrip : stripPrefix kvTaintPrefix.toList key.toList with
  | none => simp [hstrip] at h
  | some rest =>
    simp only [hstrip] at h
    obtain ⟨subject, hsubject, h⟩ := bind_eq_ok.mp h
    obtain ⟨entry, -, h⟩ := bind_eq_ok.mp h
    rw [Except.ok.injEq, Option.map_eq_some_iff] at h
    obtain ⟨e', -, heq⟩ := h
    obtain ⟨rfl, -⟩ := Prod.mk.inj heq
    exact ⟨rest, rfl, hsubject⟩

def taintFormat : EntryFormat RuntimeError TaintSubject TaintEntry where
  under key := hasPrefix kvTaintPrefix key
  key := taintKey
  read := readTaint
  key_of_read {k v x b} h := by
    obtain ⟨rest, hstrip, hsubject⟩ := readTaint_eq_some h
    rw [← String.toList_inj, stripPrefix_eq_some.mp hstrip, parseTaintSubject_ok hsubject]
    simp [taintKey, kvTaintPrefix, String.toList_append]
  read_same {k v v' x b x' b'} h h' := by
    obtain ⟨rest, hstrip, hsubject⟩ := readTaint_eq_some h
    obtain ⟨rest', hstrip', hsubject'⟩ := readTaint_eq_some h'
    rw [hstrip, Option.some.injEq] at hstrip'
    subst hstrip'
    rw [hsubject, Except.ok.injEq] at hsubject'
    exact hsubject'.symm

/-- `room_for(1)`. -/
def taintRoom (limit live : Nat) : Except RuntimeError Unit :=
  if limit < live + 1 then .error (.kvTaintRegistryFull limit) else .ok ()

def Taint.fromMaterializedWithin (values : Std.ExtTreeMap String String) (limit : Nat) :
    Except RuntimeError Taint :=
  taintFormat.rebuild (taintRoom limit) values

def Taint.fromMaterialized (values : Std.ExtTreeMap String String) : Except RuntimeError Taint :=
  Taint.fromMaterializedWithin values maxLiveTaintSubjects

def changedEntry : KvTaintChange → Option TaintEntry
  | .record report recipe => some ⟨report, recipe⟩
  | .clear _ _ => none

theorem parseTaintValue_entry {change} (h : change.digestsOk = true) :
    parseTaintValue (taintEntry change).toList = .ok (changedEntry change) := by
  cases change with
  | record report recipe =>
    simp only [KvTaintChange.digestsOk, Bool.and_eq_true, decide_eq_true_eq] at h
    have hcleared : stripPrefix "cleared:".toList
        (taintEntry (.record report recipe)).toList = none := by
      simp [stripPrefix, taintEntry]
    have happrox : stripPrefix "approx:".toList (taintEntry (.record report recipe)).toList =
        some ((hexDigest report).toList ++ [':'] ++ (hexDigest recipe).toList) := by
      rw [stripPrefix_eq_some]
      simp [taintEntry]
    have hsplit : splitOnce [':']
        ((hexDigest report).toList ++ [':'] ++ (hexDigest recipe).toList) =
        some ((hexDigest report).toList, (hexDigest recipe).toList) :=
      splitOnce_append (not_mem_hexDigest (by decide) report)
    simp only [parseTaintValue, hcleared, happrox, hsplit, parseDigest_hexDigest h.1,
      parseDigest_hexDigest h.2, changedEntry]
  | clear recipe recompute =>
    simp only [KvTaintChange.digestsOk, Bool.and_eq_true, decide_eq_true_eq] at h
    have hcleared : stripPrefix "cleared:".toList (taintEntry (.clear recipe recompute)).toList =
        some (hexDigest recompute).toList := by
      rw [stripPrefix_eq_some]
      simp [taintEntry]
    simp only [parseTaintValue, hcleared, parseDigest_hexDigest h.2, changedEntry]

theorem readTaint_entry {change} (hx : x.2 ≠ Digest.zero) (h : change.digestsOk = true) :
    readTaint (taintKey x) (taintEntry change) =
      .ok ((changedEntry change).map fun e => (x, e)) := by
  have hstrip : stripPrefix kvTaintPrefix.toList (taintKey x).toList =
      some ((taintKindName x.1).toList ++ [':'] ++ (hexDigest x.2).toList) := by
    rw [stripPrefix_eq_some]
    simp [taintKey, kvTaintPrefix]
  have hcolon : ':' ∉ (taintKindName x.1).toList := by cases x.1 <;> decide
  have hsubject :
      parseTaintSubject ((taintKindName x.1).toList ++ [':'] ++ (hexDigest x.2).toList) =
      .ok x := by
    have hsplit : splitOnce [':'] ((taintKindName x.1).toList ++ [':'] ++ (hexDigest x.2).toList) =
        some ((taintKindName x.1).toList, (hexDigest x.2).toList) := splitOnce_append hcolon
    simp only [parseTaintSubject, hsplit, taintKindOf_name, parseDigest_hexDigest hx]
  rw [readTaint, hstrip]
  simp only [hsubject, parseTaintValue_entry h]
  rfl

end Ptr.Runtime
