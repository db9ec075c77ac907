import Mathlib.Tactic.Common
import Std.Data.ExtTreeMap
import Std.Data.ExtTreeSet

/-!
# Folds over keyed entries

A fold that touches the entry of one key at a time, over entries with distinct
keys, is seen key by key: an entry of the list changes what is stored under its
own key and nothing else.  `group` is the fold that collects pairs by their first
component, and `insertAll` the one that stores values under keys they carry.
-/

namespace Ptr.Lib

open Std List ExtTreeMap

-- the fact that comparing maps to key sets needs, by name
instance lawfulBEqKeySet : LawfulBEq (ExtTreeSet String) := inferInstance

section

variable {κ σ β ν : Type} {view : σ → κ → ν} {step : σ → β → σ}

/-- Each entry acts on what is stored under its key. -/
theorem foldl_view (key : β → κ) (f : β → ν → ν)
    (hkey : ∀ s b, view (step s b) (key b) = f b (view s (key b)))
    (hother : ∀ s b k, k ≠ key b → view (step s b) k = view s k) {bs : List β}
    (hnodup : (bs.map key).Nodup) (s : σ) :
    (∀ b ∈ bs, view (bs.foldl step s) (key b) = f b (view s (key b))) ∧
      ∀ k, k ∉ bs.map key → view (bs.foldl step s) k = view s k := by
  induction bs generalizing s with
  | nil => exact ⟨fun b hb => absurd hb not_mem_nil, fun _ _ => rfl⟩
  | cons b bs ih =>
    rw [map_cons, nodup_cons] at hnodup
    obtain ⟨hin, hout⟩ := ih hnodup.2 (step s b)
    rw [foldl_cons]
    constructor
    · intro c hc
      rcases mem_cons.mp hc with rfl | hc
      · rw [hout _ hnodup.1, hkey]
      · rw [hin c hc, hother]
        rintro heq
        exact hnodup.1 (heq ▸ mem_map_of_mem hc)
    · intro k hk
      rw [map_cons, mem_cons, not_or] at hk
      rw [hout k hk.2, hother s b k hk.1]

end

variable {α β : Type} [Ord α] [TransOrd α] [LawfulEqOrd α] {ps : List (α × β)}
  {m : ExtTreeMap α β} {a : α}
  {key : β → α}

/-- `entry(a).or_default().push(b)`. -/
def pushAt (m : ExtTreeMap α (List β)) (p : α × β) : ExtTreeMap α (List β) :=
  m.insert p.1 (m.getD p.1 [] ++ [p.2])

def group (ps : List (α × β)) : ExtTreeMap α (List β) := ps.foldl pushAt ∅

theorem getD_foldl_pushAt (ps : List (α × β)) (m : ExtTreeMap α (List β)) (a : α) :
    (ps.foldl pushAt m).getD a [] = m.getD a [] ++
      (ps.filter (compare ·.1 a == .eq)).map Prod.snd := by
  induction ps generalizing m with
  | nil => simp
  | cons p ps ih =>
    rw [foldl_cons, ih, pushAt, getD_insert]
    by_cases h : compare p.1 a = .eq
    · obtain rfl := LawfulEqOrd.eq_of_compare h
      simp
    · simp [h]

theorem getD_group (ps : List (α × β)) (a : α) :
    (group ps).getD a [] = (ps.filter (compare ·.1 a == .eq)).map Prod.snd := by
  rw [group, getD_foldl_pushAt]
  simp

theorem mem_foldl_pushAt (ps : List (α × β)) (m : ExtTreeMap α (List β)) (a : α) :
    a ∈ ps.foldl pushAt m ↔ a ∈ m ∨ ∃ b, (a, b) ∈ ps := by
  induction ps generalizing m with
  | nil => simp
  | cons p ps ih =>
    obtain ⟨a', b'⟩ := p
    rw [foldl_cons, ih, pushAt, mem_insert, LawfulEqOrd.compare_eq_iff_eq]
    constructor
    · rintro ((rfl | hm) | ⟨b, hb⟩)
      · exact .inr ⟨b', mem_cons_self⟩
      · exact .inl hm
      · exact .inr ⟨b, mem_cons_of_mem _ hb⟩
    · rintro (hm | ⟨b, hb⟩)
      · exact .inl (.inr hm)
      · rcases mem_cons.mp hb with heq | hb
        · exact .inl (.inl (Prod.mk.inj heq).1.symm)
        · exact .inr ⟨b, hb⟩

theorem mem_group : a ∈ group ps ↔ ∃ b, (a, b) ∈ ps := by
  rw [group, mem_foldl_pushAt]
  simp

theorem mem_getD_group {b} : b ∈ (group ps).getD a [] ↔ (a, b) ∈ ps := by
  rw [getD_group, mem_map]
  constructor
  · rintro ⟨p, hp, rfl⟩
    rw [mem_filter] at hp
    obtain rfl := LawfulEqOrd.eq_of_compare (eq_of_beq hp.2)
    exact hp.1
  · intro h
    exact ⟨(a, b), mem_filter.mpr ⟨h, by simp⟩, rfl⟩

/-! ### One entry -/

omit [LawfulEqOrd α] in
theorem mem_iff_some : a ∈ m ↔ ∃ b, m[a]? = some b := by
  rw [ExtTreeMap.mem_iff_isSome_getElem?, Option.isSome_iff_exists]

omit [LawfulEqOrd α] in
theorem mem_of_some {b : β} (h : m[a]? = some b) : a ∈ m := mem_iff_some.mpr ⟨b, h⟩

theorem getElem?_insert_ne {v : β} {k} (h : k ≠ a) : (m.insert k v)[a]? = m[a]? :=
  ExtTreeMap.getElem?_insert.trans (if_neg fun heq => h (LawfulEqOrd.eq_of_compare heq))

theorem insert_eq_self {v : β} {k} (h : m[k]? = some v) : m.insert k v = m := by
  refine ext_getElem? fun a => ?_
  by_cases hk : k = a
  · rw [← hk, ExtTreeMap.getElem?_insert_self, h]
  · exact getElem?_insert_ne hk

theorem some_of_insert {v w : β} {k} (h : (m.insert k v)[a]? = some w) :
    k = a ∧ v = w ∨ k ≠ a ∧ m[a]? = some w := by
  rw [ExtTreeMap.getElem?_insert] at h
  split at h
  · next heq =>
    cases h
    exact .inl ⟨LawfulEqOrd.eq_of_compare heq, rfl⟩
  · next hne => exact .inr ⟨fun heq => hne (by simp [heq]), h⟩

theorem some_of_erase {w : β} {k} (h : (m.erase k)[a]? = some w) : a ≠ k ∧ m[a]? = some w := by
  rw [ExtTreeMap.getElem?_erase] at h
  split at h
  · cases h
  · next hne => exact ⟨fun heq => hne (by simp [heq]), h⟩

/-- What is under a key stays there, or gives way to what `R` allows. -/
def Onward (R : β → β → Prop) (m n : ExtTreeMap α β) : Prop :=
  ∀ ⦃a : α⦄ ⦃old⦄, m[a]? = some old → ∃ new, n[a]? = some new ∧ (new = old ∨ R old new)

omit [LawfulEqOrd α] in
theorem Onward.refl {R : β → β → Prop} : Onward R m m := fun _ old h => ⟨old, h, .inl rfl⟩

omit [LawfulEqOrd α] in
theorem Onward.trans {R : β → β → Prop} {n o} (hR : ∀ {x y z}, R x y → R y z → R x z)
    (h : Onward R m n) (h' : Onward R n o) : Onward R m o := by
  intro a old hold
  obtain ⟨mid, hmid, rfl | hstep⟩ := h hold
  · exact h' hmid
  · obtain ⟨new, hnew, rfl | hstep'⟩ := h' hmid
    · exact ⟨new, hnew, .inr hstep⟩
    · exact ⟨new, hnew, .inr (hR hstep hstep')⟩

theorem onward_insert {R : β → β → Prop} {k} {v : β} (h : ∀ old, m[k]? = some old → R old v) :
    Onward R m (m.insert k v) := by
  intro a old hold
  rw [ExtTreeMap.getElem?_insert]
  split
  · next heq => exact ⟨v, rfl, .inr (h old (LawfulEqOrd.eq_of_compare heq ▸ hold))⟩
  · exact ⟨old, hold, .inl rfl⟩

theorem mem_insert_or {v : β} {k} : a ∈ m.insert k v ↔ k = a ∨ a ∈ m := by
  rw [ExtTreeMap.mem_insert, LawfulEqOrd.compare_eq_iff_eq]

/-! ### Values that carry their key -/

def insertAll (key : β → α) (m : ExtTreeMap α β) (bs : List β) : ExtTreeMap α β :=
  bs.foldl (fun m b => m.insert (key b) b) m

theorem insertAll_some {bs b} (h : (insertAll key m bs)[a]? = some b) :
    b ∈ bs ∧ key b = a ∨ m[a]? = some b ∧ ∀ c ∈ bs, key c ≠ a := by
  induction bs generalizing m with
  | nil => exact .inr ⟨h, by simp⟩
  | cons c bs ih =>
    rcases ih h with ⟨hmem, hkey⟩ | ⟨hold, hne⟩
    · exact .inl ⟨mem_cons_of_mem _ hmem, hkey⟩
    · obtain ⟨hkey, rfl⟩ | ⟨hkey, hold⟩ := some_of_insert hold
      · exact .inl ⟨mem_cons_self, hkey⟩
      · exact .inr ⟨hold, forall_mem_cons.mpr ⟨hkey, hne⟩⟩

theorem mem_insertAll {bs} : a ∈ insertAll key m bs ↔ a ∈ bs.map key ∨ a ∈ m := by
  induction bs generalizing m with
  | nil => simp [insertAll]
  | cons b bs ih =>
    rw [insertAll, foldl_cons, ← insertAll, ih, mem_insert, map_cons, mem_cons,
      LawfulEqOrd.compare_eq_iff_eq, eq_comm, ← or_assoc, or_comm (a := a ∈ bs.map key)]

theorem insertAll_values (h : ∀ {a b}, m[a]? = some b → key b = a) :
    insertAll key ∅ (m.toList.map Prod.snd) = m := by
  have hstored : ∀ b ∈ m.toList.map Prod.snd, m[key b]? = some b := by
    intro b hb
    obtain ⟨⟨a, b⟩, hmem, rfl⟩ := mem_map.mp hb
    have hlookup := ExtTreeMap.mem_toList_iff_getElem?_eq_some.mp hmem
    rwa [h hlookup]
  apply ExtTreeMap.ext_getElem?
  intro a
  cases hrebuilt : (insertAll key ∅ (m.toList.map Prod.snd))[a]? with
  | some b =>
    rcases insertAll_some hrebuilt with ⟨hmem, rfl⟩ | ⟨hempty, -⟩
    · exact (hstored b hmem).symm
    · simp at hempty
  | none =>
    cases hm : m[a]? with
    | none => rfl
    | some b =>
      have hmem : a ∈ insertAll key ∅ (m.toList.map Prod.snd) := by
        refine mem_insertAll.mpr (.inl (mem_map.mpr ⟨b, ?_, h hm⟩))
        exact mem_map.mpr ⟨(a, b), ExtTreeMap.mem_toList_iff_getElem?_eq_some.mpr hm, rfl⟩
      rw [ExtTreeMap.mem_iff_isSome_getElem?, hrebuilt] at hmem
      cases hmem

/-! ### Pairs stored one by one -/

def store (m : ExtTreeMap α β) (p : α × β) : ExtTreeMap α β := m.insert p.1 p.2

omit [LawfulEqOrd α] in
theorem size_le_foldl_store (ps : List (α × β)) (m : ExtTreeMap α β) :
    m.size ≤ (ps.foldl store m).size := by
  induction ps generalizing m with
  | nil => exact Nat.le_refl _
  | cons p ps ih => exact Nat.le_trans size_le_size_insert (ih _)

theorem getElem?_foldl_store (hnodup : (ps.map Prod.fst).Nodup) {b : β} :
    (ps.foldl store (∅ : ExtTreeMap α β))[a]? = some b ↔ (a, b) ∈ ps := by
  have hother : ∀ m (p : α × β) k, k ≠ p.1 → (store m p)[k]? = m[k]? := fun m p k hk =>
    getElem?_insert_ne hk.symm
  obtain ⟨hin, hout⟩ := @foldl_view α (ExtTreeMap α β) (α × β) (Option β)
    (fun m k => m[k]?) store Prod.fst (fun p _ => some p.2)
    (fun m p => ExtTreeMap.getElem?_insert_self) hother ps hnodup ∅
  constructor
  · intro h
    by_cases hmem : a ∈ ps.map Prod.fst
    · obtain ⟨p, hp, rfl⟩ := mem_map.mp hmem
      have heq := (hin p hp).symm.trans h
      cases heq
      exact hp
    · have hnone := (hout a hmem).symm.trans h
      simp at hnone
  · exact fun h => hin (a, b) h

theorem foldl_store_toList (m : ExtTreeMap α β) : m.toList.foldl store ∅ = m := by
  refine ext_getElem? fun a => Option.ext fun b => ?_
  rw [getElem?_foldl_store, mem_toList_iff_getElem?_eq_some]
  rw [map_fst_toList_eq_keys]
  exact nodup_keys

theorem foldl_insert_toList (s : ExtTreeSet α) :
    s.toList.foldl (fun s a => s.insert a) (∅ : ExtTreeSet α) = s := by
  have hmem : ∀ (as : List α) (t : ExtTreeSet α) a,
      a ∈ as.foldl (fun s a => s.insert a) t ↔ a ∈ as ∨ a ∈ t := by
    intro as
    induction as with
    | nil => simp
    | cons b as ih =>
      intro t a
      rw [foldl_cons, ih, ExtTreeSet.mem_insert, LawfulEqOrd.compare_eq_iff_eq, mem_cons]
      constructor
      · rintro (h | rfl | h)
        · exact .inl (.inr h)
        · exact .inl (.inl rfl)
        · exact .inr h
      · rintro ((rfl | h) | h)
        · exact .inr (.inl rfl)
        · exact .inl h
        · exact .inr (.inr h)
  refine ExtTreeSet.ext_mem fun a => ?_
  rw [hmem]
  simp

end Ptr.Lib
