import Ptr.Lib.Checks
import Ptr.Lib.Keyed

/-!
# A map kept as entries of another map

A map can be kept as entries of a map from texts to texts, under keys of its own
kind, and be rebuilt from them (`rebuild`).  An entry may also say that there is
nothing any more.  `Reflects` says that the entries and the map agree; it is kept
when both are changed together, and while it holds the map is what the entries are
rebuilt to (`Reflects.rebuild`).
-/

namespace Ptr.Lib

open Std List ExtTreeMap

/-- How a map is kept: which keys are its own, and what an entry says. -/
structure EntryFormat (ε κ β : Type) where
  under : String → Bool
  key : κ → String
  read : String → String → Except ε (Option (κ × β))
  key_of_read : ∀ {k v x b}, read k v = .ok (some (x, b)) → k = key x
  read_same : ∀ {k v v' x b x' b'}, read k v = .ok (some (x, b)) →
    read k v' = .ok (some (x', b')) → x' = x

namespace EntryFormat

variable {ε κ β : Type} [Ord κ] [TransOrd κ] [LawfulEqOrd κ] (F : EntryFormat ε κ β)

def add (room : Nat → Except ε Unit) (m : ExtTreeMap κ β) (e : String × String) :
    Except ε (ExtTreeMap κ β) := do
  match ← F.read e.1 e.2 with
  | none => .ok m
  | some (x, b) => do
    room m.size
    .ok (m.insert x b)

def rebuild (room : Nat → Except ε Unit) (values : ExtTreeMap String String) :
    Except ε (ExtTreeMap κ β) :=
  (values.toList.filter fun e => F.under e.1).foldlM (F.add room) ∅

/-- The entries of `values` and the map `live` say the same. -/
structure Reflects (values : ExtTreeMap String String) (live : ExtTreeMap κ β) : Prop where
  reads : ∀ k v, values[k]? = some v → F.under k = true →
    ∃ o, F.read k v = .ok o ∧ ∀ x b, o = some (x, b) → live[x]? = some b
  held : ∀ (x : κ) b, live[x]? = some b →
    ∃ v, values[F.key x]? = some v ∧ F.under (F.key x) = true ∧
    F.read (F.key x) v = .ok (some (x, b))

variable {F} {values : ExtTreeMap String String} {live : ExtTreeMap κ β}

omit [LawfulEqOrd κ] in
theorem reflects_empty : F.Reflects ∅ (∅ : ExtTreeMap κ β) where
  reads k v h := by simp at h
  held x b h := by simp at h

omit [LawfulEqOrd κ] in
theorem Reflects.insert_other (h : F.Reflects values live) {k} (v : String)
    (hk : F.under k = false) :
    F.Reflects (values.insert k v) live := by
  have hne : ∀ {k'}, F.under k' = true → compare k k' ≠ .eq := by
    intro k' hunder heq
    obtain rfl := LawfulEqOrd.eq_of_compare heq
    rw [hk] at hunder
    cases hunder
  constructor
  · intro k' v' hv hunder
    rw [ExtTreeMap.getElem?_insert, if_neg (hne hunder)] at hv
    exact h.reads k' v' hv hunder
  · intro x b hx
    obtain ⟨v', hv, hunder, hread⟩ := h.held x b hx
    refine ⟨v', ?_, hunder, hread⟩
    rw [ExtTreeMap.getElem?_insert, if_neg (hne hunder), hv]

omit [LawfulEqOrd κ] in
theorem Reflects.set_other (h : F.Reflects values live) {entries : List (String × String)}
    (hother : ∀ p ∈ entries, F.under p.1 = false) :
    F.Reflects (entries.foldl (fun m p => m.insert p.1 p.2) values) live := by
  induction entries generalizing values with
  | nil => exact h
  | cons p entries ih =>
    rw [forall_mem_cons] at hother
    exact ih (h.insert_other p.2 hother.1) hother.2

/-- An entry under a key that is about `x` says what `x` is from now on. -/
theorem Reflects.put (h : F.Reflects values live) {x b o v w live'}
    (hx : F.read (F.key x) w = .ok (some (x, b))) (hread : F.read (F.key x) v = .ok (o.map (x, ·)))
    (hunder : o.isSome → F.under (F.key x) = true)
    (hlive : ∀ y : κ, live'[y]? = if compare x y = .eq then o else live[y]?) :
    F.Reflects (values.insert (F.key x) v) live' := by
  constructor
  · intro k v' hv hk
    obtain ⟨rfl, rfl⟩ | ⟨hne, hv⟩ := some_of_insert hv
    · refine ⟨_, hread, fun y c hy => ?_⟩
      obtain ⟨c, rfl, hy⟩ := Option.map_eq_some_iff.mp hy
      cases hy
      rw [hlive, if_pos ReflOrd.compare_self]
    · obtain ⟨o', ho, hheld⟩ := h.reads k v' hv hk
      refine ⟨o', ho, ?_⟩
      rintro y c rfl
      rw [hlive, if_neg, hheld y c rfl]
      intro heq
      obtain rfl := LawfulEqOrd.eq_of_compare heq
      exact hne (F.key_of_read ho).symm
  · intro y c hy
    rw [hlive] at hy
    split at hy
    · next heq =>
      obtain rfl := LawfulEqOrd.eq_of_compare heq
      subst hy
      exact ⟨v, ExtTreeMap.getElem?_insert_self, hunder rfl, hread⟩
    · next hne =>
      obtain ⟨v', hv, hyunder, hyread⟩ := h.held y c hy
      refine ⟨v', ?_, hyunder, hyread⟩
      rw [getElem?_insert_ne, hv]
      intro hkey
      rw [← hkey] at hyread
      exact hne (by rw [F.read_same hx hyread]; exact ReflOrd.compare_self)

theorem Reflects.insert (h : F.Reflects values live) {x b v} (hunder : F.under (F.key x) = true)
    (hread : F.read (F.key x) v = .ok (some (x, b))) :
    F.Reflects (values.insert (F.key x) v) (live.insert x b) :=
  h.put (o := some b) hread hread (fun _ => hunder) fun _ => getElem?_insert

theorem Reflects.erase (h : F.Reflects values live) {x b v w}
    (hx : F.read (F.key x) w = .ok (some (x, b))) (hread : F.read (F.key x) v = .ok none) :
    F.Reflects (values.insert (F.key x) v) (live.erase x) :=
  h.put (o := none) hx hread nofun fun _ => getElem?_erase

/-! ### Rebuilding -/

variable (F) in
def found (es : List (String × String)) : List (κ × β) :=
  es.filterMap fun e => (F.read e.1 e.2).toOption.join

theorem foldlM_add {room es m} (hread : ∀ e ∈ es, ∃ o, F.read e.1 e.2 = .ok o)
    (hnodup : ((F.found es).map Prod.fst).Nodup) (hnew : ∀ p ∈ F.found es, p.1 ∉ m)
    (hroom : ∀ n < ((F.found es).foldl store m).size, room n = .ok ()) :
    es.foldlM (F.add room) m = .ok ((F.found es).foldl store m) := by
  induction es generalizing m with
  | nil => rfl
  | cons e es ih =>
    obtain ⟨o, ho⟩ := hread e mem_cons_self
    have hrest : ∀ e ∈ es, ∃ o, F.read e.1 e.2 = .ok o := fun e' he' =>
      hread e' (mem_cons_of_mem _ he')
    rw [foldlM_cons, add, ho]
    cases o with
    | none =>
      have hfound : F.found (e :: es) = F.found es := by simp [found, ho, Except.toOption]
      rw [hfound] at hnodup hnew hroom ⊢
      exact ih hrest hnodup hnew hroom
    | some p =>
      obtain ⟨x, b⟩ := p
      have hfound : F.found (e :: es) = (x, b) :: F.found es := by simp [found, ho, Except.toOption]
      rw [hfound] at hnodup hnew hroom ⊢
      rw [map_cons, nodup_cons] at hnodup
      have hx : x ∉ m := hnew (x, b) mem_cons_self
      have hsize : m.size < ((F.found es).foldl store (m.insert x b)).size := by
        have h := size_le_foldl_store (F.found es) (m.insert x b)
        rw [ExtTreeMap.size_insert, if_neg (mt ExtTreeMap.contains_iff_mem.mp hx)] at h
        exact h
      have hadd : (room m.size >>= fun _ => .ok (m.insert x b)) = .ok (m.insert x b) := by
        rw [hroom _ hsize]
        rfl
      change ((room m.size >>= fun _ => .ok (m.insert x b)) >>= fun m => es.foldlM (F.add room) m) =
        _
      rw [hadd]
      refine ih hrest hnodup.2 ?_ hroom
      intro p hp hmem
      rcases ExtTreeMap.mem_insert.mp hmem with heq | hmem
      · exact hnodup.1 (mem_map.mpr ⟨p, hp, (LawfulEqOrd.eq_of_compare heq).symm⟩)
      · exact hnew p (mem_cons_of_mem _ hp) hmem

omit [Ord κ] [TransOrd κ] [LawfulEqOrd κ] in
theorem mem_found {es p} : p ∈ F.found es ↔ ∃ e ∈ es, F.read e.1 e.2 = .ok (some p) := by
  rw [found, mem_filterMap]
  refine exists_congr fun e => and_congr_right fun _ => ?_
  cases F.read e.1 e.2 with
  | error => simp [Except.toOption]
  | ok o => cases o <;> simp [Except.toOption]

/-- **The map is what its entries are rebuilt to.** -/
theorem Reflects.rebuild (h : F.Reflects values live) {room}
    (hroom : ∀ n < live.size, room n = .ok ()) : F.rebuild room values = .ok live := by
  have hmem : ∀ {e}, e ∈ values.toList.filter (fun e => F.under e.1) ↔
      values[e.1]? = some e.2 ∧ F.under e.1 = true := by
    intro e
    rw [mem_filter, ← mem_toList_iff_getElem?_eq_some]
  have hnodup : ((F.found (values.toList.filter fun e => F.under e.1)).map Prod.fst).Nodup := by
    rw [found, Nodup, pairwise_map, pairwise_filterMap]
    refine (distinct_keys_toList.filter _).imp ?_
    intro e e' hne p hp p' hp' heq
    have hread : ∀ {e : String × String} {p : κ × β}, (F.read e.1 e.2).toOption.join = some p →
        F.read e.1 e.2 = .ok (some p) := by
      intro e p h
      cases hr : F.read e.1 e.2 with
      | error => simp [hr, Except.toOption] at h
      | ok => simp [hr, Except.toOption] at h; rw [h]
    have hk := F.key_of_read (hread hp)
    have hk' := F.key_of_read (hread hp')
    rw [← heq, ← hk] at hk'
    exact hne (by rw [hk']; exact ReflOrd.compare_self)
  have hlive : (F.found (values.toList.filter fun e => F.under e.1)).foldl store ∅ = live := by
    refine ext_getElem? fun x => Option.ext fun b => ?_
    rw [getElem?_foldl_store hnodup, mem_found]
    constructor
    · rintro ⟨e, he, hread⟩
      obtain ⟨hv, hunder⟩ := hmem.mp he
      obtain ⟨o, ho, hheld⟩ := h.reads e.1 e.2 hv hunder
      rw [hread, Except.ok.injEq] at ho
      exact hheld x b ho.symm
    · intro hx
      obtain ⟨v, hv, hunder, hread⟩ := h.held x b hx
      exact ⟨(F.key x, v), hmem.mpr ⟨hv, hunder⟩, hread⟩
  rw [EntryFormat.rebuild, foldlM_add, hlive]
  · intro e he
    obtain ⟨hv, hunder⟩ := hmem.mp he
    obtain ⟨o, ho, -⟩ := h.reads e.1 e.2 hv hunder
    exact ⟨o, ho⟩
  · exact hnodup
  · intro p _
    simp
  · rw [hlive]
    exact hroom

end EntryFormat

end Ptr.Lib
