import Mathlib.Data.List.Basic
import Mathlib.Tactic.Common

/-!
# Folds with checkpoints

A fold that keeps a copy of its state after every `n` items.  `foldFrom` goes on from a
position with the copies taken so far, so a fold can be resumed at any checkpoint; what
it keeps is determined by the items alone (`foldFrom_kept`).
-/

namespace Ptr.Lib

open List

variable {σ ω : Type} (f : σ → ω → σ) (n : Nat)

/-- One item at a position: the state after it, and a copy if one is due. -/
def keepStep (i : Nat) (p : σ × List σ) (w : ω) : σ × List σ :=
  (f p.1 w, if (i + 1) % n = 0 then p.2 ++ [f p.1 w] else p.2)

def foldFrom : Nat → σ × List σ → List ω → σ × List σ
  | _, p, [] => p
  | i, p, w :: ws => foldFrom (i + 1) (keepStep f n i p w) ws

def kept (s : σ) (ws : List ω) : List σ :=
  (range (ws.length / n)).map fun k => (ws.take ((k + 1) * n)).foldl f s

variable {f n}

theorem succ_mul_le {k m} (h : k < m / n) : (k + 1) * n ≤ m :=
  Nat.le_trans (Nat.mul_le_mul_right n h) (Nat.div_mul_le_self m n)

theorem kept_nil (s : σ) : kept f n s ([] : List ω) = [] := by simp [kept]

theorem length_kept (s : σ) (ws : List ω) : (kept f n s ws).length = ws.length / n := by simp [kept]

/-- Every state kept is the fold of the items it stands for. -/
theorem getElem?_kept {s x ws k} (h : (kept f n s ws)[k]? = some x) :
    x = (ws.take ((k + 1) * n)).foldl f s ∧ (k + 1) * n ≤ ws.length := by
  rw [kept, getElem?_map, Option.map_eq_some_iff] at h
  obtain ⟨j, hj, rfl⟩ := h
  obtain ⟨hlt, rfl⟩ := List.getElem?_eq_some_iff.mp hj
  rw [length_range] at hlt
  rw [getElem_range]
  exact ⟨rfl, succ_mul_le hlt⟩

theorem kept_append (s : σ) (us ws : List ω) :
    ∃ more, kept f n s (us ++ ws) = kept f n s us ++ more ∧
      ∀ x ∈ more, ∃ m, us.length < m ∧ m ≤ (us ++ ws).length ∧
      x = ((us ++ ws).take m).foldl f s := by
  rcases Nat.eq_zero_or_pos n with rfl | hn
  · exact ⟨[], by simp [kept], by simp⟩
  have hle : us.length / n ≤ (us ++ ws).length / n := Nat.div_le_div_right (by simp)
  refine ⟨((range ((us ++ ws).length / n)).drop (us.length / n)).map fun k =>
    ((us ++ ws).take ((k + 1) * n)).foldl f s, ?_, ?_⟩
  · have hfront : kept f n s us = ((range ((us ++ ws).length / n)).take (us.length / n)).map
        fun k => ((us ++ ws).take ((k + 1) * n)).foldl f s := by
      rw [take_range, Nat.min_eq_left hle]
      refine map_congr_left fun k hk => ?_
      rw [mem_range] at hk
      rw [take_append_of_le_length]
      exact succ_mul_le hk
    rw [hfront, ← map_append, take_append_drop, kept]
  · intro x hx
    obtain ⟨k, hk, rfl⟩ := mem_map.mp hx
    obtain ⟨j, hj⟩ := getElem?_of_mem hk
    rw [getElem?_drop] at hj
    obtain ⟨hlt, rfl⟩ := List.getElem?_eq_some_iff.mp hj
    rw [length_range] at hlt
    rw [getElem_range]
    refine ⟨(us.length / n + j + 1) * n, ?_, succ_mul_le hlt, rfl⟩
    calc us.length < (us.length / n + 1) * n := by
          rw [Nat.add_mul, Nat.one_mul]
          exact Nat.lt_div_mul_add hn
      _ ≤ (us.length / n + j + 1) * n := Nat.mul_le_mul_right n (by omega)

theorem kept_append_singleton (s : σ) (ws : List ω) (w : ω) :
    kept f n s (ws ++ [w]) =
      kept f n s ws ++ if (ws.length + 1) % n = 0 then [(ws ++ [w]).foldl f s] else [] := by
  rcases Nat.eq_zero_or_pos n with rfl | hn
  · simp [kept]
  have hfront : (range (ws.length / n)).map (fun k => ((ws ++ [w]).take ((k + 1) * n)).foldl f s) =
      kept f n s ws := by
    refine map_congr_left fun k hk => ?_
    rw [mem_range] at hk
    rw [take_append_of_le_length]
    exact succ_mul_le hk
  rw [kept, length_append, length_singleton, Nat.succ_div]
  by_cases hdvd : n ∣ ws.length + 1
  · rw [if_pos hdvd, if_pos (Nat.mod_eq_zero_of_dvd hdvd), range_succ, map_append, hfront,
      map_singleton]
    have hall : (ws.length / n + 1) * n = (ws ++ [w]).length := by
      rw [length_append, length_singleton, ← Nat.div_mul_cancel hdvd, Nat.succ_div, if_pos hdvd]
    rw [hall, take_length]
  · rw [if_neg hdvd, if_neg (fun h => hdvd (Nat.dvd_of_mod_eq_zero h)), Nat.add_zero,
      hfront, append_nil]

/-- **What a fold keeps is determined by its items**, wherever it is resumed. -/
theorem foldFrom_kept (s : σ) (us ws : List ω) :
    foldFrom f n us.length (us.foldl f s, kept f n s us) ws =
      ((us ++ ws).foldl f s, kept f n s (us ++ ws)) := by
  induction ws generalizing us with
  | nil => rw [append_nil]; rfl
  | cons w ws ih =>
    have hstep : keepStep f n us.length (us.foldl f s, kept f n s us) w =
        ((us ++ [w]).foldl f s, kept f n s (us ++ [w])) := by
      rw [keepStep, kept_append_singleton, foldl_append]
      dsimp only [foldl_cons, foldl_nil]
      split
      · rfl
      · rw [append_nil]
    rw [foldFrom, hstep]
    have hnext := ih (us ++ [w])
    rw [length_append, append_assoc] at hnext
    exact hnext

/-- The last state kept stands for all but fewer than `n` of the items. -/
theorem getLast?_kept (s : σ) (ws : List ω) :
    (kept f n s ws).getLast?.getD s = (ws.take (ws.length / n * n)).foldl f s := by
  rw [getLast?_eq_getElem?, length_kept]
  cases hq : ws.length / n with
  | zero =>
    have hempty : kept f n s ws = [] := length_eq_zero_iff.mp ((length_kept s ws).trans hq)
    rw [hempty, Nat.zero_mul]
    rfl
  | succ q =>
    have hlt : q < (kept f n s ws).length := by rw [length_kept, hq]; exact Nat.lt_succ_self q
    rw [Nat.succ_sub_one, getElem?_eq_getElem]
    exact (getElem?_kept (getElem?_eq_getElem hlt)).1

theorem kept_take (s : σ) (ws : List ω) :
    kept f n s (ws.take (ws.length / n * n)) = kept f n s ws := by
  rcases Nat.eq_zero_or_pos n with rfl | hn
  · simp [kept]
  have hlen : (ws.take (ws.length / n * n)).length = ws.length / n * n :=
    length_take_of_le (Nat.div_mul_le_self _ _)
  rw [kept, hlen, Nat.mul_div_cancel _ hn]
  refine map_congr_left fun k hk => ?_
  rw [mem_range] at hk
  rw [take_take, Nat.min_eq_left (Nat.mul_le_mul_right n hk)]

end Ptr.Lib
