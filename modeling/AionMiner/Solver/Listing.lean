import AionMiner.Wagner.Forest
import Mathlib.Data.List.GetD
import Mathlib.Data.List.Nodup
import Mathlib.Order.Nat

/-! `orderindices`, which both solvers use to bring the two halves of a list of
leaves into order, and the order it makes. -/

namespace Aion.Solver
open Wagner

/-- Puts the half with the smaller first index in front. -/
def orderindices (indices : List ℕ) (size : ℕ) : List ℕ :=
  if indices.getD 0 0 > indices.getD size 0 then
    (List.range size).foldl (fun ind i =>
      (ind.set i (ind.getD (size + i) 0)).set (size + i) (ind.getD i 0)) indices
  else indices

section Order
variable {a b : List ℕ} {size : ℕ}

/-- After `n` swaps the first `n` entries of the halves have changed places. -/
theorem getElem?_swaps (hlen : size + size = (a ++ b).length) : ∀ n ≤ size, ∀ x,
    ((List.range n).foldl (fun ind i =>
      (ind.set i (ind.getD (size + i) 0)).set (size + i) (ind.getD i 0)) (a ++ b))[x]? =
      if x < n then (a ++ b)[size + x]?
      else if size ≤ x ∧ x < size + n then (a ++ b)[x - size]? else (a ++ b)[x]? := by
  intro n
  induction n with
  | zero =>
    intro _ x
    rw [if_neg (Nat.not_lt_zero x), if_neg (by omega)]
    rfl
  | succ n ih =>
    intro hn x
    have ih := ih (by omega)
    rw [List.range_succ, List.foldl_append, List.foldl_cons, List.foldl_nil]
    set ind := (List.range n).foldl (fun ind i =>
      (ind.set i (ind.getD (size + i) 0)).set (size + i) (ind.getD i 0)) (a ++ b) with hind
    have hread : ∀ y, y < size + size → ind[y]? = some (ind.getD y 0) := by
      intro y hy
      have : ∃ v, ind[y]? = some v := by
        rw [ih y]
        split_ifs
        · exact ⟨_, List.getElem?_eq_getElem (by omega)⟩
        · exact ⟨_, List.getElem?_eq_getElem (by omega)⟩
        · exact ⟨_, List.getElem?_eq_getElem (by omega)⟩
      obtain ⟨v, hv⟩ := this
      rw [List.getD_eq_getElem?_getD, hv]
      rfl
    have hindlen : ∀ y, y < size + size → y < ind.length := fun y hy =>
      (List.getElem?_eq_some_iff.mp (hread y hy)).1
    rw [List.getElem?_set, List.getElem?_set, List.length_set]
    by_cases h1 : size + n = x
    · rw [if_pos h1, if_pos (hindlen _ (by omega)), if_neg (by omega), if_pos (by omega),
        ← hread n (by omega), ih n, if_neg (by omega), if_neg (by omega)]
      congr 1
      omega
    · rw [if_neg h1]
      by_cases h2 : n = x
      · rw [if_pos h2, if_pos (hindlen _ (by omega)), if_pos (by omega),
          ← hread (size + n) (by omega), ih, if_neg (by omega), if_neg (by omega), h2]
      · rw [if_neg h2, ih x]
        by_cases h3 : x < n
        · rw [if_pos h3, if_pos (by omega)]
        · rw [if_neg h3, if_neg (show ¬x < n + 1 by omega)]
          by_cases h4 : size ≤ x ∧ x < size + n
          · rw [if_pos h4, if_pos (by omega)]
          · rw [if_neg h4, if_neg (by omega)]

theorem getD_append_length (ha : a.length = size) : (a ++ b).getD size 0 = b.headD 0 := by
  rw [List.getD_append_right _ _ _ _ (by omega), ha, Nat.sub_self]
  cases b <;> rfl

theorem getD_zero_append (ha : a.length = size) (hpos : 0 < size) :
    (a ++ b).getD 0 0 = a.headD 0 := by
  cases a with
  | nil => exact absurd ha (by rw [List.length_nil]; omega)
  | cons x a => rfl

theorem orderindices_append (ha : a.length = size) (hb : b.length = size) (hpos : 0 < size) :
    orderindices (a ++ b) size = mergeOrder a b := by
  have hlen : size + size = (a ++ b).length := by rw [List.length_append, ha, hb]
  rw [orderindices, getD_zero_append ha hpos, getD_append_length ha, mergeOrder]
  change (if b.headD 0 < a.headD 0 then _ else _) = if b.headD 0 < a.headD 0 then _ else _
  split
  · refine List.ext_getElem? fun x => ?_
    rw [getElem?_swaps hlen size (Nat.le_refl _) x]
    by_cases hx : x < size
    · rw [if_pos hx, List.getElem?_append_right (by omega), List.getElem?_append_left (by omega)]
      congr 1
      omega
    · rw [if_neg hx]
      by_cases hx2 : x < size + size
      · rw [if_pos (by omega), List.getElem?_append_left (by omega),
          List.getElem?_append_right (by omega)]
        congr 1
        omega
      · rw [if_neg (by omega), List.getElem?_eq_none_iff.mpr (by omega),
          List.getElem?_eq_none_iff.mpr (by rw [List.length_append]; omega)]
  · rfl

theorem mergeOrder_heads_ne (ha : a.length = size) (hb : b.length = size) (hpos : 0 < size)
    (hnd : (mergeOrder a b).Nodup) : (mergeOrder a b).getD 0 0 ≠ (mergeOrder a b).getD size 0 := by
  have hlen : (mergeOrder a b).length = size + size := by rw [length_mergeOrder, ha, hb]
  rw [List.getD_eq_getElem _ _ (by omega), List.getD_eq_getElem _ _ (by omega)]
  intro h
  exact absurd (hnd.getElem_inj_iff.mp h) (by omega)

end Order
end Aion.Solver
