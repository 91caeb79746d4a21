import Mathlib.Algebra.BigOperators.Ring.Finset
import Mathlib.Algebra.Order.BigOperators.Group.List
import Mathlib.Algebra.Order.Floor.Semiring
import Mathlib.Data.Rat.Floor
import Mathlib.Tactic.FieldSimp
import Mathlib.Tactic.Linarith

/-! A whole number that is split in proportion to some weights, each part rounded down. -/

namespace Aion.Store.Parts

/-- The part of one weight. -/
def part (whole : ℕ) (total weight : ℚ) : ℕ := ⌊whole * (weight / total)⌋₊

variable {weights : List ℚ}

theorem sum_exact (htotal : weights.sum ≠ 0) (whole : ℚ) :
    (weights.map fun weight => whole * (weight / weights.sum)).sum = whole := by
  generalize htotal' : weights.sum = total at htotal ⊢
  have hmap : (weights.map fun weight => whole * (weight / total)) =
      weights.map fun weight => whole / total * weight :=
    List.map_congr_left fun weight _ => by field_simp
  rw [hmap, List.sum_map_mul_left, List.map_id', htotal', div_mul_cancel₀ _ htotal]

theorem sum_part_le (hweights : ∀ weight ∈ weights, 0 ≤ weight) (whole : ℕ) :
    (weights.map (part whole weights.sum)).sum ≤ whole := by
  by_cases htotal : weights.sum = 0
  · have hzero : weights.map (part whole weights.sum) = weights.map fun _ => 0 := by
      refine List.map_congr_left fun weight _ => ?_
      rw [part, htotal, div_zero, mul_zero, Nat.floor_zero]
    rw [hzero, List.map_const', List.sum_replicate, nsmul_zero]
    exact Nat.zero_le whole
  · have htotal' : 0 ≤ weights.sum := List.sum_nonneg hweights
    have hle : (weights.map fun weight => (part whole weights.sum weight : ℚ)).sum ≤
        (weights.map fun weight => (whole : ℚ) * (weight / weights.sum)).sum := by
      refine List.sum_le_sum fun weight hweight => Nat.floor_le ?_
      exact mul_nonneg whole.cast_nonneg (div_nonneg (hweights weight hweight) htotal')
    rw [sum_exact htotal] at hle
    have hcast : ((weights.map (part whole weights.sum)).sum : ℚ) =
        (weights.map fun weight => (part whole weights.sum weight : ℚ)).sum := by
      rw [Nat.cast_list_sum, List.map_map]
      rfl
    exact_mod_cast hcast.trans_le hle

/-- Less than one for each weight is left over. -/
theorem lt_sum_part (htotal : weights.sum ≠ 0) (whole : ℕ) :
    whole < (weights.map (part whole weights.sum)).sum + weights.length := by
  have hne : weights ≠ [] := by
    rintro rfl
    exact htotal rfl
  have hlt : (weights.map fun weight => (whole : ℚ) * (weight / weights.sum)).sum <
      (weights.map fun weight => (part whole weights.sum weight : ℚ) + 1).sum :=
    List.sum_lt_sum_of_ne_nil hne _ _ fun weight _ => Nat.lt_floor_add_one _
  rw [sum_exact htotal, List.sum_map_add] at hlt
  have hcast : (((weights.map (part whole weights.sum)).sum + weights.length : ℕ) : ℚ) =
      (weights.map fun weight => (part whole weights.sum weight : ℚ)).sum + (weights.map fun _ => (1 : ℚ)).sum := by
    rw [Nat.cast_add, Nat.cast_list_sum, List.map_map, List.map_const', List.sum_replicate, nsmul_one]
    rfl
  rw [← hcast] at hlt
  exact_mod_cast hlt

end Aion.Store.Parts
