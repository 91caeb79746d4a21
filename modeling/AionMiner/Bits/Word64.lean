import AionMiner.Bits.Stream
import Mathlib.Tactic.IntervalCases

/-! Words of 64 bits and their eight bytes, the low byte first. -/

namespace Aion.Bits

def word64 (f : ℕ → Byte) : BitVec 64 := f 7 ++ f 6 ++ f 5 ++ f 4 ++ f 3 ++ f 2 ++ f 1 ++ f 0

def bytes64 (x : BitVec 64) : List Byte := (List.range 8).map fun j => x.extractLsb' (8 * j) 8

theorem getLsbD_word64 (f : ℕ → Byte) {i : ℕ} (hi : i < 64) :
    (word64 f).getLsbD i = (f (i / 8)).getLsbD (i % 8) := by
  obtain ⟨q, r, hr, rfl⟩ : ∃ q r, r < 8 ∧ i = 8 * q + r :=
    ⟨i / 8, i % 8, Nat.mod_lt _ (by decide), (Nat.div_add_mod i 8).symm⟩
  have hq : q < 8 := by omega
  rw [Nat.mul_add_div (by decide), Nat.div_eq_of_lt hr, Nat.add_zero, Nat.mul_add_mod,
    Nat.mod_eq_of_lt hr]
  interval_cases q <;> simp (disch := omega) only [word64, BitVec.getLsbD_append, if_pos, if_neg] <;>
    congr 1 <;> omega

theorem word64_congr {f g : ℕ → Byte} (h : ∀ j < 8, f j = g j) : word64 f = word64 g := by
  simp only [word64, h 0 (by decide), h 1 (by decide), h 2 (by decide), h 3 (by decide),
    h 4 (by decide), h 5 (by decide), h 6 (by decide), h 7 (by decide)]

theorem word64_extract (x : BitVec 64) : (word64 fun j => x.extractLsb' (8 * j) 8) = x := by
  apply BitVec.eq_of_getLsbD_eq
  intro i hi
  rw [getLsbD_word64 _ hi, BitVec.getLsbD_extractLsb', Nat.div_add_mod,
    decide_eq_true (Nat.mod_lt _ (by decide)), Bool.true_and]

/-- Bytes that are those of `x`, rotated by `k` places. -/
theorem word64_rotated (x : BitVec 64) {k : ℕ} (hk : k < 8) (f : ℕ → Byte)
    (h : ∀ j < 8, f j = x.extractLsb' (8 * ((j + k) % 8)) 8) : word64 f = x.rotateRight (8 * k) := by
  apply BitVec.eq_of_getLsbD_eq
  intro i hi
  have hmod : i % 8 < 8 := Nat.mod_lt _ (by decide)
  rw [getLsbD_word64 f hi, h _ (by omega), BitVec.getLsbD_extractLsb', decide_eq_true hmod,
    Bool.true_and, BitVec.getLsbD_rotateRight, Nat.mod_eq_of_lt (by omega : 8 * k < 64)]
  by_cases hlt : i < 64 - 8 * k
  · rw [decide_eq_true hlt, cond_true]
    congr 1
    omega
  · rw [decide_eq_false hlt, cond_false, decide_eq_true hi, Bool.true_and]
    congr 1
    omega

theorem extract_extract {w len i n : ℕ} (y : BitVec w) (start : ℕ) (h : i + n ≤ len) :
    (y.extractLsb' start len).extractLsb' i n = y.extractLsb' (start + i) n := by
  apply BitVec.eq_of_getLsbD_eq
  intro j hj
  rw [BitVec.getLsbD_extractLsb', BitVec.getLsbD_extractLsb', BitVec.getLsbD_extractLsb',
    decide_eq_true (by omega : i + j < len), Bool.true_and, Nat.add_assoc]

theorem word64_xor (f g : ℕ → Byte) : (word64 fun j => f j ^^^ g j) = word64 f ^^^ word64 g := by
  apply BitVec.eq_of_getLsbD_eq
  intro i hi
  rw [BitVec.getLsbD_xor, getLsbD_word64 _ hi, getLsbD_word64 _ hi, getLsbD_word64 _ hi,
    BitVec.getLsbD_xor]

@[simp] theorem length_bytes64 (x : BitVec 64) : (bytes64 x).length = 8 := by
  rw [bytes64, List.length_map, List.length_range]

theorem getD_bytes64 (x : BitVec 64) {j : ℕ} (hj : j < 8) : (bytes64 x).getD j 0 = x.extractLsb' (8 * j) 8 := by
  rw [List.getD_eq_getElem _ _ (by rwa [length_bytes64])]
  simp only [bytes64, List.getElem_map, List.getElem_range]

theorem getD_flatMap_bytes64 (xs : List (BitVec 64)) {i j : ℕ} (hj : j < 8) :
    (xs.flatMap bytes64).getD (8 * i + j) 0 = (xs.getD i 0).extractLsb' (8 * j) 8 := by
  induction xs generalizing i with
  | nil =>
    rw [List.flatMap_nil, List.getD_nil, List.getD_nil]
    exact BitVec.extractLsb'_zero.symm
  | cons x xs ih =>
    rw [List.flatMap_cons]
    cases i with
    | zero =>
      rw [Nat.mul_zero, Nat.zero_add, List.getD_append _ _ _ _ (by rwa [length_bytes64]),
        List.getD_cons_zero, getD_bytes64 x hj]
    | succ i =>
      rw [List.getD_append_right _ _ _ _ (by rw [length_bytes64]; omega), length_bytes64,
        List.getD_cons_succ, ← ih]
      congr 1
      omega

end Aion.Bits
