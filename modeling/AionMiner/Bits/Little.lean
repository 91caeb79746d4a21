import Mathlib.Data.Nat.Bitwise
import Mathlib.Data.Nat.Digits.Defs

/-! Words of one width, low word first, as the digits of a number. -/

namespace Aion.Bits

variable {w : ℕ}

def leNat (xs : List (BitVec w)) : ℕ := Nat.ofDigits (2 ^ w) (xs.map BitVec.toNat)

theorem lt_of_mem_toNat {xs : List (BitVec w)} : ∀ n ∈ xs.map BitVec.toNat, n < 2 ^ w := by
  intro n hn
  obtain ⟨x, -, rfl⟩ := List.mem_map.mp hn
  exact x.isLt

@[simp] theorem leNat_nil : leNat ([] : List (BitVec w)) = 0 := rfl

@[simp] theorem leNat_cons (x : BitVec w) (xs : List (BitVec w)) :
    leNat (x :: xs) = x.toNat + 2 ^ w * leNat xs :=
  Nat.ofDigits_cons

theorem leNat_append (xs ys : List (BitVec w)) :
    leNat (xs ++ ys) = leNat xs + 2 ^ (w * xs.length) * leNat ys := by
  rw [leNat, List.map_append, Nat.ofDigits_append, List.length_map, ← Nat.pow_mul]
  rfl

theorem leNat_zeros (n : ℕ) : leNat (List.replicate n (0 : BitVec w)) = 0 := by
  rw [leNat, List.map_replicate]
  exact Nat.ofDigits_replicate_zero

theorem leNat_lt (xs : List (BitVec w)) : leNat xs < 2 ^ (w * xs.length) := by
  induction xs with
  | nil => exact Nat.two_pow_pos _
  | cons x xs ih =>
    rw [leNat_cons, List.length_cons, Nat.mul_succ, Nat.add_comm _ w, Nat.pow_add]
    calc x.toNat + 2 ^ w * leNat xs < 2 ^ w + 2 ^ w * leNat xs := Nat.add_lt_add_right x.isLt _
      _ = 2 ^ w * (leNat xs + 1) := by rw [Nat.mul_succ, Nat.add_comm]
      _ ≤ 2 ^ w * 2 ^ (w * xs.length) := Nat.mul_le_mul_left _ ih

theorem leNat_take (xs : List (BitVec w)) (k : ℕ) : leNat (xs.take k) = leNat xs % 2 ^ (w * k) := by
  rw [leNat, leNat, List.map_take, Nat.pow_mul]
  exact (Nat.ofDigits_mod_pow_eq_ofDigits_take k (Nat.two_pow_pos w) _ lt_of_mem_toNat).symm

theorem leNat_inj {xs ys : List (BitVec w)} (hlen : xs.length = ys.length)
    (h : leNat xs = leNat ys) : xs = ys := by
  induction xs generalizing ys with
  | nil => exact (List.length_eq_zero_iff.mp hlen.symm).symm
  | cons x xs ih =>
    cases ys with
    | nil => cases hlen
    | cons y ys =>
      rw [leNat_cons, leNat_cons] at h
      have hlow := congrArg (· % 2 ^ w) h
      simp only [Nat.add_mul_mod_self_left, Nat.mod_eq_of_lt (BitVec.isLt _)] at hlow
      rw [hlow] at h
      have hhigh := Nat.eq_of_mul_eq_mul_left (Nat.two_pow_pos w) (Nat.add_left_cancel h)
      rw [BitVec.eq_of_toNat_eq hlow, ih (Nat.succ_injective hlen) hhigh]

/-- The bits of a number are those of its words. -/
theorem testBit_leNat (hw : 0 < w) (xs : List (BitVec w)) (i : ℕ) :
    (leNat xs).testBit i = (xs.getD (i / w) 0).getLsbD (i % w) := by
  induction xs generalizing i with
  | nil =>
    rw [leNat_nil, Nat.zero_testBit, List.getD_nil]
    exact BitVec.getLsbD_zero.symm
  | cons x xs ih =>
    rw [leNat_cons, Nat.add_comm, Nat.testBit_two_pow_mul_add _ x.isLt]
    split_ifs with hi
    · rw [Nat.div_eq_of_lt hi, Nat.mod_eq_of_lt hi, List.getD_cons_zero, BitVec.testBit_toNat]
    · have hle : w ≤ i := Nat.not_lt.mp hi
      rw [ih, Nat.div_eq_sub_div hw hle, List.getD_cons_succ, Nat.mod_eq_sub_mod hle]

theorem leNat_zipWith_or {xs ys : List (BitVec w)} (hlen : xs.length = ys.length) :
    leNat (List.zipWith (· ||| ·) xs ys) = leNat xs ||| leNat ys := by
  induction xs generalizing ys with
  | nil =>
    rw [List.length_eq_zero_iff.mp hlen.symm, List.zipWith_nil_left, leNat_nil, Nat.zero_or]
  | cons x xs ih =>
    cases ys with
    | nil => cases hlen
    | cons y ys =>
      rw [List.zipWith_cons_cons, leNat_cons, leNat_cons, leNat_cons, ih (Nat.succ_injective hlen)]
      apply Nat.eq_of_testBit_eq
      intro i
      simp only [Nat.add_comm _ (2 ^ w * _), Nat.testBit_or,
        Nat.testBit_two_pow_mul_add _ (BitVec.isLt _)]
      split_ifs
      · rw [BitVec.toNat_or, Nat.testBit_or]
      · rfl

end Aion.Bits
