import AionMiner.Bits.Little
import AionMiner.Miner.Arith

/-! What the operations of `arith_uint256` do to the number that the limbs stand for. -/

namespace Aion.Miner
open Bits Equihash Text

section Limbs

theorem leNat_addLimbs (carry : ℕ) {xs ys : List (BitVec 32)} (hlen : xs.length = ys.length) :
    leNat (addLimbs carry xs ys) = (carry + leNat xs + leNat ys) % 2 ^ (32 * xs.length) := by
  induction xs generalizing carry ys with
  | nil =>
    cases ys with
    | nil => exact (Nat.mod_one _).symm
    | cons y ys => cases hlen
  | cons x xs ih =>
    cases ys with
    | nil => cases hlen
    | cons y ys =>
      have hsum : carry + leNat (x :: xs) + leNat (y :: ys) =
          carry + x.toNat + y.toNat + 2 ^ 32 * (leNat xs + leNat ys) := by
        rw [leNat_cons, leNat_cons]
        ring
      rw [hsum, addLimbs, leNat_cons, ih _ (Nat.succ_injective hlen), BitVec.toNat_ofNat,
        List.length_cons, Nat.mul_succ, Nat.add_comm _ 32, Nat.pow_add, Nat.mod_mul,
        Nat.add_mul_mod_self_left, Nat.add_mul_div_left _ _ (by decide), Nat.add_assoc (_ / _)]

/-- The part of a limb that comes from the limb `k` below. -/
def shifted (a : List (BitVec 32)) (k shift j : ℕ) : BitVec 32 := if k ≤ j then a.getD (j - k) 0 <<< shift else 0

/-- The part that comes from the limb below that one. -/
def carried (a : List (BitVec 32)) (k shift j : ℕ) : BitVec 32 :=
  if k < j ∧ shift ≠ 0 then a.getD (j - k - 1) 0 >>> (32 - shift) else 0

theorem getD_modify_or (pn : List (BitVec 32)) (n : ℕ) (x : BitVec 32) {j : ℕ}
    (hj : j < pn.length) :
    (pn.modify n (· ||| x)).getD j 0 = pn.getD j 0 ||| if n = j then x else 0 := by
  rw [List.getD_eq_getElem?_getD, List.getD_eq_getElem?_getD, List.getElem?_modify,
    List.getElem?_eq_getElem hj]
  split_ifs
  · rfl
  · exact (BitVec.or_zero).symm

theorem getD_shiftStep (a : List (BitVec 32)) (k shift : ℕ) {pn : List (BitVec 32)} (hpn : pn.length = 8)
    (i : ℕ) {j : ℕ}
    (hj : j < 8) :
    (shiftStep a k shift pn i).getD j 0 =
      pn.getD j 0 ||| (if i + k + 1 = j then carried a k shift j else 0) |||
        if i + k = j then shifted a k shift j else 0 := by
  have hshifted : (if i + k = j then shifted a k shift j else 0) =
      if i + k = j then a.getD i 0 <<< shift else 0 := by
    split_ifs with h
    · rw [shifted, if_pos (h ▸ Nat.le_add_left k i), ← h, Nat.add_sub_cancel]
    · rfl
  have hcarried : pn.getD j 0 ||| (if i + k + 1 = j then carried a k shift j else 0) =
      (if i + k + 1 < 8 ∧ shift ≠ 0 then pn.modify (i + k + 1) (· ||| a.getD i 0 >>> (32 - shift))
        else pn).getD j 0 := by
    split_ifs with h hstep hstep
    · rw [getD_modify_or pn _ _ (hpn ▸ hj), if_pos h, carried, if_pos ⟨by omega, hstep.2⟩,
        show j - k - 1 = i by omega]
    · have hshift : ¬(k < j ∧ shift ≠ 0) := fun hc => hstep ⟨h ▸ hj, hc.2⟩
      rw [carried, if_neg hshift]
      exact BitVec.or_zero
    · rw [getD_modify_or pn _ _ (hpn ▸ hj), if_neg h]
    · exact BitVec.or_zero
  rw [hcarried, hshifted]
  unfold shiftStep
  generalize hpn' : (if i + k + 1 < 8 ∧ shift ≠ 0 then pn.modify (i + k + 1) (· ||| a.getD i 0 >>> (32 - shift))
    else pn) = pn'
  have hlen : pn'.length = 8 := by
    rw [← hpn']
    split_ifs
    · rw [List.length_modify, hpn]
    · exact hpn
  dsimp only
  split_ifs with hstep h h
  · rw [getD_modify_or pn' _ _ (hlen ▸ hj), if_pos h]
  · rw [getD_modify_or pn' _ _ (hlen ▸ hj), if_neg h]
  · exact absurd (h ▸ hj) hstep
  · exact BitVec.or_zero.symm

theorem or_window (x : BitVec 32) (n j : ℕ) :
    ((if j < n then x else 0) ||| if n = j then x else 0) = if j < n + 1 then x else 0 := by
  obtain h | h | h := Nat.lt_trichotomy j n
  · rw [if_pos h, if_neg h.ne', if_pos (Nat.lt_succ_of_lt h)]
    exact BitVec.or_zero
  · rw [if_neg h.not_lt, if_pos h.symm, if_pos (Nat.lt_succ_of_le h.le)]
    exact BitVec.zero_or
  · rw [if_neg h.le.not_gt, if_neg h.ne, if_neg (Nat.not_lt.mpr h)]
    exact BitVec.or_zero

theorem getD_shiftPasses (a : List (BitVec 32)) (k shift m : ℕ) {j : ℕ} (hj : j < 8) :
    ((List.range m).foldl (shiftStep a k shift) (List.replicate 8 0)).length = 8 ∧
      ((List.range m).foldl (shiftStep a k shift) (List.replicate 8 0)).getD j 0 =
        (if j < m + k + 1 then carried a k shift j else 0) ||| if j < m + k then shifted a k shift j else 0 := by
  induction m with
  | zero =>
    have hcarried : (if j < 0 + k + 1 then carried a k shift j else 0) = 0 := by
      split_ifs with hk
      · exact if_neg fun hc => by omega
      · rfl
    have hshifted : (if j < 0 + k then shifted a k shift j else 0) = 0 := by
      split_ifs with hk
      · exact if_neg (by omega)
      · rfl
    rw [hcarried, hshifted, List.range_zero, List.foldl_nil, List.getD_replicate 0 hj]
    exact ⟨rfl, rfl⟩
  | succ m ih =>
    obtain ⟨hlen, hlimb⟩ := ih
    rw [List.range_succ, List.foldl_append, List.foldl_cons, List.foldl_nil]
    refine ⟨(length_shiftStep ..).trans hlen, ?_⟩
    rw [getD_shiftStep a k shift hlen m hj, hlimb, show m + 1 + k = m + k + 1 by omega,
      ← or_window (carried a k shift j) (m + k + 1), ← or_window (shifted a k shift j) (m + k)]
    ac_rfl

theorem getD_shiftLimbs (a : List (BitVec 32)) (k shift : ℕ) {j : ℕ} (hj : j < 8) :
    (shiftLimbs a k shift).getD j 0 = carried a k shift j ||| shifted a k shift j := by
  have hlimb := (getD_shiftPasses a k shift 8 hj).2
  rwa [if_pos (by omega), if_pos (by omega)] at hlimb

/-- Shifting multiplies by a power of two, as far as the limbs reach. -/
theorem leNat_shiftLimbs (a : List (BitVec 32)) (k : ℕ) {shift : ℕ} (hshift : shift < 32) :
    leNat (shiftLimbs a k shift) = 2 ^ (32 * k + shift) * leNat a % 2 ^ 256 := by
  apply Nat.eq_of_testBit_eq
  intro i
  rw [Nat.testBit_mod_two_pow, Nat.testBit_two_pow_mul]
  by_cases hi : i < 256
  swap
  · have hlt : leNat (shiftLimbs a k shift) < 2 ^ i := by
      have hbound := leNat_lt (shiftLimbs a k shift)
      rw [length_shiftLimbs] at hbound
      exact hbound.trans_le (Nat.pow_le_pow_right (by decide) (by omega))
    rw [Nat.testBit_lt_two_pow hlt, decide_eq_false hi, Bool.false_and]
  rw [decide_eq_true hi, Bool.true_and, testBit_leNat (by decide), testBit_leNat (by decide),
    getD_shiftLimbs a k shift (Nat.div_lt_of_lt_mul hi), BitVec.getLsbD_or]
  have hdiv := Nat.div_add_mod i 32
  have hmod := Nat.mod_lt i (show 32 > 0 by decide)
  obtain ⟨j, t, rfl, ht⟩ : ∃ j t, i = 32 * j + t ∧ t < 32 := ⟨_, _, hdiv.symm, hmod⟩
  rw [show (32 * j + t) / 32 = j by omega, show (32 * j + t) % 32 = t by omega]
  unfold carried shifted
  obtain hlow | hlow := Nat.lt_or_ge t shift
  · -- the bit has left the limb below
    have hshifted : (if k ≤ j then a.getD (j - k) 0 <<< shift else 0).getLsbD t = false := by
      split_ifs
      · rw [BitVec.getLsbD_shiftLeft, decide_eq_true hlow, Bool.not_true, Bool.and_false,
          Bool.false_and]
      · exact BitVec.getLsbD_zero
    rw [hshifted, Bool.or_false]
    by_cases hk : k < j
    · rw [if_pos ⟨hk, by omega⟩, BitVec.getLsbD_ushiftRight, decide_eq_true (by omega),
        Bool.true_and, show (32 * j + t - (32 * k + shift)) / 32 = j - k - 1 by omega,
        show (32 * j + t - (32 * k + shift)) % 32 = 32 - shift + t by omega]
    · rw [if_neg fun hc => hk hc.1, decide_eq_false (by omega), Bool.false_and]
      exact BitVec.getLsbD_zero
  · have hcarried : (if k < j ∧ shift ≠ 0 then a.getD (j - k - 1) 0 >>> (32 - shift) else 0).getLsbD t = false := by
      split_ifs
      · rw [BitVec.getLsbD_ushiftRight]
        exact BitVec.getLsbD_of_ge _ _ (by omega)
      · exact BitVec.getLsbD_zero
    rw [hcarried, Bool.false_or]
    by_cases hk : k ≤ j
    · rw [if_pos hk, BitVec.getLsbD_shiftLeft, decide_eq_true ht, decide_eq_false hlow.not_gt,
        Bool.not_false, Bool.true_and, Bool.true_and, decide_eq_true (by omega), Bool.true_and,
        show (32 * j + t - (32 * k + shift)) / 32 = j - k by omega,
        show (32 * j + t - (32 * k + shift)) % 32 = t - shift by omega]
    · rw [if_neg hk, decide_eq_false (by omega), Bool.false_and]
      exact BitVec.getLsbD_zero

theorem leNat_writeLE32 (x : BitVec 32) : leNat (writeLE32 x) = x.toNat := by
  have hx := x.isLt
  simp only [writeLE32, leNat_cons, leNat_nil, BitVec.extractLsb'_toNat, Nat.shiftRight_eq_div_pow]
  omega

theorem leNat_flatMap (pn : List (BitVec 32)) : leNat (pn.flatMap writeLE32) = leNat pn := by
  induction pn with
  | nil => rfl
  | cons x pn ih =>
    rw [List.flatMap_cons, leNat_append, leNat_writeLE32, length_writeLE32, ih, leNat_cons]

end Limbs

namespace Arith256

def toNat (a : Arith256) : ℕ := leNat a.pn

theorem toNat_lt (a : Arith256) : a.toNat < 2 ^ 256 := by
  have h := leNat_lt a.pn
  rwa [a.width] at h

theorem toNat_inj {a b : Arith256} (h : a.toNat = b.toNat) : a = b := by
  obtain ⟨pn, width⟩ := a
  obtain ⟨pn', width'⟩ := b
  have hpn : pn = pn' := leNat_inj (width.trans width'.symm) h
  subst hpn
  rfl

theorem toNat_add (a b : Arith256) : (a.add b).toNat = (a.toNat + b.toNat) % 2 ^ 256 := by
  unfold toNat add
  rw [leNat_addLimbs 0 (a.width.trans b.width.symm), a.width, Nat.zero_add]

theorem toNat_or (a b : Arith256) : (a.or b).toNat = a.toNat ||| b.toNat :=
  leNat_zipWith_or (a.width.trans b.width.symm)

theorem toNat_shiftLeft (a : Arith256) (shift : ℕ) :
    (a.shiftLeft shift).toNat = 2 ^ shift * a.toNat % 2 ^ 256 := by
  unfold toNat shiftLeft
  rw [leNat_shiftLimbs _ _ (Nat.mod_lt _ (by decide)), Nat.div_add_mod]

theorem toNat_ofUInt64 (b : BitVec 64) : (ofUInt64 b).toNat = b.toNat := by
  have hb := b.isLt
  unfold toNat ofUInt64
  rw [leNat_append, leNat_zeros, leNat_cons, leNat_cons, leNat_nil, BitVec.toNat_setWidth,
    BitVec.toNat_setWidth, BitVec.toNat_ushiftRight, Nat.shiftRight_eq_div_pow]
  omega

theorem leNat_data (a : Arith256) : leNat (arithToUint256 a).data = a.toNat := leNat_flatMap a.pn

theorem toNat_uintToArith256 (a : Uint256) : (uintToArith256 a).toNat = leNat a.data := by
  rw [← leNat_data, arithToUint256_uintToArith256]

/-- The first bytes, as a number. -/
theorem take_data_iff (a : Arith256) {bytes : List Byte} (hlen : bytes.length ≤ 32) :
    (arithToUint256 a).data.take bytes.length = bytes ↔
      a.toNat % 2 ^ (8 * bytes.length) = leNat bytes := by
  rw [← leNat_data, ← leNat_take]
  constructor
  · intro h
    rw [h]
  · apply leNat_inj
    rw [List.length_take, (arithToUint256 a).width, Nat.min_eq_left hlen]

end Arith256
end Aion.Miner
