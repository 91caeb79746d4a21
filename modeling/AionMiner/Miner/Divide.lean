import AionMiner.Miner.Multiply
import Mathlib.Data.Nat.Size

/-! The loops of `arith_uint256` that go down the limbs, and division, which is made of them. -/

namespace Aion.Miner
open Bits

section Code

def shiftRightStep (a : List (BitVec 32)) (k shift : ℕ) (pn : List (BitVec 32)) (i : ℕ) : List (BitVec 32) :=
  let pn := if k + 1 ≤ i ∧ shift ≠ 0 then pn.modify (i - k - 1) (· ||| a.getD i 0 <<< (32 - shift)) else pn
  if k ≤ i then pn.modify (i - k) (· ||| a.getD i 0 >>> shift) else pn

/-- The loop of `>>=`. -/
def shiftRightLimbs (a : List (BitVec 32)) (k shift : ℕ) : List (BitVec 32) :=
  (List.range 8).foldl (shiftRightStep a k shift) (List.replicate 8 0)

/-- The loop of `CompareTo`, from limb `n - 1` down. -/
def compareFrom (a b : List (BitVec 32)) : ℕ → ℤ
  | 0 => 0
  | i + 1 => if a.getD i 0 < b.getD i 0 then -1 else if a.getD i 0 > b.getD i 0 then 1 else compareFrom a b i

/-- The inner loop of `bits`, from bit `n` down. -/
def limbBits (x : BitVec 32) : ℕ → ℕ
  | 0 => 1
  | bits + 1 => if x &&& 1#32 <<< (bits + 1) ≠ 0 then bits + 1 + 1 else limbBits x bits

/-- The outer loop of `bits`, from limb `n - 1` down. -/
def bitsFrom (pn : List (BitVec 32)) : ℕ → ℕ
  | 0 => 0
  | pos + 1 => if pn.getD pos 0 ≠ 0 then 32 * pos + limbBits (pn.getD pos 0) 31 else bitsFrom pn pos

end Code

section ShiftRight

theorem length_shiftRightStep (a : List (BitVec 32)) (k shift : ℕ) (pn : List (BitVec 32)) (i : ℕ) :
    (shiftRightStep a k shift pn i).length = pn.length := by
  unfold shiftRightStep
  split_ifs <;> simp

def fallen (a : List (BitVec 32)) (k shift j : ℕ) : BitVec 32 :=
  if shift ≠ 0 then a.getD (j + k + 1) 0 <<< (32 - shift) else 0

theorem getD_shiftRightStep (a : List (BitVec 32)) (k shift : ℕ) {pn : List (BitVec 32)} (hpn : pn.length = 8)
    (i : ℕ) {j : ℕ} (hj : j < 8) :
    (shiftRightStep a k shift pn i).getD j 0 =
      pn.getD j 0 ||| (if j + k + 1 = i then fallen a k shift j else 0) |||
        if j + k = i then a.getD (j + k) 0 >>> shift else 0 := by
  have hfallen : pn.getD j 0 ||| (if j + k + 1 = i then fallen a k shift j else 0) =
      (if k + 1 ≤ i ∧ shift ≠ 0 then pn.modify (i - k - 1) (· ||| a.getD i 0 <<< (32 - shift))
        else pn).getD j 0 := by
    unfold fallen
    split_ifs with h hshift hstep hstep hstep
    · rw [getD_modify_or pn _ _ (hpn ▸ hj), if_pos (by omega), h]
    · exact absurd ⟨by omega, hshift⟩ hstep
    · exact absurd hstep.2 hshift
    · exact BitVec.or_zero
    · rw [getD_modify_or pn _ _ (hpn ▸ hj), if_neg (by omega)]
    · exact BitVec.or_zero
  rw [hfallen]
  unfold shiftRightStep
  generalize hpn' : (if k + 1 ≤ i ∧ shift ≠ 0 then pn.modify (i - k - 1) (· ||| a.getD i 0 <<< (32 - shift))
    else pn) = pn'
  have hlen : pn'.length = 8 := by
    rw [← hpn']
    split_ifs
    · rw [List.length_modify, hpn]
    · exact hpn
  dsimp only
  split_ifs with hstep h h
  · rw [getD_modify_or pn' _ _ (hlen ▸ hj), if_pos (by omega), h]
  · rw [getD_modify_or pn' _ _ (hlen ▸ hj), if_neg (by omega)]
  · omega
  · exact BitVec.or_zero.symm

theorem getD_shiftRightPasses (a : List (BitVec 32)) (k shift m : ℕ) {j : ℕ} (hj : j < 8) :
    ((List.range m).foldl (shiftRightStep a k shift) (List.replicate 8 0)).length = 8 ∧
      ((List.range m).foldl (shiftRightStep a k shift) (List.replicate 8 0)).getD j 0 =
        (if j + k + 1 < m then fallen a k shift j else 0) |||
          if j + k < m then a.getD (j + k) 0 >>> shift else 0 := by
  induction m with
  | zero =>
    rw [if_neg (Nat.not_lt_zero _), if_neg (Nat.not_lt_zero _), List.range_zero, List.foldl_nil,
      List.getD_replicate 0 hj]
    exact ⟨rfl, rfl⟩
  | succ m ih =>
    obtain ⟨hlen, hlimb⟩ := ih
    rw [List.range_succ, List.foldl_append, List.foldl_cons, List.foldl_nil]
    refine ⟨(length_shiftRightStep ..).trans hlen, ?_⟩
    rw [getD_shiftRightStep a k shift hlen m hj, hlimb]
    have hwindow : ∀ (n : ℕ) (x : BitVec 32),
        (if n < m + 1 then x else 0) = (if n < m then x else 0) ||| if n = m then x else 0 := by
      intro n x
      obtain h | h | h := Nat.lt_trichotomy n m
      · rw [if_pos (Nat.lt_succ_of_lt h), if_pos h, if_neg h.ne]
        exact BitVec.or_zero.symm
      · rw [if_pos (by omega), if_neg (by omega), if_pos h]
        exact BitVec.zero_or.symm
      · rw [if_neg (by omega), if_neg (by omega), if_neg h.ne']
        exact BitVec.or_zero.symm
    rw [hwindow (j + k + 1), hwindow (j + k)]
    ac_rfl

theorem getD_shiftRightLimbs {a : List (BitVec 32)} (ha : a.length = 8) (k shift : ℕ) {j : ℕ} (hj : j < 8) :
    (shiftRightLimbs a k shift).getD j 0 = fallen a k shift j ||| a.getD (j + k) 0 >>> shift := by
  have hbeyond : ∀ n, ¬n < 8 → a.getD n 0 = 0 := fun n hn => List.getD_eq_default _ _ (by omega)
  rw [shiftRightLimbs, (getD_shiftRightPasses a k shift 8 hj).2]
  congr 1
  · split_ifs with h
    · rfl
    · rw [fallen, hbeyond _ h]
      split_ifs <;> simp
  · split_ifs with h
    · rfl
    · rw [hbeyond _ h]
      simp

/-- Shifting down divides by a power of two. -/
theorem leNat_shiftRightLimbs {a : List (BitVec 32)} (ha : a.length = 8) (k : ℕ) {shift : ℕ} (hshift : shift < 32) :
    leNat (shiftRightLimbs a k shift) = leNat a / 2 ^ (32 * k + shift) := by
  have hlen : (shiftRightLimbs a k shift).length = 8 := (getD_shiftRightPasses a k shift 8 (show 0 < 8 by decide)).1
  apply Nat.eq_of_testBit_eq
  intro i
  rw [Nat.testBit_div_two_pow, testBit_leNat (by decide), testBit_leNat (by decide)]
  obtain ⟨j, t, rfl, ht⟩ : ∃ j t, i = 32 * j + t ∧ t < 32 :=
    ⟨_, _, (Nat.div_add_mod i 32).symm, Nat.mod_lt i (by decide)⟩
  rw [show (32 * j + t) / 32 = j by omega, show (32 * j + t) % 32 = t by omega]
  by_cases hj : j < 8
  swap
  · rw [List.getD_eq_default _ _ (by omega), List.getD_eq_default _ _ (by omega)]
    exact BitVec.getLsbD_zero.trans BitVec.getLsbD_zero.symm
  rw [getD_shiftRightLimbs ha k shift hj, BitVec.getLsbD_or, BitVec.getLsbD_ushiftRight, fallen]
  obtain hlow | hhigh := Nat.lt_or_ge (t + shift) 32
  · -- the bit stays in the limb `k` below
    have hfallen : (if shift ≠ 0 then a.getD (j + k + 1) 0 <<< (32 - shift) else 0).getLsbD t = false := by
      split_ifs
      · rw [BitVec.getLsbD_shiftLeft, decide_eq_true (show t < 32 - shift by omega), Bool.not_true, Bool.and_false,
          Bool.false_and]
      · exact BitVec.getLsbD_zero
    rw [hfallen, Bool.false_or, show (32 * j + t + (32 * k + shift)) / 32 = j + k by omega,
      show (32 * j + t + (32 * k + shift)) % 32 = shift + t by omega]
  · rw [if_pos (by omega), BitVec.getLsbD_shiftLeft, decide_eq_true ht,
      decide_eq_false (show ¬t < 32 - shift by omega), Bool.not_false, Bool.true_and, Bool.true_and,
      BitVec.getLsbD_of_ge _ _ (show 32 ≤ shift + t by omega), Bool.or_false,
      show (32 * j + t + (32 * k + shift)) / 32 = j + k + 1 by omega,
      show (32 * j + t + (32 * k + shift)) % 32 = t - (32 - shift) by omega]

end ShiftRight

section Compare

theorem leNat_take_lt (a : List (BitVec 32)) (n : ℕ) : leNat (a.take n) < 2 ^ (32 * n) := by
  refine (leNat_lt (a.take n)).trans_le (Nat.pow_le_pow_right (by decide) ?_)
  exact Nat.mul_le_mul_left 32 (List.length_take_le n a)

theorem lt_of_limb_lt {x y P l m : ℕ} (hxy : x < y) (hl : l < P) : l + P * x < m + P * y :=
  calc l + P * x < P + P * x := Nat.add_lt_add_right hl _
    _ = P * (x + 1) := by rw [Nat.mul_succ, Nat.add_comm]
    _ ≤ P * y := Nat.mul_le_mul_left P hxy
    _ ≤ m + P * y := Nat.le_add_left _ m

/-- The first limbs that differ decide. -/
theorem compareFrom_eq {a b : List (BitVec 32)} {n : ℕ} (ha : n ≤ a.length) (hb : n ≤ b.length) :
    compareFrom a b n =
      if leNat (a.take n) < leNat (b.take n) then -1 else if leNat (b.take n) < leNat (a.take n) then 1 else 0 := by
  induction n with
  | zero => rfl
  | succ n ih =>
    have hlow := leNat_take_lt a n
    have hlow' := leNat_take_lt b n
    rw [compareFrom, leNat_take_succ a ha, leNat_take_succ b hb]
    obtain hlt | heq | hgt := Nat.lt_trichotomy (a.getD n 0).toNat (b.getD n 0).toNat
    · have hlimb : a.getD n 0 < b.getD n 0 := hlt
      rw [if_pos hlimb, if_pos (lt_of_limb_lt hlt hlow)]
    · have hsame : a.getD n 0 = b.getD n 0 := BitVec.eq_of_toNat_eq heq
      rw [hsame, if_neg (BitVec.lt_irrefl _), if_neg (BitVec.lt_irrefl _),
        ih (Nat.le_of_succ_le ha) (Nat.le_of_succ_le hb)]
      simp only [Nat.add_lt_add_iff_right]
    · have hless := lt_of_limb_lt (m := leNat (a.take n)) hgt hlow'
      have hlimb : a.getD n 0 > b.getD n 0 := hgt
      rw [if_neg (BitVec.not_lt.mpr (BitVec.le_of_lt hlimb)), if_pos hlimb, if_neg hless.not_gt, if_pos hless]

end Compare

section BitLength

theorem and_bit_ne_zero (x : BitVec 32) {n : ℕ} (hn : n < 32) : x &&& 1#32 <<< n ≠ 0 ↔ x.getLsbD n = true := by
  have hpos : BitVec.twoPow 32 n ≠ 0 := by
    intro hzero
    have hnat := BitVec.toNat_twoPow_of_lt hn
    rw [hzero] at hnat
    exact absurd hnat (Nat.two_pow_pos n).ne
  rw [← BitVec.twoPow_eq, BitVec.and_twoPow]
  split_ifs with hbit
  · exact iff_of_true hpos hbit
  · exact iff_of_false (fun h => h rfl) hbit

theorem limbBits_eq {x : BitVec 32} {n : ℕ} (hpos : 0 < x.toNat) (hn : n < 32) (hx : x.toNat < 2 ^ (n + 1)) :
    limbBits x n = Nat.size x.toNat := by
  induction n with
  | zero =>
    have hone : x.toNat = 1 := by omega
    rw [limbBits, hone, Nat.size_one]
  | succ n ih =>
    rw [limbBits]
    have hbit := and_bit_ne_zero x hn
    rw [← BitVec.testBit_toNat] at hbit
    split_ifs with hset
    · have hge : 2 ^ (n + 1) ≤ x.toNat := Nat.ge_two_pow_of_testBit (hbit.mp hset)
      exact le_antisymm (Nat.lt_size.mpr hge) (Nat.size_le.mpr hx)
    · refine ih (by omega) ?_
      by_contra hge
      refine hset (hbit.mpr ?_)
      exact Nat.testBit_of_two_pow_le_and_two_pow_add_one_gt (Nat.not_lt.mp hge) hx

/-- The highest bit is in the highest limb that is not zero. -/
theorem bitsFrom_eq {pn : List (BitVec 32)} {n : ℕ} (hn : n ≤ pn.length) :
    bitsFrom pn n = Nat.size (leNat (pn.take n)) := by
  induction n with
  | zero => rw [bitsFrom, List.take_zero, leNat_nil, Nat.size_zero]
  | succ n ih =>
    have hlow := leNat_take_lt pn n
    rw [bitsFrom, leNat_take_succ pn hn]
    split_ifs with hlimb
    · have hpos : 0 < (pn.getD n 0).toNat := by
        refine Nat.pos_of_ne_zero fun hzero => hlimb ?_
        exact BitVec.eq_of_toNat_eq hzero
      have hsize := limbBits_eq hpos (show 31 < 32 by decide) (pn.getD n 0).isLt
      rw [hsize]
      apply le_antisymm
      · obtain ⟨s, hs⟩ := Nat.exists_eq_succ_of_ne_zero (Nat.size_pos.mpr hpos).ne'
        have hge : 2 ^ s ≤ (pn.getD n 0).toNat := Nat.lt_size.mp (by omega)
        rw [hs, Nat.add_succ, Nat.succ_le_iff, Nat.lt_size, Nat.pow_add]
        exact (Nat.mul_le_mul_left _ hge).trans (Nat.le_add_left _ _)
      · rw [Nat.size_le, Nat.pow_add]
        have hlt := Nat.lt_size_self (pn.getD n 0).toNat
        have hless := lt_of_limb_lt (m := 0) hlt hlow
        rwa [Nat.zero_add] at hless
    · rw [ih (Nat.le_of_succ_le hn), not_ne_iff.mp hlimb]
      congr 1

end BitLength

namespace Arith256

def shiftRight (a : Arith256) (shift : ℕ) : Arith256 where
  pn := shiftRightLimbs a.pn (shift / 32) (shift % 32)
  width := (getD_shiftRightPasses a.pn (shift / 32) (shift % 32) 8 (show 0 < 8 by decide)).1

def compareTo (a b : Arith256) : ℤ := compareFrom a.pn b.pn 8

def bits (a : Arith256) : ℕ := bitsFrom a.pn 8

def zero : Arith256 := ofUInt64 0

/-- `pn[shift / 32] |= (1 << (shift & 31))`. -/
def setBit (a : Arith256) (shift : ℕ) : Arith256 where
  pn := a.pn.modify (shift / 32) (· ||| 1#32 <<< (shift % 32))
  width := (List.length_modify ..).trans a.width

/-- The loop of `/=`, from the iteration for `n - 1` on: the quotient and the remainder. -/
def divideLoop : ℕ → Arith256 → Arith256 → Arith256 → Arith256 × Arith256
  | 0, num, _, pn => (pn, num)
  | shift + 1, num, div, pn =>
    if num.compareTo div ≥ 0 then divideLoop shift (num.sub div) (div.shiftRight 1) (pn.setBit shift)
    else divideLoop shift num (div.shiftRight 1) pn

/-- `none` where the code throws `uint_error`. -/
def divide (a b : Arith256) : Option Arith256 :=
  if b.bits = 0 then none
  else if b.bits > a.bits then some zero
  else
    let shift := a.bits - b.bits
    some (divideLoop (shift + 1) a (b.shiftLeft shift) zero).1

theorem toNat_shiftRight (a : Arith256) (shift : ℕ) : (a.shiftRight shift).toNat = a.toNat / 2 ^ shift := by
  unfold toNat shiftRight
  rw [leNat_shiftRightLimbs a.width _ (Nat.mod_lt _ (by decide)), Nat.div_add_mod]

theorem compareTo_eq (a b : Arith256) :
    a.compareTo b = if a.toNat < b.toNat then -1 else if b.toNat < a.toNat then 1 else 0 := by
  unfold compareTo toNat
  rw [compareFrom_eq a.width.ge b.width.ge, List.take_of_length_le a.width.le, List.take_of_length_le b.width.le]

theorem compareTo_nonneg_iff (a b : Arith256) : a.compareTo b ≥ 0 ↔ b.toNat ≤ a.toNat := by
  rw [compareTo_eq]
  split_ifs <;> omega

theorem bits_eq (a : Arith256) : a.bits = Nat.size a.toNat := by
  unfold bits toNat
  rw [bitsFrom_eq a.width.ge, List.take_of_length_le a.width.le]

theorem bits_le (a : Arith256) : a.bits ≤ 256 := by
  rw [bits_eq, Nat.size_le]
  exact a.toNat_lt

theorem toNat_zero : zero.toNat = 0 := toNat_ofUInt64 0

theorem toNat_setBit (a : Arith256) {shift : ℕ} (hshift : shift < 256) :
    (a.setBit shift).toNat = a.toNat ||| 2 ^ shift := by
  apply Nat.eq_of_testBit_eq
  intro i
  have hdiv : shift / 32 < a.pn.length := by
    rw [a.width]
    omega
  rw [Nat.testBit_or, Nat.testBit_two_pow]
  unfold toNat setBit
  rw [testBit_leNat (by decide), testBit_leNat (by decide)]
  dsimp only
  by_cases hi : i / 32 < a.pn.length
  · rw [getD_modify_or _ _ _ hi, BitVec.getLsbD_or]
    congr 1
    split_ifs with hlimb
    · rw [← BitVec.twoPow_eq, BitVec.getLsbD_twoPow, decide_eq_true (Nat.mod_lt shift (by decide)), Bool.true_and]
      exact decide_eq_decide.mpr (by omega)
    · rw [decide_eq_false (by omega)]
      exact BitVec.getLsbD_zero
  · have hout : ¬i / 32 < (a.pn.modify (shift / 32) (· ||| 1#32 <<< (shift % 32))).length := by
      rwa [List.length_modify]
    rw [List.getD_eq_default _ _ (Nat.not_lt.mp hi), List.getD_eq_default _ _ (Nat.not_lt.mp hout),
      decide_eq_false (by omega), Bool.or_false]

theorem toNat_setBit_of_dvd {a : Arith256} {shift : ℕ} (hshift : shift < 256) (h : 2 ^ (shift + 1) ∣ a.toNat) :
    (a.setBit shift).toNat = a.toNat + 2 ^ shift := by
  obtain ⟨c, hc⟩ := h
  rw [toNat_setBit a hshift, hc]
  exact (Nat.two_pow_add_eq_or_of_lt (Nat.pow_lt_pow_right (by decide) (Nat.lt_succ_self shift)) c).symm

/-- Before the iteration for `n - 1` the divisor is `b * 2 ^ (n - 1)`, what is left of the dividend is
smaller than twice that, and the quotient has no bits below `n`. -/
theorem divideLoop_spec {b n : ℕ} {num div pn : Arith256} (hb : 0 < b) (hn : n ≤ 256)
    (hdiv : div.toNat = b * 2 ^ n / 2) (hnum : num.toNat < b * 2 ^ n) (hpn : 2 ^ n ∣ pn.toNat) :
    (divideLoop n num div pn).1.toNat = pn.toNat + num.toNat / b ∧
      (divideLoop n num div pn).2.toNat = num.toNat % b := by
  induction n generalizing num div pn with
  | zero =>
    rw [Nat.pow_zero, Nat.mul_one] at hnum
    rw [divideLoop, Nat.div_eq_of_lt hnum, Nat.mod_eq_of_lt hnum]
    exact ⟨rfl, rfl⟩
  | succ shift ih =>
    have hhalf : b * 2 ^ (shift + 1) / 2 = b * 2 ^ shift := by
      rw [Nat.pow_succ, ← Nat.mul_assoc, Nat.mul_div_cancel _ (by decide)]
    have htwice : b * 2 ^ (shift + 1) = b * 2 ^ shift + b * 2 ^ shift := by
      rw [Nat.pow_succ]
      ring
    rw [hhalf] at hdiv
    rw [htwice] at hnum
    have hnext : (div.shiftRight 1).toNat = b * 2 ^ shift / 2 := by
      rw [toNat_shiftRight, hdiv, Nat.pow_one]
    have hdvd : 2 ^ shift ∣ pn.toNat := (Nat.pow_dvd_pow 2 (Nat.le_succ shift)).trans hpn
    rw [divideLoop]
    split_ifs with hge
    · rw [compareTo_nonneg_iff, hdiv] at hge
      have hsub : (num.sub div).toNat = num.toNat - b * 2 ^ shift := by
        rw [toNat_sub_of_le (hdiv ▸ hge), hdiv]
      have hset := toNat_setBit_of_dvd (show shift < 256 from hn) hpn
      obtain ⟨hquot, hrem⟩ := @ih (num.sub div) (div.shiftRight 1) (pn.setBit shift) (by omega) hnext (by omega)
        (hset ▸ Nat.dvd_add hdvd (Nat.dvd_refl _))
      obtain ⟨rest, hrest⟩ : ∃ rest, num.toNat = b * 2 ^ shift + rest := Nat.exists_eq_add_of_le hge
      rw [hquot, hrem, hset, hsub, hrest, Nat.add_sub_cancel_left, Nat.mul_add_div hb, Nat.mul_add_mod,
        Nat.add_assoc]
      exact ⟨rfl, rfl⟩
    · rw [compareTo_nonneg_iff, hdiv, Nat.not_le] at hge
      exact ih (by omega) hnext hge hdvd

/-- Division is that of numbers, and throws for a zero divisor only. -/
theorem divide_eq (a b : Arith256) :
    (a.divide b).map toNat = if b.toNat = 0 then none else some (a.toNat / b.toNat) := by
  have hbits : b.bits = 0 ↔ b.toNat = 0 := by rw [bits_eq, Nat.size_eq_zero]
  unfold divide
  dsimp only
  by_cases hzero : b.bits = 0
  · rw [if_pos hzero, if_pos (hbits.mp hzero)]
    rfl
  rw [if_neg hzero, if_neg (mt hbits.mpr hzero)]
  split_ifs with hsmall
  · rw [bits_eq, bits_eq, gt_iff_lt, Nat.lt_size] at hsmall
    have hlt : a.toNat < b.toNat := (Nat.lt_size_self _).trans_le hsmall
    rw [Option.map_some, toNat_zero, Nat.div_eq_of_lt hlt]
  · refine congrArg some ?_
    obtain ⟨shift, hshift⟩ : ∃ shift, a.bits = b.bits + shift := Nat.exists_eq_add_of_le (Nat.not_lt.mp hsmall)
    have hb : 0 < b.toNat := Nat.pos_of_ne_zero (mt hbits.mpr hzero)
    have hle := a.bits_le
    have haligned : b.toNat * 2 ^ shift < 2 ^ a.bits := by
      have hlt : b.toNat < 2 ^ b.bits := by
        rw [bits_eq]
        exact Nat.lt_size_self _
      rw [hshift, Nat.pow_add]
      exact Nat.mul_lt_mul_of_pos_right hlt (Nat.two_pow_pos shift)
    have habove : a.toNat < b.toNat * 2 ^ (shift + 1) := by
      have hlt : a.toNat < 2 ^ a.bits := by
        rw [bits_eq a]
        exact Nat.lt_size_self _
      obtain ⟨s, hs⟩ := Nat.exists_eq_succ_of_ne_zero hzero
      have hge : 2 ^ s ≤ b.toNat := by
        rw [← Nat.lt_size, ← bits_eq]
        omega
      calc a.toNat < 2 ^ a.bits := hlt
        _ = 2 ^ s * 2 ^ (shift + 1) := by rw [← Nat.pow_add, hshift, hs, Nat.succ_add, Nat.add_succ]
        _ ≤ b.toNat * 2 ^ (shift + 1) := Nat.mul_le_mul_right _ hge
    have hdiv : (b.shiftLeft shift).toNat = b.toNat * 2 ^ (shift + 1) / 2 := by
      rw [toNat_shiftLeft, Nat.mul_comm, Nat.mod_eq_of_lt (haligned.trans_le (Nat.pow_le_pow_right (by decide) hle)),
        Nat.pow_succ, ← Nat.mul_assoc, Nat.mul_div_cancel _ (by decide)]
    obtain ⟨hquot, -⟩ := @divideLoop_spec b.toNat (shift + 1) a (b.shiftLeft shift) zero hb (by omega) hdiv habove
      (toNat_zero ▸ Nat.dvd_zero _)
    rw [hshift, Nat.add_sub_cancel_left, hquot, toNat_zero, Nat.zero_add]

end Arith256
end Aion.Miner
