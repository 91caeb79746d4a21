import AionMiner.Miner.Values

/-! The other loops of `arith_uint256` that go up the limbs: negation, steps by one, and products. -/

namespace Aion.Miner
open Bits

section Code

/-- The loop of `++`: it goes on while limbs become zero. -/
def increment : List (BitVec 32) → List (BitVec 32)
  | [] => []
  | x :: xs => if x + 1 = 0 then (x + 1) :: increment xs else (x + 1) :: xs

/-- The inner loop of `*=`, from limb `j` of the result on. -/
def productRow (x : BitVec 32) : BitVec 64 → List (BitVec 32) → List (BitVec 32) → List (BitVec 32)
  | carry, p :: ps, y :: ys =>
    let n := carry + p.setWidth 64 + x.setWidth 64 * y.setWidth 64
    n.setWidth 32 :: productRow x (n >>> 32) ps ys
  | _, ps, _ => ps

def productLimbs (a b : List (BitVec 32)) : ℕ → List (BitVec 32)
  | 0 => List.replicate 8 0
  | j + 1 =>
    let pn := productLimbs a b j
    pn.take j ++ productRow (a.getD j 0) 0 (pn.drop j) b

end Code

section Steps

theorem length_increment (xs : List (BitVec 32)) : (increment xs).length = xs.length := by
  induction xs with
  | nil => rfl
  | cons x xs ih =>
    rw [increment]
    split_ifs
    · rw [List.length_cons, List.length_cons, ih]
    · rfl

theorem leNat_increment (xs : List (BitVec 32)) :
    leNat (increment xs) = (leNat xs + 1) % 2 ^ (32 * xs.length) := by
  induction xs with
  | nil => rfl
  | cons x xs ih =>
    have hx := x.isLt
    have hbound := leNat_lt (x :: xs)
    have hsplit : 2 ^ (32 * (x :: xs).length) = 2 ^ 32 * 2 ^ (32 * xs.length) := by
      rw [← Nat.pow_add, List.length_cons, Nat.mul_succ, Nat.add_comm]
    have hnext : (x + 1).toNat = (x.toNat + 1) % 2 ^ 32 := BitVec.toNat_add x 1
    rw [increment]
    split_ifs with hzero
    · -- The limb was full
      have hfull : x.toNat = 2 ^ 32 - 1 := by
        rw [hzero, show (0 : BitVec 32).toNat = 0 from rfl] at hnext
        omega
      have hsum : leNat (x :: xs) + 1 = 2 ^ 32 * (leNat xs + 1) := by
        rw [leNat_cons, hfull]
        omega
      rw [hsum, hsplit, Nat.mul_mod_mul_left, leNat_cons, hzero, ih]
      simp
    · have hnot : x.toNat + 1 < 2 ^ 32 := by
        refine Nat.lt_of_le_of_ne hx fun hfull => hzero ?_
        apply BitVec.eq_of_toNat_eq
        rw [hnext, show x.toNat + 1 = 2 ^ 32 from hfull]
        rfl
      have hone : (x + 1).toNat = x.toNat + 1 := hnext.trans (Nat.mod_eq_of_lt hnot)
      have hlt : leNat ((x + 1) :: xs) < 2 ^ (32 * (x :: xs).length) := leNat_lt ((x + 1) :: xs)
      have hsum : leNat ((x + 1) :: xs) = leNat (x :: xs) + 1 := by
        rw [leNat_cons, leNat_cons, hone, Nat.add_right_comm]
      rw [← hsum, Nat.mod_eq_of_lt hlt]

theorem leNat_not (xs : List (BitVec 32)) :
    leNat (xs.map (~~~·)) + leNat xs + 1 = 2 ^ (32 * xs.length) := by
  induction xs with
  | nil => rfl
  | cons x xs ih =>
    have hx := x.isLt
    rw [List.map_cons, leNat_cons, leNat_cons, BitVec.toNat_not, List.length_cons, Nat.mul_succ,
      Nat.add_comm (32 * xs.length), Nat.pow_add, ← ih]
    omega

end Steps

section Products

/-- The accumulator cannot overflow. -/
theorem toNat_accumulate (x y : BitVec 32) {s : BitVec 64} (hs : s.toNat < 2 ^ 33 - 1) :
    (s + x.setWidth 64 * y.setWidth 64).toNat = s.toNat + x.toNat * y.toNat := by
  have hproduct : x.toNat * y.toNat ≤ (2 ^ 32 - 1) * (2 ^ 32 - 1) :=
    Nat.mul_le_mul (Nat.le_pred_of_lt x.isLt) (Nat.le_pred_of_lt y.isLt)
  have hx : (x.setWidth 64).toNat = x.toNat := BitVec.toNat_setWidth_of_le (by decide)
  have hy : (y.setWidth 64).toNat = y.toNat := BitVec.toNat_setWidth_of_le (by decide)
  rw [BitVec.toNat_add, BitVec.toNat_mul, hx, hy, Nat.add_mod_mod, Nat.mod_eq_of_lt (by omega)]

theorem toNat_carry {n : BitVec 64} : (n >>> 32).toNat = n.toNat / 2 ^ 32 ∧ n.toNat / 2 ^ 32 < 2 ^ 32 := by
  have hn := n.isLt
  rw [BitVec.toNat_ushiftRight, Nat.shiftRight_eq_div_pow]
  exact ⟨rfl, Nat.div_lt_of_lt_mul hn⟩

theorem low_add_high (n m len : ℕ) :
    n % 2 ^ 32 + 2 ^ 32 * ((n / 2 ^ 32 + m) % 2 ^ (32 * len)) = (n + 2 ^ 32 * m) % 2 ^ (32 * (len + 1)) := by
  rw [Nat.mul_succ, Nat.add_comm _ 32, Nat.pow_add, Nat.mod_mul, Nat.add_mul_mod_self_left,
    Nat.add_mul_div_left _ _ (by decide)]

theorem length_productRow (x : BitVec 32) (carry : BitVec 64) (ps ys : List (BitVec 32)) :
    (productRow x carry ps ys).length = ps.length := by
  induction ps generalizing carry ys with
  | nil => rfl
  | cons p ps ih =>
    cases ys with
    | nil => rfl
    | cons y ys => rw [productRow, List.length_cons, ih, List.length_cons]

theorem leNat_productRow (x : BitVec 32) {carry : BitVec 64} (hcarry : carry.toNat < 2 ^ 32)
    {ps ys : List (BitVec 32)} (hlen : ps.length ≤ ys.length) :
    leNat (productRow x carry ps ys) =
      (carry.toNat + leNat ps + x.toNat * leNat ys) % 2 ^ (32 * ps.length) := by
  induction ps generalizing carry ys with
  | nil => exact (Nat.mod_one _).symm
  | cons p ps ih =>
    cases ys with
    | nil => cases hlen
    | cons y ys =>
      have hp := p.isLt
      have hwide : (p.setWidth 64).toNat = p.toNat := BitVec.toNat_setWidth_of_le (by decide)
      have hs : (carry + p.setWidth 64).toNat = carry.toNat + p.toNat := by
        rw [BitVec.toNat_add, hwide, Nat.mod_eq_of_lt (by omega)]
      have hn := toNat_accumulate x y (s := carry + p.setWidth 64) (by omega)
      obtain ⟨hshift, hlt⟩ := @toNat_carry (carry + p.setWidth 64 + x.setWidth 64 * y.setWidth 64)
      rw [← hshift] at hlt
      have hsum : carry.toNat + leNat (p :: ps) + x.toNat * leNat (y :: ys) =
          carry.toNat + p.toNat + x.toNat * y.toNat + 2 ^ 32 * (leNat ps + x.toNat * leNat ys) := by
        rw [leNat_cons, leNat_cons]
        ring
      rw [productRow, leNat_cons, ih hlt (Nat.le_of_succ_le_succ hlen), hshift, BitVec.toNat_setWidth, hn, hs,
        Nat.add_assoc (_ / _), low_add_high, hsum]
      rfl

theorem length_productLimbs (a b : List (BitVec 32)) (j : ℕ) : (productLimbs a b j).length = 8 := by
  induction j with
  | zero => rfl
  | succ j ih =>
    rw [productLimbs, List.length_append, length_productRow, ← List.length_append, List.take_append_drop, ih]

theorem leNat_take_succ (a : List (BitVec 32)) {j : ℕ} (hj : j < a.length) :
    leNat (a.take (j + 1)) = leNat (a.take j) + 2 ^ (32 * j) * (a.getD j 0).toNat := by
  rw [List.take_succ_eq_append_getElem hj, leNat_append, List.length_take, Nat.min_eq_left hj.le,
    leNat_cons, leNat_nil, List.getD_eq_getElem _ _ hj, Nat.mul_zero, Nat.add_zero]

/-- After `j` rows the result is the product with the lowest `j` limbs. -/
theorem leNat_productLimbs {a b : List (BitVec 32)} (ha : a.length = 8) (hb : b.length = 8) {j : ℕ} (hj : j ≤ 8) :
    leNat (productLimbs a b j) = leNat (a.take j) * leNat b % 2 ^ 256 := by
  induction j with
  | zero =>
    rw [productLimbs, leNat_zeros, List.take_zero, leNat_nil, Nat.zero_mul, Nat.zero_mod]
  | succ j ih =>
    have hpn := length_productLimbs a b j
    have hlow : ((productLimbs a b j).take j).length = j := by
      rw [List.length_take, hpn, Nat.min_eq_left (Nat.le_of_succ_le hj)]
    have hhigh : ((productLimbs a b j).drop j).length = 8 - j := by
      rw [List.length_drop, hpn]
    have hwhole : leNat ((productLimbs a b j).take j) + 2 ^ (32 * j) * leNat ((productLimbs a b j).drop j) =
        leNat (productLimbs a b j) := by
      conv_rhs => rw [← List.take_append_drop j (productLimbs a b j)]
      rw [leNat_append, hlow]
    have hbound : leNat ((productLimbs a b j).take j) < 2 ^ (32 * j) := by
      have hlt := leNat_lt ((productLimbs a b j).take j)
      rwa [hlow] at hlt
    have hpow : 2 ^ 256 = 2 ^ (32 * j) * 2 ^ (32 * (8 - j)) := by
      rw [← Nat.pow_add]
      congr 1
      omega
    have hrow : leNat (productRow (a.getD j 0) 0 ((productLimbs a b j).drop j) b) =
        (leNat ((productLimbs a b j).drop j) + (a.getD j 0).toNat * leNat b) % 2 ^ (32 * (8 - j)) := by
      rw [leNat_productRow _ (by decide) (by omega), hhigh]
      simp
    rw [productLimbs, leNat_append, hlow, hrow]
    calc leNat ((productLimbs a b j).take j) + 2 ^ (32 * j) *
          ((leNat ((productLimbs a b j).drop j) + (a.getD j 0).toNat * leNat b) % 2 ^ (32 * (8 - j)))
        = (leNat ((productLimbs a b j).take j) + 2 ^ (32 * j) *
            (leNat ((productLimbs a b j).drop j) + (a.getD j 0).toNat * leNat b)) % 2 ^ 256 := by
          rw [hpow, Nat.mod_mul, Nat.add_mul_mod_self_left, Nat.mod_eq_of_lt hbound,
            Nat.add_mul_div_left _ _ (Nat.two_pow_pos _), Nat.div_eq_of_lt hbound, Nat.zero_add]
      _ = (leNat (productLimbs a b j) + 2 ^ (32 * j) * ((a.getD j 0).toNat * leNat b)) % 2 ^ 256 := by
          rw [Nat.mul_add, ← Nat.add_assoc, hwhole]
      _ = leNat (a.take (j + 1)) * leNat b % 2 ^ 256 := by
          rw [ih (Nat.le_of_succ_le hj), Nat.mod_add_mod, leNat_take_succ a (by omega), Nat.add_mul,
            Nat.mul_assoc]

end Products

namespace Arith256

def not (a : Arith256) : Arith256 where
  pn := a.pn.map (~~~·)
  width := (List.length_map _).trans a.width

def succ (a : Arith256) : Arith256 where
  pn := increment a.pn
  width := (length_increment a.pn).trans a.width

def neg (a : Arith256) : Arith256 := a.not.succ

def sub (a b : Arith256) : Arith256 := a.add b.neg

def mul (a b : Arith256) : Arith256 where
  pn := productLimbs a.pn b.pn 8
  width := length_productLimbs a.pn b.pn 8

theorem toNat_succ (a : Arith256) : a.succ.toNat = (a.toNat + 1) % 2 ^ 256 := by
  unfold toNat succ
  rw [leNat_increment, a.width]

theorem toNat_not (a : Arith256) : a.not.toNat = 2 ^ 256 - 1 - a.toNat := by
  have hsum := leNat_not a.pn
  rw [a.width] at hsum
  change leNat (a.pn.map (~~~·)) = 2 ^ 256 - 1 - leNat a.pn
  omega

theorem toNat_neg (a : Arith256) : a.neg.toNat = (2 ^ 256 - a.toNat) % 2 ^ 256 := by
  have ha := a.toNat_lt
  rw [neg, toNat_succ, toNat_not, show 2 ^ 256 - 1 - a.toNat + 1 = 2 ^ 256 - a.toNat by omega]

theorem toNat_sub (a b : Arith256) : (a.sub b).toNat = (a.toNat + (2 ^ 256 - b.toNat)) % 2 ^ 256 := by
  rw [sub, toNat_add, toNat_neg, Nat.add_mod_mod]

theorem toNat_sub_of_le {a b : Arith256} (h : b.toNat ≤ a.toNat) : (a.sub b).toNat = a.toNat - b.toNat := by
  have ha := a.toNat_lt
  rw [toNat_sub]
  omega

/-- Products are those of numbers, as far as the limbs reach. -/
theorem toNat_mul (a b : Arith256) : (a.mul b).toNat = a.toNat * b.toNat % 2 ^ 256 := by
  unfold toNat mul
  rw [leNat_productLimbs a.width b.width (Nat.le_refl 8), List.take_of_length_le a.width.le]

end Arith256
end Aion.Miner
