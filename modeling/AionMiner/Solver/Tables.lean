import AionMiner.Solver.Digits

/-! Hashes with given digits: for every table of digits there is a function in the
place of BLAKE2b under which the leaf hashes have these digits. -/

namespace Aion.Solver
open Bits Equihash Wagner

/-- Bit `n` of leaf `i` when its digits are `d i 0, d i 1, ...`. -/
def digitBit (d : ℕ → ℕ → ℕ) (i n : ℕ) : Bool := (d i (n / 21)).testBit (20 - n % 21)

def HasDigits (d : ℕ → ℕ → ℕ) (H : Blake2b) (base : Blake2bState) : Prop :=
  ∀ i < nhashes, ∀ n < 216, (leafHash H base i).bit n = digitBit d i n

def xorDigits (d : ℕ → ℕ → ℕ) (r : ℕ) (v : List ℕ) : ℕ := (v.map fun i => d i r).foldr (· ^^^ ·) 0

section Hash

def blockOf (s : Blake2bState) : ℕ :=
  match s.absorbed.reverse with
  | b3 :: b2 :: b1 :: b0 :: _ => b0.toNat + 256 * (b1.toNat + 256 * (b2.toNat + 256 * b3.toNat))
  | _ => 0

def hashOfDigits (d : ℕ → ℕ → ℕ) : Blake2b := fun s k =>
  BitVec.ofNat 8 (field (digitBit d (blockOf s * 2 + k / hashLen)) (8 * (k % hashLen)) 8)

theorem blockOf_update (base : Blake2bState) {x : ℕ} (hx : x < 2 ^ 32) :
    blockOf (base.update (le32 x)) = x := by
  have hrev : (base.absorbed ++ le32 x).reverse = BitVec.ofNat 8 (x >>> 24) :: BitVec.ofNat 8 (x >>> 16) ::
      BitVec.ofNat 8 (x >>> 8) :: BitVec.ofNat 8 x :: base.absorbed.reverse := by
    rw [List.reverse_append]
    rfl
  rw [blockOf, Blake2bState.update]
  dsimp only
  rw [hrev]
  simp only [BitVec.toNat_ofNat, Nat.shiftRight_eq_div_pow]
  omega

/-- It is enough to follow the table on the states that are hashed. -/
theorem hasDigits_of_eq {d : ℕ → ℕ → ℕ} {H : Blake2b} {base : Blake2bState}
    (hH : ∀ x, H (base.update (le32 x)) = hashOfDigits d (base.update (le32 x))) :
    HasDigits d H base := by
  intro i hi n hn
  have hk : n / 8 < hashLen := by rw [show hashLen = 27 from rfl]; omega
  have hi' : i < 2 ^ 22 := hi
  have hdiv : (i % indicesPerHashOutput * hashLen + n / 8) / hashLen =
      i % indicesPerHashOutput := by
    rw [Nat.mul_comm, Nat.mul_add_div (Nat.zero_lt_of_lt hk), Nat.div_eq_of_lt hk, Nat.add_zero]
  have hmod : (i % indicesPerHashOutput * hashLen + n / 8) % hashLen = n / 8 := by
    rw [Nat.mul_comm, Nat.mul_add_mod, Nat.mod_eq_of_lt hk]
  have hleaf : i / indicesPerHashOutput * 2 + i % indicesPerHashOutput = i := by
    rw [show indicesPerHashOutput = 2 from rfl]; omega
  rw [Hash.bit, leafHash, if_pos hk, hH, hashOfDigits,
    blockOf_update _ (by rw [show indicesPerHashOutput = 2 from rfl]; omega), hdiv, hmod, hleaf,
    BitVec.getLsbD_ofNat, testBit_field _ _ (by omega), decide_eq_true (by omega), Bool.true_and]
  congr 1
  omega

end Hash

section Digits
variable {d : ℕ → ℕ → ℕ} {H : Blake2b} {base : Blake2bState}

theorem xorDigits_append (r : ℕ) (v w : List ℕ) :
    xorDigits d r (v ++ w) = xorDigits d r v ^^^ xorDigits d r w := by
  induction v with
  | nil => exact (Nat.zero_xor _).symm
  | cons i v ih =>
    change d i r ^^^ xorDigits d r (v ++ w) = d i r ^^^ xorDigits d r v ^^^ xorDigits d r w
    rw [ih, Nat.xor_assoc]

theorem xorDigits_singleton (r i : ℕ) : xorDigits d r [i] = d i r := Nat.xor_zero _

theorem xorDigits_lt {m : ℕ} {v : List ℕ} {r : ℕ} (hv : ∀ i ∈ v, d i r < 2 ^ m) :
    xorDigits d r v < 2 ^ m := by
  induction v with
  | nil => exact Nat.two_pow_pos m
  | cons i v ih =>
    exact Nat.xor_lt_two_pow (hv i List.mem_cons_self) (ih fun j hj => hv j (List.mem_cons_of_mem i hj))

theorem HasDigits.bit_xorHash (hH : HasDigits d H base) {v : List ℕ}
    (hv : ∀ i ∈ v, i < nhashes) {n : ℕ} (hn : n < 216) :
    (xorHash H base v).bit n = (xorDigits d (n / 21) v).testBit (20 - n % 21) := by
  induction v with
  | nil => exact (Hash.bit_zero n).trans (Nat.zero_testBit _).symm
  | cons i v ih =>
    have hcons : xorHash H base (i :: v) = leafHash H base i + xorHash H base v := List.sum_cons
    change _ = (d i (n / 21) ^^^ xorDigits d (n / 21) v).testBit _
    rw [hcons, Hash.bit_add, ih fun j hj => hv j (List.mem_cons_of_mem i hj),
      hH i (hv i List.mem_cons_self) n hn, Nat.testBit_xor, digitBit]

theorem eq_iff_testBit {x y : ℕ} (hx : x < 2 ^ 21) (hy : y < 2 ^ 21) :
    x = y ↔ ∀ n < 21, x.testBit (20 - n) = y.testBit (20 - n) := by
  -- Equality of numbers below `2 ^ 21` from their bits, high bit first
  refine ⟨fun h n _ => by rw [h], fun h => Nat.eq_of_testBit_eq fun t => ?_⟩
  by_cases ht : t < 21
  · have := h (20 - t) (by omega)
    rwa [show 20 - (20 - t) = t by omega] at this
  · have hle : 2 ^ 21 ≤ 2 ^ t := Nat.pow_le_pow_right (by decide) (by omega)
    rw [Nat.testBit_eq_false_of_lt (Nat.lt_of_lt_of_le hx hle),
      Nat.testBit_eq_false_of_lt (Nat.lt_of_lt_of_le hy hle)]

theorem HasDigits.digitEq_iff (hH : HasDigits d H base)
    (hd : ∀ i < nhashes, ∀ r, d i r < 2 ^ 21) {r : ℕ} (hr : r ≤ 9) {v w : List ℕ}
    (hv : ∀ i ∈ v, i < nhashes) (hw : ∀ i ∈ w, i < nhashes) :
    DigitEq r (xorHash H base v) (xorHash H base w) ↔ xorDigits d r v = xorDigits d r w := by
  have hbit : ∀ u : List ℕ, (∀ i ∈ u, i < nhashes) → ∀ n < 21,
      (xorHash H base u).bit (21 * r + n) = (xorDigits d r u).testBit (20 - n) := by
    intro u hu n hn
    rw [hH.bit_xorHash hu (by omega), show (21 * r + n) / 21 = r by omega, show (21 * r + n) % 21 = n by omega]
  rw [eq_iff_testBit (xorDigits_lt fun i hi => hd i (hv i hi) r) (xorDigits_lt fun i hi => hd i (hw i hi) r)]
  exact forall₂_congr fun n hn => by rw [hbit v hv n hn, hbit w hw n hn]

theorem HasDigits.not_lastZero (hH : HasDigits d H base) (hd : ∀ i < nhashes, ∀ r, d i r < 2 ^ 21)
    {v : List ℕ} (hv : ∀ i ∈ v, i < nhashes) (hne : xorDigits d 9 v ≠ 0) :
    ¬LastZero (xorHash H base v) := by
  -- A vector whose last digit is not zero has no zero last word
  intro hzero
  refine hne ((eq_iff_testBit (xorDigits_lt fun i hi => hd i (hv i hi) 9) (Nat.two_pow_pos 21)).mpr fun n hn => ?_)
  have hbit := hH.bit_xorHash hv (n := 189 + n) (by omega)
  rw [show (189 + n) / 21 = 9 by omega, show (189 + n) % 21 = n by omega] at hbit
  obtain ⟨i, hi⟩ := Nat.exists_eq_add_of_le (show 23 ≤ (189 + n) / 8 by omega)
  rw [← hbit, Hash.bit, hi, hzero i (by omega), BitVec.getLsbD_zero, Nat.zero_testBit]

theorem HasDigits.lastEq (hH : HasDigits d H base) {v w : List ℕ} (hv : ∀ i ∈ v, i < nhashes)
    (hw : ∀ i ∈ w, i < nhashes) (heq : ∀ r, 8 ≤ r → xorDigits d r v = xorDigits d r w) :
    LastEq (xorHash H base v) (xorHash H base w) := by
  intro k hk
  refine BitVec.eq_of_getLsbD_eq fun t ht => ?_
  have hbit : ∀ a : Hash, (a (23 + k)).getLsbD t = a.bit (8 * (23 + k) + (7 - t)) := by
    intro a
    rw [Hash.bit, show (8 * (23 + k) + (7 - t)) / 8 = 23 + k by omega,
      show 7 - (8 * (23 + k) + (7 - t)) % 8 = t by omega]
  rw [hbit, hbit, hH.bit_xorHash hv (by omega), hH.bit_xorHash hw (by omega), heq _ (by omega)]

theorem HasDigits.bucketOf_xorHash (hH : HasDigits d H base)
    (hd : ∀ i < nhashes, ∀ r, d i r < 2 ^ 21) {r : ℕ} (hr : r ≤ 9) {v : List ℕ}
    (hv : ∀ i ∈ v, i < nhashes) : bucketOf r (xorHash H base v) = xorDigits d r v / 2 ^ 7 := by
  have hlt := xorDigits_lt (m := 21) fun i hi => hd i (hv i hi) r
  refine Nat.eq_of_testBit_eq fun t => ?_
  by_cases ht : t < 14
  · rw [bucketOf, testBit_field _ _ ht, hH.bit_xorHash hv (by omega),
      show (21 * r + (14 - 1 - t)) / 21 = r by omega, show 20 - (21 * r + (14 - 1 - t)) % 21 =
      t + 7 by omega, ← Nat.testBit_div_two_pow]
  · have hle : 2 ^ 14 ≤ 2 ^ t := Nat.pow_le_pow_right (by decide) (by omega)
    rw [Nat.testBit_eq_false_of_lt (Nat.lt_of_lt_of_le (bucketOf_lt r _) hle),
      Nat.testBit_eq_false_of_lt (Nat.lt_of_lt_of_le (by omega) hle)]

theorem xorHash_singleton (i : ℕ) : xorHash H base [i] = leafHash H base i := List.sum_singleton

end Digits
end Aion.Solver
