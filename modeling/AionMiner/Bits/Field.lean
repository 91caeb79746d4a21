import Mathlib.Data.Nat.Bitwise
import Mathlib.Tactic.Ring

/-! Numbers cut out of a big-endian bit sequence, and the shifts and masks that
assemble them from bytes. -/

namespace Aion.Bits

/-- The number whose binary digits are bits `n .. n + len - 1`, high bit first. -/
def field (f : ℕ → Bool) (n : ℕ) : ℕ → ℕ
  | 0 => 0
  | len + 1 => 2 * field f n len + (f (n + len)).toNat

theorem field_lt (f : ℕ → Bool) (n len : ℕ) : field f n len < 2 ^ len := by
  induction len with
  | zero => exact Nat.one_pos
  | succ len ih =>
    have := (f (n + len)).toNat_lt
    rw [field, Nat.pow_succ]
    omega

theorem field_add (f : ℕ → Bool) (n a b : ℕ) :
    field f n (a + b) = field f n a * 2 ^ b + field f (n + a) b := by
  induction b with
  | zero => rw [Nat.pow_zero, Nat.mul_one]; rfl
  | succ b ih => rw [← Nat.add_assoc, field, field, ih, Nat.pow_succ, Nat.add_assoc n a b]; ring

theorem field_inj {f g : ℕ → Bool} {n m len : ℕ} :
    field f n len = field g m len ↔ ∀ i < len, f (n + i) = g (m + i) := by
  induction len with
  | zero => exact ⟨fun _ i hi => absurd hi (Nat.not_lt_zero i), fun _ => rfl⟩
  | succ len ih =>
    have hf := (f (n + len)).toNat_lt
    have hg := (g (m + len)).toNat_lt
    rw [field, field]
    constructor
    · intro h i hi
      rcases Nat.lt_succ_iff_lt_or_eq.mp hi with hi | rfl
      · exact ih.mp (by omega) i hi
      · have hbit : (f (n + i)).toNat = (g (m + i)).toNat := by omega
        revert hbit
        cases f (n + i) <;> cases g (m + i) <;> simp
    · intro h
      rw [ih.mpr fun i hi => h i (by omega), h len (Nat.lt_succ_self len)]

theorem testBit_field (f : ℕ → Bool) (n : ℕ) {len t : ℕ} (ht : t < len) :
    (field f n len).testBit t = f (n + (len - 1 - t)) := by
  induction len generalizing t with
  | zero => exact absurd ht (Nat.not_lt_zero t)
  | succ len ih =>
    rw [field, ← Nat.pow_one 2, Nat.testBit_two_pow_mul_add _ (f (n + len)).toNat_lt]
    cases t with
    | zero =>
      rw [if_pos Nat.one_pos, Nat.sub_zero, Nat.add_sub_cancel]
      cases f (n + len) <;> rfl
    | succ t =>
      rw [if_neg (by omega), Nat.add_sub_cancel, ih (by omega),
        show len + 1 - 1 - (t + 1) = len - 1 - t by omega]

/-- Bit `n` of a byte sequence, the high bit of byte 0 being bit 0. -/
def byteBit (g : ℕ → BitVec 8) (n : ℕ) : Bool := (g (n / 8)).getLsbD (7 - n % 8)

theorem field_byte (g : ℕ → BitVec 8) (k : ℕ) : field (byteBit g) (8 * k) 8 = (g k).toNat := by
  refine Nat.eq_of_testBit_eq fun t => ?_
  by_cases ht : t < 8
  · rw [testBit_field _ _ ht, byteBit, show (8 * k + (8 - 1 - t)) / 8 = k by omega,
      show 7 - (8 * k + (8 - 1 - t)) % 8 = t by omega, BitVec.getLsbD]
  · have hle : 2 ^ 8 ≤ 2 ^ t := Nat.pow_le_pow_right (by decide) (by omega)
    rw [Nat.testBit_eq_false_of_lt ((field_lt _ _ 8).trans_le hle),
      Nat.testBit_eq_false_of_lt ((g k).isLt.trans_le hle)]

theorem field_byte_split (g : ℕ → BitVec 8) (k : ℕ) {p : ℕ} (hp : p ≤ 8) :
    (g k).toNat = field (byteBit g) (8 * k) (8 - p) * 2 ^ p + field (byteBit g) (8 * k + (8 - p)) p := by
  rw [← field_byte, ← field_add, Nat.sub_add_cancel hp]

theorem field_low (g : ℕ → BitVec 8) (k : ℕ) {p : ℕ} (hp : p ≤ 8) :
    field (byteBit g) (8 * k + (8 - p)) p = (g k).toNat % 2 ^ p := by
  rw [field_byte_split g k hp, Nat.mul_add_mod_self_right, Nat.mod_eq_of_lt (field_lt _ _ p)]

theorem field_high (g : ℕ → BitVec 8) (k : ℕ) {p : ℕ} (hp : p ≤ 8) :
    field (byteBit g) (8 * k) (8 - p) = (g k).toNat / 2 ^ p := by
  rw [field_byte_split g k hp, Nat.mul_comm _ (2 ^ p), Nat.mul_add_div (Nat.two_pow_pos p),
    Nat.div_eq_of_lt (field_lt _ _ p), Nat.add_zero]

section Words
variable {w : ℕ}

theorem toNat_mask {x m : BitVec w} {p : ℕ} (hm : m.toNat = 2 ^ p - 1) :
    (x &&& m).toNat = x.toNat % 2 ^ p := by
  rw [BitVec.toNat_and, hm, Nat.and_two_pow_sub_one_eq_mod]

theorem toNat_shiftRight (x : BitVec w) (p : ℕ) : (x >>> p).toNat = x.toNat / 2 ^ p := by
  rw [BitVec.toNat_ushiftRight, Nat.shiftRight_eq_div_pow]

theorem toNat_join {x y : BitVec w} {q : ℕ} (hx : x.toNat * 2 ^ q < 2 ^ w) (hy : y.toNat < 2 ^ q) :
    (x <<< q ||| y).toNat = x.toNat * 2 ^ q + y.toNat := by
  rw [BitVec.toNat_or, BitVec.toNat_shiftLeft, Nat.shiftLeft_eq, Nat.mod_eq_of_lt hx, Nat.mul_comm,
    ← Nat.two_pow_add_eq_or_of_lt hy]

end Words
end Aion.Bits
