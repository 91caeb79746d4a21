import Mathlib.Data.List.GetD
import Mathlib.Data.List.Induction
import Mathlib.Data.Nat.Bitwise
import Mathlib.Tactic.Ring

/-! Lists of machine words read as one big-endian bit stream, and the numbers
such streams denote. Every word contributes its `b` low bits, high bit first. -/

namespace Aion

abbrev Byte := BitVec 8

namespace Bits
variable {w : ℕ}

def streamBit (b : ℕ) (xs : List (BitVec w)) (n : ℕ) : Bool :=
  (xs.getD (n / b) 0).getLsbD (b - 1 - n % b)

theorem streamBit_at {b : ℕ} (xs : List (BitVec w)) {k s : ℕ} (hs : s < b) :
    streamBit b xs (k * b + (b - 1 - s)) = (xs.getD k 0).getLsbD s := by
  have hb : 0 < b := by omega
  have hdiv : (k * b + (b - 1 - s)) / b = k := by
    rw [Nat.mul_comm, Nat.mul_add_div hb, Nat.div_eq_of_lt (by omega), Nat.add_zero]
  have hmod : (k * b + (b - 1 - s)) % b = b - 1 - s := by
    rw [Nat.mul_comm, Nat.mul_add_mod, Nat.mod_eq_of_lt (by omega)]
  rw [streamBit, hdiv, hmod, show b - 1 - (b - 1 - s) = s by omega]

theorem eq_of_streamBit {xs ys : List (BitVec w)} (hlen : xs.length = ys.length)
    (h : ∀ n < xs.length * w, streamBit w xs n = streamBit w ys n) : xs = ys := by
  refine List.ext_getElem hlen fun k hk hk' => BitVec.eq_of_getLsbD_eq fun s hs => ?_
  have hn : k * w + (w - 1 - s) < xs.length * w := by
    have := Nat.mul_le_mul_right w (Nat.succ_le_of_lt hk)
    rw [Nat.succ_mul] at this
    omega
  have := h _ hn
  rwa [streamBit_at xs hs, streamBit_at ys hs, List.getD_eq_getElem _ _ hk,
    List.getD_eq_getElem _ _ hk'] at this

theorem streamBit_append_right {b : ℕ} (hb : 0 < b) (xs ys : List (BitVec w)) {n : ℕ}
    (hn : xs.length * b ≤ n) : streamBit b (xs ++ ys) n = streamBit b ys (n - xs.length * b) := by
  obtain ⟨m, rfl⟩ := Nat.exists_eq_add_of_le hn
  have hdiv : (xs.length * b + m) / b = xs.length + m / b := by
    rw [Nat.mul_comm, Nat.mul_add_div hb]
  have hmod : (xs.length * b + m) % b = m % b := by
    rw [Nat.mul_comm, Nat.mul_add_mod]
  rw [streamBit, hdiv, hmod, List.getD_append_right _ _ _ _ (Nat.le_add_right _ _),
    Nat.add_sub_cancel_left, Nat.add_sub_cancel_left, streamBit]

theorem streamBit_append_left {b : ℕ} (xs ys : List (BitVec w)) {n : ℕ}
    (hn : n < xs.length * b) : streamBit b (xs ++ ys) n = streamBit b xs n := by
  have : n / b < xs.length := Nat.div_lt_of_lt_mul (by rwa [Nat.mul_comm])
  rw [streamBit, List.getD_append _ _ _ _ this, streamBit]

/-- The number a stream of full words denotes, most significant word first. -/
def beNat (xs : List (BitVec w)) : ℕ := xs.foldl (fun a x => a * 2 ^ w + x.toNat) 0

theorem beNat_append_singleton (xs : List (BitVec w)) (x : BitVec w) :
    beNat (xs ++ [x]) = beNat xs * 2 ^ w + x.toNat := by
  simp only [beNat, List.foldl_append, List.foldl_cons, List.foldl_nil]

theorem beNat_lt (xs : List (BitVec w)) : beNat xs < 2 ^ (w * xs.length) := by
  induction xs using List.reverseRecOn with
  | nil => simp [beNat]
  | append_singleton xs x ih =>
    rw [beNat_append_singleton, List.length_append, List.length_singleton, Nat.mul_succ,
      Nat.pow_add]
    calc beNat xs * 2 ^ w + x.toNat < beNat xs * 2 ^ w + 2 ^ w := Nat.add_lt_add_left x.isLt _
      _ = (beNat xs + 1) * 2 ^ w := (Nat.succ_mul _ _).symm
      _ ≤ 2 ^ (w * xs.length) * 2 ^ w := Nat.mul_le_mul_right _ ih

/-- Bit `t` of the number is bit `t` of the stream counted from its end. -/
theorem testBit_beNat (hw : 0 < w) (xs : List (BitVec w)) (t : ℕ) :
    (beNat xs).testBit t = (decide (t < xs.length * w) && streamBit w xs (xs.length * w - 1 - t)) := by
  induction xs using List.reverseRecOn generalizing t with
  | nil => simp [beNat]
  | append_singleton xs x ih =>
    rw [beNat_append_singleton, Nat.mul_comm, Nat.testBit_two_pow_mul_add _ x.isLt,
      List.length_append, List.length_singleton, Nat.add_mul, Nat.one_mul]
    split_ifs with ht
    · have hpos : xs.length * w + w - 1 - t - xs.length * w = 0 * w + (w - 1 - t) := by omega
      rw [streamBit_append_right hw xs [x] (by omega), hpos, streamBit_at [x] ht,
        decide_eq_true (by omega), Bool.true_and, List.getD_cons_zero, BitVec.getLsbD]
    · rw [ih]
      by_cases hlt : t < xs.length * w + w
      · rw [streamBit_append_left xs [x] (by omega), decide_eq_true hlt,
          decide_eq_true (by omega), show xs.length * w + w - 1 - t =
          xs.length * w - 1 - (t - w) by omega]
      · rw [decide_eq_false hlt, decide_eq_false (by omega), Bool.false_and, Bool.false_and]

end Bits
end Aion
