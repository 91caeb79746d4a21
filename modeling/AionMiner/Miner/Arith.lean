import AionMiner.Equihash.PackingRoundTrip
import AionMiner.Text.Hex

/-! `arith_uint256` and `uint256`: eight 32-bit limbs, low limb first, and the 32 bytes of the same number. -/

namespace Aion.Miner
open Bits Equihash Text

section Limbs

/-- The loop of `+=`. -/
def addLimbs : ℕ → List (BitVec 32) → List (BitVec 32) → List (BitVec 32)
  | carry, x :: xs, y :: ys =>
    let n := carry + x.toNat + y.toNat
    BitVec.ofNat 32 n :: addLimbs (n / 2 ^ 32) xs ys
  | _, _, _ => []

@[simp] theorem length_addLimbs (carry : ℕ) (xs ys : List (BitVec 32)) :
    (addLimbs carry xs ys).length = min xs.length ys.length := by
  induction xs generalizing carry ys with
  | nil => simp [addLimbs]
  | cons x xs ih =>
    cases ys with
    | nil => simp [addLimbs]
    | cons y ys => simp [addLimbs, ih]

theorem take_addLimbs {xs ys : List (BitVec 32)} {k : ℕ} (hlen : xs.length = ys.length)
    (hys : ys.take k = List.replicate k 0) : (addLimbs 0 xs ys).take k = xs.take k := by
  induction k generalizing xs ys with
  | zero => rfl
  | succ k ih =>
    match xs, ys with
    | x :: xs, y :: ys =>
      rw [List.take_succ_cons, List.replicate_succ, List.cons.injEq] at hys
      obtain ⟨rfl, hys⟩ := hys
      have hcarry : (0 + x.toNat + (0 : BitVec 32).toNat) / 2 ^ 32 = 0 := by
        simpa using Nat.div_eq_of_lt x.isLt
      rw [addLimbs, hcarry, List.take_succ_cons, List.take_succ_cons, ih (by simpa using hlen) hys]
      simp
    | [], _ => simp [addLimbs]
    | x :: xs, [] => simp at hlen

/-- One pass of the loop of `<<=`. -/
def shiftStep (a : List (BitVec 32)) (k shift : ℕ) (pn : List (BitVec 32)) (i : ℕ) : List (BitVec 32) :=
  let pn := if i + k + 1 < 8 ∧ shift ≠ 0 then pn.modify (i + k + 1) (· ||| a.getD i 0 >>> (32 - shift)) else pn
  if i + k < 8 then pn.modify (i + k) (· ||| a.getD i 0 <<< shift) else pn

/-- The loop of `<<=`. -/
def shiftLimbs (a : List (BitVec 32)) (k shift : ℕ) : List (BitVec 32) :=
  (List.range 8).foldl (shiftStep a k shift) (List.replicate 8 0)

theorem length_shiftStep (a : List (BitVec 32)) (k shift : ℕ) (pn : List (BitVec 32)) (i : ℕ) :
    (shiftStep a k shift pn i).length = pn.length := by
  unfold shiftStep
  split_ifs <;> simp

theorem take_shiftStep (a : List (BitVec 32)) {k m : ℕ} (hm : m ≤ k) (shift : ℕ)
    (pn : List (BitVec 32)) (i : ℕ) : (shiftStep a k shift pn i).take m = pn.take m := by
  refine List.ext_getElem? fun j => ?_
  unfold shiftStep
  by_cases hj : j < m
  · simp only [List.getElem?_take, hj, if_true]
    split_ifs <;> simp [show i + k ≠ j by omega, show i + k + 1 ≠ j by omega]
  · simp only [List.getElem?_take, hj, if_false]

theorem length_shiftLimbs (a : List (BitVec 32)) (k shift : ℕ) :
    (shiftLimbs a k shift).length = 8 := by
  unfold shiftLimbs
  induction List.range 8 using List.reverseRecOn with
  | nil => rfl
  | append_singleton is i ih =>
    rw [List.foldl_append, List.foldl_cons, List.foldl_nil, length_shiftStep, ih]

theorem take_shiftLimbs (a : List (BitVec 32)) {k m : ℕ} (hm : m ≤ k) (hm8 : m ≤ 8) (shift : ℕ) :
    (shiftLimbs a k shift).take m = List.replicate m 0 := by
  unfold shiftLimbs
  induction List.range 8 using List.reverseRecOn with
  | nil => rw [List.foldl_nil, List.take_replicate, Nat.min_eq_left hm8]
  | append_singleton is i ih =>
    rw [List.foldl_append, List.foldl_cons, List.foldl_nil, take_shiftStep a hm, ih]

end Limbs

structure Arith256 where
  pn : List (BitVec 32)
  width : pn.length = 8

namespace Arith256

def ofUInt64 (b : BitVec 64) : Arith256 where
  pn := [b.setWidth 32, (b >>> 32).setWidth 32] ++ List.replicate 6 0
  width := rfl

def shiftLeft (a : Arith256) (shift : ℕ) : Arith256 where
  pn := shiftLimbs a.pn (shift / 32) (shift % 32)
  width := length_shiftLimbs ..

def or (a b : Arith256) : Arith256 where
  pn := List.zipWith (· ||| ·) a.pn b.pn
  width := by rw [List.length_zipWith, a.width, b.width]; rfl

def add (a b : Arith256) : Arith256 where
  pn := addLimbs 0 a.pn b.pn
  width := by rw [length_addLimbs, a.width, b.width]; rfl

theorem take_or {a b : Arith256} {k : ℕ} (hb : b.pn.take k = List.replicate k 0) :
    (a.or b).pn.take k = a.pn.take k := by
  have hlen : (a.pn.take k).length = (List.replicate k (0 : BitVec 32)).length := by
    rw [← hb, List.length_take, List.length_take, a.width, b.width]
  rw [or, List.take_zipWith, hb]
  refine List.ext_getElem ?_ fun i _ _ => by simp
  rw [List.length_zipWith, ← hlen, Nat.min_self]

theorem take_add {a b : Arith256} {k : ℕ} (hb : b.pn.take k = List.replicate k 0) :
    (a.add b).pn.take k = a.pn.take k :=
  take_addLimbs (a.width.trans b.width.symm) hb

theorem take_shiftLeft (a : Arith256) {k shift : ℕ} (hk : k ≤ 8) (hshift : 32 * k ≤ shift) :
    (a.shiftLeft shift).pn.take k = List.replicate k 0 :=
  take_shiftLimbs a.pn ((Nat.le_div_iff_mul_le (by decide)).mpr (by rwa [Nat.mul_comm])) hk _

end Arith256

structure Uint256 where
  data : List Byte
  width : data.length = 32

section Words

def readLE32 (ptr : List Byte) : BitVec 32 := ptr.getD 3 0 ++ ptr.getD 2 0 ++ ptr.getD 1 0 ++ ptr.getD 0 0

def writeLE32 (x : BitVec 32) : List Byte :=
  [x.extractLsb' 0 8, x.extractLsb' 8 8, x.extractLsb' 16 8, x.extractLsb' 24 8]

theorem writeLE32_readLE32 (b0 b1 b2 b3 : Byte) (ptr : List Byte) :
    writeLE32 (readLE32 (b0 :: b1 :: b2 :: b3 :: ptr)) = [b0, b1, b2, b3] := by
  have hword : readLE32 (b0 :: b1 :: b2 :: b3 :: ptr) = b3 ++ b2 ++ b1 ++ b0 := rfl
  simp only [writeLE32, hword, List.cons.injEq, and_true]
  refine ⟨?_, ?_, ?_, ?_⟩ <;> refine BitVec.eq_of_getLsbD_eq fun i hi => ?_ <;>
    simp only [BitVec.getLsbD_extractLsb', BitVec.getLsbD_append, hi, decide_true, Bool.true_and]
  · simp [hi]
  · simp [hi, show ¬8 + i < 8 by omega]
  · simp [hi, show ¬16 + i < 8 by omega, show ¬16 + i - 8 < 8 by omega, show 16 + i - 8 - 8 = i by omega]
  · simp [show ¬24 + i < 8 by omega, show ¬24 + i - 8 < 8 by omega, show ¬24 + i - 8 - 8 < 8 by omega,
      show 24 + i - 8 - 8 - 8 = i by omega]

theorem length_writeLE32 (x : BitVec 32) : (writeLE32 x).length = 4 := rfl

/-- Four bytes survive being read as a word. -/
theorem writeLE32_readLE32_eq_take {ptr : List Byte} (h : 4 ≤ ptr.length) :
    writeLE32 (readLE32 ptr) = ptr.take 4 := by
  match ptr with
  | b0 :: b1 :: b2 :: b3 :: ptr => exact writeLE32_readLE32 b0 b1 b2 b3 ptr

end Words

section Convert

def uintToArith256 (a : Uint256) : Arith256 where
  pn := (List.range 8).map fun x => readLE32 (a.data.drop (x * 4))
  width := by simp

def arithToUint256 (a : Arith256) : Uint256 where
  data := a.pn.flatMap writeLE32
  width := by rw [length_flatMap_const length_writeLE32, a.width]

theorem arithToUint256_uintToArith256 (a : Uint256) : arithToUint256 (uintToArith256 a) = a := by
  obtain ⟨data, width⟩ := a
  simp only [arithToUint256, uintToArith256, List.flatMap_map, Uint256.mk.injEq]
  have hword : ∀ x ∈ List.range 8, writeLE32 (readLE32 (data.drop (x * 4))) =
      (data.drop (x * 4)).take 4 := by
    intro x hx
    rw [List.mem_range] at hx
    exact writeLE32_readLE32_eq_take (by rw [List.length_drop]; omega)
  rw [List.flatMap_congr hword, flatMap_take_four, List.take_of_length_le width.le]

theorem take_data (a : Arith256) (k : ℕ) :
    (arithToUint256 a).data.take (k * 4) = (a.pn.take k).flatMap writeLE32 := by
  have hdata : (arithToUint256 a).data = (a.pn.take k).flatMap writeLE32 ++ (a.pn.drop k).flatMap writeLE32 := by
    rw [← List.flatMap_append, List.take_append_drop]
    rfl
  rcases Nat.le_total k 8 with hk | hk
  · have hlen : ((a.pn.take k).flatMap writeLE32).length = k * 4 := by
      rw [length_flatMap_const length_writeLE32, List.length_take, a.width, Nat.min_eq_left hk]
    rw [hdata, ← hlen, List.take_left]
  · have hpn : a.pn.length ≤ k := a.width.trans_le hk
    have hlen : (arithToUint256 a).data.length ≤ k * 4 :=
      (arithToUint256 a).width.trans_le (by omega)
    rw [List.take_of_length_le hlen, List.take_of_length_le hpn]
    rfl

theorem take_data_congr {a b : Arith256} {k : ℕ} (h : a.pn.take k = b.pn.take k) :
    (arithToUint256 a).data.take (k * 4) = (arithToUint256 b).data.take (k * 4) := by
  rw [take_data, take_data, h]

end Convert
end Aion.Miner
