import AionMiner.Equihash.Packing
import Mathlib.Tactic.IntervalCases

/-! Both packing loops copy one bit stream. An array of elements is read as the
stream of their `bitLen` significant bits; everything else in it is padding. -/

namespace Aion.Equihash
open Bits

/-- Bit `n` of the elements of a padded array, high bit of each element first. -/
def cellBit (bitLen bytePad : ℕ) (array : List Byte) (n : ℕ) : Bool :=
  let width := outWidth bitLen bytePad
  let s := bitLen - 1 - n % bitLen
  (array.getD (n / bitLen * width + (width - 1 - s / 8)) 0#8).getLsbD (s % 8)

/-- The first `count` elements hold no bit outside their `bitLen` low ones. -/
def Padded (bitLen bytePad count : ℕ) (array : List Byte) : Prop :=
  ∀ e < count, ∀ x < outWidth bitLen bytePad, ∀ t < 8,
    bitLen ≤ 8 * (outWidth bitLen bytePad - x - 1) + t →
      (array.getD (e * outWidth bitLen bytePad + x) 0#8).getLsbD t = false

theorem getLsbD_bitLenMask {bitLen : ℕ} (h : bitLen < 32) (i : ℕ) :
    (bitLenMask bitLen).getLsbD i = decide (i < bitLen) := by
  have hpow : (2 : ℕ) ^ bitLen < 2 ^ 32 := Nat.pow_lt_pow_right (by decide) h
  have hone : (1 : ℕ) ≤ 2 ^ bitLen := Nat.one_le_two_pow
  have hval : (bitLenMask bitLen).toNat = 2 ^ bitLen - 1 := by
    rw [bitLenMask, BitVec.toNat_sub_of_le, BitVec.toNat_shiftLeft, BitVec.toNat_ofNat,
      Nat.shiftLeft_eq]
    · rw [Nat.mod_eq_of_lt (show 1 < 2 ^ 32 by decide), Nat.one_mul, Nat.mod_eq_of_lt hpow]
    · rw [BitVec.le_def, BitVec.toNat_shiftLeft, BitVec.toNat_ofNat, Nat.shiftLeft_eq,
        Nat.mod_eq_of_lt (show 1 < 2 ^ 32 by decide), Nat.one_mul, Nat.mod_eq_of_lt hpow]
      exact hone
  rw [BitVec.getLsbD, hval, Nat.testBit_two_pow_sub_one]

theorem getLsbD_low_byte {i : ℕ} (hi : i < 8) : (0xff#32).getLsbD i = true := by
  interval_cases i <;> rfl

theorem getLsbD_expandByte {bitLen width a x t : ℕ} (acc : BitVec 32) (hb : bitLen < 32) (ht : t < 8) :
    (expandByte bitLen width a acc x).getLsbD t =
      (decide (8 * (width - x - 1) + t < bitLen) && acc.getLsbD (a + (8 * (width - x - 1) + t))) := by
  rw [expandByte, BitVec.getLsbD_setWidth, BitVec.getLsbD_and, BitVec.getLsbD_and,
    BitVec.getLsbD_ushiftRight, BitVec.getLsbD_ushiftRight, getLsbD_bitLenMask hb,
    getLsbD_low_byte ht, decide_eq_true ht, Bool.true_and, Bool.and_true, Bool.and_comm,
    Nat.add_assoc]

theorem outWidth_pos {bitLen : ℕ} (bytePad : ℕ) (h : 8 ≤ bitLen) : 0 < outWidth bitLen bytePad := by
  unfold outWidth; omega

theorem cellBit_at {bitLen bytePad e s : ℕ} (array : List Byte) (hs : s < bitLen) :
    cellBit bitLen bytePad array (e * bitLen + (bitLen - 1 - s)) =
      (array.getD (e * outWidth bitLen bytePad + (outWidth bitLen bytePad - 1 - s / 8)) 0#8).getLsbD (s % 8) := by
  have hb : 0 < bitLen := by omega
  have hdiv : (e * bitLen + (bitLen - 1 - s)) / bitLen = e := by
    rw [Nat.mul_comm, Nat.mul_add_div hb, Nat.div_eq_of_lt (by omega), Nat.add_zero]
  have hmod : (e * bitLen + (bitLen - 1 - s)) % bitLen = bitLen - 1 - s := by
    rw [Nat.mul_comm, Nat.mul_add_mod, Nat.mod_eq_of_lt (by omega)]
  simp only [cellBit, hdiv, hmod, show bitLen - 1 - (bitLen - 1 - s) = s by omega]

theorem eq_of_cellBit {bitLen bytePad count : ℕ} (h8 : 8 ≤ bitLen) {xs ys : List Byte}
    (hx : xs.length = count * outWidth bitLen bytePad)
    (hy : ys.length = count * outWidth bitLen bytePad)
    (hpx : Padded bitLen bytePad count xs) (hpy : Padded bitLen bytePad count ys)
    (h : ∀ n < count * bitLen, cellBit bitLen bytePad xs n = cellBit bitLen bytePad ys n) :
    xs = ys := by
  have hw := outWidth_pos bytePad h8
  refine List.ext_getElem (hx.trans hy.symm) fun k hk hk' => BitVec.eq_of_getLsbD_eq fun t ht => ?_
  set width := outWidth bitLen bytePad with hwidth
  have he : k / width < count := Nat.div_lt_of_lt_mul (by rw [Nat.mul_comm]; omega)
  have hk0 : k / width * width + k % width = k := by rw [Nat.mul_comm]; exact Nat.div_add_mod k width
  have hr : k % width < width := Nat.mod_lt _ hw
  rw [← List.getD_eq_getElem xs 0#8 hk, ← List.getD_eq_getElem ys 0#8 hk', ← hk0]
  by_cases hs : 8 * (width - k % width - 1) + t < bitLen
  · set s := 8 * (width - k % width - 1) + t with hsdef
    have hn : k / width * bitLen + (bitLen - 1 - s) < count * bitLen := by
      have := Nat.mul_le_mul_right bitLen (Nat.succ_le_of_lt he)
      rw [Nat.succ_mul] at this
      omega
    have := h _ hn
    rw [cellBit_at xs hs, cellBit_at ys hs, ← hwidth] at this
    rwa [show width - 1 - s / 8 = k % width by omega, show s % 8 = t by omega] at this
  · rw [hpx _ he _ hr t ht (Nat.le_of_not_lt hs), hpy _ he _ hr t ht (Nat.le_of_not_lt hs)]

section Expand
variable {bitLen bytePad : ℕ}

/-- What `expandArray` has done after reading `pre`, with `k` elements written. -/
structure ExpandInv (bitLen bytePad : ℕ) (out : List Byte) (pre : List Byte) (k : ℕ) (s : PackState) :
    Prop where
  bits : s.accBits + k * bitLen = 8 * pre.length
  pending : s.accBits < bitLen
  acc : ∀ t < 32, t < 8 * pre.length →
    s.accValue.getLsbD t = streamBit 8 pre (8 * pre.length - 1 - t)
  cursor : s.j = k * outWidth bitLen bytePad
  length : s.out.length = out.length
  cells : ∀ e < k, ∀ x < outWidth bitLen bytePad, e * outWidth bitLen bytePad + x < out.length →
    ∀ t < 8, (s.out.getD (e * outWidth bitLen bytePad + x) 0#8).getLsbD t =
      (decide (8 * (outWidth bitLen bytePad - x - 1) + t < bitLen) && streamBit 8 pre
        (e * bitLen + (bitLen - 1 - (8 * (outWidth bitLen bytePad - x - 1) + t))))
  rest : ∀ p, k * outWidth bitLen bytePad ≤ p → s.out.getD p 0#8 = out.getD p 0#8

theorem acc_shift {pre : List Byte} {acc : BitVec 32} (b : Byte)
    (h : ∀ t < 32, t < 8 * pre.length → acc.getLsbD t = streamBit 8 pre (8 * pre.length - 1 - t)) :
    ∀ t < 32, t < 8 * (pre ++ [b]).length →
      ((acc <<< 8) ||| b.setWidth 32).getLsbD t =
        streamBit 8 (pre ++ [b]) (8 * (pre ++ [b]).length - 1 - t) := by
  intro t ht htl
  rw [List.length_append, List.length_singleton] at htl ⊢
  rw [BitVec.getLsbD_or, BitVec.getLsbD_shiftLeft, BitVec.getLsbD_setWidth, decide_eq_true ht]
  by_cases h8 : t < 8
  · have hpos : 8 * (pre.length + 1) - 1 - t - pre.length * 8 = 0 * 8 + (8 - 1 - t) := by omega
    rw [streamBit_append_right (by decide) pre [b] (by omega), hpos, streamBit_at [b] h8]
    simp [h8]
  · rw [streamBit_append_left pre [b] (by omega),
      show 8 * (pre.length + 1) - 1 - t = 8 * pre.length - 1 - (t - 8) by omega,
      ← h (t - 8) (by omega) (by omega)]
    simp [h8, BitVec.getLsbD_of_ge b t (by omega)]

theorem ExpandInv.init (h8 : 0 < bitLen) (out : List Byte) :
    ExpandInv bitLen bytePad out [] 0 ⟨0, 0#32, 0, out⟩ where
  bits := by simp
  pending := h8
  acc := by simp
  cursor := by simp
  length := rfl
  cells := by simp
  rest := fun _ _ => rfl

theorem ExpandInv.step (h8 : 8 ≤ bitLen) (h25 : bitLen ≤ 25) {out pre : List Byte} {k : ℕ}
    {s : PackState} (b : Byte) (h : ExpandInv bitLen bytePad out pre k s) :
    ∃ k', ExpandInv bitLen bytePad out (pre ++ [b]) k' (expandStep bitLen bytePad s b) := by
  have hacc := acc_shift b h.acc
  have hlen : (pre ++ [b]).length = pre.length + 1 := by simp
  have hcells : ∀ e < k, ∀ x < outWidth bitLen bytePad, e * outWidth bitLen bytePad + x < out.length →
      ∀ t < 8, (s.out.getD (e * outWidth bitLen bytePad + x) 0#8).getLsbD t =
        (decide (8 * (outWidth bitLen bytePad - x - 1) + t < bitLen) && streamBit 8 (pre ++ [b])
          (e * bitLen + (bitLen - 1 - (8 * (outWidth bitLen bytePad - x - 1) + t)))) := by
    intro e he x hx hex t ht
    have hle := Nat.mul_le_mul_right bitLen (Nat.succ_le_of_lt he)
    rw [Nat.succ_mul] at hle
    have hb := h.bits
    rw [h.cells e he x hx hex t ht, streamBit_append_left pre [b] (by omega)]
  by_cases hemit : bitLen ≤ s.accBits + 8
  · refine ⟨k + 1, ?_⟩
    have hw : bytePad + (outWidth bitLen bytePad - bytePad) = outWidth bitLen bytePad := by
      unfold outWidth; omega
    simp only [expandStep, if_pos hemit]
    refine ⟨?_, ?_, hacc, ?_, ?_, ?_, ?_⟩
    · have := h.bits
      show s.accBits + 8 - bitLen + (k + 1) * bitLen = _
      rw [hlen, Nat.succ_mul]
      omega
    · have := h.pending
      show s.accBits + 8 - bitLen < bitLen
      omega
    · show s.j + outWidth bitLen bytePad = _
      rw [h.cursor, Nat.succ_mul]
    · simp [h.length]
    · intro e he x hx hex t ht
      rcases Nat.lt_succ_iff_lt_or_eq.mp he with he | rfl
      · have hle := Nat.mul_le_mul_right (outWidth bitLen bytePad) (Nat.succ_le_of_lt he)
        rw [Nat.succ_mul] at hle
        rw [getD_writeLoop_of_lt _ _ _ _ _ _ (by rw [h.cursor]; omega),
          getD_writeLoop_of_lt _ _ _ _ _ _ (by rw [h.cursor]; omega)]
        exact hcells e he x hx hex t ht
      · rw [← h.cursor] at hex ⊢
        by_cases hp : bytePad ≤ x
        · rw [getD_writeLoop _ _ _ _ _ _ hp (by omega) (by simpa [h.length] using hex),
            getLsbD_expandByte _ (by omega) ht]
          have hb := h.bits
          have hpend := h.pending
          by_cases hpos : 8 * (outWidth bitLen bytePad - x - 1) + t < bitLen
          · rw [hacc _ (by omega) (by rw [hlen]; omega), hlen]
            simp only [decide_eq_true hpos, Bool.true_and]
            congr 1
            omega
          · simp only [decide_eq_false hpos, Bool.false_and]
        · rw [getD_writeLoop_of_lt _ _ _ _ _ _ (by omega),
            getD_writeLoop _ _ _ _ _ _ (Nat.zero_le _) (by omega) (by rwa [h.length])]
          have hpos : ¬ 8 * (outWidth bitLen bytePad - x - 1) + t < bitLen := by
            unfold outWidth; omega
          simp [hpos]
    · intro p hp
      rw [Nat.succ_mul] at hp
      rw [getD_writeLoop_of_ge _ _ _ _ _ _ (by rw [h.cursor]; omega),
        getD_writeLoop_of_ge _ _ _ _ _ _ (by rw [h.cursor]; unfold outWidth at *; omega),
        h.rest p (by omega)]
  · refine ⟨k, ?_⟩
    simp only [expandStep, if_neg hemit]
    refine ⟨?_, by simpa using hemit, hacc, h.cursor, h.length, hcells, h.rest⟩
    have := h.bits
    show s.accBits + 8 + k * bitLen = _
    rw [hlen]
    omega

theorem expandArray_inv (bytePad : ℕ) (h8 : 8 ≤ bitLen) (h25 : bitLen ≤ 25) (inp out : List Byte) :
    ∃ k s, expandArray inp out bitLen bytePad = s.out ∧ ExpandInv bitLen bytePad out inp k s := by
  suffices h : ∃ k, ExpandInv bitLen bytePad out inp k
      (inp.foldl (expandStep bitLen bytePad) ⟨0, 0#32, 0, out⟩) from
    h.imp fun k hk => ⟨_, rfl, hk⟩
  induction inp using List.reverseRecOn with
  | nil => exact ⟨0, .init (by omega) out⟩
  | append_singleton inp b ih =>
    obtain ⟨k, hk⟩ := ih
    rw [List.foldl_append]
    exact hk.step h8 h25 b

theorem ExpandInv.count_eq (h8 : 8 ≤ bitLen) {out inp : List Byte} {k : ℕ} {s : PackState}
    (h : ExpandInv bitLen bytePad out inp k s) : k = 8 * inp.length / bitLen := by
  have := h.bits
  have := h.pending
  rw [← h.bits, Nat.add_mul_div_right _ _ (by omega), Nat.div_eq_of_lt h.pending, Nat.zero_add]

theorem length_expandArray (h8 : 8 ≤ bitLen) (h25 : bitLen ≤ 25) (inp out : List Byte) :
    (expandArray inp out bitLen bytePad).length = out.length := by
  obtain ⟨k, s, hs, hinv⟩ := expandArray_inv bytePad h8 h25 inp out
  rw [hs, hinv.length]

theorem getLsbD_expandArray (h8 : 8 ≤ bitLen) (h25 : bitLen ≤ 25) (inp out : List Byte) {e x t : ℕ}
    (he : e < 8 * inp.length / bitLen) (hx : x < outWidth bitLen bytePad)
    (hex : e * outWidth bitLen bytePad + x < out.length) (ht : t < 8) :
    ((expandArray inp out bitLen bytePad).getD (e * outWidth bitLen bytePad + x) 0#8).getLsbD t =
      (decide (8 * (outWidth bitLen bytePad - x - 1) + t < bitLen) && streamBit 8 inp
        (e * bitLen + (bitLen - 1 - (8 * (outWidth bitLen bytePad - x - 1) + t)))) := by
  obtain ⟨k, s, hs, hinv⟩ := expandArray_inv bytePad h8 h25 inp out
  rw [hs, hinv.cells e (by rwa [hinv.count_eq h8]) x hx hex t ht]

theorem lt_mul_of_lt_of_lt {e count width x : ℕ} (he : e < count) (hx : x < width) :
    e * width + x < count * width := by
  have := Nat.mul_le_mul_right width (Nat.succ_le_of_lt he)
  rw [Nat.succ_mul] at this
  omega

theorem padded_expandArray (h8 : 8 ≤ bitLen) (h25 : bitLen ≤ 25) (inp out : List Byte) {count : ℕ}
    (hc : count ≤ 8 * inp.length / bitLen) (ho : count * outWidth bitLen bytePad ≤ out.length) :
    Padded bitLen bytePad count (expandArray inp out bitLen bytePad) := by
  intro e he x hx t ht hpos
  have hex := lt_mul_of_lt_of_lt he hx
  rw [getLsbD_expandArray h8 h25 inp out (by omega) hx (by omega) ht,
    decide_eq_false (by omega), Bool.false_and]

theorem cellBit_expandArray (h8 : 8 ≤ bitLen) (h25 : bitLen ≤ 25) (inp out : List Byte)
    {count n : ℕ} (hc : count ≤ 8 * inp.length / bitLen)
    (ho : count * outWidth bitLen bytePad ≤ out.length) (hn : n < count * bitLen) :
    cellBit bitLen bytePad (expandArray inp out bitLen bytePad) n = streamBit 8 inp n := by
  set s := bitLen - 1 - n % bitLen with hs
  have hmod : n % bitLen < bitLen := Nat.mod_lt _ (by omega)
  have he : n / bitLen < count := Nat.div_lt_of_lt_mul (by rwa [Nat.mul_comm])
  have hn0 : n = n / bitLen * bitLen + (bitLen - 1 - s) := by
    have := Nat.div_add_mod n bitLen
    rw [Nat.mul_comm] at this
    omega
  have hW : s / 8 < outWidth bitLen bytePad := by unfold outWidth; omega
  have hex := lt_mul_of_lt_of_lt he (show outWidth bitLen bytePad - 1 - s / 8 < outWidth bitLen bytePad by omega)
  rw [hn0, cellBit_at _ (by omega),
    getLsbD_expandArray h8 h25 inp out (by omega) (by omega) (by omega) (Nat.mod_lt _ (by decide)),
    show 8 * (outWidth bitLen bytePad - (outWidth bitLen bytePad - 1 - s / 8) - 1)
      + s % 8 = s by omega, decide_eq_true (by omega), Bool.true_and]

end Expand

section Compress
variable {bitLen bytePad : ℕ}

theorem getLsbD_foldl_or {α : Type*} (f : α → BitVec 32) (a : BitVec 32) (l : List α) (t : ℕ) :
    (l.foldl (fun a x => a ||| f x) a).getLsbD t = (a.getLsbD t || l.any fun x => (f x).getLsbD t) := by
  induction l generalizing a with
  | nil => simp
  | cons x l ih => rw [List.foldl_cons, ih, BitVec.getLsbD_or, List.any_cons, Bool.or_assoc]

theorem getLsbD_compressRead (h25 : bitLen ≤ 25) (inp : List Byte) (j : ℕ) (acc : BitVec 32) {t : ℕ}
    (ht : t < 32) :
    ((List.range' bytePad (outWidth bitLen bytePad - bytePad)).foldl
        (compressByte inp bitLen (outWidth bitLen bytePad) j) (acc <<< bitLen)).getLsbD t =
      if t < bitLen then
        (inp.getD (j + (outWidth bitLen bytePad - 1 - t / 8)) 0#8).getLsbD (t % 8)
      else acc.getLsbD (t - bitLen) := by
  -- Reading an element shifts its `bitLen` significant bits into the accumulator
  have hbit : ∀ x, (((inp.getD (j + x) 0#8).setWidth 32 &&&
      ((bitLenMask bitLen >>> (8 * (outWidth bitLen bytePad - x - 1))) &&& 0xff#32)) <<<
        (8 * (outWidth bitLen bytePad - x - 1))).getLsbD t =
      (decide (t / 8 = outWidth bitLen bytePad - x - 1) && decide (t < bitLen) &&
        (inp.getD (j + x) 0#8).getLsbD (t % 8)) := by
    intro x
    set q := outWidth bitLen bytePad - x - 1
    rw [BitVec.getLsbD_shiftLeft, BitVec.getLsbD_and, BitVec.getLsbD_and, BitVec.getLsbD_setWidth,
      BitVec.getLsbD_ushiftRight, getLsbD_bitLenMask (by omega), decide_eq_true ht]
    by_cases hq : t / 8 = q
    · rw [show t - 8 * q = t % 8 by omega, show 8 * q + t % 8 = t by omega,
        getLsbD_low_byte (Nat.mod_lt _ (by decide)), decide_eq_true hq,
        decide_eq_false (show ¬ t < 8 * q by omega), decide_eq_true (show t % 8 < 32 by omega)]
      simp [Bool.and_comm]
    · rcases Nat.lt_or_ge t (8 * q) with hlt | hge
      · simp [hq, hlt]
      · rw [BitVec.getLsbD_of_ge _ (t - 8 * q) (by omega)]
        simp [hq]
  have hfold : compressByte inp bitLen (outWidth bitLen bytePad) j = fun a x => a |||
      (((inp.getD (j + x) 0#8).setWidth 32 &&&
        ((bitLenMask bitLen >>> (8 * (outWidth bitLen bytePad - x - 1))) &&& 0xff#32)) <<<
          (8 * (outWidth bitLen bytePad - x - 1))) := rfl
  rw [hfold, getLsbD_foldl_or, BitVec.getLsbD_shiftLeft, decide_eq_true ht, Bool.true_and]
  simp only [hbit]
  by_cases hlt : t < bitLen
  · rw [if_pos hlt, decide_eq_true hlt, Bool.not_true, Bool.false_and, Bool.false_or,
      Bool.eq_iff_iff, List.any_eq_true]
    have hW : t / 8 < outWidth bitLen bytePad - bytePad := by unfold outWidth; omega
    constructor
    · rintro ⟨x, hx, hb⟩
      rw [List.mem_range'_1] at hx
      simp only [Bool.and_true, Bool.and_eq_true, decide_eq_true_eq] at hb
      rw [show outWidth bitLen bytePad - 1 - t / 8 = x by omega]
      exact hb.2
    · intro hb
      refine ⟨outWidth bitLen bytePad - 1 - t / 8, by rw [List.mem_range'_1]; omega, ?_⟩
      rw [decide_eq_true (by omega), hb]
      rfl
  · simp [hlt]

/-- What `compressArray` has done after writing `i` bytes, with `k` elements read. -/
structure CompressInv (bitLen bytePad : ℕ) (inp out : List Byte) (i k : ℕ) (s : PackState) : Prop where
  bits : s.accBits + 8 * i = k * bitLen
  fits : s.accBits ≤ 24
  acc : ∀ t < s.accBits, s.accValue.getLsbD t = cellBit bitLen bytePad inp (k * bitLen - 1 - t)
  cursor : s.j = k * outWidth bitLen bytePad
  length : s.out.length = out.length
  cells : ∀ n < 8 * i, n < 8 * out.length → streamBit 8 s.out n = cellBit bitLen bytePad inp n

theorem CompressInv.init (inp out : List Byte) :
    CompressInv bitLen bytePad inp out 0 0 ⟨0, 0#32, 0, out⟩ where
  bits := by simp
  fits := by simp
  acc := by simp
  cursor := by simp
  length := rfl
  cells := by simp

/-- One output byte, once the accumulator holds at least 8 bits. -/
theorem compressInv_write {inp out : List Byte} {i k : ℕ} {s : PackState} (hi : i < out.length)
    (hbits : s.accBits + 8 * i = k * bitLen) (h8 : 8 ≤ s.accBits) (h32 : s.accBits ≤ 32)
    (hacc : ∀ t < s.accBits, s.accValue.getLsbD t = cellBit bitLen bytePad inp (k * bitLen - 1 - t))
    (hcursor : s.j = k * outWidth bitLen bytePad) (hlen : s.out.length = out.length)
    (hcells : ∀ n < 8 * i, n < 8 * out.length → streamBit 8 s.out n = cellBit bitLen bytePad inp n) :
    CompressInv bitLen bytePad inp out (i + 1) k (compressWrite s i) where
  bits := by show s.accBits - 8 + 8 * (i + 1) = _; omega
  fits := by show s.accBits - 8 ≤ 24; omega
  acc := fun t ht => hacc t (by change t < s.accBits - 8 at ht; omega)
  cursor := hcursor
  length := by simp [compressWrite, hlen]
  cells := by
    intro n hn hno
    change streamBit 8 (s.out.set i _) n = _
    by_cases hlt : n < 8 * i
    · rw [← hcells n hlt hno, streamBit, streamBit, List.getD_eq_getElem?_getD,
        List.getElem?_set_ne (by omega), ← List.getD_eq_getElem?_getD]
    · set r := 8 - 1 - n % 8 with hr
      have hn0 : n = i * 8 + (8 - 1 - r) := by omega
      rw [hn0, streamBit_at _ (by omega), List.getD_eq_getElem _ _ (by simpa [hlen] using hi),
        List.getElem_set_self, BitVec.getLsbD_setWidth, BitVec.getLsbD_and,
        BitVec.getLsbD_ushiftRight, getLsbD_low_byte (by omega), decide_eq_true (by omega),
        Bool.true_and, Bool.and_true, hacc _ (by omega)]
      congr 1
      omega

theorem CompressInv.step (h8 : 8 ≤ bitLen) (h25 : bitLen ≤ 25) {inp out : List Byte} {i k : ℕ}
    {s : PackState} (hi : i < out.length) (h : CompressInv bitLen bytePad inp out i k s) :
    ∃ k', CompressInv bitLen bytePad inp out (i + 1) k' (compressStep inp bitLen bytePad s i) := by
  have hbits := h.bits
  rw [compressStep]
  by_cases hread : s.accBits < 8
  · refine ⟨k + 1, ?_⟩
    rw [if_pos hread]
    refine compressInv_write hi ?_ ?_ ?_ ?_ ?_ h.length h.cells
    · show s.accBits + bitLen + 8 * i = _
      rw [Nat.succ_mul k]; omega
    · show 8 ≤ s.accBits + bitLen
      omega
    · show s.accBits + bitLen ≤ 32
      omega
    · intro t ht
      change t < s.accBits + bitLen at ht
      refine (getLsbD_compressRead h25 inp s.j s.accValue (by omega)).trans ?_
      by_cases hlt : t < bitLen
      · rw [if_pos hlt, h.cursor, show (k + 1) * bitLen - 1 - t = k * bitLen + (bitLen - 1 - t) by
          rw [Nat.succ_mul]; omega, cellBit_at inp hlt]
      · rw [if_neg hlt, h.acc _ (by omega)]
        congr 1
        rw [Nat.succ_mul]; omega
    · show s.j + outWidth bitLen bytePad = _
      rw [h.cursor, Nat.succ_mul]
  · have hfits := h.fits
    rw [if_neg hread]
    exact ⟨k, compressInv_write hi hbits (by omega) (by omega) h.acc h.cursor h.length h.cells⟩

theorem compressArray_inv (bytePad : ℕ) (h8 : 8 ≤ bitLen) (h25 : bitLen ≤ 25)
    (inp out : List Byte) : ∃ k s, compressArray inp out bitLen bytePad = s.out ∧
      CompressInv bitLen bytePad inp out out.length k s := by
  suffices h : ∀ i ≤ out.length, ∃ k, CompressInv bitLen bytePad inp out i k
      ((List.range i).foldl (compressStep inp bitLen bytePad) ⟨0, 0#32, 0, out⟩) from
    (h _ le_rfl).imp fun k hk => ⟨_, rfl, hk⟩
  intro i
  induction i with
  | zero => exact fun _ => ⟨0, .init inp out⟩
  | succ i ih =>
    intro hi
    obtain ⟨k, hk⟩ := ih (by omega)
    rw [List.range_succ, List.foldl_append]
    exact hk.step h8 h25 (by omega)

theorem length_compressArray (h8 : 8 ≤ bitLen) (h25 : bitLen ≤ 25) (inp out : List Byte) :
    (compressArray inp out bitLen bytePad).length = out.length := by
  obtain ⟨k, s, hs, hinv⟩ := compressArray_inv bytePad h8 h25 inp out
  rw [hs, hinv.length]

theorem streamBit_compressArray (h8 : 8 ≤ bitLen) (h25 : bitLen ≤ 25) (inp out : List Byte) {n : ℕ}
    (hn : n < 8 * out.length) :
    streamBit 8 (compressArray inp out bitLen bytePad) n = cellBit bitLen bytePad inp n := by
  obtain ⟨k, s, hs, hinv⟩ := compressArray_inv bytePad h8 h25 inp out
  rw [hs, hinv.cells n hn hn]

end Compress
end Aion.Equihash
