import AionMiner.Bits.Field
import AionMiner.Miner.Divide

/-! The compact form of a 256-bit number: the count of its bytes, a sign, and its first three bytes. -/

namespace Aion.Miner
open Bits

section Code

/-- What `SetCompact` leaves behind. -/
structure SetCompact where
  value : Arith256
  pfNegative : Bool
  pfOverflow : Bool

def setCompact (nCompact : BitVec 32) : SetCompact :=
  let nSize := (nCompact >>> 24).toNat
  let nWord := nCompact &&& 0x007fffff
  if nSize ≤ 3 then
    let nWord := nWord >>> (8 * (3 - nSize))
    ⟨.ofUInt64 (nWord.setWidth 64), nWord != 0 && nCompact &&& 0x00800000 != 0,
      nWord != 0 && (nSize > 34 || (nWord > 0xff && nSize > 33) || (nWord > 0xffff && nSize > 32))⟩
  else
    ⟨(Arith256.ofUInt64 (nWord.setWidth 64)).shiftLeft (8 * (nSize - 3)), nWord != 0 && nCompact &&& 0x00800000 != 0,
      nWord != 0 && (nSize > 34 || (nWord > 0xff && nSize > 33) || (nWord > 0xffff && nSize > 32))⟩

namespace Arith256

def getLow64 (a : Arith256) : BitVec 64 := (a.pn.getD 0 0).setWidth 64 ||| (a.pn.getD 1 0).setWidth 64 <<< 32

/-- `none` where an assertion fails. -/
def getCompact (a : Arith256) (fNegative : Bool) : Option (BitVec 32) :=
  let nSize := (a.bits + 7) / 8
  let nCompact : BitVec 32 :=
    if nSize ≤ 3 then (a.getLow64 <<< (8 * (3 - nSize))).setWidth 32
    else (a.shiftRight (8 * (nSize - 3))).getLow64.setWidth 32
  let (nCompact, nSize) := if nCompact &&& 0x00800000 ≠ 0 then (nCompact >>> 8, nSize + 1) else (nCompact, nSize)
  if nCompact &&& ~~~0x007fffff ≠ 0 ∨ ¬nSize < 256 then none
  else
    let nCompact := nCompact ||| BitVec.ofNat 32 (nSize <<< 24)
    some (nCompact ||| if fNegative && nCompact &&& 0x007fffff != 0 then 0x00800000 else 0)

end Arith256
end Code

section Floats

/-- The number a mantissa and an exponent stand for. -/
def scaled (m e : ℕ) : ℕ := m * 256 ^ e / 256 ^ 3

/-- The first three bytes of a number of `e` bytes. -/
def mantissa (n e : ℕ) : ℕ := n * 256 ^ 3 / 256 ^ e

theorem scaled_of_le {m e : ℕ} (he : e ≤ 3) : scaled m e = m / 256 ^ (3 - e) := by
  have hpow : 256 ^ 3 = 256 ^ (3 - e) * 256 ^ e := by rw [← Nat.pow_add, Nat.sub_add_cancel he]
  rw [scaled, hpow, Nat.mul_div_mul_right _ _ (Nat.pow_pos (by decide))]

theorem scaled_of_ge {m e : ℕ} (he : 3 ≤ e) : scaled m e = m * 256 ^ (e - 3) := by
  have hpow : 256 ^ e = 256 ^ (e - 3) * 256 ^ 3 := by rw [← Nat.pow_add, Nat.sub_add_cancel he]
  rw [scaled, hpow, ← Nat.mul_assoc, Nat.mul_div_cancel _ (by decide)]

theorem mantissa_of_le {n e : ℕ} (he : e ≤ 3) : mantissa n e = n * 256 ^ (3 - e) := by
  have hpow : 256 ^ 3 = 256 ^ (3 - e) * 256 ^ e := by rw [← Nat.pow_add, Nat.sub_add_cancel he]
  rw [mantissa, hpow, ← Nat.mul_assoc, Nat.mul_div_cancel _ (Nat.pow_pos (by decide))]

theorem mantissa_of_ge {n e : ℕ} (he : 3 ≤ e) : mantissa n e = n / 256 ^ (e - 3) := by
  have hpow : 256 ^ e = 256 ^ (e - 3) * 256 ^ 3 := by rw [← Nat.pow_add, Nat.sub_add_cancel he]
  rw [mantissa, hpow, Nat.mul_div_mul_right _ _ (by decide)]

theorem mantissa_succ (n e : ℕ) : mantissa n e / 256 = mantissa n (e + 1) := by
  rw [mantissa, mantissa, Nat.div_div_eq_div_mul, ← Nat.pow_succ]

theorem mantissa_lt {n e : ℕ} (hn : n < 256 ^ e) : mantissa n e < 2 ^ 24 := by
  refine Nat.div_lt_of_lt_mul ?_
  exact Nat.mul_lt_mul_of_pos_right hn (show 0 < 256 ^ 3 by decide)

/-- The bytes after the first three are lost. -/
theorem scaled_mantissa (n e : ℕ) : scaled (mantissa n e) e = n - n % 256 ^ (e - 3) := by
  rcases Nat.le_total e 3 with he | he
  · rw [mantissa_of_le he, scaled_of_le he, Nat.mul_div_cancel _ (Nat.pow_pos (by decide)), Nat.sub_eq_zero_of_le he,
      Nat.pow_zero, Nat.mod_one, Nat.sub_zero]
  · rw [mantissa_of_ge he, scaled_of_ge he]
    have hsplit := Nat.div_add_mod n (256 ^ (e - 3))
    rw [Nat.mul_comm] at hsplit
    omega

/-- Which mantissas do not fit. -/
theorem overflow_iff {m e : ℕ} (hm : m < 2 ^ 23) :
    (m ≠ 0 ∧ (e > 34 ∨ (m > 0xff ∧ e > 33) ∨ (m > 0xffff ∧ e > 32))) ↔ 2 ^ 256 ≤ scaled m e := by
  have hbound : ∀ {e}, e ≤ 32 → scaled m e < 2 ^ 256 := by
    intro e he
    refine Nat.div_lt_of_lt_mul ?_
    calc m * 256 ^ e ≤ m * 256 ^ 32 := Nat.mul_le_mul_left m (Nat.pow_le_pow_right (by decide) he)
      _ < 256 ^ 3 * 256 ^ 32 := Nat.mul_lt_mul_of_pos_right (hm.trans (by decide)) (Nat.pow_pos (by decide))
      _ = 256 ^ 3 * 2 ^ 256 := by rw [show 256 ^ 32 = 2 ^ 256 by decide]
  rcases Nat.lt_or_ge 34 e with he | he
  · have hpow : 2 ^ 256 ≤ 256 ^ (e - 3) := by
      calc 2 ^ 256 = 256 ^ 32 := by decide
        _ ≤ 256 ^ (e - 3) := Nat.pow_le_pow_right (by decide) (by omega)
    rw [scaled_of_ge (by omega)]
    constructor
    · rintro ⟨hne, -⟩
      exact hpow.trans (Nat.le_mul_of_pos_left _ (Nat.pos_of_ne_zero hne))
    · intro hle
      refine ⟨?_, .inl he⟩
      rintro rfl
      rw [Nat.zero_mul] at hle
      exact absurd hle (by decide)
  · rcases Nat.lt_or_ge 32 e with he' | he'
    · rw [scaled_of_ge (by omega)]
      interval_cases e
      · omega
      · omega
    · have hlt := hbound he'
      constructor
      · omega
      · omega

end Floats

section Decode

theorem toNat_setWidth64 (x : BitVec 32) : (Arith256.ofUInt64 (x.setWidth 64)).toNat = x.toNat := by
  rw [Arith256.toNat_ofUInt64, BitVec.toNat_setWidth_of_le (by decide)]

/-- The value is the number the form stands for, as far as the limbs reach; the flags say whether it
is negative, and whether it was too large. -/
theorem setCompact_eq (nCompact : BitVec 32) :
    (setCompact nCompact).value.toNat = scaled (nCompact.toNat % 2 ^ 23) (nCompact.toNat / 2 ^ 24) % 2 ^ 256 ∧
      ((setCompact nCompact).pfOverflow = true ↔
        2 ^ 256 ≤ scaled (nCompact.toNat % 2 ^ 23) (nCompact.toNat / 2 ^ 24)) ∧
      ((setCompact nCompact).pfNegative = true ↔
        scaled (nCompact.toNat % 2 ^ 23) (nCompact.toNat / 2 ^ 24) ≠ 0 ∧ nCompact.getLsbD 23 = true) := by
  have hsize : (nCompact >>> 24).toNat = nCompact.toNat / 2 ^ 24 := toNat_shiftRight nCompact 24
  have hword : (nCompact &&& 0x007fffff).toNat = nCompact.toNat % 2 ^ 23 := toNat_mask (m := 0x007fffff) (by decide)
  have hm : nCompact.toNat % 2 ^ 23 < 2 ^ 23 := Nat.mod_lt _ (by decide)
  have hsign : (nCompact &&& 0x00800000 != 0) = nCompact.getLsbD 23 := by
    rw [Bool.eq_iff_iff, bne_iff_ne]
    exact and_bit_ne_zero nCompact (show 23 < 32 by decide)
  have hne : ∀ x : BitVec 32, (x != 0) = decide (x.toNat ≠ 0) := by
    intro x
    rw [Bool.eq_iff_iff, bne_iff_ne, decide_eq_true_iff, ne_eq, ne_eq, ← BitVec.toNat_inj]
    rfl
  have hgt : ∀ (x y : BitVec 32), decide (x > y) = decide (x.toNat > y.toNat) := fun x y => rfl
  rw [← overflow_iff hm]
  unfold setCompact
  dsimp only
  rw [hsize]
  split_ifs with he
  · rw [scaled_of_le he]
    have hvalue : ((nCompact &&& 0x007fffff) >>> (8 * (3 - nCompact.toNat / 2 ^ 24))).toNat =
        nCompact.toNat % 2 ^ 23 / 256 ^ (3 - nCompact.toNat / 2 ^ 24) := by
      rw [toNat_shiftRight, hword, Nat.pow_mul]
    refine ⟨?_, ?_, ?_⟩
    · rw [toNat_setWidth64, hvalue]
      exact (Nat.mod_eq_of_lt ((Nat.div_le_self _ _).trans_lt (hm.trans (show 2 ^ 23 < 2 ^ 256 by decide)))).symm
    · simp only [Bool.and_eq_true, Bool.or_eq_true, decide_eq_true_eq]
      omega
    · rw [Bool.and_eq_true, hne, hvalue, hsign, decide_eq_true_iff]
  · rw [scaled_of_ge (by omega)]
    refine ⟨?_, ?_, ?_⟩
    · rw [Arith256.toNat_shiftLeft, toNat_setWidth64, hword, Nat.pow_mul, Nat.mul_comm]
    · rw [Bool.and_eq_true, hne, hgt, hgt, hword]
      simp only [Bool.and_eq_true, Bool.or_eq_true, decide_eq_true_eq, or_assoc]
      exact Iff.rfl
    · have hpow : 256 ^ (nCompact.toNat / 2 ^ 24 - 3) ≠ 0 := (Nat.pow_pos (by decide)).ne'
      rw [Bool.and_eq_true, hne, hword, hsign, decide_eq_true_iff, Nat.mul_ne_zero_iff, and_iff_left hpow]

end Decode

section Encode

theorem toNat_or_of_dvd {w q : ℕ} {x y : BitVec w} (hx : 2 ^ q ∣ x.toNat) (hy : y.toNat < 2 ^ q) :
    (x ||| y).toNat = x.toNat + y.toNat := by
  obtain ⟨k, hk⟩ := hx
  rw [BitVec.toNat_or, hk, Nat.two_pow_add_eq_or_of_lt hy]

theorem Arith256.toNat_getLow64 (a : Arith256) : a.getLow64.toNat = a.toNat % 2 ^ 64 := by
  have hlow : leNat (a.pn.take 2) = (a.pn.getD 0 0).toNat + 2 ^ 32 * (a.pn.getD 1 0).toNat := by
    have hwidth := a.width
    rw [leNat_take_succ a.pn (by omega), leNat_take_succ a.pn (by omega)]
    simp
  have hx : ((a.pn.getD 0 0).setWidth 64).toNat = (a.pn.getD 0 0).toNat := BitVec.toNat_setWidth_of_le (by decide)
  have hy : ((a.pn.getD 1 0).setWidth 64).toNat = (a.pn.getD 1 0).toNat := BitVec.toNat_setWidth_of_le (by decide)
  have hlt := (a.pn.getD 1 0).isLt
  rw [getLow64, BitVec.or_comm, toNat_join (by rw [hy]; omega) (by rw [hx]; exact (a.pn.getD 0 0).isLt), hx, hy,
    Nat.add_comm, Nat.mul_comm, ← hlow, leNat_take]
  rfl

/-- The first three bytes, whether they are shifted up or down. -/
theorem toNat_leading {a : Arith256} {e : ℕ} (he : a.toNat < 256 ^ e) :
    (if e ≤ 3 then (a.getLow64 <<< (8 * (3 - e))).setWidth 32
      else (a.shiftRight (8 * (e - 3))).getLow64.setWidth 32 : BitVec 32).toNat = mantissa a.toNat e := by
  have hlt := mantissa_lt he
  split_ifs with hle
  · rw [mantissa_of_le hle] at hlt ⊢
    have hpow : 2 ^ (8 * (3 - e)) = 256 ^ (3 - e) := Nat.pow_mul ..
    have hsmall : a.toNat ≤ a.toNat * 256 ^ (3 - e) := Nat.le_mul_of_pos_right _ (Nat.pow_pos (by decide))
    rw [BitVec.toNat_setWidth, BitVec.toNat_shiftLeft, a.toNat_getLow64, Nat.shiftLeft_eq, hpow,
      Nat.mod_eq_of_lt (a := a.toNat) (by omega), Nat.mod_eq_of_lt (by omega), Nat.mod_eq_of_lt (by omega)]
  · have hpow : 2 ^ (8 * (e - 3)) = 256 ^ (e - 3) := Nat.pow_mul ..
    rw [mantissa_of_ge (by omega)] at hlt ⊢
    rw [BitVec.toNat_setWidth, Arith256.toNat_getLow64, Arith256.toNat_shiftRight, hpow,
      Nat.mod_eq_of_lt (a := a.toNat / 256 ^ (e - 3)) (by omega), Nat.mod_eq_of_lt (by omega)]

theorem lt_bytes (a : Arith256) : a.toNat < 256 ^ ((a.bits + 7) / 8) := by
  have hlt : a.toNat < 2 ^ a.bits := by
    rw [a.bits_eq]
    exact Nat.lt_size_self _
  refine hlt.trans_le ?_
  rw [show 256 = 2 ^ 8 from rfl, ← Nat.pow_mul]
  exact Nat.pow_le_pow_right (by decide) (by omega)

theorem le_mantissa_iff (a : Arith256) (hbits : a.bits ≠ 0) :
    2 ^ 23 ≤ mantissa a.toNat ((a.bits + 7) / 8) ↔ a.bits % 8 = 0 := by
  obtain ⟨s, hs⟩ : ∃ s, 8 * ((a.bits + 7) / 8) = s + 1 := Nat.exists_eq_succ_of_ne_zero (by omega)
  have hpow : 2 ^ 23 * 256 ^ ((a.bits + 7) / 8) = 2 ^ s * 256 ^ 3 := by
    rw [show 256 = 2 ^ 8 from rfl, ← Nat.pow_mul, hs, Nat.pow_succ]
    ring
  rw [mantissa, Nat.le_div_iff_mul_le (Nat.pow_pos (by decide)), hpow, Nat.mul_le_mul_right_iff (by decide),
    ← Nat.lt_size,
    ← a.bits_eq]
  omega

/-- A mantissa of 23 bits, an exponent of 8 and the sign between them. -/
theorem toNat_fields {w : BitVec 32} {e : ℕ} (hw : w.toNat < 2 ^ 23) (he : e < 256) (sign : Bool) :
    (w ||| BitVec.ofNat 32 (e <<< 24) ||| if sign then 0x00800000 else 0).toNat =
      2 ^ 24 * e + (2 ^ 23 * sign.toNat + w.toNat) := by
  have hexponent : (BitVec.ofNat 32 (e <<< 24)).toNat = 2 ^ 24 * e := by
    rw [BitVec.toNat_ofNat, Nat.shiftLeft_eq, Nat.mod_eq_of_lt (by omega), Nat.mul_comm]
  have hsign : (if sign then 0x00800000 else 0 : BitVec 32).toNat = 2 ^ 23 * sign.toNat := by
    cases sign <;> rfl
  have hlow : ((if sign then 0x00800000 else 0 : BitVec 32) ||| w).toNat = 2 ^ 23 * sign.toNat + w.toNat := by
    rw [toNat_or_of_dvd (q := 23) (hsign ▸ Nat.dvd_mul_right _ _) hw, hsign]
  have hle : sign.toNat ≤ 1 := Bool.toNat_le sign
  rw [BitVec.or_comm w, BitVec.or_assoc, BitVec.or_comm w,
    toNat_or_of_dvd (q := 24) (hexponent ▸ Nat.dvd_mul_right _ _) (by omega), hexponent, hlow]

/-- The mantissa takes 23 bits once the exponent leaves room for the sign. -/
theorem getCompact_eq (a : Arith256) (fNegative : Bool) :
    ∃ nCompact e, a.getCompact fNegative = some nCompact ∧ (a.toNat ≠ 0 → e = a.bits / 8 + 1) ∧
      nCompact.toNat % 2 ^ 23 = mantissa a.toNat e ∧ nCompact.toNat / 2 ^ 24 = e ∧
      nCompact.getLsbD 23 = (fNegative && mantissa a.toNat e != 0) := by
  have hbits := a.bits_le
  have hzero : a.bits = 0 ↔ a.toNat = 0 := by rw [a.bits_eq, Nat.size_eq_zero]
  have hleading := toNat_leading (lt_bytes a)
  have hlt := mantissa_lt (lt_bytes a)
  unfold Arith256.getCompact
  dsimp only
  generalize hword : (if (a.bits + 7) / 8 ≤ 3 then (a.getLow64 <<< (8 * (3 - (a.bits + 7) / 8))).setWidth 32
      else (a.shiftRight (8 * ((a.bits + 7) / 8 - 3))).getLow64.setWidth 32 : BitVec 32) = word at hleading ⊢
  -- What the word and the exponent are once bit 23 is clear
  obtain ⟨w, e, hpair, hw, hw23, hexponent, he⟩ : ∃ w e,
      (if word &&& 0x00800000 ≠ 0 then (word >>> 8, (a.bits + 7) / 8 + 1) else (word, (a.bits + 7) / 8)) = (w, e) ∧
        w.toNat = mantissa a.toNat e ∧ w.toNat < 2 ^ 23 ∧ (a.toNat ≠ 0 → e = a.bits / 8 + 1) ∧ e < 256 := by
    have hbit : word &&& 0x00800000 ≠ 0 ↔ 2 ^ 23 ≤ word.toNat := by
      refine (and_bit_ne_zero word (show 23 < 32 by decide)).trans ?_
      rw [← BitVec.testBit_toNat, Nat.testBit_eq_decide_div_mod_eq, decide_eq_true_iff]
      omega
    rw [hleading] at hbit
    split_ifs with hset
    · have hge := hbit.mp hset
      refine ⟨_, _, rfl, ?_, ?_, fun hne => ?_, by omega⟩
      · rw [toNat_shiftRight, hleading]
        exact mantissa_succ _ _
      · rw [toNat_shiftRight, hleading]
        omega
      · rw [le_mantissa_iff a (mt hzero.mp hne)] at hge
        omega
    · rw [hbit] at hset
      refine ⟨_, _, rfl, hleading, by omega, fun hne => ?_, by omega⟩
      rw [le_mantissa_iff a (mt hzero.mp hne)] at hset
      omega
  rw [hpair]
  dsimp only
  have hclear : w &&& ~~~0x007fffff = 0 := by
    have hkeep : w &&& 0x007fffff = w := by
      apply BitVec.eq_of_toNat_eq
      rw [toNat_mask (p := 23) rfl, Nat.mod_eq_of_lt hw23]
    rw [← hkeep, BitVec.and_assoc, BitVec.and_not_self]
    exact BitVec.and_zero
  have hmantissa : (w ||| BitVec.ofNat 32 (e <<< 24)) &&& 0x007fffff = w := by
    have hfields : (w ||| BitVec.ofNat 32 (e <<< 24)).toNat = 2 ^ 24 * e + (2 ^ 23 * 0 + w.toNat) :=
      (congrArg BitVec.toNat BitVec.or_zero).symm.trans (toNat_fields hw23 he false)
    apply BitVec.eq_of_toNat_eq
    rw [toNat_mask (p := 23) rfl, hfields]
    omega
  rw [if_neg (not_or.mpr ⟨not_not.mpr hclear, not_not.mpr he⟩), hmantissa]
  have hfields := toNat_fields hw23 he (fNegative && w != 0)
  have hsign : (fNegative && w != 0).toNat ≤ 1 := Bool.toNat_le _
  refine ⟨_, e, rfl, hexponent, ?_, ?_, ?_⟩
  · rw [hfields, ← hw]
    omega
  · rw [hfields]
    omega
  · have hne : (w != 0) = (mantissa a.toNat e != 0) := by
      rw [Bool.eq_iff_iff, bne_iff_ne, bne_iff_ne, ← hw, ne_eq, ne_eq, ← BitVec.toNat_inj]
      rfl
    rw [← BitVec.testBit_toNat, hfields, Nat.testBit_eq_decide_div_mod_eq, ← hne]
    cases hflag : (fNegative && w != 0)
    · exact decide_eq_false (by simp only [Bool.toNat_false]; omega)
    · exact decide_eq_true (by simp only [Bool.toNat_true]; omega)

/-- Of a number the compact form keeps two or three bytes; it loses neither the sign nor the size. -/
theorem setCompact_getCompact (a : Arith256) (fNegative : Bool) :
    ∃ nCompact, a.getCompact fNegative = some nCompact ∧
      (setCompact nCompact).value.toNat = a.toNat - a.toNat % 256 ^ (a.bits / 8 - 2) ∧
      (setCompact nCompact).pfOverflow = false ∧
      (setCompact nCompact).pfNegative = (fNegative && a.toNat != 0) := by
  obtain ⟨nCompact, e, hsome, hexponent, hmantissa, hsize, hbit⟩ := getCompact_eq a fNegative
  obtain ⟨hvalue, hoverflow, hnegative⟩ := setCompact_eq nCompact
  rw [hmantissa, hsize, scaled_mantissa] at hvalue hoverflow hnegative
  have hlt := a.toNat_lt
  have hkept : a.toNat % 256 ^ (e - 3) = a.toNat % 256 ^ (a.bits / 8 - 2) := by
    by_cases hne : a.toNat = 0
    · rw [hne, Nat.zero_mod, Nat.zero_mod]
    · rw [hexponent hne, show a.bits / 8 + 1 - 3 = a.bits / 8 - 2 by omega]
  have hpositive : a.toNat - a.toNat % 256 ^ (e - 3) ≠ 0 ↔ a.toNat ≠ 0 := by
    constructor
    · omega
    · intro hne
      have hbits : a.bits ≠ 0 := by rwa [a.bits_eq, ne_eq, Nat.size_eq_zero]
      have hle : 256 ^ (a.bits / 8 - 2) ≤ a.toNat := by
        rw [show 256 = 2 ^ 8 from rfl, ← Nat.pow_mul, ← Nat.lt_size, ← a.bits_eq]
        omega
      have hmod := Nat.mod_lt a.toNat (show 0 < 256 ^ (a.bits / 8 - 2) from Nat.pow_pos (by decide))
      rw [hkept]
      omega
  have hmantissa_ne : a.toNat ≠ 0 → mantissa a.toNat e ≠ 0 := by
    intro hne hzero
    refine hpositive.mpr hne ?_
    rw [← scaled_mantissa, hzero, scaled, Nat.zero_mul, Nat.zero_div]
  refine ⟨nCompact, hsome, ?_, ?_, ?_⟩
  · rw [hvalue, Nat.mod_eq_of_lt (by omega), hkept]
  · refine Bool.eq_false_of_not_eq_true fun htrue => ?_
    have hle := hoverflow.mp htrue
    omega
  · rw [Bool.eq_iff_iff, hnegative, hpositive, hbit, Bool.and_eq_true, Bool.and_eq_true, bne_iff_ne, bne_iff_ne]
    constructor
    · exact fun h => ⟨h.2.1, h.1⟩
    · exact fun h => ⟨h.2, h.1, hmantissa_ne h.2⟩

end Encode

section RoundTrip

/-- A number in compact form has no bytes to lose. -/
theorem scaled_mod {m : ℕ} (hm : m < 2 ^ 23) (e : ℕ) :
    scaled m e % 2 ^ 256 % 256 ^ (Nat.size (scaled m e % 2 ^ 256) / 8 - 2) = 0 := by
  have hfew : ∀ {n j : ℕ}, n < 2 ^ 23 * 256 ^ j → Nat.size n / 8 - 2 ≤ j := by
    intro n j hn
    have hsize : Nat.size n ≤ 23 + 8 * j := by
      rw [Nat.size_le, Nat.pow_add, Nat.pow_mul]
      exact hn
    omega
  rcases Nat.le_total e 3 with he | he
  · have hlt : scaled m e < 2 ^ 23 * 256 ^ 0 := by
      rw [scaled_of_le he, Nat.pow_zero, Nat.mul_one]
      exact (Nat.div_le_self _ _).trans_lt hm
    have hnone := hfew ((Nat.mod_le (scaled m e) (2 ^ 256)).trans_lt hlt)
    rw [Nat.le_zero.mp hnone, Nat.pow_zero, Nat.mod_one]
  · rw [scaled_of_ge he]
    generalize e - 3 = j
    obtain hj | hj := Nat.lt_or_ge j 32
    · have hpow : 2 ^ 256 = 256 ^ (32 - j) * 256 ^ j := by
        rw [← Nat.pow_add, Nat.sub_add_cancel hj.le]
        rfl
      rw [hpow, Nat.mul_mod_mul_right]
      have hlt : m % 256 ^ (32 - j) * 256 ^ j < 2 ^ 23 * 256 ^ j :=
        Nat.mul_lt_mul_of_pos_right ((Nat.mod_le _ _).trans_lt hm) (Nat.pow_pos (by decide))
      exact Nat.mod_eq_zero_of_dvd ((Nat.pow_dvd_pow 256 (hfew hlt)).trans (Nat.dvd_mul_left _ _))
    · -- all limbs are zero
      have hdvd : 2 ^ 256 ∣ m * 256 ^ j :=
        (show 256 ^ 32 ∣ 256 ^ j from Nat.pow_dvd_pow 256 hj).trans (Nat.dvd_mul_left _ _)
      rw [Nat.mod_eq_zero_of_dvd hdvd, Nat.zero_mod]

/-- The compact form means what it says; it keeps the leading bytes of a number, and all of one that has
been in the form. -/
theorem compact_round_trip (fNegative : Bool) :
    (∀ nCompact, (setCompact nCompact).value.toNat =
        scaled (nCompact.toNat % 2 ^ 23) (nCompact.toNat / 2 ^ 24) % 2 ^ 256 ∧
      ((setCompact nCompact).pfOverflow = true ↔
        2 ^ 256 ≤ scaled (nCompact.toNat % 2 ^ 23) (nCompact.toNat / 2 ^ 24)) ∧
      ((setCompact nCompact).pfNegative = true ↔
        scaled (nCompact.toNat % 2 ^ 23) (nCompact.toNat / 2 ^ 24) ≠ 0 ∧ nCompact.getLsbD 23 = true)) ∧
    (∀ a : Arith256, ∃ nCompact, a.getCompact fNegative = some nCompact ∧
      (setCompact nCompact).value.toNat = a.toNat - a.toNat % 256 ^ (a.bits / 8 - 2) ∧
      (setCompact nCompact).pfOverflow = false ∧
      (setCompact nCompact).pfNegative = (fNegative && a.toNat != 0)) ∧
    ∀ nCompact, ∃ nCompact', (setCompact nCompact).value.getCompact fNegative = some nCompact' ∧
      (setCompact nCompact').value = (setCompact nCompact).value := by
  refine ⟨setCompact_eq, fun a => setCompact_getCompact a fNegative, fun nCompact => ?_⟩
  obtain ⟨nCompact', hsome, hvalue, -⟩ := setCompact_getCompact (setCompact nCompact).value fNegative
  refine ⟨nCompact', hsome, Arith256.toNat_inj ?_⟩
  rw [hvalue, Arith256.bits_eq, (setCompact_eq nCompact).1, scaled_mod (Nat.mod_lt _ (by decide)), Nat.sub_zero]

/-- The mantissa would begin with the sign. -/
example : (Arith256.ofUInt64 0xc0de000000).getCompact false = some 0x0600c0de := by decide

end RoundTrip

end Aion.Miner
