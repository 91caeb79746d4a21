import AionMiner.Bits.Word64

/-! 128-bit registers as the SSE instructions see them: two lanes of 64 bits, four of 32, eight of
16 or sixteen bytes, lane 0 the lowest. -/

namespace Aion.Sse
open Bits

abbrev M128 := BitVec 128

def lo (x : M128) : BitVec 64 := x.extractLsb' 0 64
def hi (x : M128) : BitVec 64 := x.extractLsb' 64 64
def lane32 (x : M128) (i : ℕ) : BitVec 32 := x.extractLsb' (32 * i) 32
def lane16 (x : M128) (i : ℕ) : BitVec 16 := x.extractLsb' (16 * i) 16
def byte (x : M128) (i : ℕ) : Byte := x.extractLsb' (8 * i) 8

def setEpi64x (e1 e0 : BitVec 64) : M128 := e1 ++ e0

def setEpi32 (e3 e2 e1 e0 : BitVec 32) : M128 := e3 ++ e2 ++ e1 ++ e0

def ofLanes16 (f : ℕ → BitVec 16) : M128 := f 7 ++ f 6 ++ f 5 ++ f 4 ++ f 3 ++ f 2 ++ f 1 ++ f 0

def ofBytes (f : ℕ → Byte) : M128 := word64 (fun i => f (8 + i)) ++ word64 f

def setrEpi8 (bytes : List Byte) : M128 := ofBytes fun i => bytes.getD i 0

def addEpi64 (a b : M128) : M128 := (hi a + hi b) ++ (lo a + lo b)

def srliEpi64 (a : M128) (n : ℕ) : M128 := (hi a >>> n) ++ (lo a >>> n)

def slliEpi64 (a : M128) (n : ℕ) : M128 := (hi a <<< n) ++ (lo a <<< n)

def unpackloEpi64 (a b : M128) : M128 := lo b ++ lo a

def unpackhiEpi64 (a b : M128) : M128 := hi b ++ hi a

/-- `_mm_shuffle_epi32(a, _MM_SHUFFLE(z, y, x, w))`. -/
def shuffleEpi32 (a : M128) (z y x w : ℕ) : M128 := lane32 a z ++ lane32 a y ++ lane32 a x ++ lane32 a w

def alignrEpi8 (a b : M128) (n : ℕ) : M128 := ((a ++ b) >>> (8 * n)).setWidth 128

def blendEpi16 (a b : M128) (imm : ℕ) : M128 :=
  ofLanes16 fun i => if imm.testBit i then lane16 b i else lane16 a i

def shuffleEpi8 (a mask : M128) : M128 :=
  ofBytes fun i => if (byte mask i).msb then 0 else byte a (byte mask i &&& 15).toNat

/-- `_mm_roti_epi64` of XOP with a negative count. -/
def rotrEpi64 (a : M128) (n : ℕ) : M128 := (hi a).rotateRight n ++ (lo a).rotateRight n

@[simp] theorem lo_append (x y : BitVec 64) : lo (x ++ y) = y := BitVec.extractLsb'_append_eq_right

@[simp] theorem hi_append (x y : BitVec 64) : hi (x ++ y) = x := BitVec.extractLsb'_append_eq_left

@[simp] theorem lo_xor (a b : M128) : lo (a ^^^ b) = lo a ^^^ lo b := BitVec.extractLsb'_xor

@[simp] theorem hi_xor (a b : M128) : hi (a ^^^ b) = hi a ^^^ hi b := BitVec.extractLsb'_xor

@[simp] theorem lo_setEpi64x (x y : BitVec 64) : lo (setEpi64x x y) = y := lo_append x y

@[simp] theorem hi_setEpi64x (x y : BitVec 64) : hi (setEpi64x x y) = x := hi_append x y

@[simp] theorem lo_addEpi64 (a b : M128) : lo (addEpi64 a b) = lo a + lo b := lo_append ..

@[simp] theorem hi_addEpi64 (a b : M128) : hi (addEpi64 a b) = hi a + hi b := hi_append ..

@[simp] theorem lo_srliEpi64 (a : M128) (n : ℕ) : lo (srliEpi64 a n) = lo a >>> n := lo_append ..

@[simp] theorem hi_srliEpi64 (a : M128) (n : ℕ) : hi (srliEpi64 a n) = hi a >>> n := hi_append ..

@[simp] theorem lo_slliEpi64 (a : M128) (n : ℕ) : lo (slliEpi64 a n) = lo a <<< n := lo_append ..

@[simp] theorem hi_slliEpi64 (a : M128) (n : ℕ) : hi (slliEpi64 a n) = hi a <<< n := hi_append ..

@[simp] theorem lo_unpackloEpi64 (a b : M128) : lo (unpackloEpi64 a b) = lo a := lo_append ..

@[simp] theorem hi_unpackloEpi64 (a b : M128) : hi (unpackloEpi64 a b) = lo b := hi_append ..

@[simp] theorem lo_unpackhiEpi64 (a b : M128) : lo (unpackhiEpi64 a b) = hi a := lo_append ..

@[simp] theorem hi_unpackhiEpi64 (a b : M128) : hi (unpackhiEpi64 a b) = hi b := hi_append ..

@[simp] theorem lo_rotrEpi64 (a : M128) (n : ℕ) : lo (rotrEpi64 a n) = (lo a).rotateRight n := lo_append ..

@[simp] theorem hi_rotrEpi64 (a : M128) (n : ℕ) : hi (rotrEpi64 a n) = (hi a).rotateRight n := hi_append ..

theorem lanes32_append (x : M128) (i : ℕ) :
    lane32 x (i + 1) ++ lane32 x i = x.extractLsb' (32 * i) 64 :=
  BitVec.extractLsb'_append_extractLsb'_eq_extractLsb' (Nat.mul_succ 32 i)

/-- `_MM_SHUFFLE(1, 0, 3, 2)` swaps the two lanes. -/
@[simp] theorem lo_shuffleEpi32_swap (a : M128) : lo (shuffleEpi32 a 1 0 3 2) = hi a := by
  have happend : shuffleEpi32 a 1 0 3 2 = (lane32 a 1 ++ lane32 a 0) ++ (lane32 a 3 ++ lane32 a 2) :=
    BitVec.append_assoc
  rw [happend, lo_append]
  exact lanes32_append a 2

@[simp] theorem hi_shuffleEpi32_swap (a : M128) : hi (shuffleEpi32 a 1 0 3 2) = lo a := by
  have happend : shuffleEpi32 a 1 0 3 2 = (lane32 a 1 ++ lane32 a 0) ++ (lane32 a 3 ++ lane32 a 2) :=
    BitVec.append_assoc
  rw [happend, hi_append]
  exact lanes32_append a 0

@[simp] theorem lo_alignrEpi8 (a b : M128) : lo (alignrEpi8 a b 8) = hi b := by
  apply BitVec.eq_of_getLsbD_eq
  intro i hi'
  simp only [lo, hi, alignrEpi8, BitVec.getLsbD_extractLsb', BitVec.getLsbD_setWidth,
    BitVec.getLsbD_ushiftRight, BitVec.getLsbD_append, Nat.zero_add]
  rw [if_pos (by omega), decide_eq_true hi', decide_eq_true (by omega : i < 128), Bool.true_and,
    Bool.true_and]

@[simp] theorem hi_alignrEpi8 (a b : M128) : hi (alignrEpi8 a b 8) = lo a := by
  apply BitVec.eq_of_getLsbD_eq
  intro i hi'
  simp only [lo, hi, alignrEpi8, BitVec.getLsbD_extractLsb', BitVec.getLsbD_setWidth,
    BitVec.getLsbD_ushiftRight, BitVec.getLsbD_append, Nat.zero_add]
  rw [if_neg (by omega), decide_eq_true hi', decide_eq_true (by omega : 64 + i < 128), Bool.true_and,
    Bool.true_and, Bool.true_and, show 8 * 8 + (64 + i) - 128 = i by omega]

theorem getLsbD_ofLanes16 (f : ℕ → BitVec 16) {i : ℕ} (hi : i < 128) :
    (ofLanes16 f).getLsbD i = (f (i / 16)).getLsbD (i % 16) := by
  obtain ⟨q, r, hr, rfl⟩ : ∃ q r, r < 16 ∧ i = 16 * q + r :=
    ⟨i / 16, i % 16, Nat.mod_lt _ (by decide), (Nat.div_add_mod i 16).symm⟩
  have hq : q < 8 := by omega
  rw [Nat.mul_add_div (by decide), Nat.div_eq_of_lt hr, Nat.add_zero, Nat.mul_add_mod,
    Nat.mod_eq_of_lt hr]
  interval_cases q <;> simp (disch := omega) only [ofLanes16, BitVec.getLsbD_append, if_pos, if_neg] <;>
    congr 1 <;> omega

theorem blend_bit (i : ℕ) (hi : i < 8) : Nat.testBit 0xF0 i = decide (4 ≤ i) := by
  interval_cases i <;> rfl

@[simp] theorem lo_blendEpi16 (a b : M128) : lo (blendEpi16 a b 0xF0) = lo a := by
  apply BitVec.eq_of_getLsbD_eq
  intro i hi
  have hq : i / 16 < 4 := by omega
  rw [lo, BitVec.getLsbD_extractLsb', blendEpi16, Nat.zero_add, getLsbD_ofLanes16 _ (by omega),
    blend_bit _ (by omega), decide_eq_false (Nat.not_le.mpr hq), if_neg Bool.false_ne_true, lane16,
    BitVec.getLsbD_extractLsb', lo, BitVec.getLsbD_extractLsb', Nat.zero_add, Nat.div_add_mod,
    decide_eq_true (Nat.mod_lt _ (by decide)), Bool.true_and]

@[simp] theorem hi_blendEpi16 (a b : M128) : hi (blendEpi16 a b 0xF0) = hi b := by
  apply BitVec.eq_of_getLsbD_eq
  intro i hi'
  have hq : 4 ≤ (64 + i) / 16 := by omega
  rw [hi, BitVec.getLsbD_extractLsb', blendEpi16, getLsbD_ofLanes16 _ (by omega),
    blend_bit _ (by omega), decide_eq_true hq, if_pos rfl, lane16,
    BitVec.getLsbD_extractLsb', hi, BitVec.getLsbD_extractLsb', Nat.div_add_mod,
    decide_eq_true (Nat.mod_lt _ (by decide)), Bool.true_and]

section Rotations
variable (x : M128)

/-- The byte order of a rotation of both lanes to the right by `k` bytes. -/
def rotation (k : ℕ) : M128 :=
  setrEpi8 ((List.range 16).map fun i => BitVec.ofNat 8 (i / 8 * 8 + (i + k) % 8))

theorem byte_rotation : ∀ k < 8, ∀ i < 16,
    (byte (rotation k) i).msb = false ∧ (byte (rotation k) i &&& 15).toNat = i / 8 * 8 + (i + k) % 8 := by
  decide

theorem byte_lo {i : ℕ} (hi : i < 8) : (lo x).extractLsb' (8 * i) 8 = byte x i := by
  rw [lo, extract_extract x 0 (by omega), Nat.zero_add, byte]

theorem byte_hi {i : ℕ} (hi' : i < 8) : (hi x).extractLsb' (8 * i) 8 = byte x (8 + i) := by
  rw [hi, extract_extract x 64 (by omega), byte, Nat.mul_add]

theorem lo_shuffleEpi8 {k : ℕ} (hk : k < 8) :
    lo (shuffleEpi8 x (rotation k)) = (lo x).rotateRight (8 * k) := by
  rw [shuffleEpi8, ofBytes, lo_append]
  apply word64_rotated _ hk
  intro j hj
  obtain ⟨hmsb, hindex⟩ := byte_rotation k hk j (by omega)
  rw [hmsb, if_neg Bool.false_ne_true, hindex, byte_lo x (Nat.mod_lt _ (by decide)),
    Nat.div_eq_of_lt hj, Nat.zero_mul, Nat.zero_add]

theorem hi_shuffleEpi8 {k : ℕ} (hk : k < 8) :
    hi (shuffleEpi8 x (rotation k)) = (hi x).rotateRight (8 * k) := by
  rw [shuffleEpi8, ofBytes, hi_append]
  apply word64_rotated _ hk
  intro j hj
  obtain ⟨hmsb, hindex⟩ := byte_rotation k hk (8 + j) (by omega)
  rw [hmsb, if_neg Bool.false_ne_true, hindex, byte_hi x (Nat.mod_lt _ (by decide)),
    Nat.add_div_left _ (by decide), Nat.div_eq_of_lt hj, Nat.add_assoc, Nat.add_mod_left]

theorem swap_halves (y : BitVec 64) :
    y.extractLsb' 0 32 ++ y.extractLsb' 32 32 = y.rotateRight 32 := by
  apply BitVec.eq_of_getLsbD_eq
  intro i hi
  rw [BitVec.getLsbD_append, BitVec.getLsbD_rotateRight, BitVec.getLsbD_extractLsb',
    BitVec.getLsbD_extractLsb']
  by_cases hlt : i < 32
  · rw [if_pos hlt, decide_eq_true hlt, Bool.true_and]
    rfl
  · rw [if_neg hlt, decide_eq_true (by omega : i - 32 < 32), Bool.true_and, Nat.zero_add]
    rw [show (decide (i < 64 - 32 % 64)) = false from decide_eq_false hlt, cond_false,
      decide_eq_true hi, Bool.true_and]

/-- `_MM_SHUFFLE(2, 3, 0, 1)` swaps the halves of both lanes. -/
theorem lo_shuffleEpi32_rotate : lo (shuffleEpi32 x 2 3 0 1) = (lo x).rotateRight 32 := by
  have happend : shuffleEpi32 x 2 3 0 1 = (lane32 x 2 ++ lane32 x 3) ++ (lane32 x 0 ++ lane32 x 1) :=
    BitVec.append_assoc
  rw [happend, lo_append, ← swap_halves, lo, extract_extract x 0 (by decide),
    extract_extract x 0 (by decide)]
  rfl

theorem hi_shuffleEpi32_rotate : hi (shuffleEpi32 x 2 3 0 1) = (hi x).rotateRight 32 := by
  have happend : shuffleEpi32 x 2 3 0 1 = (lane32 x 2 ++ lane32 x 3) ++ (lane32 x 0 ++ lane32 x 1) :=
    BitVec.append_assoc
  rw [happend, hi_append, ← swap_halves, hi, extract_extract x 64 (by decide),
    extract_extract x 64 (by decide)]
  rfl

end Rotations

end Aion.Sse
