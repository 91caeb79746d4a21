import AionMiner.Digest.Blake2b
import AionMiner.Machine.Sse
import Mathlib.Data.Fintype.Basic
import Mathlib.Tactic.FinCases

/-! `blake2b-round.h`, `blake2b-load-sse2.h` and `blake2b-load-sse41.h`, which the miner, the
verifier of the pool and its hash module share, and the compression function made of them. -/

namespace Aion.Blake2
open Bits Digest.Blake2b Sse

/-- The instruction sets the headers tell apart; AVX compiles as SSE4.1 does. -/
inductive Isa where
  | sse2
  | ssse3
  | sse41
  | xop
  deriving DecidableEq

/-- The four rows of the state, each in a low and a high register. -/
structure Rows where
  row1l : M128
  row1h : M128
  row2l : M128
  row2h : M128
  row3l : M128
  row3h : M128
  row4l : M128
  row4h : M128

section Code
variable (isa : Isa)

def r16 : M128 := setrEpi8 [2, 3, 4, 5, 6, 7, 0, 1, 10, 11, 12, 13, 14, 15, 8, 9]

def r24 : M128 := setrEpi8 [3, 4, 5, 6, 7, 0, 1, 2, 11, 12, 13, 14, 15, 8, 9, 10]

/-- `_mm_roti_epi64(x, -n)`. -/
def roti (n : ℕ) (x : M128) : M128 :=
  match isa with
  | .sse2 => srliEpi64 x n ^^^ slliEpi64 x (64 - n)
  | .xop => rotrEpi64 x n
  | .ssse3 | .sse41 =>
    if n = 32 then shuffleEpi32 x 2 3 0 1
    else if n = 24 then shuffleEpi8 x r24
    else if n = 16 then shuffleEpi8 x r16
    else if n = 63 then srliEpi64 x n ^^^ addEpi64 x x
    else srliEpi64 x n ^^^ slliEpi64 x (64 - n)

/-- The macros `G1` with the rotations 32 and 24, and `G2` with 16 and 63. -/
def mixRows (p q : ℕ) (b0 b1 : M128) (r : Rows) : Rows :=
  let row1l := addEpi64 (addEpi64 r.row1l b0) r.row2l
  let row1h := addEpi64 (addEpi64 r.row1h b1) r.row2h
  let row4l := roti isa p (r.row4l ^^^ row1l)
  let row4h := roti isa p (r.row4h ^^^ row1h)
  let row3l := addEpi64 r.row3l row4l
  let row3h := addEpi64 r.row3h row4h
  let row2l := roti isa q (r.row2l ^^^ row3l)
  let row2h := roti isa q (r.row2h ^^^ row3h)
  ⟨row1l, row1h, row2l, row2h, row3l, row3h, row4l, row4h⟩

def g1 (b0 b1 : M128) (r : Rows) : Rows := mixRows isa 32 24 b0 b1 r

def g2 (b0 b1 : M128) (r : Rows) : Rows := mixRows isa 16 63 b0 b1 r

def diagonalize (r : Rows) : Rows :=
  match isa with
  | .sse2 =>
    { r with
      row2l := unpackhiEpi64 r.row2l (unpackloEpi64 r.row2h r.row2h)
      row2h := unpackhiEpi64 r.row2h (unpackloEpi64 r.row2l r.row2l)
      row3l := r.row3h
      row3h := r.row3l
      row4l := unpackhiEpi64 r.row4h (unpackloEpi64 r.row4l r.row4l)
      row4h := unpackhiEpi64 r.row4l (unpackloEpi64 r.row4h r.row4h) }
  | _ =>
    { r with
      row2l := alignrEpi8 r.row2h r.row2l 8
      row2h := alignrEpi8 r.row2l r.row2h 8
      row3l := r.row3h
      row3h := r.row3l
      row4l := alignrEpi8 r.row4l r.row4h 8
      row4h := alignrEpi8 r.row4h r.row4l 8 }

def undiagonalize (r : Rows) : Rows :=
  match isa with
  | .sse2 =>
    { r with
      row2l := unpackhiEpi64 r.row2h (unpackloEpi64 r.row2l r.row2l)
      row2h := unpackhiEpi64 r.row2l (unpackloEpi64 r.row2h r.row2h)
      row3l := r.row3h
      row3h := r.row3l
      row4l := unpackhiEpi64 r.row4l (unpackloEpi64 r.row4h r.row4h)
      row4h := unpackhiEpi64 r.row4h (unpackloEpi64 r.row4l r.row4l) }
  | _ =>
    { r with
      row2l := alignrEpi8 r.row2l r.row2h 8
      row2h := alignrEpi8 r.row2h r.row2l 8
      row3l := r.row3h
      row3h := r.row3l
      row4l := alignrEpi8 r.row4h r.row4l 8
      row4h := alignrEpi8 r.row4l r.row4h 8 }

/-- The macros `LOAD_MSG_r_1` to `LOAD_MSG_r_4` of `blake2b-load-sse2.h`: `b0` and `b1`. -/
def loadMsgSse2 (m : Vector Word 16) : Fin 12 → Fin 4 → M128 × M128
  | 0, 0 => (setEpi64x m[2] m[0], setEpi64x m[6] m[4])
  | 0, 1 => (setEpi64x m[3] m[1], setEpi64x m[7] m[5])
  | 0, 2 => (setEpi64x m[10] m[8], setEpi64x m[14] m[12])
  | 0, 3 => (setEpi64x m[11] m[9], setEpi64x m[15] m[13])
  | 1, 0 => (setEpi64x m[4] m[14], setEpi64x m[13] m[9])
  | 1, 1 => (setEpi64x m[8] m[10], setEpi64x m[6] m[15])
  | 1, 2 => (setEpi64x m[0] m[1], setEpi64x m[5] m[11])
  | 1, 3 => (setEpi64x m[2] m[12], setEpi64x m[3] m[7])
  | 2, 0 => (setEpi64x m[12] m[11], setEpi64x m[15] m[5])
  | 2, 1 => (setEpi64x m[0] m[8], setEpi64x m[13] m[2])
  | 2, 2 => (setEpi64x m[3] m[10], setEpi64x m[9] m[7])
  | 2, 3 => (setEpi64x m[6] m[14], setEpi64x m[4] m[1])
  | 3, 0 => (setEpi64x m[3] m[7], setEpi64x m[11] m[13])
  | 3, 1 => (setEpi64x m[1] m[9], setEpi64x m[14] m[12])
  | 3, 2 => (setEpi64x m[5] m[2], setEpi64x m[15] m[4])
  | 3, 3 => (setEpi64x m[10] m[6], setEpi64x m[8] m[0])
  | 4, 0 => (setEpi64x m[5] m[9], setEpi64x m[10] m[2])
  | 4, 1 => (setEpi64x m[7] m[0], setEpi64x m[15] m[4])
  | 4, 2 => (setEpi64x m[11] m[14], setEpi64x m[3] m[6])
  | 4, 3 => (setEpi64x m[12] m[1], setEpi64x m[13] m[8])
  | 5, 0 => (setEpi64x m[6] m[2], setEpi64x m[8] m[0])
  | 5, 1 => (setEpi64x m[10] m[12], setEpi64x m[3] m[11])
  | 5, 2 => (setEpi64x m[7] m[4], setEpi64x m[1] m[15])
  | 5, 3 => (setEpi64x m[5] m[13], setEpi64x m[9] m[14])
  | 6, 0 => (setEpi64x m[1] m[12], setEpi64x m[4] m[14])
  | 6, 1 => (setEpi64x m[15] m[5], setEpi64x m[10] m[13])
  | 6, 2 => (setEpi64x m[6] m[0], setEpi64x m[8] m[9])
  | 6, 3 => (setEpi64x m[3] m[7], setEpi64x m[11] m[2])
  | 7, 0 => (setEpi64x m[7] m[13], setEpi64x m[3] m[12])
  | 7, 1 => (setEpi64x m[14] m[11], setEpi64x m[9] m[1])
  | 7, 2 => (setEpi64x m[15] m[5], setEpi64x m[2] m[8])
  | 7, 3 => (setEpi64x m[4] m[0], setEpi64x m[10] m[6])
  | 8, 0 => (setEpi64x m[14] m[6], setEpi64x m[0] m[11])
  | 8, 1 => (setEpi64x m[9] m[15], setEpi64x m[8] m[3])
  | 8, 2 => (setEpi64x m[13] m[12], setEpi64x m[10] m[1])
  | 8, 3 => (setEpi64x m[7] m[2], setEpi64x m[5] m[4])
  | 9, 0 => (setEpi64x m[8] m[10], setEpi64x m[1] m[7])
  | 9, 1 => (setEpi64x m[4] m[2], setEpi64x m[5] m[6])
  | 9, 2 => (setEpi64x m[9] m[15], setEpi64x m[13] m[3])
  | 9, 3 => (setEpi64x m[14] m[11], setEpi64x m[0] m[12])
  | 10, 0 => (setEpi64x m[2] m[0], setEpi64x m[6] m[4])
  | 10, 1 => (setEpi64x m[3] m[1], setEpi64x m[7] m[5])
  | 10, 2 => (setEpi64x m[10] m[8], setEpi64x m[14] m[12])
  | 10, 3 => (setEpi64x m[11] m[9], setEpi64x m[15] m[13])
  | 11, 0 => (setEpi64x m[4] m[14], setEpi64x m[13] m[9])
  | 11, 1 => (setEpi64x m[8] m[10], setEpi64x m[6] m[15])
  | 11, 2 => (setEpi64x m[0] m[1], setEpi64x m[5] m[11])
  | 11, 3 => (setEpi64x m[2] m[12], setEpi64x m[3] m[7])

/-- The same macros in `blake2b-load-sse41.h`. -/
def loadMsgSse41 (m0 m1 m2 m3 m4 m5 m6 m7 : M128) : Fin 12 → Fin 4 → M128 × M128
  | 0, 0 => (unpackloEpi64 m0 m1, unpackloEpi64 m2 m3)
  | 0, 1 => (unpackhiEpi64 m0 m1, unpackhiEpi64 m2 m3)
  | 0, 2 => (unpackloEpi64 m4 m5, unpackloEpi64 m6 m7)
  | 0, 3 => (unpackhiEpi64 m4 m5, unpackhiEpi64 m6 m7)
  | 1, 0 => (unpackloEpi64 m7 m2, unpackhiEpi64 m4 m6)
  | 1, 1 => (unpackloEpi64 m5 m4, alignrEpi8 m3 m7 8)
  | 1, 2 => (shuffleEpi32 m0 1 0 3 2, unpackhiEpi64 m5 m2)
  | 1, 3 => (unpackloEpi64 m6 m1, unpackhiEpi64 m3 m1)
  | 2, 0 => (alignrEpi8 m6 m5 8, unpackhiEpi64 m2 m7)
  | 2, 1 => (unpackloEpi64 m4 m0, blendEpi16 m1 m6 0xF0)
  | 2, 2 => (blendEpi16 m5 m1 0xF0, unpackhiEpi64 m3 m4)
  | 2, 3 => (unpackloEpi64 m7 m3, alignrEpi8 m2 m0 8)
  | 3, 0 => (unpackhiEpi64 m3 m1, unpackhiEpi64 m6 m5)
  | 3, 1 => (unpackhiEpi64 m4 m0, unpackloEpi64 m6 m7)
  | 3, 2 => (blendEpi16 m1 m2 0xF0, blendEpi16 m2 m7 0xF0)
  | 3, 3 => (unpackloEpi64 m3 m5, unpackloEpi64 m0 m4)
  | 4, 0 => (unpackhiEpi64 m4 m2, unpackloEpi64 m1 m5)
  | 4, 1 => (blendEpi16 m0 m3 0xF0, blendEpi16 m2 m7 0xF0)
  | 4, 2 => (blendEpi16 m7 m5 0xF0, blendEpi16 m3 m1 0xF0)
  | 4, 3 => (alignrEpi8 m6 m0 8, blendEpi16 m4 m6 0xF0)
  | 5, 0 => (unpackloEpi64 m1 m3, unpackloEpi64 m0 m4)
  | 5, 1 => (unpackloEpi64 m6 m5, unpackhiEpi64 m5 m1)
  | 5, 2 => (blendEpi16 m2 m3 0xF0, unpackhiEpi64 m7 m0)
  | 5, 3 => (unpackhiEpi64 m6 m2, blendEpi16 m7 m4 0xF0)
  | 6, 0 => (blendEpi16 m6 m0 0xF0, unpackloEpi64 m7 m2)
  | 6, 1 => (unpackhiEpi64 m2 m7, alignrEpi8 m5 m6 8)
  | 6, 2 => (unpackloEpi64 m0 m3, shuffleEpi32 m4 1 0 3 2)
  | 6, 3 => (unpackhiEpi64 m3 m1, blendEpi16 m1 m5 0xF0)
  | 7, 0 => (unpackhiEpi64 m6 m3, blendEpi16 m6 m1 0xF0)
  | 7, 1 => (alignrEpi8 m7 m5 8, unpackhiEpi64 m0 m4)
  | 7, 2 => (unpackhiEpi64 m2 m7, unpackloEpi64 m4 m1)
  | 7, 3 => (unpackloEpi64 m0 m2, unpackloEpi64 m3 m5)
  | 8, 0 => (unpackloEpi64 m3 m7, alignrEpi8 m0 m5 8)
  | 8, 1 => (unpackhiEpi64 m7 m4, alignrEpi8 m4 m1 8)
  | 8, 2 => (m6, alignrEpi8 m5 m0 8)
  | 8, 3 => (blendEpi16 m1 m3 0xF0, m2)
  | 9, 0 => (unpackloEpi64 m5 m4, unpackhiEpi64 m3 m0)
  | 9, 1 => (unpackloEpi64 m1 m2, blendEpi16 m3 m2 0xF0)
  | 9, 2 => (unpackhiEpi64 m7 m4, unpackhiEpi64 m1 m6)
  | 9, 3 => (alignrEpi8 m7 m5 8, unpackloEpi64 m6 m0)
  | 10, 0 => (unpackloEpi64 m0 m1, unpackloEpi64 m2 m3)
  | 10, 1 => (unpackhiEpi64 m0 m1, unpackhiEpi64 m2 m3)
  | 10, 2 => (unpackloEpi64 m4 m5, unpackloEpi64 m6 m7)
  | 10, 3 => (unpackhiEpi64 m4 m5, unpackhiEpi64 m6 m7)
  | 11, 0 => (unpackloEpi64 m7 m2, unpackhiEpi64 m4 m6)
  | 11, 1 => (unpackloEpi64 m5 m4, alignrEpi8 m3 m7 8)
  | 11, 2 => (shuffleEpi32 m0 1 0 3 2, unpackhiEpi64 m5 m2)
  | 11, 3 => (unpackloEpi64 m6 m1, unpackhiEpi64 m3 m1)

/-- `LOADU` of sixteen bytes of the block. -/
def loadBlock (block : List Byte) (offset : ℕ) : M128 := ofBytes fun i => block.getD (offset + i) 0

def loadMsg (block : List Byte) : Fin 12 → Fin 4 → M128 × M128 :=
  match isa with
  | .sse2 | .ssse3 => loadMsgSse2 (wordsOf 16 block)
  | .sse41 | .xop =>
    loadMsgSse41 (loadBlock block 0) (loadBlock block 16) (loadBlock block 32) (loadBlock block 48)
      (loadBlock block 64) (loadBlock block 80) (loadBlock block 96) (loadBlock block 112)

/-- The macro `ROUND`. -/
def roundRows (block : List Byte) (r : Fin 12) (rows : Rows) : Rows :=
  let rows := g1 isa (loadMsg isa block r 0).1 (loadMsg isa block r 0).2 rows
  let rows := g2 isa (loadMsg isa block r 1).1 (loadMsg isa block r 1).2 rows
  let rows := diagonalize isa rows
  let rows := g1 isa (loadMsg isa block r 2).1 (loadMsg isa block r 2).2 rows
  let rows := g2 isa (loadMsg isa block r 3).1 (loadMsg isa block r 3).2 rows
  undiagonalize isa rows

/-- `LOADU` of two words. -/
def loadWords {n : ℕ} (h : Vector Word n) (i : ℕ) (hi : i + 1 < n := by decide) : M128 := h[i + 1] ++ h[i]

/-- The rows `blake2b_compress` starts with; the rows 4 are xored with the registers `t` and `f`. -/
def initialRows (h : Vector Word 8) (t f : M128) : Rows where
  row1l := loadWords h 0
  row1h := loadWords h 2
  row2l := loadWords h 4
  row2h := loadWords h 6
  row3l := loadWords iv 0
  row3h := loadWords iv 2
  row4l := loadWords iv 4 ^^^ t
  row4h := loadWords iv 6 ^^^ f

/-- What `blake2b_compress` stores into `S->h`. -/
def storeRows (h : Vector Word 8) (r : Rows) : Vector Word 8 :=
  let h0 := loadWords h 0 ^^^ (r.row3l ^^^ r.row1l)
  let h2 := loadWords h 2 ^^^ (r.row3h ^^^ r.row1h)
  let h4 := loadWords h 4 ^^^ (r.row4l ^^^ r.row2l)
  let h6 := loadWords h 6 ^^^ (r.row4h ^^^ r.row2h)
  #v[lo h0, hi h0, lo h2, hi h2, lo h4, hi h4, lo h6, hi h6]

/-- `blake2b_compress`. -/
def compressRows (h : Vector Word 8) (block : List Byte) (t f : M128) : Vector Word 8 :=
  storeRows h ((List.finRange 12).foldl (fun rows r => roundRows isa block r rows) (initialRows h t f))

end Code

section Rotation

theorem xor_shifts (y : Word) {n : ℕ} (hpos : 0 < n) (hn : n < 64) :
    y >>> n ^^^ y <<< (64 - n) = y.rotateRight n := by
  apply BitVec.eq_of_getLsbD_eq
  intro i hi
  rw [BitVec.getLsbD_xor, BitVec.getLsbD_ushiftRight, BitVec.getLsbD_shiftLeft,
    BitVec.getLsbD_rotateRight, Nat.mod_eq_of_lt hn, decide_eq_true hi, Bool.true_and, Bool.true_and]
  by_cases hlt : i < 64 - n
  · rw [decide_eq_true hlt, Bool.not_true, Bool.false_and, Bool.xor_false, cond_true]
  · rw [decide_eq_false hlt, Bool.not_false, Bool.true_and, cond_false,
      BitVec.getLsbD_of_ge y (n + i) (by omega), Bool.false_xor]

theorem add_self (y : Word) : y + y = y <<< 1 := by
  apply BitVec.eq_of_toNat_eq
  rw [BitVec.toNat_add, BitVec.toNat_shiftLeft, Nat.shiftLeft_eq]
  omega

theorem r16_eq : r16 = rotation 2 := by decide

theorem r24_eq : r24 = rotation 3 := by decide

variable (isa : Isa) (x : M128)

/-- The counts of the rotations BLAKE2b makes. -/
def Counts (n : ℕ) : Prop := n = 32 ∨ n = 24 ∨ n = 16 ∨ n = 63

theorem lo_roti {n : ℕ} (hn : Counts n) : lo (roti isa n x) = rotateRight n (lo x) := by
  cases isa with
  | sse2 => 
    rw [roti, lo_xor, lo_srliEpi64, lo_slliEpi64, rotateRight]
    rcases hn with rfl | rfl | rfl | rfl <;> exact xor_shifts _ (by decide) (by decide)
  | xop => exact lo_rotrEpi64 x n
  | ssse3 | sse41 =>
    rcases hn with rfl | rfl | rfl | rfl
    · exact lo_shuffleEpi32_rotate x
    · exact (congrArg (fun mask => lo (shuffleEpi8 x mask)) r24_eq).trans (lo_shuffleEpi8 x (by decide))
    · exact (congrArg (fun mask => lo (shuffleEpi8 x mask)) r16_eq).trans (lo_shuffleEpi8 x (by decide))
    · change lo (srliEpi64 x 63 ^^^ addEpi64 x x) = _
      rw [lo_xor, lo_srliEpi64, lo_addEpi64, add_self]
      exact xor_shifts _ (by decide) (by decide)

theorem hi_roti {n : ℕ} (hn : Counts n) : hi (roti isa n x) = rotateRight n (hi x) := by
  cases isa with
  | sse2 => 
    rw [roti, hi_xor, hi_srliEpi64, hi_slliEpi64, rotateRight]
    rcases hn with rfl | rfl | rfl | rfl <;> exact xor_shifts _ (by decide) (by decide)
  | xop => exact hi_rotrEpi64 x n
  | ssse3 | sse41 =>
    rcases hn with rfl | rfl | rfl | rfl
    · exact hi_shuffleEpi32_rotate x
    · exact (congrArg (fun mask => hi (shuffleEpi8 x mask)) r24_eq).trans (hi_shuffleEpi8 x (by decide))
    · exact (congrArg (fun mask => hi (shuffleEpi8 x mask)) r16_eq).trans (hi_shuffleEpi8 x (by decide))
    · change hi (srliEpi64 x 63 ^^^ addEpi64 x x) = _
      rw [hi_xor, hi_srliEpi64, hi_addEpi64, add_self]
      exact xor_shifts _ (by decide) (by decide)

end Rotation

section Refinement
variable (isa : Isa)

/-- The lanes of two registers as words of four columns. -/
def lanes (l h : M128) : Four Word := ⟨lo l, hi l, lo h, hi h⟩

def Rows.state (r : Rows) : State where
  x0 := ⟨lo r.row1l, lo r.row2l, lo r.row3l, lo r.row4l⟩
  x1 := ⟨hi r.row1l, hi r.row2l, hi r.row3l, hi r.row4l⟩
  x2 := ⟨lo r.row1h, lo r.row2h, lo r.row3h, lo r.row4h⟩
  x3 := ⟨hi r.row1h, hi r.row2h, hi r.row3h, hi r.row4h⟩

theorem state_mixRows {p q : ℕ} (hp : Counts p) (hq : Counts q) (b0 b1 : M128) (r : Rows) :
    (mixRows isa p q b0 b1 r).state = halfMixAll p q (lanes b0 b1) r.state := by
  have hcomm : ∀ a x b : Word, a + x + b = a + b + x := fun a x b => by
    rw [BitVec.add_assoc, BitVec.add_comm x b, ← BitVec.add_assoc]
  simp only [Rows.state, mixRows, halfMixAll, halfMix, lanes, lo_roti isa _ hp, lo_roti isa _ hq,
    hi_roti isa _ hp, hi_roti isa _ hq, lo_addEpi64, hi_addEpi64, lo_xor, hi_xor, hcomm]

theorem state_diagonalize (r : Rows) : (diagonalize isa r).state = diagonals r.state := by
  cases isa <;> simp only [Rows.state, diagonalize, diagonals, lo_unpackhiEpi64, hi_unpackhiEpi64,
    hi_unpackloEpi64, lo_alignrEpi8, hi_alignrEpi8]

theorem state_undiagonalize (r : Rows) : (undiagonalize isa r).state = undiagonals r.state := by
  cases isa <;> simp only [Rows.state, undiagonalize, undiagonals, lo_unpackhiEpi64, hi_unpackhiEpi64,
    hi_unpackloEpi64, lo_alignrEpi8, hi_alignrEpi8]

theorem lanes_loadMsgSse2 (m : Vector Word 16) (r : Fin 12) (k : Fin 4) :
    lanes (loadMsgSse2 m r k).1 (loadMsgSse2 m r k).2 = words m r (firstWord k) := by
  fin_cases r <;> fin_cases k <;> simp only [lanes, loadMsgSse2, lo_setEpi64x, hi_setEpi64x] <;> rfl

section Block
variable (block : List Byte)

theorem lo_loadBlock (i : ℕ) : lo (loadBlock block (16 * i)) = wordOf block (2 * i) := by
  rw [loadBlock, ofBytes, lo_append, wordOf, show 8 * (2 * i) = 16 * i by omega]

theorem hi_loadBlock (i : ℕ) : hi (loadBlock block (16 * i)) = wordOf block (2 * i + 1) := by
  rw [loadBlock, ofBytes, hi_append, wordOf, show 8 * (2 * i + 1) = 16 * i + 8 by omega]
  exact word64_congr fun j _ => by rw [Nat.add_assoc]

theorem lanes_loadMsgSse41 {m0 m1 m2 m3 m4 m5 m6 m7 : M128} (r : Fin 12) (k : Fin 4) :
    lanes (loadMsgSse41 m0 m1 m2 m3 m4 m5 m6 m7 r k).1 (loadMsgSse41 m0 m1 m2 m3 m4 m5 m6 m7 r k).2 =
      words #v[lo m0, hi m0, lo m1, hi m1, lo m2, hi m2, lo m3, hi m3, lo m4, hi m4, lo m5, hi m5,
        lo m6, hi m6, lo m7, hi m7] r (firstWord k) := by
  fin_cases r <;> fin_cases k <;> simp only [lanes, loadMsgSse41, lo_unpackloEpi64, hi_unpackloEpi64,
    lo_unpackhiEpi64, hi_unpackhiEpi64, lo_alignrEpi8, hi_alignrEpi8, lo_blendEpi16, hi_blendEpi16,
    lo_shuffleEpi32_swap, hi_shuffleEpi32_swap] <;> rfl

theorem lanes_blocks :
    #v[lo (loadBlock block 0), hi (loadBlock block 0), lo (loadBlock block 16),
      hi (loadBlock block 16), lo (loadBlock block 32), hi (loadBlock block 32),
      lo (loadBlock block 48), hi (loadBlock block 48), lo (loadBlock block 64),
      hi (loadBlock block 64), lo (loadBlock block 80), hi (loadBlock block 80),
      lo (loadBlock block 96), hi (loadBlock block 96), lo (loadBlock block 112),
      hi (loadBlock block 112)] = wordsOf 16 block := by
  apply Vector.ext
  intro i hi
  rw [wordsOf, Vector.getElem_ofFn]
  obtain ⟨q, rfl | rfl⟩ : ∃ q, i = 2 * q ∨ i = 2 * q + 1 := ⟨i / 2, by omega⟩
  · have hq : q < 8 := by omega
    have hlo := lo_loadBlock block q
    interval_cases q <;> exact hlo
  · have hq : q < 8 := by omega
    have hhi := hi_loadBlock block q
    interval_cases q <;> exact hhi

theorem lanes_loadMsg (r : Fin 12) (k : Fin 4) :
    lanes (loadMsg isa block r k).1 (loadMsg isa block r k).2 =
      words (wordsOf 16 block) r (firstWord k) := by
  cases isa with
  | sse2 | ssse3 => exact lanes_loadMsgSse2 _ r k
  | sse41 | xop => exact (lanes_loadMsgSse41 r k).trans (by rw [lanes_blocks])

theorem state_roundRows (r : Fin 12) (rows : Rows) :
    (roundRows isa block r rows).state = round (wordsOf 16 block) r rows.state := by
  have hmix : ∀ (p q : ℕ) (hp : Counts p) (hq : Counts q) (k : Fin 4) (rows : Rows),
      (mixRows isa p q (loadMsg isa block r k).1 (loadMsg isa block r k).2 rows).state =
        halfMixAll p q (words (wordsOf 16 block) r (firstWord k)) rows.state := by
    intro p q hp hq k rows
    rw [state_mixRows isa hp hq, lanes_loadMsg]
  have h1 := hmix 32 24 (.inl rfl) (.inr (.inl rfl))
  have h2 := hmix 16 63 (.inr (.inr (.inl rfl))) (.inr (.inr (.inr rfl)))
  rw [roundRows, state_undiagonalize, g2, h2, g1, h1, state_diagonalize, g2, h2, g1, h1]
  rfl

theorem state_rounds (rs : List (Fin 12)) (rows : Rows) :
    (rs.foldl (fun rows r => roundRows isa block r rows) rows).state =
      rs.foldl (fun v r => round (wordsOf 16 block) r v) rows.state := by
  induction rs generalizing rows with
  | nil => rfl
  | cons r rs ih => rw [List.foldl_cons, ih, state_roundRows, List.foldl_cons]

theorem state_initialRows (h : Vector Word 8) (t f : M128) :
    (initialRows h t f).state = initial h (lo t) (hi t) (lo f) (hi f) := by
  simp only [Rows.state, initialRows, loadWords, initial, lo_append, hi_append, lo_xor, hi_xor,
    Nat.zero_add, Nat.reduceAdd]

theorem storeRows_eq (h : Vector Word 8) (r : Rows) : storeRows h r = fold h r.state := by
  simp only [storeRows, fold, Rows.state, loadWords, lo_append, hi_append, lo_xor, hi_xor, Nat.zero_add,
    Nat.reduceAdd, BitVec.xor_comm (lo r.row3l), BitVec.xor_comm (hi r.row3l),
    BitVec.xor_comm (lo r.row3h), BitVec.xor_comm (hi r.row3h), BitVec.xor_comm (lo r.row4l),
    BitVec.xor_comm (hi r.row4l), BitVec.xor_comm (lo r.row4h), BitVec.xor_comm (hi r.row4h)]

/-- On any of the instruction sets, the compression with rows in registers is that of BLAKE2b. -/
theorem compressRows_eq (h : Vector Word 8) (t f : M128) :
    compressRows isa h block t f = compress h (wordsOf 16 block) (lo t) (hi t) (lo f) (hi f) := by
  rw [compressRows, storeRows_eq, state_rounds, state_initialRows, compress, rounds]

end Block

end Refinement

end Aion.Blake2
