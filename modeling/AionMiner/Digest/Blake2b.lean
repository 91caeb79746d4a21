import AionMiner.Bits.Word64
import AionMiner.Digest.Stream

/-! BLAKE2b: a state of four columns mixed as it stands and along its diagonals. -/

namespace Aion.Digest.Blake2b
open Bits

abbrev Word := BitVec 64

structure Quarter (α : Type) where
  a : α
  b : α
  c : α
  d : α
  deriving DecidableEq

section Mix
variable {α : Type} [Add α] [XorOp α]

/-- Half of the mixing function `G`: one message word and two rotations. -/
def halfMix (rotr : ℕ → α → α) (p q : ℕ) (x : α) (s : Quarter α) : Quarter α :=
  let a := s.a + s.b + x
  let d := rotr p (s.d ^^^ a)
  let c := s.c + d
  ⟨a, rotr q (s.b ^^^ c), c, d⟩

def mix (rotr : ℕ → α → α) (x y : α) (s : Quarter α) : Quarter α :=
  halfMix rotr 16 63 y (halfMix rotr 32 24 x s)

end Mix

structure Four (α : Type) where
  x0 : α
  x1 : α
  x2 : α
  x3 : α
  deriving DecidableEq

abbrev State := Four (Quarter Word)

def rotateRight (n : ℕ) (x : Word) : Word := x.rotateRight n

def halfMixAll (p q : ℕ) (x : Four Word) (v : State) : State where
  x0 := halfMix rotateRight p q x.x0 v.x0
  x1 := halfMix rotateRight p q x.x1 v.x1
  x2 := halfMix rotateRight p q x.x2 v.x2
  x3 := halfMix rotateRight p q x.x3 v.x3

def mixAll (x y : Four Word) (v : State) : State := halfMixAll 16 63 y (halfMixAll 32 24 x v)

def diagonals (v : State) : State where
  x0 := ⟨v.x0.a, v.x1.b, v.x2.c, v.x3.d⟩
  x1 := ⟨v.x1.a, v.x2.b, v.x3.c, v.x0.d⟩
  x2 := ⟨v.x2.a, v.x3.b, v.x0.c, v.x1.d⟩
  x3 := ⟨v.x3.a, v.x0.b, v.x1.c, v.x2.d⟩

def undiagonals (v : State) : State where
  x0 := ⟨v.x0.a, v.x3.b, v.x2.c, v.x1.d⟩
  x1 := ⟨v.x1.a, v.x0.b, v.x3.c, v.x2.d⟩
  x2 := ⟨v.x2.a, v.x1.b, v.x0.c, v.x3.d⟩
  x3 := ⟨v.x3.a, v.x2.b, v.x1.c, v.x0.d⟩

def sigma : Vector (Vector (Fin 16) 16) 12 := #v[
  #v[0, 1, 2, 3, 4, 5, 6, 7, 8, 9, 10, 11, 12, 13, 14, 15],
  #v[14, 10, 4, 8, 9, 15, 13, 6, 1, 12, 0, 2, 11, 7, 5, 3],
  #v[11, 8, 12, 0, 5, 2, 15, 13, 10, 14, 3, 6, 7, 1, 9, 4],
  #v[7, 9, 3, 1, 13, 12, 11, 14, 2, 6, 5, 10, 4, 0, 15, 8],
  #v[9, 0, 5, 7, 2, 4, 10, 15, 14, 1, 11, 12, 6, 8, 3, 13],
  #v[2, 12, 6, 10, 0, 11, 8, 3, 4, 13, 7, 5, 15, 14, 1, 9],
  #v[12, 5, 1, 15, 14, 13, 4, 10, 0, 7, 6, 3, 9, 2, 8, 11],
  #v[13, 11, 7, 14, 12, 1, 3, 9, 5, 0, 15, 4, 8, 6, 2, 10],
  #v[6, 15, 14, 9, 11, 3, 0, 8, 12, 2, 13, 7, 1, 4, 10, 5],
  #v[10, 2, 8, 4, 7, 6, 1, 5, 15, 11, 9, 14, 3, 12, 13, 0],
  #v[0, 1, 2, 3, 4, 5, 6, 7, 8, 9, 10, 11, 12, 13, 14, 15],
  #v[14, 10, 4, 8, 9, 15, 13, 6, 1, 12, 0, 2, 11, 7, 5, 3]]

/-- Words `i`, `i + 2`, `i + 4` and `i + 6` of round `r`. -/
def words (m : Vector Word 16) (r : Fin 12) (i : Fin 10) : Four Word where
  x0 := m[sigma[r][i.val]]
  x1 := m[sigma[r][i.val + 2]]
  x2 := m[sigma[r][i.val + 4]]
  x3 := m[sigma[r][i.val + 6]]

def firstWord : Fin 4 → Fin 10
  | 0 => 0
  | 1 => 1
  | 2 => 8
  | 3 => 9

def round (m : Vector Word 16) (r : Fin 12) (v : State) : State :=
  undiagonals (mixAll (words m r 8) (words m r 9) (diagonals (mixAll (words m r 0) (words m r 1) v)))

def rounds (m : Vector Word 16) (v : State) : State :=
  (List.finRange 12).foldl (fun v r => round m r v) v

def iv : Vector Word 8 := #v[
  0x6a09e667f3bcc908, 0xbb67ae8584caa73b, 0x3c6ef372fe94f82b, 0xa54ff53a5f1d36f1,
  0x510e527fade682d1, 0x9b05688c2b3e6c1f, 0x1f83d9abfb41bd6b, 0x5be0cd19137e2179]

/-- `t` and `f` are the two counter and the two finalization words. -/
def initial (h : Vector Word 8) (t0 t1 f0 f1 : Word) : State where
  x0 := ⟨h[0], h[4], iv[0], iv[4] ^^^ t0⟩
  x1 := ⟨h[1], h[5], iv[1], iv[5] ^^^ t1⟩
  x2 := ⟨h[2], h[6], iv[2], iv[6] ^^^ f0⟩
  x3 := ⟨h[3], h[7], iv[3], iv[7] ^^^ f1⟩

def fold (h : Vector Word 8) (v : State) : Vector Word 8 := #v[
  h[0] ^^^ (v.x0.a ^^^ v.x0.c), h[1] ^^^ (v.x1.a ^^^ v.x1.c),
  h[2] ^^^ (v.x2.a ^^^ v.x2.c), h[3] ^^^ (v.x3.a ^^^ v.x3.c),
  h[4] ^^^ (v.x0.b ^^^ v.x0.d), h[5] ^^^ (v.x1.b ^^^ v.x1.d),
  h[6] ^^^ (v.x2.b ^^^ v.x2.d), h[7] ^^^ (v.x3.b ^^^ v.x3.d)]

def compress (h : Vector Word 8) (m : Vector Word 16) (t0 t1 f0 f1 : Word) : Vector Word 8 :=
  fold h (rounds m (initial h t0 t1 f0 f1))

def wordOf (bytes : List Byte) (i : ℕ) : Word := word64 fun j => bytes.getD (8 * i + j) 0

def wordsOf (n : ℕ) (bytes : List Byte) : Vector Word n := Vector.ofFn fun i => wordOf bytes i

def allBytes (h : Vector Word 8) : List Byte := h.toList.flatMap bytes64

def lastWord (last : Bool) : Word := if last then BitVec.allOnes 64 else 0

/-- BLAKE2b as a mode. The counter has 128 bits. -/
def mode : Mode (Vector Word 8) Byte where
  size := 128
  size_pos := by decide
  zero := 0
  compress h block t last :=
    compress h (wordsOf 16 block) (BitVec.ofNat 64 t) (BitVec.ofNat 64 (t / 2 ^ 64)) (lastWord last) 0

theorem mode_compress (h : Vector Word 8) (block : List Byte) (t : ℕ) (last : Bool) :
    mode.compress h block t last = compress h (wordsOf 16 block) (BitVec.ofNat 64 t)
      (BitVec.ofNat 64 (t / 2 ^ 64)) (lastWord last) 0 := rfl

/-- The chaining value a parameter block of 64 bytes starts with. -/
def start (paramBlock : List Byte) : Vector Word 8 :=
  iv.zipWith (· ^^^ ·) (wordsOf 8 paramBlock)

def digest (paramBlock msg : List Byte) : List Byte := allBytes (mode.finish (start paramBlock) msg)

section Bytes

theorem wordOf_allBytes (h : Vector Word 8) {i : ℕ} (hi : i < 8) : wordOf (allBytes h) i = h[i] := by
  have hget : h.toList.getD i 0 = h[i] := by
    rw [List.getD_eq_getElem _ _ (by rwa [Vector.length_toList]), Vector.getElem_toList]
  rw [wordOf, ← word64_extract h[i], ← hget]
  exact word64_congr fun j hj => getD_flatMap_bytes64 _ hj

theorem length_allBytes (h : Vector Word 8) : (allBytes h).length = 64 := by
  rw [allBytes, List.length_flatMap, List.map_congr_left fun x _ => length_bytes64 x, List.map_const',
    Vector.length_toList]
  rfl

theorem wordsOf_xor {bytes : List Byte} (hlen : bytes.length = 64) :
    wordsOf 8 (List.zipWith (· ^^^ ·) (allBytes iv) bytes) = start bytes := by
  apply Vector.ext
  intro i hi
  rw [start, Vector.getElem_zipWith, wordsOf, wordsOf, Vector.getElem_ofFn, Vector.getElem_ofFn,
    ← wordOf_allBytes iv hi, wordOf, wordOf, wordOf, ← word64_xor]
  apply word64_congr
  intro j hj
  have hlt : 8 * i + j < 64 := by omega
  rw [List.getD_eq_getElem _ _ (by rw [List.length_zipWith, length_allBytes, hlen]; exact hlt),
    List.getElem_zipWith, List.getD_eq_getElem _ _ (by rwa [length_allBytes]),
    List.getD_eq_getElem _ _ (by rwa [hlen])]

end Bytes

end Aion.Digest.Blake2b
