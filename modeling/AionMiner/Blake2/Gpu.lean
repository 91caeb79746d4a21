import AionMiner.Blake2.Stream

/-! `blake2b.cu`: the digest of a context and an index, with the 16 words of the state in an array. -/

namespace Aion.Blake2.Gpu
open Bits Digest Digest.Blake2b Equihash

/-- Whether `__CUDA_ARCH__` is over 300. -/
inductive Arch where
  | funnel
  | shifts
  deriving DecidableEq

local instance sixteen : NeZero 16 := ⟨by decide⟩

structure Uint2 where
  x : BitVec 32
  y : BitVec 32

/-- `((uint2*)&w)[0]`. -/
def uint2 (w : Word) : Uint2 := ⟨w.extractLsb' 0 32, w.extractLsb' 32 32⟩

def Uint2.word (u : Uint2) : Word := u.y ++ u.x

section Code

/-- `shf.r.wrap.b32`. -/
def shfRWrap (a b : BitVec 32) (c : ℕ) : BitVec 32 := ((b ++ a) >>> (c % 32)).extractLsb' 0 32

/-- `__byte_perm`, the selector given by its four digits from the lowest. -/
def bytePerm (a b : BitVec 32) (s0 s1 s2 s3 : ℕ) : BitVec 32 :=
  let byte i : Byte := (b ++ a).extractLsb' (8 * i) 8
  byte s3 ++ byte s2 ++ byte s1 ++ byte s0

def ror2 (arch : Arch) (a : Uint2) (offset : ℕ) : Uint2 :=
  match arch with
  | .funnel =>
    if offset < 32 then ⟨shfRWrap a.x a.y offset, shfRWrap a.y a.x offset⟩
    else ⟨shfRWrap a.y a.x offset, shfRWrap a.x a.y offset⟩
  | .shifts =>
    if offset = 0 then a
    else if offset < 32 then
      ⟨a.x >>> offset ||| a.y <<< (32 - offset), a.y >>> offset ||| a.x <<< (32 - offset)⟩
    else if offset = 32 then ⟨a.y, a.x⟩
    else
      ⟨a.y >>> (offset - 32) ||| a.x <<< (64 - offset), a.x >>> (offset - 32) ||| a.y <<< (64 - offset)⟩

def swapUint2 (a : Uint2) : Uint2 := ⟨a.y, a.x⟩

def ror24 (a : Uint2) : Uint2 := ⟨bytePerm a.y a.x 7 0 1 2, bytePerm a.y a.x 3 4 5 6⟩

def ror16 (a : Uint2) : Uint2 := ⟨bytePerm a.y a.x 6 7 0 1, bytePerm a.y a.x 2 3 4 5⟩

variable (arch : Arch)

/-- `G` on the words `a`, `b`, `c` and `d` of the state. -/
def G (m : Vector Word 16) (r : Fin 12) (i : Fin 8) (a b c d : Fin 16) (v : Vector Word 16) : Vector Word 16 :=
  let v := v.set a (v[a] + v[b] + m[(sigma.get r)[2 * i.val]])
  let v := v.set d (swapUint2 (uint2 (v[d] ^^^ v[a]))).word
  let v := v.set c (v[c] + v[d])
  let v := v.set b (ror24 (uint2 (v[b] ^^^ v[c]))).word
  let v := v.set a (v[a] + v[b] + m[(sigma.get r)[2 * i.val + 1]])
  let v := v.set d (ror16 (uint2 (v[d] ^^^ v[a]))).word
  let v := v.set c (v[c] + v[d])
  v.set b (ror2 arch (uint2 (v[b] ^^^ v[c])) 63).word

/-- The macro `ROUND`. -/
def round (m : Vector Word 16) (r : Fin 12) (v : Vector Word 16) : Vector Word 16 :=
  let v := G arch m r 0 0 4 8 12 v
  let v := G arch m r 1 1 5 9 13 v
  let v := G arch m r 2 2 6 10 14 v
  let v := G arch m r 3 3 7 11 15 v
  let v := G arch m r 4 0 5 10 15 v
  let v := G arch m r 5 1 6 11 12 v
  let v := G arch m r 6 2 7 8 13 v
  G arch m r 7 3 4 9 14 v

/-- The words `v` the rounds start with. -/
def initial (h : Vector Word 8) (counter : BitVec 16) : Vector Word 16 :=
  let constants : Vector Word 8 := #v[
    0x6a09e667f3bcc908, 0xbb67ae8584caa73b, 0x3c6ef372fe94f82b, 0xa54ff53a5f1d36f1,
    0x510e527fade682d1 ^^^ counter.setWidth 64, 0x9b05688c2b3e6c1f,
    0x1f83d9abfb41bd6b ^^^ 0xffffffffffffffff, 0x5be0cd19137e2179]
  Vector.ofFn fun i => @Fin.addCases 8 8 (fun _ => Word) h.get constants.get i

def fold (h : Vector Word 8) (v : Vector Word 16) : Vector Word 8 :=
  Vector.ofFn fun i => h.get i ^^^ (v.get (i.castAdd 8) ^^^ v.get (i.natAdd 8))

/-- `blake2b_gpu_hash`: what it copies to `hash`. -/
def blake2bGpuHash (S : Short.Ctx) (idx : ℕ) (outlen : ℕ) : List Byte :=
  let leb := le32 idx
  let buf := memcpy S.buf S.buflen leb
  let buflen := S.buflen + leb.length
  let counter := S.counter + BitVec.ofNat 16 buflen
  let buf := memcpy buf buflen (List.replicate (128 - buflen) 0)
  let m := wordsOf 16 buf
  let v := (List.finRange 12).foldl (fun v r => round arch m r v) (initial S.h counter)
  (allBytes (fold S.h v)).take outlen

end Code

section Rotation
variable (w : Word)

theorem getLsbD_word (u : Uint2) (i : ℕ) :
    u.word.getLsbD i = if i < 32 then u.x.getLsbD i else u.y.getLsbD (i - 32) := by
  rw [Uint2.word, BitVec.getLsbD_append]

theorem getLsbD_x {i : ℕ} (hi : i < 32) : (uint2 w).x.getLsbD i = w.getLsbD i := by
  rw [uint2, BitVec.getLsbD_extractLsb', decide_eq_true hi, Bool.true_and, Nat.zero_add]

theorem getLsbD_y {i : ℕ} (hi : i < 32) : (uint2 w).y.getLsbD i = w.getLsbD (32 + i) := by
  rw [uint2, BitVec.getLsbD_extractLsb', decide_eq_true hi, Bool.true_and]

theorem getLsbD_rotateRight {n i : ℕ} (hn : n < 64) (hi : i < 64) :
    (rotateRight n w).getLsbD i = w.getLsbD ((n + i) % 64) := by
  rw [rotateRight, BitVec.getLsbD_rotateRight, Nat.mod_eq_of_lt hn, decide_eq_true hi, Bool.true_and]
  by_cases hlt : i < 64 - n
  · rw [decide_eq_true hlt, cond_true, Nat.mod_eq_of_lt (by omega)]
  · rw [decide_eq_false hlt, cond_false]
    congr 1
    omega

theorem getLsbD_shfRWrap (a b : BitVec 32) (c : ℕ) {i : ℕ} (hi : i < 32) :
    (shfRWrap a b c).getLsbD i =
      if c % 32 + i < 32 then a.getLsbD (c % 32 + i) else b.getLsbD (c % 32 + i - 32) := by
  rw [shfRWrap, BitVec.getLsbD_extractLsb', decide_eq_true hi, Bool.true_and, Nat.zero_add,
    BitVec.getLsbD_ushiftRight, BitVec.getLsbD_append]

/-- Without funnel shifts the low half of two words is put together from two shifts. -/
theorem or_shifts (a b : BitVec 32) {n : ℕ} (hpos : 0 < n) (hn : n < 32) :
    a >>> n ||| b <<< (32 - n) = shfRWrap a b n := by
  apply BitVec.eq_of_getLsbD_eq
  intro i hi
  rw [getLsbD_shfRWrap a b n hi, Nat.mod_eq_of_lt hn, BitVec.getLsbD_or, BitVec.getLsbD_ushiftRight,
    BitVec.getLsbD_shiftLeft, decide_eq_true hi, Bool.true_and]
  by_cases hlt : n + i < 32
  · rw [if_pos hlt, decide_eq_true (by omega : i < 32 - n), Bool.not_true, Bool.false_and, Bool.or_false]
  · rw [if_neg hlt, decide_eq_false (by omega : ¬i < 32 - n), Bool.not_false, Bool.true_and,
      BitVec.getLsbD_of_ge a (n + i) (by omega), Bool.false_or]
    congr 1
    omega

theorem shfRWrap_zero (a b : BitVec 32) {c : ℕ} (hc : c % 32 = 0) : shfRWrap a b c = a := by
  apply BitVec.eq_of_getLsbD_eq
  intro i hi
  rw [getLsbD_shfRWrap a b c hi, hc, Nat.zero_add, if_pos hi]

theorem ror2_shifts (a : Uint2) {n : ℕ} (hn : n < 64) : ror2 .shifts a n = ror2 .funnel a n := by
  rw [ror2, ror2]
  split_ifs with h0 h32 h32 h
  · rw [shfRWrap_zero _ _ (by omega), shfRWrap_zero _ _ (by omega)]
  · omega
  · rw [or_shifts _ _ (by omega) h32, or_shifts _ _ (by omega) h32]
  · rw [shfRWrap_zero _ _ (by omega), shfRWrap_zero _ _ (by omega)]
  · have hwrap : ∀ u v : BitVec 32, shfRWrap u v n = shfRWrap u v (n - 32) := fun u v => by
      rw [shfRWrap, shfRWrap, show n % 32 = (n - 32) % 32 by omega]
    rw [hwrap, hwrap, ← or_shifts _ _ (by omega) (by omega), ← or_shifts _ _ (by omega) (by omega),
      show 32 - (n - 32) = 64 - n by omega]

theorem getLsbD_shfRWrap_xy (c : ℕ) {i : ℕ} (hi : i < 32) :
    (shfRWrap (uint2 w).x (uint2 w).y c).getLsbD i = w.getLsbD (c % 32 + i) := by
  rw [getLsbD_shfRWrap _ _ _ hi]
  split_ifs with hlow
  · exact getLsbD_x w hlow
  · rw [getLsbD_y w (by omega)]
    congr 1
    omega

theorem getLsbD_shfRWrap_yx (c : ℕ) {i : ℕ} (hi : i < 32) :
    (shfRWrap (uint2 w).y (uint2 w).x c).getLsbD i = w.getLsbD ((32 + c % 32 + i) % 64) := by
  rw [getLsbD_shfRWrap _ _ _ hi]
  split_ifs with hlow
  · rw [getLsbD_y w hlow]
    congr 1
    omega
  · rw [getLsbD_x w (by omega)]
    congr 1
    omega

theorem word_ror2 (arch : Arch) {n : ℕ} (hn : n < 64) :
    (ror2 arch (uint2 w) n).word = rotateRight n w := by
  have hfunnel : (ror2 .funnel (uint2 w) n).word = rotateRight n w := by
    apply BitVec.eq_of_getLsbD_eq
    intro i hi
    rw [getLsbD_rotateRight w hn hi, getLsbD_word, ror2]
    split_ifs with hi32 hn32 hn32
    · rw [getLsbD_shfRWrap_xy w n hi32]
      congr 1
      omega
    · rw [getLsbD_shfRWrap_yx w n hi32]
      congr 1
      omega
    · rw [getLsbD_shfRWrap_yx w n (by omega)]
      congr 1
      omega
    · rw [getLsbD_shfRWrap_xy w n (by omega)]
      congr 1
      omega
  cases arch with
  | funnel => exact hfunnel
  | shifts => rw [ror2_shifts _ hn, hfunnel]

theorem word_swapUint2 : (swapUint2 (uint2 w)).word = rotateRight 32 w := by
  rw [← word_ror2 w .shifts (by decide)]
  rfl

theorem byte_swapped {i : ℕ} (hi : i < 8) :
    ((uint2 w).x ++ (uint2 w).y).extractLsb' (8 * i) 8 = w.extractLsb' (8 * ((i + 4) % 8)) 8 := by
  apply BitVec.eq_of_getLsbD_eq
  intro j hj
  rw [BitVec.getLsbD_extractLsb', BitVec.getLsbD_extractLsb', decide_eq_true hj, Bool.true_and,
    Bool.true_and, BitVec.getLsbD_append]
  split_ifs with hlow
  · rw [getLsbD_y w hlow]
    congr 1
    omega
  · rw [getLsbD_x w (by omega)]
    congr 1
    omega

theorem append_bytes (a : BitVec 32) (b c d e : Byte) :
    a ++ (b ++ c ++ d ++ e) = a ++ b ++ c ++ d ++ e := by
  have h1 : a ++ (b ++ c ++ d ++ e) = a ++ (b ++ c ++ d) ++ e := BitVec.append_assoc.symm
  have h2 : a ++ (b ++ c ++ d) = a ++ (b ++ c) ++ d := BitVec.append_assoc.symm
  have h3 : a ++ (b ++ c) = a ++ b ++ c := BitVec.append_assoc.symm
  rw [h1, h2, h3]

theorem word_bytePerm (a b : BitVec 32) (s0 s1 s2 s3 s4 s5 s6 s7 : ℕ) :
    (Uint2.mk (bytePerm a b s0 s1 s2 s3) (bytePerm a b s4 s5 s6 s7)).word =
      word64 fun j => (b ++ a).extractLsb' (8 * [s0, s1, s2, s3, s4, s5, s6, s7].getD j 0) 8 := by
  rw [Uint2.word, bytePerm, bytePerm, append_bytes]
  rfl

theorem word_ror24 : (ror24 (uint2 w)).word = rotateRight 24 w := by
  rw [ror24, word_bytePerm]
  refine word64_rotated w (show 3 < 8 by decide) _ fun j hj => ?_
  have hsel : ∀ j < 8, [7, 0, 1, 2, 3, 4, 5, 6].getD j 0 < 8 ∧
      ([7, 0, 1, 2, 3, 4, 5, 6].getD j 0 + 4) % 8 = (j + 3) % 8 := by decide
  rw [byte_swapped w (hsel j hj).1, (hsel j hj).2]

theorem word_ror16 : (ror16 (uint2 w)).word = rotateRight 16 w := by
  rw [ror16, word_bytePerm]
  refine word64_rotated w (show 2 < 8 by decide) _ fun j hj => ?_
  have hsel : ∀ j < 8, [6, 7, 0, 1, 2, 3, 4, 5].getD j 0 < 8 ∧
      ([6, 7, 0, 1, 2, 3, 4, 5].getD j 0 + 4) % 8 = (j + 2) % 8 := by decide
  rw [byte_swapped w (hsel j hj).1, (hsel j hj).2]

end Rotation

section Refinement
variable (arch : Arch) (m : Vector Word 16) (r : Fin 12)

/-- Four words of the array. -/
def quarter (v : Vector Word 16) (p : Fin 16 × Fin 16 × Fin 16 × Fin 16) : Quarter Word :=
  ⟨v[p.1], v[p.2.1], v[p.2.2.1], v[p.2.2.2]⟩

def places (p : Fin 16 × Fin 16 × Fin 16 × Fin 16) : List (Fin 16) := [p.1, p.2.1, p.2.2.1, p.2.2.2]

/-- `G` replaces the four words it is given by their mix. -/
theorem quarter_G (i : Fin 8) {a b c d : Fin 16} (hne : (places (a, b, c, d)).Nodup) (v : Vector Word 16) :
    quarter (G arch m r i a b c d v) (a, b, c, d) =
      mix rotateRight m[(sigma.get r)[2 * i.val]] m[(sigma.get r)[2 * i.val + 1]] (quarter v (a, b, c, d)) := by
  simp only [places, List.nodup_cons, List.mem_cons, List.not_mem_nil, or_false, not_or] at hne
  obtain ⟨⟨hab, hac, had⟩, ⟨hbc, hbd⟩, hcd, -⟩ := hne
  have hval : ∀ {x y : Fin 16}, x ≠ y → x.val ≠ y.val := fun h => Fin.val_ne_of_ne h
  simp only [quarter, G, mix, halfMix, Fin.getElem_fin, Vector.getElem_set, word_swapUint2, word_ror24,
    word_ror16, word_ror2 _ arch (show 63 < 64 by decide), hval hab, hval hac, hval had, hval hbc, hval hbd,
    hval hcd, (hval hab).symm, (hval hac).symm, (hval had).symm, (hval hbc).symm, (hval hbd).symm,
    (hval hcd).symm, if_true, if_false]

theorem getElem_G (i : Fin 8) {a b c d x : Fin 16} (hx : x ∉ places (a, b, c, d)) (v : Vector Word 16) :
    (G arch m r i a b c d v)[x] = v[x] := by
  simp only [places, List.mem_cons, List.not_mem_nil, or_false, not_or] at hx
  obtain ⟨ha, hb, hc, hd⟩ := hx
  have hval : ∀ {y : Fin 16}, x ≠ y → y.val ≠ x.val := fun h => Fin.val_ne_of_ne h.symm
  simp only [G, Fin.getElem_fin, Vector.getElem_set, hval ha, hval hb, hval hc, hval hd, if_false]

theorem quarter_G_of_disjoint (i : Fin 8) {a b c d : Fin 16} {p : Fin 16 × Fin 16 × Fin 16 × Fin 16}
    (hp : ∀ x ∈ places p, x ∉ places (a, b, c, d)) (v : Vector Word 16) :
    quarter (G arch m r i a b c d v) p = quarter v p := by
  have hat : ∀ x ∈ places p, (G arch m r i a b c d v)[x] = v[x] := fun x hx =>
    getElem_G arch m r i (hp x hx) v
  simp only [places, List.forall_mem_cons] at hat
  rw [quarter, hat.1, hat.2.1, hat.2.2.1, hat.2.2.2.1, quarter]

/-- The array as columns. -/
def columns (v : Vector Word 16) : State where
  x0 := quarter v (0, 4, 8, 12)
  x1 := quarter v (1, 5, 9, 13)
  x2 := quarter v (2, 6, 10, 14)
  x3 := quarter v (3, 7, 11, 15)

theorem columns_straight (v : Vector Word 16) :
    columns (G arch m r 3 3 7 11 15 (G arch m r 2 2 6 10 14 (G arch m r 1 1 5 9 13
      (G arch m r 0 0 4 8 12 v)))) = mixAll (words m r 0) (words m r 1) (columns v) := by
  simp (disch := decide) only [columns, quarter_G, quarter_G_of_disjoint]
  rfl

theorem columns_diagonal (v : Vector Word 16) :
    diagonals (columns (G arch m r 7 3 4 9 14 (G arch m r 6 2 7 8 13 (G arch m r 5 1 6 11 12
      (G arch m r 4 0 5 10 15 v))))) = mixAll (words m r 8) (words m r 9) (diagonals (columns v)) := by
  have hdiag : ∀ v, diagonals (columns v) =
      ⟨quarter v (0, 5, 10, 15), quarter v (1, 6, 11, 12), quarter v (2, 7, 8, 13),
        quarter v (3, 4, 9, 14)⟩ := fun _ => rfl
  simp (disch := decide) only [hdiag, quarter_G, quarter_G_of_disjoint]
  rfl

theorem columns_round (v : Vector Word 16) :
    columns (round arch m r v) = Digest.Blake2b.round m r (columns v) := by
  have hundo : ∀ s : State, undiagonals (diagonals s) = s := fun _ => rfl
  rw [← hundo (columns (round arch m r v)), round, columns_diagonal, columns_straight]
  rfl

theorem columns_rounds (rs : List (Fin 12)) (v : Vector Word 16) :
    columns (rs.foldl (fun v r => round arch m r v) v) =
      rs.foldl (fun v r => Digest.Blake2b.round m r v) (columns v) := by
  induction rs generalizing v with
  | nil => rfl
  | cons r rs ih => rw [List.foldl_cons, ih, columns_round, List.foldl_cons]

theorem columns_initial (h : Vector Word 8) (counter : BitVec 16) :
    columns (initial h counter) =
      Digest.Blake2b.initial h (counter.setWidth 64) 0 (lastWord true) 0 := by
  have hzero : ∀ x : Word, x ^^^ 0 = x := fun _ => BitVec.xor_zero
  rw [Digest.Blake2b.initial, hzero, hzero]
  simp only [columns, quarter, initial, Fin.getElem_fin, Vector.getElem_ofFn]
  rfl

theorem fold_eq (h : Vector Word 8) (v : Vector Word 16) :
    fold h v = Digest.Blake2b.fold h (columns v) := rfl

/-- On a context with room for an index, every GPU copies what the CPU's stream does after taking in
the same four bytes. -/
theorem blake2bGpuHash_eq (isa : Isa) {S : Short.Ctx} (hroom : S.buflen + 4 ≤ 128) (idx : ℕ)
    {outlen : ℕ} (hout : outlen ≤ 64) :
    some (blake2bGpuHash arch S idx outlen) =
      ((Short.update isa S (le32 idx)).bind fun S => Short.final isa S outlen).map Prod.fst := by
  have hle : (le32 idx).length = 4 := rfl
  have hupdate : Short.update isa S (le32 idx) =
      some { S with buf := memcpy S.buf S.buflen (le32 idx), buflen := S.buflen + 4 } := by
    have hfill : ¬128 - S.buflen < (le32 idx).length := by omega
    exact if_neg hfill
  rw [hupdate, Option.bind_some, Short.final, if_neg (Nat.not_lt.mpr hout),
    if_neg (Nat.not_lt.mpr hroom)]
  dsimp only
  rw [Option.map_some, blake2bGpuHash, Short.compress]
  dsimp only
  rw [compressRows_eq, fold_eq, columns_rounds, columns_initial, Short.lo_counter, Short.hi_counter,
    Short.lo_last, Short.hi_last]
  rfl

end Refinement

end Aion.Blake2.Gpu
