import AionMiner.Equihash.VerifierRows

/-! What a solution is, without rows, and that the verifier accepts exactly the
byte strings that encode one. -/

namespace Aion.Equihash
open Bits Wagner

section Spec
variable {H : Blake2b} {base : Blake2bState}

/-- The 22-bit indices of a big-endian packed solution, read off the number it denotes. -/
def packedIndices (soln : List Byte) : List ℕ :=
  (List.range 512).map fun j => beNat soln / 2 ^ (22 * (511 - j)) % 2 ^ 22

structure ValidIndices (H : Blake2b) (base : Blake2bState) (v : List ℕ) : Prop where
  distinct : v.Pairwise (· ≠ ·)
  ordered : ∀ h, 1 ≤ h → h ≤ 9 → ∀ k < 2 ^ (9 - h), v.getD (k * 2 ^ h) 0 < v.getD (k * 2 ^ h + 2 ^ (h - 1)) 0
  collides : ∀ h, 1 ≤ h → h ≤ 9 → ∀ k < 2 ^ (9 - h), ∀ n < 21 * h, (xorHash H base (block v h k)).bit n = false
  zero : ∀ n < 210, (xorHash H base v).bit n = false

theorem getIndicesFromMinimal_eq_packedIndices {soln : List Byte} (h : soln.length = 1408) :
    getIndicesFromMinimal soln 21 = packedIndices soln := by
  have hlen := length_getIndicesFromMinimal h
  refine List.ext_getElem (by simpa only [packedIndices, List.length_map, List.length_range] using hlen)
    fun i hi hi' => Nat.eq_of_testBit_eq fun t => ?_
  have hi512 : i < 512 := hlen ▸ hi
  rw [← List.getD_eq_getElem _ 0 hi, testBit_getIndicesFromMinimal h hi512]
  simp only [packedIndices, List.getElem_map, List.getElem_range]
  rw [Nat.testBit_mod_two_pow, Nat.testBit_div_two_pow, testBit_beNat (by decide), h]
  by_cases ht : t < 22
  · rw [decide_eq_true ht, decide_eq_true (by omega), Bool.true_and, Bool.true_and, Bool.true_and,
      show 1408 * 8 - 1 - (t + 22 * (511 - i)) = i * 22 + (21 - t) by omega]
  · rw [decide_eq_false ht, Bool.false_and, Bool.false_and]

theorem digitEq_zero_iff {j : ℕ} {a : Hash} :
    DigitEq j a 0 ↔ ∀ n < 21, a.bit (21 * j + n) = false := by
  simp only [DigitEq, Hash.bit_zero]

theorem digitEq_iff_add {j : ℕ} {a b : Hash} :
    DigitEq j a b ↔ ∀ n < 21, (a + b).bit (21 * j + n) = false :=
  forall₂_congr fun _ _ => Hash.bit_add_eq_false.symm

/-- Equal digits of all sibling blocks up to height `h` leave zeros in the first `21 * h` bits. -/
theorem prefix_zero_of_digitEq {v : List ℕ}
    (hd : ∀ j < 9, ∀ m < 2 ^ (8 - j),
      DigitEq j (xorHash H base (block v j (2 * m))) (xorHash H base (block v j (2 * m + 1)))) :
    ∀ h ≤ 9, ∀ k < 2 ^ (9 - h), ∀ n < 21 * h, (xorHash H base (block v h k)).bit n = false := by
  intro h
  induction h with
  | zero => exact fun _ _ _ n hn => absurd hn (Nat.not_lt_zero n)
  | succ h ih =>
    intro hh k hk n hn
    have hpow : 2 ^ (9 - h) = 2 * 2 ^ (9 - (h + 1)) := by
      rw [show 9 - h = 9 - (h + 1) + 1 by omega, Nat.pow_succ, Nat.mul_comm]
    rw [block_succ, xorHash_append]
    rcases Nat.lt_or_ge n (21 * h) with hlt | hge
    · rw [Hash.bit_add, ih (by omega) _ (by omega) n hlt, ih (by omega) _ (by omega) n hlt,
        Bool.xor_false]
    · obtain ⟨m, rfl⟩ := Nat.exists_eq_add_of_le hge
      exact Hash.bit_add_eq_false.mpr (hd h (by omega) k (by rwa [show 8 - h = 9 - (h + 1) by omega]) m (by omega))

theorem headD_block {v : List ℕ} {h k : ℕ} : (block v h k).headD 0 = v.getD (k * 2 ^ h) 0 := by
  have := getD_block (v := v) (h := h) (k := k) (i := 0) 0 (Nat.two_pow_pos h)
  rw [Nat.add_zero] at this
  rw [← this]
  cases block v h k <;> rfl

theorem headD_block_right {v : List ℕ} {h k : ℕ} :
    (block v h (2 * k + 1)).headD 0 = v.getD (k * 2 ^ (h + 1) + 2 ^ h) 0 := by
  rw [headD_block, Nat.succ_mul, Nat.pow_succ, show 2 * k * 2 ^ h = k * (2 ^ h * 2) by ring]

theorem headD_block_left {v : List ℕ} {h k : ℕ} :
    (block v h (2 * k)).headD 0 = v.getD (k * 2 ^ (h + 1)) 0 := by
  rw [headD_block, Nat.pow_succ, show 2 * k * 2 ^ h = k * (2 ^ h * 2) by ring]

/-- The tests of the merging loop against the flat conditions. -/
theorem balanced_pairOk_iff {v : List ℕ} (hv : v.length = 512) :
    Balanced (PairOk H base) 9 v ∧ DigitEq 9 (xorHash H base v) 0 ↔ ValidIndices H base v := by
  have hv9 : v.length = 2 ^ 9 := hv
  constructor
  · rintro ⟨hbal, hlast⟩
    have hpair := (balanced_iff hv9).mp hbal
    have hcoll := prefix_zero_of_digitEq fun j hj m hm => (hpair j hj m hm).digit
    refine ⟨?_, fun h h1 h9 k hk => ?_, fun h _ h9 => hcoll h h9, fun n hn => ?_⟩
    · exact (balanced_disjoint_iff.mp (hbal.imp fun _ _ _ _ _ _ _ _ hP => hP.disjoint)).2
    · obtain ⟨j, rfl⟩ := Nat.exists_eq_add_of_le' h1
      have := (hpair j (by omega) k (by rwa [show 9 - 1 - j = 9 - (j + 1) by omega])).before
      rwa [headD_block_left, headD_block_right] at this
    · have hpre := hcoll 9 le_rfl 0 (by decide)
      rw [block_top hv9] at hpre
      rcases Nat.lt_or_ge n 189 with hlt | hge
      · exact hpre n hlt
      · obtain ⟨m, rfl⟩ := Nat.exists_eq_add_of_le hge
        exact digitEq_zero_iff.mp hlast m (by omega)
  · rintro ⟨hdistinct, hordered, hcollides, hzero⟩
    have hdisj := (balanced_iff hv9).mp (balanced_disjoint_iff.mpr ⟨hv9, hdistinct⟩)
    refine ⟨(balanced_iff hv9).mpr fun j hj m hm => ⟨?_, ?_, hdisj j hj m hm⟩,
      digitEq_zero_iff.mpr fun n hn => hzero _ (by omega)⟩
    · refine digitEq_iff_add.mpr fun n hn => ?_
      have := hcollides (j + 1) (by omega) hj m (by rwa [show 9 - (j + 1) = 9 - 1 - j by omega])
        (21 * j + n) (by omega)
      rwa [block_succ, xorHash_append] at this
    · have := hordered (j + 1) (by omega) hj m (by rwa [show 9 - (j + 1) = 9 - 1 - j by omega])
      rwa [Nat.add_sub_cancel, ← headD_block_left, ← headD_block_right] at this

theorem rowsOf_leafRows (H : Blake2b) (base : Blake2bState) {v : List ℕ} (hv : v.length = 512)
    (hlt : ∀ a ∈ v, a < 2 ^ 22) : RowsOf H base v 0 (v.map (leafRow H base)) := by
  refine ⟨by rw [List.length_map, hv]; rfl, fun k hk => ?_⟩
  have hk' : k < v.length := by rw [hv]; exact hk
  rw [block_zero hk', List.getD_eq_getElem _ _ (by rwa [List.length_map]), List.getElem_map]
  exact rowOf_leafRow ((hlt _ (List.getElem_mem hk')).trans (by decide))

theorem isValidSolution_eq_mergeLevels {soln : List Byte} (h : soln.length = 1408) :
    isValidSolution H base soln =
      mergeLevels 30 4 ((getIndicesFromMinimal soln 21).map (leafRow H base)) := by
  rw [isValidSolution, if_neg (by rw [h]; decide)]
  rfl

theorem isValidSolution_iff_balanced {soln : List Byte} (h : soln.length = 1408) :
    isValidSolution H base soln = true ↔
      Balanced (PairOk H base) 9 (getIndicesFromMinimal soln 21) ∧
        DigitEq 9 (xorHash H base (getIndicesFromMinimal soln 21)) 0 := by
  have hlen := length_getIndicesFromMinimal h
  have hrows := rowsOf_leafRows H base hlen (getIndicesFromMinimal_lt h)
  have hlevels := mergeLevels_iff (m := 9) rfl hrows
  rw [isValidSolution_eq_mergeLevels h, balanced_iff (show _ = 2 ^ 9 from hlen)]
  rw [block_top (show _ = 2 ^ 9 from hlen)] at hlevels
  refine hlevels.trans (and_congr_left fun _ => ⟨fun hall j hj => hall j (Nat.zero_le j) hj,
    fun hall j _ hj => hall j hj⟩)

theorem isValidSolution_pack_iff {v : List ℕ} (hlen : v.length = 512) (hlt : ∀ a ∈ v, a < 2 ^ 22) :
    isValidSolution H base (getMinimalFromIndices v 21) = true ↔
      Balanced (PairOk H base) 9 v ∧ DigitEq 9 (xorHash H base v) 0 := by
  rw [isValidSolution_iff_balanced (length_getMinimalFromIndices hlen),
    getIndicesFromMinimal_getMinimalFromIndices hlen hlt]

/-- The verifier accepts exactly the encodings of valid index vectors. -/
theorem isValidSolution_iff (H : Blake2b) (base : Blake2bState) (soln : List Byte) :
    isValidSolution H base soln = true ↔ soln.length = 1408 ∧ ValidIndices H base (packedIndices soln) := by
  by_cases h : soln.length = 1408
  · rw [isValidSolution_iff_balanced h, balanced_pairOk_iff (length_getIndicesFromMinimal h),
      getIndicesFromMinimal_eq_packedIndices h]
    exact ⟨fun hv => ⟨h, hv⟩, And.right⟩
  · rw [isValidSolution, if_pos (show soln.length ≠ solutionWidth from h)]
    exact ⟨fun hf => absurd hf Bool.false_ne_true, fun hv => absurd hv.1 h⟩

end Spec
end Aion.Equihash
