import AionMiner.Equihash.PackingLoops
import Mathlib.Data.List.Basic

/-! Packing and unpacking are inverse to each other. -/

namespace Aion.Equihash
open Bits

/-- A number stored big-endian behind `bytePad` zero bytes. -/
def elemBytes (bitLen bytePad x : ℕ) : List Byte :=
  List.replicate bytePad 0#8 ++ (List.range ((bitLen + 7) / 8)).map fun i =>
    BitVec.ofNat 8 (x >>> (8 * ((bitLen + 7) / 8 - 1 - i)))

def elemArray (bitLen bytePad : ℕ) (xs : List ℕ) : List Byte := xs.flatMap (elemBytes bitLen bytePad)

theorem length_elemBytes (bitLen bytePad x : ℕ) :
    (elemBytes bitLen bytePad x).length = outWidth bitLen bytePad := by
  simp [elemBytes, outWidth, Nat.add_comm]

theorem length_flatMap_const {α β : Type*} {f : α → List β} {width : ℕ}
    (hf : ∀ a, (f a).length = width) (xs : List α) : (xs.flatMap f).length = xs.length * width := by
  induction xs with
  | nil => simp
  | cons x xs ih =>
    rw [List.flatMap_cons, List.length_append, hf, ih, List.length_cons, Nat.succ_mul,
      Nat.add_comm]

theorem length_elemArray (bitLen bytePad : ℕ) (xs : List ℕ) :
    (elemArray bitLen bytePad xs).length = xs.length * outWidth bitLen bytePad :=
  length_flatMap_const (length_elemBytes bitLen bytePad) xs

theorem drop_flatMap_const {α β : Type*} {f : α → List β} {width : ℕ}
    (hf : ∀ a, (f a).length = width) (xs : List α) (e : ℕ) :
    (xs.flatMap f).drop (e * width) = (xs.drop e).flatMap f := by
  induction xs generalizing e with
  | nil => simp
  | cons x xs ih =>
    cases e with
    | zero => simp
    | succ e =>
      rw [List.flatMap_cons, Nat.succ_mul, Nat.add_comm, List.drop_append, hf,
        Nat.add_sub_cancel_left, List.drop_eq_nil_of_le (by rw [hf]; omega), List.nil_append, ih,
        List.drop_succ_cons]

theorem getD_flatMap_const {f : ℕ → List Byte} {width : ℕ} (hf : ∀ a, (f a).length = width)
    (xs : List ℕ) {e x : ℕ} (he : e < xs.length) (hx : x < width) :
    (xs.flatMap f).getD (e * width + x) 0#8 = (f xs[e]).getD x 0#8 := by
  rw [List.getD_eq_getElem?_getD, ← List.getElem?_drop, drop_flatMap_const hf,
    List.drop_eq_getElem_cons he, List.flatMap_cons, List.getElem?_append_left (by rwa [hf]),
    ← List.getD_eq_getElem?_getD]

theorem getLsbD_elemBytes {bitLen bytePad a x t : ℕ} (hx : x < outWidth bitLen bytePad)
    (ht : t < 8) : ((elemBytes bitLen bytePad a).getD x 0#8).getLsbD t =
      (decide (bytePad ≤ x) && a.testBit (8 * (outWidth bitLen bytePad - x - 1) + t)) := by
  rw [elemBytes]
  by_cases hp : bytePad ≤ x
  · rw [List.getD_append_right _ _ _ _ (by simpa using hp), List.length_replicate,
      List.getD_eq_getElem _ _ (by simp only [List.length_map, List.length_range]; unfold outWidth at hx; omega),
      List.getElem_map, List.getElem_range, BitVec.getLsbD_ofNat, Nat.testBit_shiftRight,
      decide_eq_true ht, decide_eq_true hp]
    congr 2
    unfold outWidth
    omega
  · rw [List.getD_append _ _ _ _ (by simpa using hp), List.getD_replicate _ (by omega)]
    simp [hp]

theorem padded_elemArray {bitLen bytePad : ℕ} {xs : List ℕ} (h : ∀ a ∈ xs, a < 2 ^ bitLen) :
    Padded bitLen bytePad xs.length (elemArray bitLen bytePad xs) := by
  intro e he x hx t ht hpos
  have hlt := h _ (List.getElem_mem he)
  rw [elemArray, getD_flatMap_const (length_elemBytes bitLen bytePad) xs he hx,
    getLsbD_elemBytes hx ht,
    Nat.testBit_lt_two_pow (hlt.trans_le (Nat.pow_le_pow_right (by decide) hpos)), Bool.and_false]

section RoundTrip
variable {bitLen bytePad : ℕ}

theorem expandArray_compressArray (h8 : 8 ≤ bitLen) (h25 : bitLen ≤ 25) {xs : List ℕ}
    (hxs : ∀ a ∈ xs, a < 2 ^ bitLen) (hdvd : 8 ∣ xs.length * bitLen) {out out' : List Byte}
    (hout : out.length = xs.length * bitLen / 8)
    (hout' : out'.length = xs.length * outWidth bitLen bytePad) :
    expandArray (compressArray (elemArray bitLen bytePad xs) out bitLen bytePad) out' bitLen bytePad =
      elemArray bitLen bytePad xs := by
  have hbytes : 8 * out.length = xs.length * bitLen := by rw [hout, Nat.mul_div_cancel' hdvd]
  have hcount : 8 * (compressArray (elemArray bitLen bytePad xs) out bitLen bytePad).length / bitLen =
      xs.length := by
    rw [length_compressArray h8 h25, hbytes, Nat.mul_div_cancel _ (by omega)]
  refine eq_of_cellBit h8 ?_ (length_elemArray ..)
    (padded_expandArray h8 h25 _ _ hcount.ge hout'.ge) (padded_elemArray hxs) fun n hn => ?_
  · rw [length_expandArray h8 h25, hout']
  · rw [cellBit_expandArray h8 h25 _ _ hcount.ge hout'.ge hn,
      streamBit_compressArray h8 h25 _ _ (by omega)]

theorem compressArray_expandArray (h8 : 8 ≤ bitLen) (h25 : bitLen ≤ 25) {n : ℕ}
    (hdvd : 8 ∣ n * bitLen) {inp out out' : List Byte} (hinp : inp.length = n * bitLen / 8)
    (hout : out.length = n * outWidth bitLen bytePad) (hout' : out'.length = inp.length) :
    compressArray (expandArray inp out bitLen bytePad) out' bitLen bytePad = inp := by
  have hbytes : 8 * inp.length = n * bitLen := by rw [hinp, Nat.mul_div_cancel' hdvd]
  have hcount : 8 * inp.length / bitLen = n := by rw [hbytes, Nat.mul_div_cancel _ (by omega)]
  refine eq_of_streamBit ((length_compressArray h8 h25 _ _).trans hout') fun m hm => ?_
  rw [length_compressArray h8 h25, hout'] at hm
  rw [streamBit_compressArray h8 h25 _ _ (by omega),
    cellBit_expandArray h8 h25 _ _ hcount.ge hout.ge (by omega)]

end RoundTrip

section Indices

theorem beNat_take_four (array : List Byte) {t : ℕ} (hlen : 4 ≤ array.length) (ht : t < 32) :
    (arrayToEhIndex array).testBit t = (array.getD (3 - t / 8) 0#8).getLsbD (t % 8) := by
  have h4 : (array.take 4).length = 4 := by simp [hlen]
  rw [arrayToEhIndex, testBit_beNat (by decide), h4, decide_eq_true (by omega), Bool.true_and,
    show 4 * 8 - 1 - t = (3 - t / 8) * 8 + (8 - 1 - t % 8) by omega,
    streamBit_at _ (Nat.mod_lt _ (by decide)), List.getD_eq_getElem?_getD,
    List.getElem?_take_of_lt (by omega), List.getD_eq_getElem?_getD]
  rfl

theorem arrayToEhIndex_lt (array : List Byte) : arrayToEhIndex array < 2 ^ 32 := by
  refine Nat.lt_pow_two_of_testBit _ fun t ht => ?_
  have : (array.take 4).length ≤ 4 := by simp
  rw [arrayToEhIndex, testBit_beNat (by decide), decide_eq_false (by omega), Bool.false_and]

theorem arrayToEhIndex_append {i : ℕ} (hi : i < 2 ^ 32) (rest : List Byte) :
    arrayToEhIndex (ehIndexToArray i ++ rest) = i := by
  refine Nat.eq_of_testBit_eq fun t => ?_
  by_cases ht : t < 32
  · rw [beNat_take_four _ (by simp [ehIndexToArray]) ht]
    have hbyte (q : ℕ) : (BitVec.ofNat 8 (i >>> q)).getLsbD (t % 8) = i.testBit (q + t % 8) := by
      rw [BitVec.getLsbD_ofNat, Nat.testBit_shiftRight, decide_eq_true (Nat.mod_lt _ (by decide)),
        Bool.true_and]
    have hcase : t / 8 = 0 ∨ t / 8 = 1 ∨ t / 8 = 2 ∨ t / 8 = 3 := by omega
    rcases hcase with h | h | h | h <;>
      simp only [h, ehIndexToArray, List.cons_append, List.nil_append]
    · exact (hbyte 0).trans (congrArg i.testBit (by omega))
    · exact (hbyte 8).trans (congrArg i.testBit (by omega))
    · exact (hbyte 16).trans (congrArg i.testBit (by omega))
    · exact (hbyte 24).trans (congrArg i.testBit (by omega))
  · rw [Nat.testBit_lt_two_pow ((arrayToEhIndex_lt _).trans_le (Nat.pow_le_pow_right (by decide) (by omega))),
      Nat.testBit_lt_two_pow (hi.trans_le (Nat.pow_le_pow_right (by decide) (by omega)))]

theorem ehIndexToArray_arrayToEhIndex {array : List Byte} (h : array.length = 4) :
    ehIndexToArray (arrayToEhIndex array) = array := by
  have hbit : ∀ q < 4, BitVec.ofNat 8 (arrayToEhIndex array >>> (8 * q)) = array.getD (3 - q) 0#8 := by
    intro q hq
    refine BitVec.eq_of_getLsbD_eq fun s hs => ?_
    rw [BitVec.getLsbD_ofNat, Nat.testBit_shiftRight, decide_eq_true hs, Bool.true_and,
      beNat_take_four array h.ge (by omega), show (8 * q + s) / 8 = q by omega,
      show (8 * q + s) % 8 = s by omega]
  match array, h with
  | [a, b, c, d], _ =>
    exact congrArg₂ _ (hbit 3 (by decide)) (congrArg₂ _ (hbit 2 (by decide))
      (congrArg₂ _ (hbit 1 (by decide)) (congrArg (fun x => [x]) (hbit 0 (by decide)))))

theorem ehIndexToArray_eq {i : ℕ} (hi : i < 2 ^ 24) : ehIndexToArray i = elemBytes 22 1 i := by
  have : i >>> 24 = 0 := by rw [Nat.shiftRight_eq_div_pow, Nat.div_eq_of_lt hi]
  simp [ehIndexToArray, elemBytes, this, List.range_succ]

theorem flatMap_take_four (array : List Byte) (n : ℕ) :
    ((List.range n).flatMap fun i => (array.drop (i * 4)).take 4) = array.take (n * 4) := by
  induction n with
  | zero => simp
  | succ n ih => rw [List.range_succ, List.flatMap_append, ih, List.flatMap_singleton, Nat.succ_mul,
      List.take_add]

/-- The unpacked array of a full solution, before it is read index by index. -/
def minimalArray (minimal : List Byte) : List Byte := expandArray minimal (List.replicate 2048 0) 22 1

theorem length_minimalArray (minimal : List Byte) : (minimalArray minimal).length = 2048 := by
  rw [minimalArray, length_expandArray (by decide) (by decide), List.length_replicate]

theorem getIndicesFromMinimal_eq {minimal : List Byte} (h : minimal.length = 1408) :
    getIndicesFromMinimal minimal 21 =
      (List.range 512).map fun i => arrayToEhIndex ((minimalArray minimal).drop (i * 4)) := by
  rw [getIndicesFromMinimal, h, List.range_eq_range']
  simp only [Nat.reduceMul, Nat.reduceAdd, Nat.reduceDiv, Nat.reduceSub, minimalArray,
    Nat.mul_comm 4]

theorem length_getIndicesFromMinimal {minimal : List Byte} (h : minimal.length = 1408) :
    (getIndicesFromMinimal minimal 21).length = 512 := by
  rw [getIndicesFromMinimal_eq h, List.length_map, List.length_range]

/-- Index `i` holds the 22 bits from bit `22 * i` of the solution on. -/
theorem testBit_getIndicesFromMinimal {minimal : List Byte} (h : minimal.length = 1408) {i : ℕ}
    (hi : i < 512) (t : ℕ) :
    ((getIndicesFromMinimal minimal 21).getD i 0).testBit t =
      (decide (t < 22) && streamBit 8 minimal (i * 22 + (21 - t))) := by
  have harr := length_minimalArray minimal
  rw [getIndicesFromMinimal_eq h, List.getD_eq_getElem _ _ (by simpa using hi), List.getElem_map,
    List.getElem_range]
  by_cases ht : t < 32
  · have hlen : 4 ≤ ((minimalArray minimal).drop (i * 4)).length := by
      rw [List.length_drop, harr]; omega
    rw [beNat_take_four _ hlen ht, List.getD_eq_getElem?_getD, List.getElem?_drop,
      ← List.getD_eq_getElem?_getD, minimalArray]
    refine (getLsbD_expandArray (show 8 ≤ 22 by decide) (by decide) _ _
      (by rw [h]; omega) (show 3 - t / 8 < outWidth 22 1 by rw [outWidth]; omega)
      (by rw [List.length_replicate, outWidth]; omega) (Nat.mod_lt _ (by decide))).trans ?_
    rw [show 8 * (outWidth 22 1 - (3 - t / 8) - 1) + t % 8 = t by rw [outWidth]; omega]
  · rw [decide_eq_false (by omega), Bool.false_and]
    exact Nat.testBit_lt_two_pow ((arrayToEhIndex_lt _).trans_le (Nat.pow_le_pow_right (by decide) (by omega)))

theorem getIndicesFromMinimal_lt {minimal : List Byte} (h : minimal.length = 1408) :
    ∀ a ∈ getIndicesFromMinimal minimal 21, a < 2 ^ 22 := by
  intro a ha
  obtain ⟨i, hi, rfl⟩ := List.mem_iff_getElem.mp ha
  have hi' := hi
  rw [length_getIndicesFromMinimal h] at hi'
  refine Nat.lt_pow_two_of_testBit _ fun t ht => ?_
  rw [← List.getD_eq_getElem _ 0 hi, testBit_getIndicesFromMinimal h hi',
    decide_eq_false (by omega), Bool.false_and]

theorem flatMap_getIndicesFromMinimal {minimal : List Byte} (h : minimal.length = 1408) :
    (getIndicesFromMinimal minimal 21).flatMap ehIndexToArray = minimalArray minimal := by
  have harr := length_minimalArray minimal
  rw [getIndicesFromMinimal_eq h, List.flatMap_map]
  have hcell : ∀ i ∈ List.range 512, ehIndexToArray (arrayToEhIndex ((minimalArray minimal).drop (i * 4))) =
      ((minimalArray minimal).drop (i * 4)).take 4 := by
    intro i hi
    rw [List.mem_range] at hi
    have hself : arrayToEhIndex ((minimalArray minimal).drop (i * 4)) =
        arrayToEhIndex (((minimalArray minimal).drop (i * 4)).take 4) := by
      rw [arrayToEhIndex, arrayToEhIndex, List.take_take, Nat.min_self]
    rw [hself,
      ehIndexToArray_arrayToEhIndex (by rw [List.length_take, List.length_drop, harr]; omega)]
  rw [List.flatMap_congr hcell, flatMap_take_four, List.take_of_length_le (by rw [harr])]

theorem flatMap_ehIndexToArray {indices : List ℕ} (h : ∀ a ∈ indices, a < 2 ^ 22) :
    indices.flatMap ehIndexToArray = elemArray 22 1 indices :=
  List.flatMap_congr fun a ha => ehIndexToArray_eq ((h a ha).trans (by decide))

theorem getMinimalFromIndices_eq {indices : List ℕ} (hlen : indices.length = 512) :
    getMinimalFromIndices indices 21 =
      compressArray (indices.flatMap ehIndexToArray) (List.replicate 1408 0) 22 1 := by
  simp only [getMinimalFromIndices, hlen, Nat.reduceMul, Nat.reduceAdd, Nat.reduceDiv,
    Nat.reduceSub]

theorem length_getMinimalFromIndices {indices : List ℕ} (hlen : indices.length = 512) :
    (getMinimalFromIndices indices 21).length = 1408 := by
  rw [getMinimalFromIndices_eq hlen, length_compressArray (by decide) (by decide),
    List.length_replicate]

theorem getIndicesFromMinimal_getMinimalFromIndices {indices : List ℕ} (hlen : indices.length = 512)
    (hlt : ∀ a ∈ indices, a < 2 ^ 22) :
    getIndicesFromMinimal (getMinimalFromIndices indices 21) 21 = indices := by
  have hexp : minimalArray (getMinimalFromIndices indices 21) = indices.flatMap ehIndexToArray := by
    rw [minimalArray, getMinimalFromIndices_eq hlen, flatMap_ehIndexToArray hlt]
    refine expandArray_compressArray (by decide) (by decide) hlt (by rw [hlen]; decide) ?_ ?_
    · rw [List.length_replicate, hlen]
    · rw [List.length_replicate, hlen, outWidth]
  have h4 : ∀ a, (ehIndexToArray a).length = 4 := fun _ => rfl
  rw [getIndicesFromMinimal_eq (length_getMinimalFromIndices hlen), hexp]
  refine List.ext_getElem (by simp [hlen]) fun i hi hi' => ?_
  rw [List.getElem_map, List.getElem_range, drop_flatMap_const h4, List.drop_eq_getElem_cons hi',
    List.flatMap_cons, arrayToEhIndex_append ((hlt _ (List.getElem_mem hi')).trans (by decide))]

theorem getMinimalFromIndices_getIndicesFromMinimal {minimal : List Byte}
    (h : minimal.length = 1408) :
    getMinimalFromIndices (getIndicesFromMinimal minimal 21) 21 = minimal := by
  rw [getMinimalFromIndices_eq (length_getIndicesFromMinimal h), flatMap_getIndicesFromMinimal h,
    minimalArray]
  exact compressArray_expandArray (n := 512) (by decide) (by decide) (by decide) h
    (by rw [List.length_replicate, outWidth]) (by rw [List.length_replicate, h])

theorem miner_compressArray_eq {bitLen bytePad : ℕ} (h8 : 8 ≤ bitLen) (h25 : bitLen ≤ 25) {n : ℕ}
    {inp out : List Byte} (hinp : inp.length = n * outWidth bitLen bytePad)
    (hout : out.length = n * bitLen / 8) :
    Miner.compressArray inp out bitLen bytePad = some (compressArray inp out bitLen bytePad) := by
  -- The assertions of the miner's copy hold for whole arrays of elements
  have hassert : out.length = bitLen * inp.length / (8 * outWidth bitLen bytePad) := by
    rw [hinp, hout, ← Nat.mul_assoc, Nat.mul_div_mul_right _ _ (outWidth_pos bytePad h8),
      Nat.mul_comm]
  rw [Miner.compressArray, if_pos ⟨h8, by omega, hassert⟩]

theorem miner_getMinimalFromIndices_eq {indices : List ℕ} (hlen : indices.length = 512) :
    Miner.getMinimalFromIndices indices 21 = some (getMinimalFromIndices indices 21) := by
  have h4 : ∀ a, (ehIndexToArray a).length = 4 := fun _ => rfl
  rw [Miner.getMinimalFromIndices, if_pos (by decide), getMinimalFromIndices]
  exact miner_compressArray_eq (n := 512) (by decide) (by decide)
    (by rw [length_flatMap_const h4, hlen]; rfl) (by rw [List.length_replicate, hlen])

end Indices

/-- Both directions for every element width the accumulator can carry, and the bijection
between index lists and packed solutions that verifier and miner make of it. -/
theorem packing_round_trip :
    (∀ bitLen bytePad : ℕ, 8 ≤ bitLen → bitLen ≤ 25 →
      (∀ (xs : List ℕ) (out out' : List Byte), (∀ a ∈ xs, a < 2 ^ bitLen) → 8 ∣ xs.length * bitLen →
        out.length = xs.length * bitLen / 8 → out'.length = xs.length * outWidth bitLen bytePad →
          Miner.compressArray (elemArray bitLen bytePad xs) out bitLen bytePad =
            some (compressArray (elemArray bitLen bytePad xs) out bitLen bytePad) ∧
          expandArray (compressArray (elemArray bitLen bytePad xs) out bitLen bytePad) out' bitLen bytePad =
            elemArray bitLen bytePad xs) ∧
      (∀ (n : ℕ) (inp out out' : List Byte), 8 ∣ n * bitLen → inp.length = n * bitLen / 8 →
        out.length = n * outWidth bitLen bytePad → out'.length = inp.length →
          Miner.compressArray (expandArray inp out bitLen bytePad) out' bitLen bytePad =
            some (compressArray (expandArray inp out bitLen bytePad) out' bitLen bytePad) ∧
          compressArray (expandArray inp out bitLen bytePad) out' bitLen bytePad = inp)) ∧
    (∀ indices : List ℕ, indices.length = 512 → (∀ a ∈ indices, a < 2 ^ 22) →
      ∃ minimal, Miner.getMinimalFromIndices indices 21 = some minimal ∧ minimal.length = 1408 ∧
        getIndicesFromMinimal minimal 21 = indices) ∧
    (∀ minimal : List Byte, minimal.length = 1408 →
      (getIndicesFromMinimal minimal 21).length = 512 ∧
      (∀ a ∈ getIndicesFromMinimal minimal 21, a < 2 ^ 22) ∧
        Miner.getMinimalFromIndices (getIndicesFromMinimal minimal 21) 21 = some minimal) := by
  refine ⟨fun bitLen bytePad h8 h25 => ⟨?_, ?_⟩, ?_, ?_⟩
  · intro xs out out' hxs hdvd hout hout'
    exact ⟨miner_compressArray_eq h8 h25 (length_elemArray ..) hout,
      expandArray_compressArray h8 h25 hxs hdvd hout hout'⟩
  · intro n inp out out' hdvd hinp hout hout'
    refine ⟨miner_compressArray_eq h8 h25 ?_ (hout'.trans hinp),
      compressArray_expandArray h8 h25 hdvd hinp hout hout'⟩
    rw [length_expandArray h8 h25, hout]
  · intro indices hlen hlt
    exact ⟨_, miner_getMinimalFromIndices_eq hlen, length_getMinimalFromIndices hlen,
      getIndicesFromMinimal_getMinimalFromIndices hlen hlt⟩
  · intro minimal h
    refine ⟨length_getIndicesFromMinimal h, getIndicesFromMinimal_lt h, ?_⟩
    rw [miner_getMinimalFromIndices_eq (length_getIndicesFromMinimal h),
      getMinimalFromIndices_getIndicesFromMinimal h]

theorem packing_round_trip_twelve_bits :
    expandArray (compressArray (elemArray 12 1 [0xabc, 0x123]) [0, 0, 0] 12 1) [0, 0, 0, 0, 0, 0] 12 1 =
        elemArray 12 1 [0xabc, 0x123] ∧
      compressArray (expandArray [0xab, 0xc1, 0x23] [0, 0, 0, 0, 0, 0] 12 1) [0, 0, 0] 12 1 =
        [0xab, 0xc1, 0x23] ∧
      (∃ minimal, Miner.getMinimalFromIndices (List.replicate 512 7) 21 = some minimal ∧
        minimal.length = 1408 ∧ getIndicesFromMinimal minimal 21 = List.replicate 512 7) ∧
      Miner.getMinimalFromIndices (getIndicesFromMinimal (List.replicate 1408 0xff) 21) 21 =
        some (List.replicate 1408 0xff) :=
  ⟨((packing_round_trip.1 12 1 (by decide) (by decide)).1 [0xabc, 0x123] _ _ (by decide) (by decide)
      rfl rfl).2,
    ((packing_round_trip.1 12 1 (by decide) (by decide)).2 2 [0xab, 0xc1, 0x23] _ _ (by decide) rfl
      rfl rfl).2,
    packing_round_trip.2.1 (List.replicate 512 7) (List.length_replicate ..)
      (fun a ha => (List.eq_of_mem_replicate ha).trans_lt (by decide)),
    (packing_round_trip.2.2 (List.replicate 1408 0xff) (List.length_replicate ..)).2.2⟩

end Aion.Equihash
