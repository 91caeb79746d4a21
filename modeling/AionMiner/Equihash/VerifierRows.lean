import AionMiner.Equihash.Verifier
import AionMiner.Equihash.PackingRoundTrip
import AionMiner.Wagner.Blocks

/-! The rows of the verifier against the blocks of indices they stand for: what
one merge tests, what it produces, and from it what the whole loop decides. -/

namespace Aion.Equihash
open Bits Wagner

/-- Two hashes agree on digit `j`, the 21 bits from bit `21 * j` on. -/
def DigitEq (j : ℕ) (a b : Hash) : Prop := ∀ n < 21, a.bit (21 * j + n) = b.bit (21 * j + n)

/-- What two sibling blocks of length `2 ^ j` must satisfy. -/
structure PairOk (H : Blake2b) (base : Blake2bState) (j : ℕ) (l r : List ℕ) : Prop where
  digit : DigitEq j (xorHash H base l) (xorHash H base r)
  before : l.headD 0 < r.headD 0
  disjoint : l.Disjoint r

section Memcmp

theorem compare_div_mod (x y : ℕ) :
    (compare (x / 256) (y / 256)).then (compare (x % 256) (y % 256)) = compare x y := by
  rcases Nat.lt_trichotomy (x / 256) (y / 256) with h | h | h
  · rw [Nat.compare_eq_lt.mpr h, Nat.compare_eq_lt.mpr (show x < y by omega)]
    rfl
  · rw [Nat.compare_eq_eq.mpr h]
    change compare (x % 256) (y % 256) = compare x y
    rcases Nat.lt_trichotomy x y with hc | rfl | hc
    · rw [Nat.compare_eq_lt.mpr hc, Nat.compare_eq_lt.mpr (show x % 256 < y % 256 by omega)]
    · rw [Nat.compare_eq_eq.mpr rfl, Nat.compare_eq_eq.mpr rfl]
    · rw [Nat.compare_eq_gt.mpr hc, Nat.compare_eq_gt.mpr (show y % 256 < x % 256 by omega)]
  · rw [Nat.compare_eq_gt.mpr h, Nat.compare_eq_gt.mpr (show y < x by omega)]
    rfl

theorem memcmp_ehIndexToArray {x y : ℕ} (hx : x < 2 ^ 32) (hy : y < 2 ^ 32) (r r' : List Byte) :
    memcmp (ehIndexToArray x ++ r) (ehIndexToArray y ++ r') = (compare x y).then (memcmp r r') := by
  have hbyte : ∀ a q : ℕ, (BitVec.ofNat 8 (a >>> q)).toNat = a / 2 ^ q % 256 := fun a q => by
    rw [BitVec.toNat_ofNat, Nat.shiftRight_eq_div_pow]
  have h24 := compare_div_mod (x / 2 ^ 16) (y / 2 ^ 16)
  have h16 := compare_div_mod (x / 2 ^ 8) (y / 2 ^ 8)
  have h8 := compare_div_mod x y
  rw [Nat.div_div_eq_div_mul, Nat.div_div_eq_div_mul, show 2 ^ 16 * 256 = 2 ^ 24 from rfl] at h24
  rw [Nat.div_div_eq_div_mul, Nat.div_div_eq_div_mul, show 2 ^ 8 * 256 = 2 ^ 16 from rfl] at h16
  rw [show 256 = 2 ^ 8 from rfl] at h8
  simp only [ehIndexToArray, List.cons_append, List.nil_append, memcmp, hbyte, BitVec.toNat_ofNat]
  rw [Nat.mod_eq_of_lt (show x / 2 ^ 24 < 256 by omega),
    Nat.mod_eq_of_lt (show y / 2 ^ 24 < 256 by omega), ← Ordering.then_assoc, h24,
    ← Ordering.then_assoc, h16, ← Ordering.then_assoc, h8]

end Memcmp

section Rows
variable {H : Blake2b} {base : Blake2bState}

/-- Bit `t` of byte `p` of the digits of a hash from digit `j` on, three bytes to a digit. -/
def digitBit (h : Hash) (j p t : ℕ) : Bool :=
  decide (8 * (2 - p % 3) + t < 21) && h.bit (21 * (j + p / 3) + (20 - (8 * (2 - p % 3) + t)))

theorem digitBit_add (a b : Hash) (j p t : ℕ) :
    digitBit (a + b) j p t = (digitBit a j p t ^^ digitBit b j p t) := by
  rw [digitBit, digitBit, digitBit, Hash.bit_add]
  cases decide (8 * (2 - p % 3) + t < 21) <;> simp

theorem digitBit_shift (h : Hash) (j p t : ℕ) :
    digitBit h j (p + 3) t = digitBit h (j + 1) p t := by
  rw [digitBit, digitBit, show (p + 3) % 3 = p % 3 by omega, show j + (p + 3) / 3 = j + 1 + p / 3 by omega]

theorem digitEq_iff_digitBit {j : ℕ} {a b : Hash} :
    DigitEq j a b ↔ ∀ p < 3, ∀ t < 8, digitBit a j p t = digitBit b j p t := by
  constructor
  · intro h p hp t ht
    by_cases hs : 8 * (2 - p % 3) + t < 21
    · have := h (20 - (8 * (2 - p % 3) + t)) (by omega)
      rwa [digitBit, digitBit, decide_eq_true hs, show j + p / 3 = j by omega, Bool.true_and, Bool.true_and]
    · rw [digitBit, digitBit, decide_eq_false hs, Bool.false_and, Bool.false_and]
  · intro h n hn
    have := h (2 - (20 - n) / 8) (by omega) ((20 - n) % 8) (by omega)
    rwa [digitBit, digitBit, show (2 - (20 - n) / 8) % 3 = 2 - (20 - n) / 8 by omega,
      show 8 * (2 - (2 - (20 - n) / 8)) + (20 - n) % 8 = 20 - n by omega,
      show j + (2 - (20 - n) / 8) / 3 = j by omega, decide_eq_true (by omega), Bool.true_and, Bool.true_and,
      show 20 - (20 - n) = n by omega] at this

/-- The row of a block of `2 ^ j` indices: digits `j ..` of its xor, then the indices. -/
structure RowOf (H : Blake2b) (base : Blake2bState) (j : ℕ) (v : List ℕ) (row : StepRow) : Prop where
  length : row.length = finalFullWidth
  size : v.length = 2 ^ j
  range : ∀ a ∈ v, a < 2 ^ 32
  digits : ∀ p < 30 - 3 * j, ∀ t < 8, (row.getD p 0#8).getLsbD t = digitBit (xorHash H base v) j p t
  indices : ∀ x < 4 * 2 ^ j, row.getD (30 - 3 * j + x) 0#8 = (v.flatMap ehIndexToArray).getD x 0#8

theorem length_flatMap_ehIndexToArray (v : List ℕ) :
    (v.flatMap ehIndexToArray).length = v.length * 4 :=
  length_flatMap_const (f := ehIndexToArray) (fun _ => rfl) v

theorem streamBit_leaf (i : ℕ) {n : ℕ} (hn : n < 216) :
    streamBit 8 (((generateHash H base (i / indicesPerHashOutput)).drop
      (i % indicesPerHashOutput * hashLen)).take hashLen) n = (leafHash H base i).bit n := by
  have hk : n / 8 < hashLen := by simp only [hashLen]; omega
  have hi : i % indicesPerHashOutput * hashLen + n / 8 < hashOutput := by
    simp only [indicesPerHashOutput, hashLen, hashOutput] at *
    omega
  rw [streamBit, Hash.bit, leafHash, if_pos hk, List.getD_eq_getElem?_getD,
    List.getElem?_take_of_lt hk, List.getElem?_drop, ← List.getD_eq_getElem?_getD, generateHash,
    List.getD_eq_getElem _ _ (by simpa using hi), List.getElem_map, List.getElem_range]

theorem rowOf_leafRow {i : ℕ} (hi : i < 2 ^ 32) : RowOf H base 0 [i] (leafRow H base i) := by
  set hashIn := ((generateHash H base (i / indicesPerHashOutput)).drop
    (i % indicesPerHashOutput * hashLen)).take hashLen with hhashIn
  have hlen : hashIn.length = 27 := by
    simp only [hhashIn, generateHash, List.length_take, List.length_drop, List.length_map,
      List.length_range, indicesPerHashOutput, hashLen, hashOutput]
    omega
  have hwidth : (expandArray hashIn (List.replicate finalFullWidth 0) 21 0).length = 2054 := by
    rw [length_expandArray (by decide) (by decide), List.length_replicate]
    rfl
  refine ⟨?_, rfl, by simpa using hi, fun p hp t ht => ?_, fun x hx => ?_⟩
  · exact (length_writeLoop ..).trans hwidth
  · refine (congrArg (BitVec.getLsbD · t) (getD_writeLoop_of_lt _ _ _ _ _ _ (i := p) ?_)).trans ?_
    · simpa only [Nat.mul_zero, Nat.sub_zero, Nat.add_zero, show hashLength = 30 from rfl] using hp
    have hcell := getLsbD_expandArray (show 8 ≤ 21 by decide) (by decide) hashIn
      (List.replicate finalFullWidth 0) (e := p / 3) (x := p % 3) (t := t)
      (by rw [hlen]; omega) (show p % 3 < outWidth 21 0 by simp only [outWidth]; omega)
      (by simp only [outWidth, List.length_replicate, finalFullWidth, collisionByteLength,
            collisionBitLength, paramN, paramK]; omega) ht
    have hp3 : p / 3 * outWidth 21 0 + p % 3 = p := by simp only [outWidth]; omega
    rw [hp3] at hcell
    refine hcell.trans ?_
    have hw : outWidth 21 0 - p % 3 - 1 = 2 - p % 3 := by simp only [outWidth]; omega
    rw [digitBit, hw, Nat.zero_add, Nat.mul_comm 21, show 21 - 1 = 20 from rfl, xorHash,
      List.map_singleton, List.sum_singleton]
    by_cases hs : 8 * (2 - p % 3) + t < 21
    · rw [streamBit_leaf i (by omega)]
    · rw [decide_eq_false hs, Bool.false_and, Bool.false_and]
  · have hx4 : x < 4 := by simpa using hx
    refine (getD_writeLoop _ _ _ _ _ _ (x := x) (Nat.zero_le _) (by omega) ?_).trans (by simp)
    rw [show (expandArray hashIn (List.replicate finalFullWidth 0) collisionBitLength 0).length = 2054 from
      hwidth]
    simp only [hashLength, collisionByteLength, collisionBitLength, paramN, paramK]
    omega

variable {j : ℕ} {l r : List ℕ} {a b : StepRow}

theorem RowOf.slice_indices (h : RowOf H base j l a) :
    a.slice (30 - 3 * j) (4 * 2 ^ j) = l.flatMap ehIndexToArray := by
  have hlen : (l.flatMap ehIndexToArray).length = 4 * 2 ^ j := by
    rw [length_flatMap_ehIndexToArray, h.size, Nat.mul_comm]
  refine List.ext_getElem (by simp [StepRow.slice, hlen]) fun x hx hx' => ?_
  rw [← List.getD_eq_getElem _ 0#8 hx', ← h.indices x (by omega)]
  simp [StepRow.slice]

theorem RowOf.slice_index (h : RowOf H base j l a) {i : ℕ} (hi : i < 2 ^ j) :
    a.slice (30 - 3 * j + 4 * i) 4 = ehIndexToArray (l.getD i 0) := by
  have hil : i < l.length := by rw [h.size]; exact hi
  refine List.ext_getElem (by simp [StepRow.slice, ehIndexToArray]) fun x hx hx' => ?_
  have hx4 : x < 4 := hx'
  have hflat := getD_flatMap_const (show ∀ i, (ehIndexToArray i).length = 4 from fun _ => rfl) l hil hx4
  rw [← List.getD_eq_getElem _ 0#8 hx', List.getD_eq_getElem _ _ hil, ← hflat,
    ← h.indices _ (by omega)]
  simp [StepRow.slice, Nat.add_assoc, Nat.mul_comm]

theorem RowOf.hasCollision_iff (hj : j ≤ 9) (ha : RowOf H base j l a) (hb : RowOf H base j r b) :
    a.hasCollision b collisionByteLength = true ↔
      DigitEq j (xorHash H base l) (xorHash H base r) := by
  have h3 : collisionByteLength = 3 := rfl
  rw [digitEq_iff_digitBit, StepRow.hasCollision, List.all_eq_true, h3]
  simp only [List.mem_range, beq_iff_eq]
  refine forall₂_congr fun p hp =>
    ⟨fun heq t ht => ?_, fun hbits => BitVec.eq_of_getLsbD_eq fun t ht => ?_⟩
  · rw [← ha.digits p (by omega) t ht, heq, hb.digits p (by omega) t ht]
  · rw [ha.digits p (by omega) t ht, hbits t ht, hb.digits p (by omega) t ht]

theorem RowOf.distinctIndices_iff (ha : RowOf H base j l a) (hb : RowOf H base j r b) :
    a.distinctIndices b (30 - 3 * j) (4 * 2 ^ j) = true ↔ l.Disjoint r := by
  have hcmp : ∀ i < 2 ^ j, ∀ k < 2 ^ j,
      (memcmp (a.slice (30 - 3 * j + 4 * i) 4) (b.slice (30 - 3 * j + 4 * k) 4) != .eq) = true ↔
        l.getD i 0 ≠ r.getD k 0 := by
    intro i hi k hk
    have hil : i < l.length := by rw [ha.size]; exact hi
    have hkr : k < r.length := by rw [hb.size]; exact hk
    have hx : l.getD i 0 < 2 ^ 32 := by
      rw [List.getD_eq_getElem _ _ hil]; exact ha.range _ (List.getElem_mem hil)
    have hy : r.getD k 0 < 2 ^ 32 := by
      rw [List.getD_eq_getElem _ _ hkr]; exact hb.range _ (List.getElem_mem hkr)
    have h : memcmp (ehIndexToArray (l.getD i 0)) (ehIndexToArray (r.getD k 0)) =
        compare (l.getD i 0) (r.getD k 0) := by
      simpa only [List.append_nil, memcmp, Ordering.then_eq] using memcmp_ehIndexToArray hx hy [] []
    rw [ha.slice_index hi, hb.slice_index hk, h, bne_iff_ne, ne_eq, Nat.compare_eq_eq]
  rw [StepRow.distinctIndices, Nat.mul_div_cancel_left _ (by decide : 0 < 4), List.all_eq_true]
  simp only [List.all_eq_true, List.mem_range]
  constructor
  · intro h x hxl hxr
    obtain ⟨i, hi, rfl⟩ := List.mem_iff_getElem.mp hxl
    obtain ⟨k, hk, hik⟩ := List.mem_iff_getElem.mp hxr
    have hi' : i < 2 ^ j := by rwa [← ha.size]
    have hk' : k < 2 ^ j := by rwa [← hb.size]
    refine (hcmp i hi' k hk').mp (h i hi' k hk') ?_
    rw [List.getD_eq_getElem _ _ hi, List.getD_eq_getElem _ _ hk, hik]
  · intro h i hi k hk
    have hil : i < l.length := by rwa [ha.size]
    have hkr : k < r.length := by rwa [hb.size]
    refine (hcmp i hi k hk).mpr fun heq => ?_
    rw [List.getD_eq_getElem _ _ hil, List.getD_eq_getElem _ _ hkr] at heq
    exact h (List.getElem_mem hil) (heq ▸ List.getElem_mem hkr)

theorem RowOf.indicesBefore_eq (ha : RowOf H base j l a) (hb : RowOf H base j r b)
    (hd : l.Disjoint r) :
    a.indicesBefore b (30 - 3 * j) (4 * 2 ^ j) = decide (l.headD 0 < r.headD 0) := by
  -- Disjoint blocks differ in their first index, which then decides `memcmp`
  have hpos : 0 < 2 ^ j := Nat.two_pow_pos j
  obtain ⟨x, l', rfl⟩ := List.exists_cons_of_length_pos (l := l) (by rw [ha.size]; exact hpos)
  obtain ⟨y, r', rfl⟩ := List.exists_cons_of_length_pos (l := r) (by rw [hb.size]; exact hpos)
  have hxy : x ≠ y := fun h => hd List.mem_cons_self (h ▸ List.mem_cons_self)
  have hx := ha.range x List.mem_cons_self
  have hy := hb.range y List.mem_cons_self
  rw [StepRow.indicesBefore, ha.slice_indices, hb.slice_indices, List.flatMap_cons,
    List.flatMap_cons, memcmp_ehIndexToArray hx hy, List.headD_cons, List.headD_cons]
  rcases Nat.lt_or_gt_of_ne hxy with h | h
  · rw [Nat.compare_eq_lt.mpr h, decide_eq_true h]
    rfl
  · rw [Nat.compare_eq_gt.mpr h, decide_eq_false (by omega)]
    rfl

theorem RowOf.mergeable_iff (hj : j ≤ 9) (ha : RowOf H base j l a) (hb : RowOf H base j r b) :
    a.mergeable b (30 - 3 * j) (4 * 2 ^ j) = true ↔ PairOk H base j l r := by
  rw [StepRow.mergeable, Bool.and_eq_true, Bool.and_eq_true, Bool.not_eq_true',
    ha.hasCollision_iff hj hb, ha.distinctIndices_iff hb]
  constructor
  · rintro ⟨⟨hdigit, hbefore⟩, hdisj⟩
    rw [hb.indicesBefore_eq ha (List.disjoint_comm.mp hdisj), decide_eq_false_iff_not] at hbefore
    have hne : l.headD 0 ≠ r.headD 0 := by
      have hpos : 0 < 2 ^ j := Nat.two_pow_pos j
      obtain ⟨x, l', rfl⟩ := List.exists_cons_of_length_pos (l := l) (by rw [ha.size]; exact hpos)
      obtain ⟨y, r', rfl⟩ := List.exists_cons_of_length_pos (l := r) (by rw [hb.size]; exact hpos)
      intro h
      rw [show x = y from h] at hdisj
      exact hdisj List.mem_cons_self List.mem_cons_self
    exact ⟨hdigit, by omega, hdisj⟩
  · rintro ⟨hdigit, hbefore, hdisj⟩
    refine ⟨⟨hdigit, ?_⟩, hdisj⟩
    rw [hb.indicesBefore_eq ha (List.disjoint_comm.mp hdisj), decide_eq_false (by omega)]

theorem RowOf.merge (hj : j < 9) (ha : RowOf H base j l a) (hb : RowOf H base j r b)
    (hok : PairOk H base j l r) :
    RowOf H base (j + 1) (l ++ r) (a.merge b (30 - 3 * j) (4 * 2 ^ j) collisionByteLength) := by
  have h3 : collisionByteLength = 3 := rfl
  have hbefore : a.indicesBefore b (30 - 3 * j) (4 * 2 ^ j) = true := by
    rw [ha.indicesBefore_eq hb hok.disjoint, decide_eq_true hok.before]
  have hpow : 2 ^ (j + 1) = 2 * 2 ^ j := by rw [Nat.pow_succ, Nat.mul_comm]
  have hlim : 2 ^ j ≤ 2 ^ 8 := Nat.pow_le_pow_right (by decide) (by omega)
  have hw : finalFullWidth = 2054 := rfl
  have hla := ha.length
  have hfl : (l.flatMap ehIndexToArray).length = 4 * 2 ^ j := by
    rw [length_flatMap_ehIndexToArray, ha.size, Nat.mul_comm]
  rw [StepRow.merge, if_pos hbefore, if_pos hbefore, h3]
  refine ⟨?_, ?_, ?_, fun p hp t ht => ?_, fun x hx => ?_⟩
  · simp [hla]
  · rw [List.length_append, ha.size, hb.size, hpow, Nat.two_mul]
  · intro i hi
    rcases List.mem_append.mp hi with hi | hi
    · exact ha.range i hi
    · exact hb.range i hi
  · rw [getD_writeLoop_of_lt _ _ _ _ _ _ (by omega), getD_writeLoop_of_lt _ _ _ _ _ _ (by omega)]
    have hx := getD_writeLoop 0 0 (30 - 3 * j - 3) (fun x => a.getD (x + 3) 0#8 ^^^ b.getD (x + 3) 0#8) a
      0#8 (x := p) (Nat.zero_le _) (by omega) (by omega)
    rw [Nat.zero_add] at hx
    rw [hx, BitVec.getLsbD_xor, ha.digits _ (by omega) t ht, hb.digits _ (by omega) t ht,
      digitBit_shift, digitBit_shift, xorHash_append, digitBit_add]
  · rw [show 30 - 3 * (j + 1) = 30 - 3 * j - 3 by omega, List.flatMap_append]
    rcases Nat.lt_or_ge x (4 * 2 ^ j) with hlt | hge
    · rw [getD_writeLoop_of_lt _ _ _ _ _ _ (by omega),
        getD_writeLoop _ _ _ _ _ _ (Nat.zero_le _) (by omega) (by simp [hla]; omega),
        ha.indices x hlt, List.getD_append _ _ _ _ (by omega)]
    · obtain ⟨y, rfl⟩ := Nat.exists_eq_add_of_le hge
      rw [hpow] at hx
      have hj8 : 2 ^ j ≤ 2 ^ 7 ∨ j = 8 := by
        rcases Nat.lt_or_ge j 8 with h | h
        · exact Or.inl (Nat.pow_le_pow_right (by decide) (by omega))
        · exact Or.inr (by omega)
      rw [← Nat.add_assoc,
        getD_writeLoop _ _ _ _ _ _ (Nat.zero_le _) (by omega) (by simp [hla]; omega),
        hb.indices y (by omega), List.getD_append_right _ _ _ _ (by omega), hfl,
        Nat.add_sub_cancel_left]

end Rows

section Levels
variable {H : Blake2b} {base : Blake2bState}

theorem mergePass_eq_some_iff (len lenIndices : ℕ) : ∀ {n : ℕ} {rows : List StepRow},
    rows.length = 2 * n → ∀ rows', mergePass len lenIndices rows = some rows' ↔ rows'.length = n ∧
      ∀ k < n, (rows.getD (2 * k) []).mergeable (rows.getD (2 * k + 1) []) len lenIndices = true ∧
        rows'.getD k [] =
          (rows.getD (2 * k) []).merge (rows.getD (2 * k + 1) []) len lenIndices collisionByteLength
  | 0, [], _, rows' => by
    rw [mergePass, Option.some_inj]
    constructor
    · rintro rfl
      exact ⟨rfl, fun k hk => absurd hk (Nat.not_lt_zero k)⟩
    · exact fun h => (List.eq_nil_of_length_eq_zero h.1).symm
  | n + 1, a :: b :: rest, hlen, rows' => by
    have ih := mergePass_eq_some_iff len lenIndices (n := n)
      (show rest.length = 2 * n by simp only [List.length_cons] at hlen; omega)
    rw [mergePass]
    constructor
    · intro h
      split at h
      · next hok =>
        obtain ⟨tail, htail, rfl⟩ := Option.map_eq_some_iff.mp h
        obtain ⟨htlen, hk⟩ := (ih tail).mp htail
        refine ⟨by rw [List.length_cons, htlen], fun k hkn => ?_⟩
        cases k with
        | zero => exact ⟨hok, rfl⟩
        | succ k => simpa only [Nat.mul_succ, List.getD_cons_succ] using hk k (by omega)
      · cases h
    · rintro ⟨hlen', hk⟩
      obtain ⟨c, tail, rfl⟩ := List.exists_cons_of_length_pos (l := rows') (by omega)
      have h0 := hk 0 (by omega)
      have htail : mergePass len lenIndices rest = some tail := (ih tail).mpr
        ⟨by simpa using hlen', fun k hkn => by
          simpa only [Nat.mul_succ, List.getD_cons_succ] using hk (k + 1) (by omega)⟩
      have hok : a.mergeable b len lenIndices = true := h0.1
      rw [if_pos hok, htail, Option.map_some, Option.some_inj]
      exact congrArg (· :: tail) h0.2.symm

/-- The rows of one level stand for the blocks of the whole index list. -/
def RowsOf (H : Blake2b) (base : Blake2bState) (v : List ℕ) (j : ℕ) (rows : List StepRow) : Prop :=
  rows.length = 2 ^ (9 - j) ∧ ∀ k < 2 ^ (9 - j), RowOf H base j (block v j k) (rows.getD k [])

theorem isZero_iff {v : List ℕ} {row : StepRow} (h : RowOf H base 9 v row) :
    row.isZero 3 = true ↔ DigitEq 9 (xorHash H base v) 0 := by
  rw [digitEq_iff_digitBit, StepRow.isZero, List.all_eq_true]
  simp only [List.mem_range, beq_iff_eq]
  have hzero : ∀ p t, digitBit 0 9 p t = false :=
    fun p t => by rw [digitBit, Hash.bit_zero, Bool.and_false]
  refine forall₂_congr fun p hp =>
    ⟨fun heq t ht => ?_, fun hbits => BitVec.eq_of_getLsbD_eq fun t ht => ?_⟩
  · rw [← h.digits p (by omega) t ht, heq, hzero, BitVec.getLsbD_zero]
  · rw [h.digits p (by omega) t ht, hbits t ht, hzero, BitVec.getLsbD_zero]

/-- From level `j` on the loop tests every remaining pair of blocks and then the last digit. -/
theorem mergeLevels_iff {v : List ℕ} : ∀ {m j : ℕ} {rows : List StepRow}, j + m = 9 →
    RowsOf H base v j rows →
      (mergeLevels (30 - 3 * j) (4 * 2 ^ j) rows = true ↔
        (∀ i, j ≤ i → i < 9 → ∀ k < 2 ^ (8 - i), PairOk H base i (block v i (2 * k)) (block v i (2 * k + 1))) ∧
          DigitEq 9 (xorHash H base (block v 9 0)) 0)
  | 0, j, rows, hjm, hrows => by
    obtain rfl : j = 9 := hjm
    have hlen : rows.length = 1 := hrows.1
    rw [mergeLevels, if_neg (by omega), ← isZero_iff (hrows.2 0 (by decide))]
    exact ⟨fun h => ⟨fun i hi hi' => absurd hi' (by omega), h⟩, And.right⟩
  | m + 1, j, rows, hjm, hrows => by
    obtain ⟨hlen, hrow⟩ := hrows
    have hpow : 2 ^ (9 - j) = 2 * 2 ^ (8 - j) := by
      rw [show 9 - j = 8 - j + 1 by omega, Nat.pow_succ, Nat.mul_comm]
    have hlen2 : rows.length = 2 * 2 ^ (8 - j) := hlen.trans hpow
    have hpos : 0 < 2 ^ (8 - j) := Nat.two_pow_pos _
    have hmerge : ∀ k < 2 ^ (8 - j), (rows.getD (2 * k) []).mergeable (rows.getD (2 * k + 1) [])
        (30 - 3 * j) (4 * 2 ^ j) = true ↔ PairOk H base j (block v j (2 * k)) (block v j (2 * k + 1)) :=
      fun k hk => (hrow _ (by omega)).mergeable_iff (by omega) (hrow _ (by omega))
    have hspec := mergePass_eq_some_iff (30 - 3 * j) (4 * 2 ^ j) hlen2
    have hnext : ∀ rows', mergePass (30 - 3 * j) (4 * 2 ^ j) rows = some rows' →
        RowsOf H base v (j + 1) rows' := by
      intro rows' h
      obtain ⟨hlen', hk⟩ := (hspec rows').mp h
      rw [RowsOf, show 9 - (j + 1) = 8 - j by omega]
      refine ⟨hlen', fun k hkn => ?_⟩
      rw [(hk k hkn).2, block_succ]
      exact (hrow _ (by omega)).merge (by omega) (hrow _ (by omega)) ((hmerge k hkn).mp (hk k hkn).1)
    have hstep : (30 - 3 * j - collisionByteLength, 4 * 2 ^ j * 2) =
        (30 - 3 * (j + 1), 4 * 2 ^ (j + 1)) := by
      rw [Nat.pow_succ, Nat.mul_assoc, show collisionByteLength = 3 from rfl]
      congr 1
    obtain ⟨hstep1, hstep2⟩ := Prod.mk.injEq .. ▸ hstep
    rw [mergeLevels, if_pos (by omega)]
    split
    · next hnone =>
      refine ⟨fun h => absurd h Bool.false_ne_true, fun h => ?_⟩
      have hall := h.1
      have hsome := (hspec ((List.range (2 ^ (8 - j))).map fun k => (rows.getD (2 * k) []).merge
        (rows.getD (2 * k + 1) []) (30 - 3 * j) (4 * 2 ^ j) collisionByteLength)).mpr
        ⟨by simp, fun k hk => ⟨(hmerge k hk).mpr (hall j le_rfl (by omega) k hk), by
          rw [List.getD_eq_getElem _ _ (by simpa using hk), List.getElem_map, List.getElem_range]⟩⟩
      rw [hnone] at hsome
      cases hsome
    · next rows' hsome =>
      have hpass := ((hspec rows').mp hsome).2
      rw [hstep1, hstep2, mergeLevels_iff (m := m) (by omega) (hnext rows' hsome)]
      refine and_congr_left fun _ => Iff.intro (fun hall i hji hi k hk => ?_)
        fun hall i hji hi => hall i (by omega) hi
      rcases Nat.eq_or_lt_of_le hji with rfl | hji
      · exact (hmerge k hk).mp (hpass k hk).1
      · exact hall i hji hi k hk

end Levels
end Aion.Equihash
