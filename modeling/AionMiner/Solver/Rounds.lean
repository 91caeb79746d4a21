import AionMiner.Solver.Collisions
import AionMiner.Solver.Digits

/-! What one round makes of the memory: the pairs it joins, the entry it writes
for each, and what that entry holds when the two below it hold their hashes. -/

namespace Aion.Solver
open Bits Equihash Wagner Store

section Words

theorem toNat_tree {b s0 s1 : ℕ} (hb : b < nbuckets) (h0 : s0 < nslotsMax) (h1 : s1 < nslotsMax) :
    (tree b s0 s1).toNat = (b * 2 ^ 9 + s0) * 2 ^ 9 + s1 := by
  have hb' : b < 2 ^ 14 := hb
  have h0' : s0 < 2 ^ 9 := h0
  have h1' : s1 < 2 ^ 9 := h1
  have hnat : ∀ n < 2 ^ 32, (BitVec.ofNat 32 n).toNat = n := fun n hn => Nat.mod_eq_of_lt hn
  have hinner : (BitVec.ofNat 32 b <<< slotBits ||| BitVec.ofNat 32 s0).toNat = b * 2 ^ 9 + s0 := by
    rw [slotBits, toNat_join (by rw [hnat b (by omega)]; omega) (by rw [hnat s0 (by omega)]; omega),
      hnat b (by omega), hnat s0 (by omega)]
  rw [tree, slotBits, toNat_join (by rw [slotBits] at hinner; rw [hinner]; omega)
    (by rw [hnat s1 (by omega)]; omega), hnat s1 (by omega)]
  rw [slotBits] at hinner
  rw [hinner]

def decode (t : Word) : ℕ × ℕ × ℕ := (bucketid t, slotid0 t, slotid1 t)

theorem decode_eq (t : Word) :
    decode t = (t.toNat / 2 ^ 18, t.toNat / 2 ^ 9 % 2 ^ 9, t.toNat % 2 ^ 9) := by
  rw [decode, bucketid, slotid0, slotid1, toNat_shiftRight, toNat_mask (p := 9) rfl,
    toNat_mask (p := 9) rfl, toNat_shiftRight]
  rfl

theorem decode_tree {b s0 s1 : ℕ} (hb : b < nbuckets) (h0 : s0 < nslotsMax) (h1 : s1 < nslotsMax) :
    decode (tree b s0 s1) = (b, s0, s1) := by
  have h0' : s0 < 512 := h0
  have h1' : s1 < 512 := h1
  rw [decode_eq, toNat_tree hb h0 h1]
  refine Prod.ext ?_ (Prod.ext ?_ ?_)
  · dsimp only; omega
  · dsimp only; omega
  · dsimp only; omega

theorem extract_wordOfBytes (f : ℕ → Byte) {i : ℕ} (hi : i < 4) :
    (wordOfBytes f).extractLsb' (8 * i) 8 = f i := by
  refine BitVec.eq_of_getLsbD_eq fun t ht => ?_
  rw [BitVec.getLsbD_extractLsb', decide_eq_true ht, Bool.true_and, wordOfBytes,
    BitVec.getLsbD_append, BitVec.getLsbD_append, BitVec.getLsbD_append]
  interval_cases i
  · rw [if_pos (by omega), Nat.mul_zero, Nat.zero_add]
  · rw [if_neg (by omega), if_pos (by omega), show 8 * 1 + t - 8 = t by omega]
  · rw [if_neg (by omega), if_neg (by omega), if_pos (by omega), show 8 * 2 + t - 8 - 8 = t by omega]
  · rw [if_neg (by omega), if_neg (by omega), if_neg (by omega), show 8 * 3 + t - 8 - 8 - 8 = t by omega]

theorem slotByte_memcpyBytes (dst len : ℕ) (src : ℕ → Byte) (slot : Slot) (k : ℕ) :
    slotByte (memcpyBytes dst len src slot) k =
      if dst ≤ k ∧ k < dst + len then src (k - dst) else slotByte slot k := by
  rw [slotByte, memcpyBytes, extract_wordOfBytes _ (Nat.mod_lt k (by decide)), Nat.div_add_mod]

theorem slotByte_xor (hash : Slot) {hash0 hash1 : Slot} {d w : ℕ}
    (h : hash w = hash0 (d + w) ^^^ hash1 (d + w)) {i : ℕ} (hi : i < 4) :
    slotByte hash (4 * w + i) =
      slotByte hash0 (4 * d + (4 * w + i)) ^^^ slotByte hash1 (4 * d + (4 * w + i)) := by
  rw [slotByte, slotByte, slotByte, show (4 * w + i) / 4 = w by omega, show (4 * w + i) % 4 = i by omega,
    show (4 * d + (4 * w + i)) / 4 = d + w by omega, show (4 * d + (4 * w + i)) % 4 = i by omega, h]
  refine BitVec.eq_of_getLsbD_eq fun t ht => ?_
  simp only [BitVec.getLsbD_extractLsb', BitVec.getLsbD_xor, decide_eq_true ht, Bool.true_and]

theorem word_eq_iff {x y : Word} :
    x = y ↔ ∀ i < 4, x.extractLsb' (8 * i) 8 = y.extractLsb' (8 * i) 8 := by
  refine ⟨fun h i _ => by rw [h], fun h => BitVec.eq_of_getLsbD_eq fun t ht => ?_⟩
  have hbit := congrArg (BitVec.getLsbD · (t % 8)) (h (t / 8) (by omega))
  simp only [BitVec.getLsbD_extractLsb', decide_eq_true (Nat.mod_lt t (by decide : 0 < 8)),
    Bool.true_and, Nat.div_add_mod] at hbit
  exact hbit

end Words

section Sizes

theorem hashsize_le (r : ℕ) : hashsize r ≤ nexthtunits r * 4 := by
  rw [nexthtunits, hashwords]
  omega

theorem sizes_succ :
    ∀ r < 8, hashsize (r + 1) ≤ hashsize r ∧ nexthtunits (r + 1) ≤ nexthtunits r := by decide

theorem hashsize_bounds : ∀ r < 9, 4 ≤ hashsize r ∧ hashsize r ≤ 27 ∧ 1 ≤ nexthtunits r := by decide

theorem prevhtunits_succ (r : ℕ) : prevhtunits (r + 1) = nexthtunits r := rfl

end Sizes

/-- The entry a round writes for two hashes and their tree node: the xor of what is left of them. -/
def entryWrite (L : Layout) (r : ℕ) (hash0 hash1 : Slot) (t : Word) (slot : Slot) : Slot := fun w =>
  if w = L.tag r then t
  else if L.hash r ≤ w ∧ w < L.hash r + nexthtunits r then
    hash0 (dunits r + (w - L.hash r)) ^^^ hash1 (dunits r + (w - L.hash r))
  else slot w

/-- The entry of leaf `i`: the last 26 bytes of its hash, right-aligned, and the index. -/
def leafWrite (L : Layout) (ph : ℕ → Byte) (i : ℕ) (slot : Slot) : Slot := fun w =>
  if w = L.tag 0 then BitVec.ofNat 32 i
  else memcpyBytes (4 * L.hash 0 + nextbo 0) (hashsize 0) (fun k => ph (hashLen - hashsize 0 + k)) slot w

/-- The test a round makes of two entries whose rest bits agree. -/
def keeps (r : ℕ) (hash0 hash1 : Slot) : Bool :=
  if r = 9 then equal210 (slotByte hash0) (slotByte hash1) else !equal r hash0 hash1

namespace Memory
variable (L : Layout) (r : ℕ) (M : Memory)

def buckets (i : ℕ) : Buckets ℕ Slot := ⟨M.nslots i, M.heap i⟩

def bsize (b : ℕ) : ℕ := min (M.nslots ((r - 1) % 2) b) nslotsMax

def rest (b s : ℕ) : ℕ := (xhash r (slotByte (M.prevHash L r b s))).toNat

def bucketPairs (b : ℕ) : List (ℕ × ℕ × ℕ) :=
  ((pairsBelow (M.rest L r b) (M.bsize r b)).filter fun p =>
    keeps r (M.prevHash L r b p.1) (M.prevHash L r b p.2)).map fun p => (b, p)

def roundPairs : List (ℕ × ℕ × ℕ) := (List.range nbuckets).flatMap (M.bucketPairs L r)

def pairKey (p : ℕ × ℕ × ℕ) : ℕ :=
  (xorbucketid r (slotByte (M.prevHash L r p.1 p.2.1)) (slotByte (M.prevHash L r p.1 p.2.2))).toNat

def roundPlacement : Placement ℕ Slot (ℕ × ℕ × ℕ) where
  capacity := nslotsMax
  modulus := 2 ^ 32
  key := M.pairKey L r
  write p := entryWrite L r (M.prevHash L r p.1 p.2.1) (M.prevHash L r p.1 p.2.2) (tree p.1 p.2.1 p.2.2)

variable {L r M} in
theorem prevHash_congr {M' : Memory} (h : M'.heap ((r - 1) % 2) = M.heap ((r - 1) % 2)) (b s : ℕ) :
    M'.prevHash L r b s = M.prevHash L r b s :=
  funext fun w => by rw [prevHash, prevHash, h]

variable {L r M} in
theorem rest_congr {M' : Memory} (h : M'.heap ((r - 1) % 2) = M.heap ((r - 1) % 2)) (b s : ℕ) :
    M'.rest L r b s = M.rest L r b s := by
  rw [rest, rest, prevHash_congr h]

theorem buckets_place (i : ℕ) {ρ : Type*} (P : Placement ℕ Slot ρ) (q : ρ)
    (hcap : P.capacity = nslotsMax) (hmod : P.modulus = 2 ^ 32) :
    (M.place i (P.key q) (P.write q)).buckets i = (M.buckets i).put P q := by
  rw [place, getslot, Buckets.put, hcap, hmod]
  dsimp only
  by_cases h : M.nslots i (P.key q) < nslotsMax
  · rw [if_neg (Nat.not_le_of_gt h)]
    exact congrArg₂ Buckets.mk (Function.update_self ..) ((Function.update_self ..).trans (if_pos h).symm)
  · rw [if_pos (Nat.le_of_not_lt h)]
    exact congrArg₂ Buckets.mk (Function.update_self ..) (if_neg h).symm

theorem heap_place_of_ne {i j : ℕ} (h : j ≠ i) (k : ℕ) (write : Slot → Slot) :
    (M.place i k write).heap j = M.heap j := by
  rw [place, getslot]
  dsimp only [withCount, withHeap]
  split
  · rfl
  · exact Function.update_of_ne h _ _

theorem nslots_place_of_ne {i j : ℕ} (h : j ≠ i) (k : ℕ) (write : Slot → Slot) :
    (M.place i k write).nslots j = M.nslots j := by
  rw [place, getslot]
  dsimp only [withCount, withHeap]
  split
  · exact Function.update_of_ne h _ _
  · exact Function.update_of_ne h _ _

theorem buckets_withCount_of_ne {i j : ℕ} (h : j ≠ i) (k n : ℕ) :
    (M.withCount i k n).buckets j = M.buckets j := by
  rw [buckets, buckets, withCount]
  dsimp only
  rw [Function.update_of_ne h]

end Memory

def leafPlacement (L : Layout) (H : Blake2b) (base : Blake2bState) : Placement ℕ Slot ℕ where
  capacity := nslotsMax
  modulus := 2 ^ 32
  key i := (bucketid0 (leafHash H base i)).toNat
  write i := leafWrite L (leafHash H base i) i

section Leaves
variable {H : Blake2b}

theorem bucketid0_congr {ph ph' : ℕ → Byte} (h0 : ph 0 = ph' 0) (h1 : ph 1 = ph' 1) :
    bucketid0 ph = bucketid0 ph' := by
  rw [bucketid0, bucketid0, h0, h1]

theorem leafHash_block (base : Blake2bState) (block : ℕ) {j k : ℕ} (hj : j < 2) (hk : k < hashLen) :
    H (base.update (le32 block)) (j * hashLen + k) = leafHash H base (block * 2 + j) k := by
  have hdiv : (block * 2 + j) / indicesPerHashOutput = block := by
    simp only [indicesPerHashOutput]; omega
  have hmod : (block * 2 + j) % indicesPerHashOutput = j := by
    simp only [indicesPerHashOutput]; omega
  rw [leafHash, if_pos hk, hdiv, hmod]

end Leaves

section Pairs
variable {L : Layout} {r : ℕ} {M : Memory}

theorem mem_roundPairs {p : ℕ × ℕ × ℕ} :
    p ∈ M.roundPairs L r ↔ p.1 < nbuckets ∧ p.2.1 < p.2.2 ∧ p.2.2 < M.bsize r p.1 ∧
      M.rest L r p.1 p.2.1 = M.rest L r p.1 p.2.2 ∧
        keeps r (M.prevHash L r p.1 p.2.1) (M.prevHash L r p.1 p.2.2) = true := by
  obtain ⟨b, q⟩ := p
  simp only [Memory.roundPairs, Memory.bucketPairs, List.mem_flatMap, List.mem_range, List.mem_map,
    List.mem_filter, mem_pairsBelow]
  constructor
  · rintro ⟨b', hb', q', ⟨⟨h1, h2, h3⟩, hk⟩, heq⟩
    obtain ⟨rfl, rfl⟩ := Prod.mk.inj heq
    exact ⟨hb', h1, h2, h3, hk⟩
  · exact fun ⟨hb, h1, h2, h3, hk⟩ => ⟨b, hb, q, ⟨⟨h1, h2, h3⟩, hk⟩, rfl⟩

theorem nodup_roundPairs : (M.roundPairs L r).Nodup := by
  refine List.nodup_flatMap.mpr ⟨fun b _ => ?_, ?_⟩
  · exact (List.Nodup.filter _ (nodup_pairsBelow _ _)).map fun p q h => (Prod.mk.inj h).2
  · refine List.nodup_range.imp fun {b b'} hne p hp hp' => hne ?_
    obtain ⟨q, -, rfl⟩ := List.mem_map.mp hp
    obtain ⟨q', -, heq⟩ := List.mem_map.mp hp'
    exact (Prod.mk.inj heq).1.symm

/-- A bucket has at most `512 * 511 / 2` pairs. -/
theorem length_roundPairs_le : (M.roundPairs L r).length ≤ nbuckets * 130816 := by
  have hbucket : ∀ b, (M.bucketPairs L r b).length ≤ 130816 := by
    intro b
    have hle := length_pairsBelow_le (M.rest L r b) (M.bsize r b)
    have hsize : M.bsize r b ≤ 512 := Nat.min_le_right _ _
    have hmul : M.bsize r b * (M.bsize r b - 1) ≤ 512 * 511 := Nat.mul_le_mul hsize (by omega)
    have hfilter := List.length_filter_le
      (fun p => keeps r (M.prevHash L r b p.1) (M.prevHash L r b p.2)) (pairsBelow (M.rest L r b) (M.bsize r b))
    rw [Memory.bucketPairs, List.length_map]
    omega
  have htotal : ∀ n, ((List.range n).flatMap (M.bucketPairs L r)).length ≤ n * 130816 := by
    intro n
    induction n with
    | zero => exact Nat.le_refl 0
    | succ n ih =>
      have := hbucket n
      rw [List.range_succ, List.flatMap_append, List.length_append, List.flatMap_singleton,
        Nat.succ_mul]
      omega
  exact htotal nbuckets

/-- No counter can wrap: a round joins fewer than `2 ^ 32` pairs in all. -/
theorem length_roundPairs_lt : (M.roundPairs L r).length < 2 ^ 32 :=
  Nat.lt_of_le_of_lt length_roundPairs_le (by decide)

variable {hash0 hash1 slot : Slot} {h0 h1 : Hash} {t : Word}

theorem equal_iff (hr : r < 9) (hb0 : Holds (r + 1) (slotByte hash0) h0)
    (hb1 : Holds (r + 1) (slotByte hash1) h1) :
    equal (r + 1) hash0 hash1 = true ↔ LastEq h0 h1 := by
  obtain ⟨h4, h27, hpos⟩ := hashsize_bounds r hr
  have hle := hashsize_le r
  have hlast : ∀ (hash : Slot) (h : Hash), Holds (r + 1) (slotByte hash) h → ∀ i < 4,
      (hash (prevhtunits (r + 1) - 1)).extractLsb' (8 * i) 8 = h (23 + i) := by
    intro hash h hb i hi
    have hbi := hb (hashsize r - 4 + i) (by rw [Nat.add_sub_cancel]; omega)
    rw [Nat.add_sub_cancel, prevbo, prevhtunits_succ, Nat.add_sub_cancel,
      show 27 - hashsize r + (hashsize r - 4 + i) = 23 + i by omega,
      show nexthtunits r * 4 - hashsize r + (hashsize r - 4 + i) = 4 * (nexthtunits r - 1) + i by omega,
      slotByte, show (4 * (nexthtunits r - 1) + i) / 4 = nexthtunits r - 1 by omega,
      show (4 * (nexthtunits r - 1) + i) % 4 = i by omega] at hbi
    exact hbi
  rw [equal, beq_iff_eq, word_eq_iff]
  exact forall₂_congr fun i hi => by rw [hlast hash0 h0 hb0 i hi, hlast hash1 h1 hb1 i hi]

theorem keeps_iff (hr : r < 9) (hb0 : Holds (r + 1) (slotByte hash0) h0)
    (hb1 : Holds (r + 1) (slotByte hash1) h1) :
    keeps (r + 1) hash0 hash1 = true ↔ if r = 8 then DigitEq 9 h0 h1 else ¬LastEq h0 h1 := by
  rw [keeps]
  by_cases h8 : r = 8
  · subst h8
    rw [if_pos rfl, if_pos rfl]
    exact equal210_iff hb0 hb1
  · rw [if_neg (by omega), if_neg h8, ← equal_iff hr hb0 hb1, Bool.not_eq_true', Bool.not_eq_true]

theorem entryWrite_tag : entryWrite L r hash0 hash1 t slot (L.tag r) = t := if_pos rfl

/-- The new entry holds the xor, shortened from the front. -/
theorem holds_entryWrite (hr : r < 8) (hb0 : Holds (r + 1) (slotByte hash0) h0)
    (hb1 : Holds (r + 1) (slotByte hash1) h1) :
    Holds (r + 2) (slotByte fun w => entryWrite L (r + 1) hash0 hash1 t slot (L.hash (r + 1) + w))
    (h0 + h1) := by
  intro i hi
  rw [show r + 2 - 1 = r + 1 by omega] at hi
  obtain ⟨hsz, hwords⟩ := sizes_succ r hr
  obtain ⟨-, h27, -⟩ := hashsize_bounds r (by omega)
  have hle := hashsize_le r
  have hle' := hashsize_le (r + 1)
  have hprev : prevbo (r + 2) = nexthtunits (r + 1) * 4 - hashsize (r + 1) := rfl
  set k := prevbo (r + 2) + i with hk
  have hw : k / 4 < nexthtunits (r + 1) := by omega
  have hword : entryWrite L (r + 1) hash0 hash1 t slot (L.hash (r + 1) + k / 4) =
      hash0 (dunits (r + 1) + k / 4) ^^^ hash1 (dunits (r + 1) + k / 4) := by
    have htag := L.tag_hash (r + 1) (by omega)
    rw [entryWrite, if_neg (by omega), if_pos (by omega), Nat.add_sub_cancel_left]
  have hbyte := slotByte_xor (fun w => entryWrite L (r + 1) hash0 hash1 t slot (L.hash (r + 1) + w))
    (w := k / 4) hword (Nat.mod_lt k (by decide))
  rw [Nat.div_add_mod] at hbyte
  have hpos : 4 * dunits (r + 1) + k = prevbo (r + 1) + (hashsize r - hashsize (r + 1) + i) := by
    rw [dunits, prevbo, prevhtunits_succ, Nat.add_sub_cancel]
    omega
  have hj : hashsize r - hashsize (r + 1) + i < hashsize (r + 1 - 1) := by rw [Nat.add_sub_cancel]; omega
  rw [hbyte, hpos, hb0 _ hj, hb1 _ hj, Hash.add_apply, Nat.add_sub_cancel,
    show r + 2 - 1 = r + 1 by omega,
    show 27 - hashsize r + (hashsize r - hashsize (r + 1) + i) = 27 - hashsize (r + 1) + i by omega]

theorem leafWrite_tag {ph : ℕ → Byte} {i : ℕ} :
    leafWrite L ph i slot (L.tag 0) = BitVec.ofNat 32 i := if_pos rfl

theorem holds_leafWrite (ph : ℕ → Byte) (i : ℕ) (slot : Slot) :
    Holds 1 (slotByte fun w => leafWrite L ph i slot (L.hash 0 + w)) ph := by
  intro j hj
  have hj26 : j < 26 := hj
  have htag := L.tag_hash 0 (by decide)
  have h7 : nexthtunits 0 = 7 := rfl
  have hbyte := slotByte_memcpyBytes (4 * L.hash 0 + nextbo 0) (hashsize 0)
    (fun k => ph (hashLen - hashsize 0 + k)) slot (4 * L.hash 0 + (prevbo 1 + j))
  have hbo : prevbo 1 = 2 := rfl
  have hbo' : nextbo 0 = 2 := rfl
  have hsz : hashsize 0 = 26 := rfl
  rw [if_pos (by omega), hbo, hbo', hsz] at hbyte
  rw [hbo]
  rw [slotByte, show (4 * L.hash 0 + (2 + j)) / 4 = L.hash 0 + (2 + j) / 4 by omega,
    show (4 * L.hash 0 + (2 + j)) % 4 = (2 + j) % 4 by omega] at hbyte
  have hword : leafWrite L ph i slot (L.hash 0 + (2 + j) / 4) =
      memcpyBytes (4 * L.hash 0 + 2) 26 (fun k => ph (hashLen - 26 + k)) slot (L.hash 0 + (2 + j) / 4) := by
    rw [leafWrite, if_neg (by omega), hbo', hsz]
  refine (congrArg (BitVec.extractLsb' _ 8) hword).trans ?_
  refine hbyte.trans (congrArg ph ?_)
  change 27 - 26 + _ = 27 - 26 + j
  omega

theorem entryWrite_frame (hr : r < 9) {r' : ℕ} (hr' : r' < r) (hpar : r' % 2 = r % 2) :
    entryWrite L r hash0 hash1 t slot (L.tag r') = slot (L.tag r') := by
  -- No entry a round writes touches a tree node an earlier round left in the heap
  obtain ⟨hne, hout⟩ := L.frame r hr r' hr' hpar
  rw [entryWrite, if_neg hne, if_neg (by omega)]

end Pairs
end Aion.Solver
