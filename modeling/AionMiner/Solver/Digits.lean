import AionMiner.Bits.Field
import AionMiner.Equihash.VerifierSpec
import AionMiner.Solver.Memory
import AionMiner.Wagner.Forest

/-! The shifts and masks of each round against the digits of the hash they are
applied to: 14 bits choose the bucket, the next 7 have to collide in it. -/

namespace Aion.Solver
open Bits Equihash Wagner

/-- The bucket bits of digit `r`. -/
def bucketOf (r : ℕ) (h : Hash) : ℕ := field h.bit (21 * r) 14

def restOf (r : ℕ) (h : Hash) : ℕ := field h.bit (21 * r + 14) 7

/-- Bytes 23 to 26, the word every round compares, agree. -/
def LastEq (a b : Hash) : Prop := ∀ i < 4, a (23 + i) = b (23 + i)

/-- The test that joins two entries of a bucket of layer `r`. -/
def Meets (r : ℕ) (a b : Hash) : Prop :=
  restOf r a = restOf r b ∧ if r = 8 then DigitEq 9 a b else ¬LastEq a b

section Fields

theorem field_add_inj {f g : ℕ → Bool} {n a b : ℕ} :
    field f n (a + b) = field g n (a + b) ↔ field f n a = field g n a ∧
    field f (n + a) b = field g (n + a) b := by
  rw [field_inj, field_inj, field_inj]
  constructor
  · intro h
    exact ⟨fun i hi => h i (by omega),
      fun i hi => by simpa only [Nat.add_assoc] using h (a + i) (by omega)⟩
  · rintro ⟨ha, hb⟩ i hi
    rcases Nat.lt_or_ge i a with hlt | hge
    · exact ha i hlt
    · obtain ⟨j, rfl⟩ := Nat.exists_eq_add_of_le hge
      rw [← Nat.add_assoc]
      exact hb j (by omega)

theorem digitEq_iff {r : ℕ} {a b : Hash} :
    DigitEq r a b ↔ bucketOf r a = bucketOf r b ∧ restOf r a = restOf r b := by
  rw [bucketOf, bucketOf, restOf, restOf, ← field_add_inj, field_inj]
  rfl

theorem bucketOf_lt (r : ℕ) (h : Hash) : bucketOf r h < nbuckets := field_lt _ _ 14

theorem restOf_lt (r : ℕ) (h : Hash) : restOf r h < nrests := field_lt _ _ 7

theorem Meets.symm {r : ℕ} {a b : Hash} (h : Meets r a b) : Meets r b a := by
  refine ⟨h.1.symm, ?_⟩
  have h2 := h.2
  split_ifs at h2 ⊢
  · exact fun n hn => (h2 n hn).symm
  · exact fun hl => h2 fun i hi => (hl i hi).symm

theorem toNat_u32 (b : Byte) : (u32 b).toNat = b.toNat := by
  rw [u32, BitVec.toNat_setWidth, Nat.mod_eq_of_lt (b.isLt.trans (by decide))]

variable (g : ℕ → Byte)

theorem toNat_byte (k : ℕ) : (u32 (g k)).toNat = field (byteBit g) (8 * k) 8 := by
  rw [toNat_u32, field_byte]

theorem toNat_low (k : ℕ) {p : ℕ} (hp : p ≤ 8) {m : Word} (hm : m.toNat = 2 ^ p - 1) :
    (u32 (g k) &&& m).toNat = field (byteBit g) (8 * k + (8 - p)) p := by
  rw [toNat_mask hm, toNat_u32, field_low g k hp]

theorem toNat_high (k : ℕ) {p : ℕ} (hp : p ≤ 8) :
    (u32 (g k) >>> p).toNat = field (byteBit g) (8 * k) (8 - p) := by
  rw [toNat_shiftRight, toNat_u32, field_high g k hp]

theorem toNat_join_field {f : ℕ → Bool} {x y : Word} {n p q : ℕ} (hx : x.toNat = field f n p)
    (hy : y.toNat = field f (n + p) q) (hpq : p + q ≤ 32) :
    (x <<< q ||| y).toNat = field f n (p + q) := by
  have hlt : x.toNat * 2 ^ q < 2 ^ 32 := by
    have hxlt : x.toNat < 2 ^ p := by rw [hx]; exact field_lt f n p
    calc x.toNat * 2 ^ q < 2 ^ p * 2 ^ q := Nat.mul_lt_mul_of_pos_right hxlt (Nat.two_pow_pos q)
      _ = 2 ^ (p + q) := (Nat.pow_add 2 p q).symm
      _ ≤ 2 ^ 32 := Nat.pow_le_pow_right (by decide) hpq
  rw [toNat_join hlt (by rw [hy]; exact field_lt _ _ q), field_add, hx, hy]

end Fields

section Extraction
variable {r : ℕ} {h h0 h1 : Hash} {bytes bytes0 bytes1 : ℕ → Byte}

/-- The bytes from `prevbo` on are those of a hash from which whole bytes were dropped. -/
def Holds (r : ℕ) (bytes : ℕ → Byte) (h : Hash) : Prop :=
  ∀ i < hashsize (r - 1), bytes (prevbo r + i) = h (27 - hashsize (r - 1) + i)

theorem bucketid0_eq (ph : Hash) : (bucketid0 ph).toNat = bucketOf 0 ph :=
  toNat_join_field (f := byteBit ph) (p := 8) (q := 6) (toNat_byte ph 0) (toNat_high ph 1 (p := 2) (by decide))
    (by decide)

theorem xhash_eq (hr : 1 ≤ r) (hr9 : r ≤ 9) (hb : Holds r bytes h) :
    (xhash r bytes).toNat = restOf (r - 1) h := by
  have h0 : bytes (prevbo r) = h (27 - hashsize (r - 1)) := hb 0 (by interval_cases r <;> decide)
  have h1 : bytes (prevbo r + 1) = h (27 - hashsize (r - 1) + 1) :=
    hb 1 (by interval_cases r <;> decide)
  have join : ∀ k p q : ℕ, p ≤ 8 → q ≤ 8 → ∀ m : Word, m.toNat = 2 ^ p - 1 →
      ((u32 (h k) &&& m) <<< (8 - q) ||| u32 (h (k + 1)) >>> q).toNat =
        field (byteBit h) (8 * k + (8 - p)) (p + (8 - q)) := by
    intro k p q hp hq m hm
    refine toNat_join_field (toNat_low h k hp hm) ?_ (by omega)
    rw [toNat_high h (k + 1) hq, show 8 * k + (8 - p) + p = 8 * (k + 1) by omega]
  unfold xhash
  dsimp only
  rw [h0, h1]
  interval_cases r
  · exact join 1 2 3 (by decide) (by decide) _ rfl
  · exact join 4 5 6 (by decide) (by decide) _ rfl
  · exact toNat_high h 7 (p := 1) (by decide)
  · exact join 9 3 4 (by decide) (by decide) _ rfl
  · exact join 12 6 7 (by decide) (by decide) _ rfl
  · exact join 14 1 2 (by decide) (by decide) _ rfl
  · exact join 17 4 5 (by decide) (by decide) _ rfl
  · exact toNat_low h 20 (p := 7) (by decide) rfl
  · exact join 22 2 3 (by decide) (by decide) _ rfl

theorem xorbucketid_eq (hr : 1 ≤ r) (hr8 : r ≤ 8) (hb0 : Holds r bytes0 h0)
    (hb1 : Holds r bytes1 h1) : (xorbucketid r bytes0 bytes1).toNat = bucketOf r (h0 + h1) := by
  have hx : ∀ i < hashsize (r - 1), bytes0 (prevbo r + i) ^^^ bytes1 (prevbo r + i) =
      (h0 + h1) (27 - hashsize (r - 1) + i) :=
      fun i hi => by rw [hb0 i hi, hb1 i hi, Hash.add_apply]
  have x0 := hx 0 (by interval_cases r <;> decide)
  have x1 := hx 1 (by interval_cases r <;> decide)
  have x2 := hx 2 (by interval_cases r <;> decide)
  have x3 := hx 3 (by interval_cases r <;> decide)
  set g := h0 + h1 with hg
  have join2 : ∀ k p q : ℕ, p ≤ 8 → q ≤ 8 → ∀ x :
      Word, x.toNat = field (byteBit g) (8 * k + (8 - p)) p →
      (x <<< (8 - q) ||| u32 (g (k + 1)) >>> q).toNat = field (byteBit g) (8 * k + (8 - p)) (p + (8 - q)) := by
    intro k p q hp hq x hx
    refine toNat_join_field hx ?_ (by omega)
    rw [toNat_high g (k + 1) hq, show 8 * k + (8 - p) + p = 8 * (k + 1) by omega]
  have join3 : ∀ k p q : ℕ, p ≤ 8 → q ≤ 8 → ∀ m : Word, m.toNat = 2 ^ p - 1 →
      (((u32 (g k) &&& m) <<< 8 ||| u32 (g (k + 1))) <<< (8 - q) ||| u32 (g (k + 2)) >>> q).toNat =
        field (byteBit g) (8 * k + (8 - p)) (p + 8 + (8 - q)) := by
    intro k p q hp hq m hm
    refine toNat_join_field (toNat_join_field (toNat_low g k hp hm) ?_ (by omega)) ?_ (by omega)
    · rw [toNat_byte g (k + 1), show 8 * k + (8 - p) + p = 8 * (k + 1) by omega]
    · rw [toNat_high g (k + 2) hq, show 8 * k + (8 - p) + (p + 8) = 8 * (k + 2) by omega]
  unfold xorbucketid
  dsimp only
  rw [x0, x1, x2, x3]
  interval_cases r
  · exact join3 2 3 5 (by decide) (by decide) _ rfl
  · exact toNat_join_field (n := 42) (p := 6) (q := 8) (toNat_low g 5 (p := 6) (by decide) rfl)
      (toNat_byte g 6) (by decide)
  · exact join3 7 1 3 (by decide) (by decide) _ rfl
  · exact join3 10 4 6 (by decide) (by decide) _ rfl
  · exact join2 13 7 1 (by decide) (by decide) _ (toNat_low g 13 (p := 7) (by decide) rfl)
  · exact join3 15 2 4 (by decide) (by decide) _ rfl
  · exact join3 18 5 7 (by decide) (by decide) _ rfl
  · exact join2 21 8 2 (by decide) (by decide) _ (toNat_byte g 21)

theorem xorbucketid_lt (hr : 1 ≤ r) (hr8 : r ≤ 8) :
    (xorbucketid r bytes0 bytes1).toNat < nbuckets := by
  -- Whatever the bytes are, the number names a bucket
  have hholds : ∀ bytes : ℕ → Byte,
      Holds r bytes fun k => bytes (prevbo r + (k - (27 - hashsize (r - 1)))) := fun bytes i _ => by
    dsimp only
    rw [Nat.add_sub_cancel_left]
  rw [xorbucketid_eq hr hr8 (hholds bytes0) (hholds bytes1)]
  exact bucketOf_lt _ _

theorem equal210_iff (hb0 : Holds 9 bytes0 h0) (hb1 : Holds 9 bytes1 h1) :
    equal210 bytes0 bytes1 = true ↔ DigitEq 9 h0 h1 := by
  have hlow : ∀ g : Hash, ((g 23) &&& 0x7).toNat = field (byteBit g) 189 3 := fun g =>
    (toNat_mask (p := 3) rfl).trans (field_low g 23 (p := 3) (by decide)).symm
  have hhigh : ∀ g : Hash, ((g 26) >>> 6).toNat = field (byteBit g) 208 2 := fun g =>
    (toNat_shiftRight _ 6).trans (field_high g 26 (p := 6) (by decide)).symm
  have hbyte : ∀ (g : Hash) k, (g k).toNat = field (byteBit g) (8 * k) 8 :=
    fun g k => (field_byte g k).symm
  have hdigit : DigitEq 9 h0 h1 ↔ field (byteBit h0) 189 21 = field (byteBit h1) 189 21 :=
    field_inj.symm
  rw [hdigit, show 21 = 3 + 8 + 8 + 2 from rfl, field_add_inj, field_add_inj, field_add_inj,
    ← hlow, ← hlow, ← hhigh, ← hhigh, ← hbyte h0 24, ← hbyte h1 24, ← hbyte h0 25, ← hbyte h1 25]
  simp only [BitVec.toNat_inj]
  rw [equal210]
  rw [hb0 1 (by decide), hb0 2 (by decide), hb0 3 (by decide), hb0 4 (by decide), hb1 1 (by decide),
    hb1 2 (by decide), hb1 3 (by decide), hb1 4 (by decide)]
  simp only [Bool.and_eq_true, beq_iff_eq]
  rfl

end Extraction

section Scheme
variable (H : Blake2b) (base : Blake2bState)

/-- The 2^22 leaves, and the tests of the rounds. -/
def scheme : Scheme ℕ Hash where
  leaf := leafHash H base
  buckets := nbuckets
  bucket := bucketOf
  Meets := Meets
  bucket_lt := bucketOf_lt
  meets_symm := Meets.symm

def leafSet : Set ℕ := {i | i < nhashes}

variable {H base}

/-- Sibling blocks that join below height 8: those the verifier accepts whose last words differ. -/
theorem joins_iff {h : ℕ} {l r : List ℕ} (hh : h < 8) :
    Forest.Joins (scheme H base) h l r ↔
      PairOk H base h l r ∧ ¬LastEq (xorHash H base l) (xorHash H base r) := by
  constructor
  · rintro ⟨⟨hrest, hlast⟩, hbucket, hbefore, hdisj⟩
    rw [if_neg (by omega)] at hlast
    exact ⟨⟨digitEq_iff.mpr ⟨hbucket, hrest⟩, hbefore, hdisj⟩, hlast⟩
  · rintro ⟨⟨hdigit, hbefore, hdisj⟩, hlast⟩
    obtain ⟨hbucket, hrest⟩ := digitEq_iff.mp hdigit
    exact ⟨⟨hrest, by rw [if_neg (by omega)]; exact hlast⟩, hbucket, hbefore, hdisj⟩

theorem joins_top_iff {l r : List ℕ} :
    Forest.Joins (scheme H base) 8 l r ↔
      PairOk H base 8 l r ∧ DigitEq 9 (xorHash H base l) (xorHash H base r) := by
  constructor
  · rintro ⟨⟨hrest, hlast⟩, hbucket, hbefore, hdisj⟩
    exact ⟨⟨digitEq_iff.mpr ⟨hbucket, hrest⟩, hbefore, hdisj⟩, hlast⟩
  · rintro ⟨⟨hdigit, hbefore, hdisj⟩, hlast⟩
    obtain ⟨hbucket, hrest⟩ := digitEq_iff.mp hdigit
    exact ⟨⟨hrest, hlast⟩, hbucket, hbefore, hdisj⟩

def LastZero (a : Hash) : Prop := ∀ i < 4, a (23 + i) = 0#8

theorem lastEq_iff {a b : Hash} : LastEq a b ↔ LastZero (a + b) :=
  forall₂_congr fun _ _ => BitVec.xor_eq_zero_iff.symm

/-- The vectors the rounds find: accepted ones without a zero last word below the root. -/
theorem balanced_joins_iff {v : List ℕ} (hv : v.length = 512) :
    Balanced (Forest.Joins (scheme H base)) 9 v ↔
      (Balanced (PairOk H base) 9 v ∧ DigitEq 9 (xorHash H base v) 0) ∧
        ∀ h, 1 ≤ h → h ≤ 8 → ∀ k < 2 ^ (9 - h), ¬LastZero (xorHash H base (block v h k)) := by
  have hv9 : v.length = 2 ^ 9 := hv
  have hroot : xorHash H base v = xorHash H base (block v 8 0) + xorHash H base (block v 8 1) := by
    rw [← xorHash_append, ← block_succ v 8 0, block_top hv9]
  have hlast : DigitEq 9 (xorHash H base v) 0 ↔
      DigitEq 9 (xorHash H base (block v 8 0)) (xorHash H base (block v 8 1)) := by
    rw [digitEq_zero_iff, hroot, ← digitEq_iff_add]
  rw [balanced_iff hv9, balanced_iff hv9, hlast]
  constructor
  · intro h
    refine ⟨⟨fun j hj m hm => ?_, ?_⟩, fun h' h1 h8 k hk => ?_⟩
    · rcases Nat.lt_or_ge j 8 with hj8 | hj8
      · exact (joins_iff hj8).mp (h j hj m hm) |>.1
      · obtain rfl : j = 8 := by omega
        exact (joins_top_iff.mp (h 8 hj m hm)).1
    · exact (joins_top_iff.mp (h 8 (by decide) 0 (by decide))).2
    · obtain ⟨j, rfl⟩ := Nat.exists_eq_add_of_le' h1
      rw [block_succ, xorHash_append, ← lastEq_iff]
      exact ((joins_iff (by omega)).mp (h j (by omega) k (by rwa [show 9 - 1 - j = 9 - (j + 1) by omega]))).2
  · rintro ⟨⟨hpair, htop⟩, hzero⟩ j hj m hm
    rcases Nat.lt_or_ge j 8 with hj8 | hj8
    · refine (joins_iff hj8).mpr ⟨hpair j hj m hm, ?_⟩
      have := hzero (j + 1) (by omega) (by omega) m (by rwa [show 9 - (j + 1) = 9 - 1 - j by omega])
      rwa [block_succ, xorHash_append, ← lastEq_iff] at this
    · obtain rfl : j = 8 := by omega
      obtain rfl : m = 0 := by omega
      exact joins_top_iff.mpr ⟨hpair 8 hj 0 hm, htop⟩

end Scheme
end Aion.Solver
