import AionMiner.Solver.Tables
import AionMiner.Solver.Vectors

/-! Hashes that plant solutions. Under them every round of every solver joins the
halves of these solutions and nothing else, so that no bucket overflows. -/

namespace Aion.Solver
open Bits Equihash Wagner

section Runs

def run (h k : ℕ) : List ℕ := List.range' (k * 2 ^ h) (2 ^ h)

theorem length_run (h k : ℕ) : (run h k).length = 2 ^ h := List.length_range' ..

theorem run_succ (h k : ℕ) : run (h + 1) k = run h (2 * k) ++ run h (2 * k + 1) := by
  rw [run, run, run, Nat.succ_mul (2 * k), List.range'_append_1, ← Nat.two_mul, Nat.pow_succ',
    Nat.mul_left_comm, Nat.mul_assoc]

theorem nodup_run (h k : ℕ) : (run h k).Nodup := List.nodup_range'

theorem headD_run (h k : ℕ) : (run h k).headD 0 = k * 2 ^ h := by
  obtain ⟨n, hn⟩ := Nat.exists_eq_add_of_lt (Nat.two_pow_pos h)
  rw [run, hn, List.range'_succ]
  rfl

theorem mem_run {h k i : ℕ} :
    i ∈ run h k ↔ k * 2 ^ h ≤ i ∧ i < k * 2 ^ h + 2 ^ h := List.mem_range'_1

theorem run_le {m h k : ℕ} (hh : h ≤ m) (hk : k < 2 ^ (m - h)) : k * 2 ^ h + 2 ^ h ≤ 2 ^ m := by
  have := Nat.mul_le_mul_right (2 ^ h) (Nat.succ_le_of_lt hk)
  rwa [← Nat.pow_add, Nat.sub_add_cancel hh, Nat.succ_mul] at this

theorem mem_run_lt {m h k : ℕ} (hm : m ≤ 22) (hh : h ≤ m) (hk : k < 2 ^ (m - h)) :
    ∀ i ∈ run h k, i < nhashes := by
  intro i hi
  have h1 := (mem_run.mp hi).2
  have h2 := run_le hh hk
  have h3 : 2 ^ m ≤ nhashes := Nat.pow_le_pow_right (by decide) hm
  omega

theorem run_lt_nhashes {h k : ℕ} (hh : h ≤ 9) (hk : k < 2 ^ (9 - h)) : ∀ i ∈ run h k, i < nhashes :=
  mem_run_lt (by decide) hh hk

theorem block_run {h j : ℕ} (k : ℕ) (hh : h ≤ 9) (hj : j < 2 ^ (9 - h)) :
    block (run 9 k) h j = run h (k * 2 ^ (9 - h) + j) := by
  have := run_le hh hj
  rw [block, run, List.drop_range', List.take_range'_of_length_ge (by omega), run, Nat.mul_one,
    Nat.add_mul, Nat.mul_assoc, ← Nat.pow_add, Nat.sub_add_cancel hh]

theorem mergeOrder_run {h k0 k1 : ℕ} (hsib : k0 / 2 = k1 / 2) (hne : k0 ≠ k1) :
    mergeOrder (run h k0) (run h k1) = run (h + 1) (k0 / 2) := by
  -- Siblings merge to their parent, in whichever order they come
  have hlt : ∀ k, (run h (2 * k)).headD default < (run h (2 * k + 1)).headD default := by
    intro k
    change (run h (2 * k)).headD 0 < (run h (2 * k + 1)).headD 0
    rw [headD_run, headD_run]
    exact Nat.mul_lt_mul_of_pos_right (Nat.lt_succ_self _) (Nat.two_pow_pos h)
  obtain ⟨m, hm⟩ : ∃ m, m = k0 / 2 := ⟨_, rfl⟩
  rw [← hm, run_succ]
  rcases (show k0 = 2 * m ∧ k1 = 2 * m + 1 ∨ k1 = 2 * m ∧ k0 = 2 * m + 1 by omega) with ⟨rfl, rfl⟩ | ⟨rfl, rfl⟩
  · exact (mergeOrder_of_lt (hlt m)).1
  · exact (mergeOrder_of_lt (hlt m)).2

end Runs

/-- Digits of leaves under which, among the first `2 ^ m` leaves, the siblings of each height, and
no others, agree in the digit of that height; the last digit vanishes on runs of 512 leaves only. -/
structure Siblings (d : ℕ → ℕ → ℕ) (m : ℕ) : Prop where
  room : 9 ≤ m ∧ m ≤ 22
  lt : ∀ i < nhashes, ∀ r, d i r < 2 ^ 21
  leaf : ∀ i, d i 0 = i / 2
  agree : ∀ r, 1 ≤ r → r ≤ 8 → ∀ k < 2 ^ (m - r), xorDigits d r (run r k) = k / 2
  root : ∀ k < 2 ^ (m - 9), xorDigits d 9 (run 9 k) = 0
  below : ∀ h < 9, ∀ k < 2 ^ (m - h), xorDigits d 9 (run h k) ≠ 0
  rest : ∀ i < nhashes, 2 ^ m ≤ i → ∀ r, 8 ≤ r → d i r = 0

section Solutions
variable {d : ℕ → ℕ → ℕ} {m : ℕ} {H : Blake2b} {base : Blake2bState}

theorem Siblings.digit (hS : Siblings d m) {r k : ℕ} (hr8 : r ≤ 8) (hk : k < 2 ^ (m - r)) :
    xorDigits d r (run r k) = k / 2 := by
  rcases Nat.eq_zero_or_pos r with rfl | hr
  · rw [run, Nat.pow_zero, Nat.mul_one, List.range'_one, xorDigits_singleton, hS.leaf]
  · exact hS.agree r hr hr8 k hk

/-- A planted solution is accepted, and no subtree of it has a zero last word. -/
theorem Siblings.balanced (hS : Siblings d m) (hH : HasDigits d H base) {k : ℕ}
    (hk : k < 2 ^ (m - 9)) :
    (Balanced (PairOk H base) 9 (run 9 k) ∧ DigitEq 9 (xorHash H base (run 9 k)) 0) ∧
      ∀ h, 1 ≤ h → h ≤ 8 → ∀ j < 2 ^ (9 - h), ¬LastZero (xorHash H base (block (run 9 k) h j)) := by
  obtain ⟨hm9, hm22⟩ := hS.room
  have hchild : ∀ h ≤ 9, ∀ j < 2 ^ (9 - h), k * 2 ^ (9 - h) + j < 2 ^ (m - h) := by
    intro h hh j hj
    have := Nat.mul_le_mul_right (2 ^ (9 - h)) (Nat.succ_le_of_lt hk)
    rw [← Nat.pow_add, show m - 9 + (9 - h) = m - h by omega, Nat.succ_mul] at this
    omega
  refine ⟨⟨(balanced_iff (length_run 9 k)).mpr fun h hh j hj => ?_, ?_⟩, fun h h1 h8 j hj => ?_⟩
  · have hpow : 2 ^ (9 - h) = 2 * 2 ^ (9 - 1 - h) := by
      rw [show 9 - h = 9 - 1 - h + 1 by omega, Nat.pow_succ, Nat.mul_comm]
    have hj0 : 2 * j < 2 ^ (9 - h) := by omega
    have hj1 : 2 * j + 1 < 2 ^ (9 - h) := by omega
    have h0 := hchild h (by omega) (2 * j) hj0
    have h1 := hchild h (by omega) (2 * j + 1) hj1
    rw [block_run k (by omega) hj0, block_run k (by omega) hj1]
    refine ⟨(hH.digitEq_iff hS.lt (by omega) (mem_run_lt hm22 (by omega) h0) (mem_run_lt hm22 (by omega) h1)).mpr ?_,
      ?_, ?_⟩
    · have heven : k * 2 ^ (9 - h) = 2 * (k * 2 ^ (9 - 1 - h)) := by rw [hpow, Nat.mul_left_comm]
      rw [hS.digit (by omega) h0, hS.digit (by omega) h1]
      omega
    · rw [headD_run, headD_run]
      exact Nat.mul_lt_mul_of_pos_right (Nat.lt_succ_self _) (Nat.two_pow_pos h)
    · intro i hi hi'
      have hlt := (mem_run.mp hi).2
      have hge := (mem_run.mp hi').1
      rw [← Nat.add_assoc, Nat.succ_mul] at hge
      omega
  · exact (hH.digitEq_iff hS.lt (Nat.le_refl 9) (w := []) (mem_run_lt hm22 hm9 hk) (fun _ hi => by cases hi)).mpr
      (hS.root k hk)
  · have hj' := hchild h (by omega) j hj
    rw [block_run k (by omega) hj]
    exact hH.not_lastZero hS.lt (mem_run_lt hm22 (by omega) hj') (hS.below h (by omega) _ hj')

end Solutions

section Forest
variable {L : Layout} {H : Blake2b} {base : Blake2bState} {E : ℕ → Memory} {d : ℕ → ℕ → ℕ} {m : ℕ}

/-- Two entries that a round joins agree in the digit of the round. -/
theorem Rounds.digitEq_of_isPair (hE : Rounds L H base E) {r : ℕ} (hr : r ≤ 8) {p : ℕ × ℕ × ℕ}
    (hp : (forestOf L E).IsPair (scheme H base) r p) :
    DigitEq r (xorHash H base ((forestOf L E).tree r p.1 p.2.1).order)
      (xorHash H base ((forestOf L E).tree r p.1 p.2.2).order) := by
  have h0 := hE.sound.bucket r hr _ _ hp.bucket hp.stored_left
  have h1 := hE.sound.bucket r hr _ _ hp.bucket hp.stored
  have hrest := hp.meets.1
  rw [Forest.hash_eq] at h0 h1 hrest
  rw [Forest.hash_eq] at hrest
  exact digitEq_iff.mpr ⟨h0.trans h1.symm, hrest⟩

theorem Rounds.leaves_fit (hE : Rounds L H base E) (hH : HasDigits d H base)
    (hd : ∀ i < nhashes, ∀ r, d i r < 2 ^ 21) (h0 : ∀ i, d i 0 = i / 2) {b : ℕ}
    (hb : b < nbuckets) : (E 0).nslots 0 b ≤ nslotsMax := by
  -- When digit 0 pairs the leaves up, each bucket has room for its leaves
  obtain ⟨qs, hserved⟩ := hE.leafServed
  have hsub : (leafPlacement L H base).at b qs ⊆ List.range' (b * 256) 256 := by
    intro i hi
    obtain ⟨hmem, hkey⟩ := List.mem_filter.mp hi
    have hkey' : bucketOf 0 (leafHash H base i) = b :=
      (leafKey i).symm.trans (of_decide_eq_true hkey)
    have hlt : i < nhashes := (hserved.mem i).mp hmem
    rw [← xorHash_singleton, hH.bucketOf_xorHash hd (Nat.zero_le 9) (by simpa using hlt),
      xorDigits_singleton, h0] at hkey'
    rw [List.mem_range'_1]
    omega
  have hlen := (List.subperm_of_subset (List.Nodup.filter _ hserved.nodup) hsub).length_le
  rw [List.length_range'] at hlen
  rw [hserved.count b hb]
  exact Nat.le_trans hlen (by decide)

theorem Rounds.siblings_of_isPair (hE : Rounds L H base E) (hH : HasDigits d H base)
    (hd : ∀ i < nhashes, ∀ r, d i r < 2 ^ 21) (h0 : ∀ i, d i 0 = i / 2) {p : ℕ × ℕ × ℕ}
    (hp : (forestOf L E).IsPair (scheme H base) 0 p) :
    ∃ i j, (forestOf L E).pairTree 0 p = .node (.leaf i) (.leaf j) ∧ i < nhashes ∧ j < nhashes ∧
    i / 2 = j / 2 ∧
      i ≠ j ∧ ¬LastEq (leafHash H base i) (leafHash H base j) := by
  -- The first round then joins siblings only
  have hdigit := hE.digitEq_of_isPair (Nat.zero_le 8) hp
  have hmeets := hp.meets.2
  rw [if_neg (by decide)] at hmeets
  have hi : (forestOf L E).leafAt p.1 p.2.1 < nhashes := hE.sound.leaf _ _ hp.bucket hp.stored_left
  have hj : (forestOf L E).leafAt p.1 p.2.2 < nhashes := hE.sound.leaf _ _ hp.bucket hp.stored
  refine ⟨_, _, rfl, hi, hj, ?_, fun heq => ?_, hmeets⟩
  · rw [Forest.tree, Forest.tree, Tree.order, Tree.order] at hdigit
    rwa [hH.digitEq_iff hd (Nat.zero_le 9) (by simpa using hi) (by simpa using hj), xorDigits_singleton,
      xorDigits_singleton, h0, h0] at hdigit
  · have := hE.distinct.leaf (p.1, p.2.1) (p.1, p.2.2) hp.stored_left hp.stored hp.bucket hp.bucket heq
    have hlt := hp.lt
    rw [Prod.mk.injEq] at this
    omega

theorem Siblings.lastEq (hS : Siblings d m) (hH : HasDigits d H base) {i j : ℕ} (hi : i < nhashes)
    (hj : j < nhashes) (hi' : 2 ^ m ≤ i) (hj' : 2 ^ m ≤ j) :
    LastEq (leafHash H base i) (leafHash H base j) := by
  rw [← xorHash_singleton, ← xorHash_singleton]
  refine hH.lastEq (by simpa using hi) (by simpa using hj) fun r hr => ?_
  rw [xorDigits_singleton, xorDigits_singleton, hS.rest i hi hi' r hr, hS.rest j hj hj' r hr]

/-- The pairs of a round are sibling runs. -/
theorem Rounds.exists_run (hE : Rounds L H base E) (hS : Siblings d m) (hH : HasDigits d H base)
    {r : ℕ} (hr : r ≤ 8) {p : ℕ × ℕ × ℕ} (hp : (forestOf L E).IsPair (scheme H base) r p) :
    ∃ k < 2 ^ (m - (r + 1)), ((forestOf L E).pairTree r p).order = run (r + 1) k := by
  obtain ⟨hm9, hm22⟩ := hS.room
  have hpow : ∀ r, r ≤ 8 → 2 ^ (m - r) = 2 * 2 ^ (m - (r + 1)) := by
    intro r hr
    rw [show m - r = m - (r + 1) + 1 by omega, Nat.pow_succ, Nat.mul_comm]
  induction r generalizing p with
  | zero =>
    obtain ⟨i0, i1, htree, hi0, hi1, hsib, hne, hlast⟩ := hE.siblings_of_isPair hH hS.lt hS.leaf hp
    have heven := hpow 0 (Nat.zero_le 8)
    have hsmall : i0 < 2 ^ m := by
      refine Nat.lt_of_not_le fun hge => hlast (hS.lastEq hH hi0 hi1 hge ?_)
      rw [Nat.sub_zero] at heven
      omega
    have hrun : ∀ i, [i] = run 0 i := fun i => by rw [run, Nat.pow_zero, Nat.mul_one, List.range'_one]
    refine ⟨i0 / 2, by rw [Nat.sub_zero] at heven; omega, ?_⟩
    rw [htree, Tree.order, Tree.order, Tree.order, hrun, hrun, mergeOrder_run hsib hne]
  | succ r ih =>
    have hdigit := hE.digitEq_of_isPair hr hp
    have hentry := fun s hs => ih (by omega) (hE.sound.pair r (by omega) p.1 s hp.bucket hs)
    obtain ⟨k0, hk0, h0⟩ := hentry p.2.1 hp.stored_left
    obtain ⟨k1, hk1, h1⟩ := hentry p.2.2 hp.stored
    rw [← Forest.tree_succ] at h0 h1
    rw [h0, h1,
      hH.digitEq_iff hS.lt (by omega) (mem_run_lt hm22 (by omega) hk0)
        (mem_run_lt hm22 (by omega) hk1),
      hS.digit hr hk0, hS.digit hr hk1] at hdigit
    have hne : k0 ≠ k1 := by
      rintro rfl
      have := hE.distinct.entry_unique hE.sound (by omega) (run (r + 1) k0) (p.1, p.2.1) (p.1, p.2.2) (nodup_run _ _)
        ⟨hp.bucket, hp.stored_left, h0⟩ ⟨hp.bucket, hp.stored, h1⟩
      have hlt := hp.lt
      rw [Prod.mk.injEq] at this
      omega
    have hhalf := hpow (r + 1) hr
    exact ⟨k0 / 2, by omega, by rw [Forest.pairTree, Tree.order, h0, h1, mergeOrder_run hdigit hne]⟩

/-- No bucket overflows, whatever the layout and the order of the requests. -/
theorem Rounds.noOverflow_of_siblings (hE : Rounds L H base E) (hS : Siblings d m)
    (hH : HasDigits d H base) : NoOverflow E := by
  intro r hr b hb
  cases r with
  | zero => exact hE.leaves_fit hH hS.lt hS.leaf hb
  | succ r =>
    obtain ⟨hm9, hm22⟩ := hS.room
    obtain ⟨qs, hserved⟩ := hE.served (r := r) (by omega) (hE.layer (by omega))
    set place := (E r).roundPlacement L (r + 1) with hplace
    set start := fun p : ℕ × ℕ × ℕ => ((forestOf L E).pairTree r p).order.headD 0 / 2 ^ (r + 1) with hstart
    have hrun : ∀ p ∈ qs, ((forestOf L E).pairTree r p).order = run (r + 1) (start p) ∧
        start p < 2 ^ (m - (r + 1)) := by
      intro p hp
      obtain ⟨k, hlt, hk⟩ := hE.exists_run hS hH (by omega) ((hserved.mem p).mp hp)
      have hk' : start p = k := by
        rw [hstart]
        dsimp only
        rw [hk, headD_run, Nat.mul_div_cancel _ (Nat.two_pow_pos _)]
      rw [hk']
      exact ⟨hk, hlt⟩
    have hinj : ∀ p ∈ qs, ∀ p' ∈ qs, start p = start p' → p = p' := by
      intro p hp p' hp' heq
      have hk := (hrun p hp).1
      have hk' := (hrun p' hp').1
      exact hE.sound.pair_unique (by omega) (hE.distinct.entry_unique hE.sound (by omega))
        ((hserved.mem p).mp hp) ((hserved.mem p').mp hp') (by rw [hk]; exact nodup_run _ _) (by rw [hk, hk', heq])
    -- The bucket of a run is what its number starts with
    have hsub : (place.at b qs).map start ⊆ List.range' (b * 256) 256 := by
      intro k hk
      obtain ⟨p, hp, rfl⟩ := List.mem_map.mp hk
      obtain ⟨hpqs, hkey⟩ := List.mem_filter.mp hp
      obtain ⟨horder, hlt⟩ := hrun p hpqs
      have hkey' := (hserved.key p hpqs).symm.trans (of_decide_eq_true hkey)
      have hsum : ((forestOf L E).pairTree r p).sum (leafHash H base) =
          xorHash H base ((forestOf L E).pairTree r p).order := (Tree.sum_order ..).symm
      rw [hsum, horder, hH.bucketOf_xorHash hS.lt (by omega) (mem_run_lt hm22 (by omega) hlt),
        hS.digit hr hlt] at hkey'
      rw [List.mem_range'_1]
      omega
    have hnodup : ((place.at b qs).map start).Nodup :=
      (List.Nodup.filter _ hserved.nodup).map_on fun p hp p' hp' =>
        hinj p (List.mem_of_mem_filter hp) p' (List.mem_of_mem_filter hp')
    have hlen := (List.subperm_of_subset hnodup hsub).length_le
    rw [List.length_map, List.length_range'] at hlen
    rw [hserved.count b hb]
    exact Nat.le_trans hlen (by decide)

theorem Rounds.run_mem (hE : Rounds L H base E) (hS : Siblings d m)
    (hH : HasDigits d H base) {k : ℕ} (hk : k < 2 ^ (m - 9)) :
    run 9 k ∈ vectors (forestOf L E) ((E 8).roundPairs L 9) :=
  (hE.mem_vectors_iff (hE.noOverflow_of_siblings hS hH)).mpr
    ⟨mem_run_lt hS.room.2 hS.room.1 hk,
      (balanced_joins_iff (show (run 9 k).length = 512 from length_run 9 k)).mpr (hS.balanced hH hk)⟩

end Forest

section Many

/-- Digit `r` of leaf `i`. The siblings of each height agree in the digit of that height, and every
run of 512 leaves is a solution. -/
def orchard (i r : ℕ) : ℕ :=
  if r = 0 then i / 2
  else if r = 9 then Nat.gcd i 256
  else if r < 9 ∧ 2 ^ r ∣ i then i / 2 ^ (r + 1)
  else 0

def orchardHash : Blake2b := hashOfDigits orchard

theorem hasDigits_orchardHash (base : Blake2bState) :
    HasDigits orchard orchardHash base := hasDigits_of_eq fun _ => rfl

theorem orchard_lt : ∀ i < nhashes, ∀ r, orchard i r < 2 ^ 21 := by
  intro i hi r
  have hi' : i < 2 ^ 22 := hi
  rw [orchard]
  split_ifs with h0 h9 hr
  · omega
  · exact Nat.lt_of_le_of_lt (Nat.gcd_le_right i (by decide)) (by decide)
  · have hle : i / 2 ^ (r + 1) ≤ i / 2 ^ 1 :=
      Nat.div_le_div_left (Nat.pow_le_pow_right (by decide) (by omega)) (by decide)
    omega
  · exact Nat.two_pow_pos 21

theorem orchard_run {r : ℕ} (hr : 1 ≤ r) (hr8 : r ≤ 8) {h : ℕ} (hh : h ≤ r) (k : ℕ) :
    xorDigits orchard r (run h k) = orchard (k * 2 ^ h) r := by
  induction h generalizing k with
  | zero => exact (xorDigits_singleton r _).trans (by rw [Nat.pow_zero])
  | succ h ih =>
    have hodd : orchard ((2 * k + 1) * 2 ^ h) r = 0 := by
      have hndvd : ¬2 ^ r ∣ (2 * k + 1) * 2 ^ h := by
        intro hdvd
        have h1 : 2 ^ (h + 1) ∣ (2 * k + 1) * 2 ^ h := Nat.dvd_trans (Nat.pow_dvd_pow 2 hh) hdvd
        rw [Nat.pow_succ', Nat.mul_dvd_mul_iff_right (Nat.two_pow_pos h)] at h1
        omega
      rw [orchard, if_neg (by omega), if_neg (by omega), if_neg fun hc => hndvd hc.2]
    rw [run_succ, xorDigits_append, ih (by omega), ih (by omega), hodd, Nat.xor_zero, Nat.pow_succ',
      Nat.mul_left_comm, Nat.mul_assoc]

theorem gcd_odd_run {h : ℕ} (hh : h ≤ 8) (k : ℕ) : Nat.gcd ((2 * k + 1) * 2 ^ h) 256 = 2 ^ h := by
  have htwo : Nat.Coprime (2 * k + 1) 2 := by
    rw [Nat.Coprime, Nat.gcd_comm, Nat.gcd_rec, Nat.mul_add_mod]
    rfl
  have hodd : Nat.Coprime (2 * k + 1) (2 ^ (8 - h)) := htwo.pow_right _
  rw [show 256 = 2 ^ (8 - h) * 2 ^ h by rw [← Nat.pow_add, Nat.sub_add_cancel hh],
    Nat.gcd_mul_right, hodd, Nat.one_mul]

/-- The last digit of a run: only its first index and its height count. -/
theorem orchard_nine_run {h : ℕ} (hh : h ≤ 9) (k : ℕ) :
    xorDigits orchard 9 (run h k) = Nat.gcd (k * 2 ^ h) 256 ^^^ 2 ^ h / 2 := by
  induction h generalizing k with
  | zero =>
    rw [run, Nat.pow_zero, Nat.mul_one, List.range'_one, xorDigits_singleton]
    exact (Nat.xor_zero _).symm
  | succ h ih =>
    have hcancel : ∀ a b c : ℕ, (a ^^^ b) ^^^ (c ^^^ b) = a ^^^ c := fun a b c => by
      rw [Nat.xor_comm c b, Nat.xor_assoc, ← Nat.xor_assoc b b c, Nat.xor_self, Nat.zero_xor]
    rw [run_succ, xorDigits_append, ih (by omega), ih (by omega), hcancel, gcd_odd_run (by omega),
      Nat.pow_succ', Nat.mul_div_cancel_left _ (by decide), Nat.mul_left_comm, Nat.mul_assoc]

theorem orchard_digit {r : ℕ} (hr : 1 ≤ r) (hr8 : r ≤ 8) (k : ℕ) :
    xorDigits orchard r (run r k) = k / 2 := by
  rw [orchard_run hr hr8 (Nat.le_refl r), orchard, if_neg (by omega), if_neg (by omega),
    if_pos ⟨by omega, Nat.dvd_mul_left _ _⟩, Nat.pow_succ, Nat.mul_comm k,
      Nat.mul_div_mul_left _ _ (Nat.two_pow_pos r)]

theorem orchard_root (k : ℕ) : xorDigits orchard 9 (run 9 k) = 0 := by
  have hgcd : Nat.gcd (k * 2 ^ 9) 256 = 256 := Nat.gcd_eq_right ⟨k * 2, by omega⟩
  rw [orchard_nine_run (Nat.le_refl 9), hgcd]
  rfl

theorem orchard_below {h : ℕ} (hh : h < 9) (k : ℕ) : xorDigits orchard 9 (run h k) ≠ 0 := by
  have hdvd : 2 ^ h ∣ Nat.gcd (k * 2 ^ h) 256 :=
    Nat.dvd_gcd (Nat.dvd_mul_left _ _) (Nat.pow_dvd_pow 2 (show h ≤ 8 by omega))
  have hle := Nat.le_of_dvd (Nat.gcd_pos_of_pos_right _ (by decide)) hdvd
  have hpos := Nat.two_pow_pos h
  rw [orchard_nine_run (by omega)]
  intro hzero
  have := Nat.xor_eq_zero_iff.mp hzero
  omega

theorem siblings_orchard : Siblings orchard 22 where
  room := by decide
  lt := orchard_lt
  leaf _ := rfl
  agree r hr hr8 k _ := orchard_digit hr hr8 k
  root k _ := orchard_root k
  below h hh k _ := orchard_below hh k
  rest i hi hge := absurd hi (Nat.not_lt_of_le hge)

end Many

section One

/-- Digit `r` of leaf `i`. Below 512 the siblings of each height agree in the digit of that height;
the other leaves agree with one leaf in digit 0, and with it in all digits. -/
def plan (i r : ℕ) : ℕ :=
  if r = 0 then i / 2
  else if i < 512 then
    if r = 9 then Nat.gcd i 256
    else if r < 9 ∧ 2 ^ r ∣ i then i / 2 ^ (r + 1) else 0
  else 0

abbrev Planted (H : Blake2b) (base : Blake2bState) : Prop := HasDigits plan H base

def plantedHash : Blake2b := hashOfDigits plan

theorem planted_plantedHash (base : Blake2bState) :
    Planted plantedHash base := hasDigits_of_eq fun _ => rfl

theorem plan_lt : ∀ i < nhashes, ∀ r, plan i r < 2 ^ 21 := by
  intro i hi r
  have hi' : i < 2 ^ 22 := hi
  rw [plan]
  split_ifs
  · omega
  · exact Nat.lt_of_le_of_lt (Nat.gcd_le_right i (by decide)) (by decide)
  · exact Nat.lt_of_le_of_lt (Nat.div_le_self _ _) (by omega)
  · exact Nat.two_pow_pos 21
  · exact Nat.two_pow_pos 21

theorem xorDigits_plan_run (r : ℕ) {h k : ℕ} (hh : h ≤ 9) (hk : k < 2 ^ (9 - h)) :
    xorDigits plan r (run h k) = xorDigits orchard r (run h k) := by
  have hle : k * 2 ^ h + 2 ^ h ≤ 512 := run_le hh hk
  refine congrArg (List.foldr (· ^^^ ·) 0) (List.map_congr_left fun i hi => ?_)
  have hlt : i < 512 := by have := (mem_run.mp hi).2; omega
  rw [plan, orchard, if_pos hlt]

theorem siblings_plan : Siblings plan 9 where
  room := by decide
  lt := plan_lt
  leaf _ := rfl
  agree r hr hr8 k hk := by rw [xorDigits_plan_run r (by omega) hk, orchard_digit hr hr8]
  root k hk := by rw [xorDigits_plan_run 9 (Nat.le_refl 9) hk, orchard_root]
  below h hh k hk := by
    rw [xorDigits_plan_run 9 (by omega) hk]
    exact orchard_below hh k
  rest i _ hi r hr := by
    have hi' : 512 ≤ i := hi
    rw [plan, if_neg (by omega), if_neg (by omega)]

variable {L : Layout} {H : Blake2b} {base : Blake2bState} {E : ℕ → Memory}

theorem balanced_of_planted (hH : Planted H base) :
    (Balanced (PairOk H base) 9 (run 9 0) ∧ DigitEq 9 (xorHash H base (run 9 0)) 0) ∧
      ∀ h, 1 ≤ h → h ≤ 8 → ∀ k < 2 ^ (9 - h), ¬LastZero (xorHash H base (block (run 9 0) h k)) :=
  siblings_plan.balanced hH (by decide)

theorem Rounds.pair_run (hE : Rounds L H base E) (hH : Planted H base) {r : ℕ} (hr : r ≤ 8)
    {p : ℕ × ℕ × ℕ} (hp : (forestOf L E).IsPair (scheme H base) r p) :
    ∃ k < 2 ^ (8 - r), ((forestOf L E).pairTree r p).order = run (r + 1) k := by
  obtain ⟨k, hk, horder⟩ := hE.exists_run siblings_plan hH hr hp
  exact ⟨k, by rwa [show 8 - r = 9 - (r + 1) by omega], horder⟩

theorem Rounds.noOverflow_of_planted (hE : Rounds L H base E) (hH : Planted H base) :
    NoOverflow E :=
  hE.noOverflow_of_siblings siblings_plan hH

/-- The last round joins one pair at most. -/
theorem Rounds.length_roundPairs_of_planted (hE : Rounds L H base E) (hH : Planted H base) :
    ((E 8).roundPairs L 9).length ≤ 1 := by
  have hpair := fun p => (mem_roundPairs_iff (p := p) (by decide) (hE.layer (Nat.le_refl 8))).mp
  have hsame : ∀ p ∈ (E 8).roundPairs L 9, ((forestOf L E).pairTree 8 p).order = run 9 0 := by
    intro p hp
    obtain ⟨k, hk, horder⟩ := hE.pair_run hH (Nat.le_refl 8) (hpair p hp)
    rw [horder, Nat.lt_one_iff.mp hk]
  by_contra hlen
  have h0 := List.getElem_mem (l := (E 8).roundPairs L 9) (n := 0) (by omega)
  have h1 := List.getElem_mem (l := (E 8).roundPairs L 9) (n := 1) (by omega)
  have heq := hE.sound.pair_unique (Nat.le_refl 8) (hE.distinct.entry_unique hE.sound (Nat.le_refl 8))
    (hpair _ h0) (hpair _ h1) (by rw [hsame _ h0]; exact nodup_run 9 0) (by rw [hsame _ h0, hsame _ h1])
  exact absurd (nodup_roundPairs.getElem_inj_iff.mp heq) (by decide)

theorem Rounds.planted_mem (hE : Rounds L H base E) (hH : Planted H base) :
    run 9 0 ∈ vectors (forestOf L E) ((E 8).roundPairs L 9) :=
  hE.run_mem siblings_plan hH (by decide)

end One

end Aion.Solver
