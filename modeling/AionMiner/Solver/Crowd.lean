import AionMiner.Solver.Planted

/-! Hashes that crowd one bucket: under them the first round joins siblings only, and the entries it
stores are all in bucket 0 and cannot be told apart by their last words. -/

namespace Aion.Solver
open Bits Equihash Wagner Store

def crowd (i r : ℕ) : ℕ := if r = 0 then i / 2 else if r = 9 then i % 2 else 0

theorem crowd_lt : ∀ i < nhashes, ∀ r, crowd i r < 2 ^ 21 := by
  intro i hi r
  have hi' : i < 2 ^ 22 := hi
  unfold crowd
  split_ifs <;> omega

theorem xorDigits_crowd {i j : ℕ} (hsib : i / 2 = j / 2) (hne : i ≠ j) {r : ℕ} (hr : 0 < r) :
    xorDigits crowd r [i, j] = if r = 9 then 1 else 0 := by
  -- All pairs of siblings have the same digits from digit 1 on
  have hparity : i % 2 ^^^ j % 2 = 1 := by
    rcases Nat.mod_two_eq_zero_or_one i with hi | hi <;> rcases Nat.mod_two_eq_zero_or_one j with hj | hj
    · omega
    · simp [hi, hj]
    · simp [hi, hj]
    · omega
  simp only [xorDigits, crowd, List.map_cons, List.map_nil, List.foldr_cons, List.foldr_nil,
    if_neg hr.ne', Nat.xor_zero]
  split
  · exact hparity
  · rfl

variable {L : Layout} {H : Blake2b} {base : Blake2bState} {E : ℕ → Memory}

theorem Rounds.crowd_pair (hE : Rounds L H base E) (hH : HasDigits crowd H base) {p : ℕ × ℕ × ℕ}
    (hp : (forestOf L E).IsPair (scheme H base) 0 p) :
    ∃ i j, ((forestOf L E).pairTree 0 p).sum (leafHash H base) = xorHash H base [i, j] ∧
      (∀ k ∈ [i, j], k < nhashes) ∧ i / 2 = j / 2 ∧ i ≠ j := by
  -- The pairs of the first round under a crowd, and their place and last word
  obtain ⟨i, j, htree, hi, hj, hsib, hne, -⟩ := hE.siblings_of_isPair hH crowd_lt (fun _ => rfl) hp
  refine ⟨i, j, ?_, by simpa using ⟨hi, hj⟩, hsib, hne⟩
  rw [htree, Tree.sum, Tree.sum, Tree.sum, ← xorHash_singleton, ← xorHash_singleton,
    ← xorHash_append]
  rfl

theorem Rounds.exists_crowd_pair (hE : Rounds L H base E) (hH : HasDigits crowd H base) {m : ℕ}
    (hm : 2 * m + 1 < nhashes) :
    ∃ p, (forestOf L E).IsPair (scheme H base) 0 p ∧
    ((forestOf L E).pairTree 0 p).order = [2 * m, 2 * m + 1] := by
  have hsound : (forestOf L E).Sound (scheme H base) leafSet 0 :=
    ⟨hE.sound.leaf, fun h hh => absurd hh (Nat.not_lt_zero h), fun h hh => hE.sound.bucket h (by omega)⟩
  have hcomplete : (forestOf L E).Complete (scheme H base) leafSet 0 :=
    ⟨fun i hi => hE.complete_leaf hi (hE.leaves_fit hH crowd_lt (fun _ => rfl) (bucketOf_lt 0 _)),
      fun h hh => absurd hh (Nat.not_lt_zero h)⟩
  have hlt : ∀ i ∈ [2 * m, 2 * m + 1], i < nhashes := by
    simp only [List.mem_cons, List.not_mem_nil, or_false]
    rintro i (rfl | rfl) <;> omega
  have hdigit : DigitEq 0 (xorHash H base [2 * m]) (xorHash H base [2 * m + 1]) := by
    rw [hH.digitEq_iff crowd_lt (Nat.zero_le 9) (by simpa using hlt _ List.mem_cons_self) (by simpa using hm),
      xorDigits_singleton, xorDigits_singleton]
    change 2 * m / 2 = (2 * m + 1) / 2
    omega
  have hlast : ¬LastEq (xorHash H base [2 * m]) (xorHash H base [2 * m + 1]) := by
    rw [lastEq_iff, ← xorHash_append]
    refine hH.not_lastZero crowd_lt hlt ?_
    rw [List.singleton_append, xorDigits_crowd (by omega) (by omega) (by decide)]
    decide
  have hjoins : Forest.Joins (scheme H base) 0 [2 * m] [2 * m + 1] :=
    (joins_iff (by decide)).mpr ⟨⟨hdigit, Nat.lt_succ_self _, by simp⟩, hlast⟩
  exact (Forest.existsUnique_pairTree hsound hcomplete ⟨[2 * m], [2 * m + 1], rfl, rfl, rfl, hjoins⟩ hlt).exists

/-- All entries of `heap1` are in bucket 0, and their last words agree. -/
structure Alike (L : Layout) (M : Memory) : Prop where
  others : ∀ b < nbuckets, b ≠ 0 → M.nslots 1 b = 0
  same : ∀ s0 < nslotsMax, ∀ s1 < nslotsMax, equal 2 (M.prevHash L 2 0 s0) (M.prevHash L 2 0 s1) = true

/-- `heap1` as a crowd leaves it: bucket 0 is full as well. -/
structure Crowded (L : Layout) (M : Memory) : Prop extends Alike L M where
  full : nslotsMax ≤ M.nslots 1 0
  room : M.nslots 1 0 ≤ nbuckets * 130816

theorem Rounds.crowded (hE : Rounds L H base E) (hH : HasDigits crowd H base) :
    Crowded L (E 1) := by
  obtain ⟨qs, hserved⟩ := hE.served (r := 0) (by decide) hE.layer_zero
  have hkey : ∀ p ∈ qs, ((E 0).roundPlacement L 1).key p = 0 := by
    intro p hp
    obtain ⟨i, j, hsum, hlt, hsib, hne⟩ := hE.crowd_pair hH ((hserved.mem p).mp hp)
    rw [hserved.key p hp, hsum, hH.bucketOf_xorHash crowd_lt (by decide) hlt,
      xorDigits_crowd hsib hne (by decide)]
    rfl
  have hat : ∀ b < nbuckets, ((E 0).roundPlacement L 1).at b qs = if b = 0 then qs else [] := by
    intro b _
    split
    · next h => exact List.filter_eq_self.mpr fun p hp => by rw [hkey p hp, h, decide_eq_true rfl]
    · next h => exact List.filter_eq_nil_iff.mpr fun p hp => by simpa [hkey p hp] using Ne.symm h
  have hcount : (E 1).nslots 1 0 = qs.length := by
    have := hserved.count 0 (by decide)
    rwa [hat 0 (by decide), if_pos rfl] at this
  have hfull : nslotsMax ≤ qs.length := by
    set head := fun p : ℕ × ℕ × ℕ => ((forestOf L E).pairTree 0 p).order.headD 0 / 2 with hhead
    have hsub : List.range nslotsMax ⊆ qs.map head := by
      intro m hm
      have hm : m < 512 := List.mem_range.mp hm
      have h22 : nhashes = 2 ^ 22 := rfl
      obtain ⟨p, hp, horder⟩ := hE.exists_crowd_pair hH (m := m) (by omega)
      refine List.mem_map.mpr ⟨p, (hserved.mem p).mpr hp, ?_⟩
      rw [hhead]
      dsimp only
      rw [horder]
      exact Nat.mul_div_cancel_left m Nat.zero_lt_two
    have := (List.subperm_of_subset List.nodup_range hsub).length_le
    rwa [List.length_range, List.length_map] at this
  refine ⟨⟨fun b hb hne => ?_, fun s0 h0 s1 h1 => ?_⟩, by rw [hcount]; exact hfull, ?_⟩
  · have := hserved.count b hb
    rwa [hat b hb, if_neg hne] at this
  · have hstored : ∀ s < nslotsMax, s < (forestOf L E).count 1 0 := fun s hs =>
      Nat.lt_min.mpr ⟨by rw [hcount]; exact Nat.lt_of_lt_of_le hs hfull, hs⟩
    have hpair := fun s hs => hE.sound.pair 0 (by decide) 0 s (show 0 < nbuckets by decide) (hstored s hs)
    have hholds := fun s hs => (hserved.entry 0 (by decide) s (hstored s hs)).2
    rw [equal_iff (r := 1) (by decide) (hholds s0 h0) (hholds s1 h1)]
    obtain ⟨i, j, hsum, hlt, hsib, hne⟩ := hE.crowd_pair hH (hpair s0 h0)
    obtain ⟨i', j', hsum', hlt', hsib', hne'⟩ := hE.crowd_pair hH (hpair s1 h1)
    rw [Forest.hash, Forest.hash, Forest.tree_succ, Forest.tree_succ, scheme]
    dsimp only
    rw [hsum, hsum']
    exact hH.lastEq hlt hlt' fun r hr => by
      rw [xorDigits_crowd hsib hne (by omega), xorDigits_crowd hsib' hne' (by omega)]
  · rw [hcount, ((List.perm_ext_iff_of_nodup hserved.nodup nodup_roundPairs).mpr fun p => by
      rw [hserved.mem, mem_roundPairs_iff (by decide) hE.layer_zero]).length_eq]
    exact length_roundPairs_le

end Aion.Solver
