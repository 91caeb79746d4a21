import AionMiner.Cuda.Context
import AionMiner.Solver.Crowd

/-! What counters of `heap1` left behind do to the next call. Once they say that a bucket is full,
`digit_1` stores nothing in it, and the later rounds find the entries of the call before instead of
those of this one. -/

namespace Aion.Cuda
open Bits Equihash Solver Store Wagner Equi

section Idle
variable {H : Blake2b} {n r : ℕ} {header nonce : List Byte} {e : Equi}

theorem no_pairs_of_empty {M : Memory} (hzero : ∀ b < nbuckets, M.nslots ((r - 1) % 2) b = 0)
    (p : ℕ × ℕ × ℕ) : p ∉ M.roundPairs layout r := by
  intro hp
  obtain ⟨hb, -, hs, -⟩ := mem_roundPairs.mp hp
  rw [Memory.bsize, hzero _ hb] at hs
  omega

theorem no_pairs_of_crowded {M : Memory} (hM : Alike layout M) (p : ℕ × ℕ × ℕ) :
    p ∉ M.roundPairs layout 2 := by
  -- The entries of a crowd are told apart by nothing `digit_2` looks at
  intro hp
  obtain ⟨hb, hlt, hs, -, hkeeps⟩ := mem_roundPairs.mp hp
  have hmax : p.2.2 < nslotsMax := Nat.lt_of_lt_of_le hs (Nat.min_le_right _ _)
  by_cases h0 : p.1 = 0
  · rw [keeps, if_neg (by decide), h0, hM.same _ (Nat.lt_trans hlt hmax) _ hmax] at hkeeps
    cases hkeeps
  · rw [Memory.bsize, hM.others _ hb h0] at hs
    omega

theorem nsols_after (hn : 0 < n) (hr : r ≤ 8) : (after H n header nonce e r).nsols = 0 := by
  induction r with
  | zero =>
    have hview := (Kernel.exec_spec (digitH_local H) hn nblocks (e.setheadernonce header nonce)).2.1
    simp only [Prod.mk.injEq] at hview
    exact hview.2.2.2.2
  | succ r ih =>
    have hview := (Kernel.exec_spec (digitXor_local (r := r + 1) (by omega)) hn nbuckets
      (after H n header nonce e r)).2.1
    simp only [Prod.mk.injEq] at hview
    rw [after_digit (by omega), hview.2.2.2]
    exact ih (by omega)

theorem empty_succ (hn : 0 < n) (hr : r < 8)
    (hpairs : ∀ p, p ∉ (after H n header nonce e r).mem.roundPairs layout (r + 1))
    (hzero : ∀ b < nbuckets, (after H n header nonce e r).mem.nslots ((r + 1) % 2) b = 0) :
    ∀ i < 2, ∀ b < nbuckets, (after H n header nonce e (r + 1)).mem.nslots i b = 0 := by
  -- A round without pairs leaves nothing, if there was nothing in the buckets it writes to
  intro i hi b hb
  have hnil : pairOrder n (r + 1) (after H n header nonce e r).mem = [] :=
    List.eq_nil_iff_forall_not_mem.mpr fun p hp => hpairs p ((pairOrder_perm hn _ _).mem_iff.mp hp)
  rcases (show i = r % 2 ∨ i = (r + 1) % 2 by omega) with rfl | rfl
  · exact cleared_after hn hr hb
  · have hput := buckets_after_digit H header nonce e hn hr
    rw [hnil] at hput
    exact (congrFun (congrArg Buckets.count hput) b).trans (hzero b hb)

end Idle

section Crowded
variable {H : Blake2b} {n : ℕ} {header nonce : List Byte} {e : Equi}

theorem key_after_zero (hn : 0 < n) (hH : Planted H (setheader header nonce)) {p : ℕ × ℕ × ℕ}
    (hp : p ∈ (after H n header nonce e 0).mem.roundPairs layout 1) :
    ((after H n header nonce e 0).mem.roundPlacement layout 1).key p = 0 := by
  -- The planted pairs of the first round all go to bucket 0
  -- the same solve on a context whose counters are clear
  set d : Equi := { e with mem := ⟨e.mem.heap, fun _ _ => 0⟩ } with hd
  have hE := ((solve_after H n header nonce d).rounds hn fun _ _ => rfl).1
  have hsame : (after H n header nonce e 0).mem.buckets 0 =
      (after H n header nonce d 0).mem.buckets 0 := by
    rw [buckets_after_zero hn, buckets_after_zero hn]
  set M := (after H n header nonce e 0).mem with hM
  set M' := (after H n header nonce d 0).mem with hM'
  have hheap : M.heap 0 = M'.heap 0 := congrArg Buckets.slot hsame
  have hcount : M.nslots 0 = M'.nslots 0 := congrArg Buckets.count hsame
  have hprev : ∀ b s, M.prevHash layout 1 b s = M'.prevHash layout 1 b s :=
    Memory.prevHash_congr hheap
  have hrest : ∀ b s, M.rest layout 1 b s = M'.rest layout 1 b s := Memory.rest_congr hheap
  have hsize : ∀ b, M.bsize 1 b = M'.bsize 1 b :=
    fun b => congrArg (min · nslotsMax) (congrFun hcount b)
  have hp' : p ∈ M'.roundPairs layout 1 := by
    rw [mem_roundPairs] at hp ⊢
    rwa [← hprev, ← hprev, ← hrest, ← hrest, ← hsize]
  obtain ⟨qs, hserved⟩ := hE.served (r := 0) (by decide) hE.layer_zero
  have hpair := (mem_roundPairs_iff (r := 0) (by decide) hE.layer_zero).mp hp'
  obtain ⟨k, hk, horder⟩ := hE.pair_run hH (Nat.zero_le 8) hpair
  have hkey := hserved.key p ((hserved.mem p).mpr hpair)
  rw [← Tree.sum_order, horder] at hkey
  change M.pairKey layout 1 p = 0
  rw [Memory.pairKey, hprev, hprev]
  refine hkey.trans ((hH.bucketOf_xorHash plan_lt (by decide) (run_lt_nhashes (by decide) hk)).trans ?_)
  rw [siblings_plan.digit (by decide) hk]
  omega

theorem alike_after_one (hn : 0 < n) (he : Crowded layout e.mem)
    (hH : Planted H (setheader header nonce)) : Alike layout (after H n header nonce e 1).mem := by
  -- `digit_1` turns all planted pairs away, and the entries of the crowd stay
  have hheap1 := heap1_after_zero H header nonce e hn
  have hput := buckets_after_digit H header nonce e hn (r := 0) (by decide)
  have hlen := length_roundPairs_le (L := layout) (r := 1) (M := (after H n header nonce e 0).mem)
  rw [← (pairOrder_perm hn 1 (after H n header nonce e 0).mem).length_eq] at hlen
  have hroom := he.room
  have hfit : nbuckets * 130816 + nbuckets * 130816 < 2 ^ 32 := by decide
  have hfull := Buckets.putAll_of_full (P := (after H n header nonce e 0).mem.roundPlacement layout 1)
    (B := (after H n header nonce e 0).mem.buckets 1) (k := 0)
    (show ∀ p ∈ pairOrder n 1 (after H n header nonce e 0).mem, _ from
      fun p hp => key_after_zero hn hH ((pairOrder_perm hn _ _).mem_iff.mp hp))
    (by rw [hheap1]; exact he.full)
    (by rw [hheap1]; exact Nat.lt_of_le_of_lt (Nat.add_le_add hroom hlen) hfit)
  rw [hfull, hheap1] at hput
  have hheap : (after H n header nonce e 1).mem.heap 1 = e.mem.heap 1 := congrArg Buckets.slot hput
  refine ⟨fun b hb hne => ?_, fun s0 h0 s1 h1 => ?_⟩
  · exact (congrFun (congrArg Buckets.count hput) b).trans
      ((Function.update_of_ne hne _ _).trans (he.others b hb hne))
  · have hprev : ∀ s, (after H n header nonce e 1).mem.prevHash layout 2 0 s =
        e.mem.prevHash layout 2 0 s :=
      Memory.prevHash_congr hheap 0
    rw [hprev, hprev]
    exact he.same s0 h0 s1 h1

theorem empty_after (hn : 0 < n) (he : Crowded layout e.mem)
    (hH : Planted H (setheader header nonce)) {r : ℕ} (hr : 2 ≤ r) (hr8 : r ≤ 8) :
    ∀ i < 2, ∀ b < nbuckets, (after H n header nonce e r).mem.nslots i b = 0 := by
  induction r, hr using Nat.le_induction with
  | base =>
    exact empty_succ hn (by decide) (no_pairs_of_crowded (alike_after_one hn he hH)) fun b hb =>
      cleared_after hn (r := 0) (by decide) hb
  | succ r hr ih =>
    have ih := ih (by omega)
    exact empty_succ hn (by omega) (no_pairs_of_empty fun b hb => ih _ (Nat.mod_lt _ (by decide)) b hb) fun b hb =>
      ih _ (Nat.mod_lt _ (by decide)) b hb

/-- A call that finds `heap1` crowded hands over nothing. -/
theorem solve_of_crowded {c : Call} (hn : 0 < n) (he : Crowded layout e.mem) (hc : c.Uncancelled)
    (hH : Planted H (setheader c.header c.nonce)) : (solve H n c e).1 = [] := by
  have hnil : proofOrder n (after H n c.header c.nonce e 8).mem = [] := by
    refine List.eq_nil_iff_forall_not_mem.mpr fun p hp => ?_
    exact no_pairs_of_empty (fun b hb => empty_after hn he hH (by decide) (Nat.le_refl 8) _ (by decide) b hb) p
      ((mem_proofOrder hn).mp hp).1
  have hput := (Kernel.exec_spec digit9_local hn nbuckets (after H n c.header c.nonce e 8)).1
  rw [← after_nine, requestOrder_digit9, hnil] at hput
  have hnsols : (after H n c.header c.nonce e 9).nsols = 0 :=
    (congrFun (congrArg Buckets.count hput) ()).trans (nsols_after hn (Nat.le_refl 8))
  rw [solve_uncancelled hc, hnsols, Nat.zero_min]
  rfl

theorem run_mem_solve {c : Call} (hn : 0 < n) (he : Drained e) (hc : c.Uncancelled)
    (hH : Planted H (setheader c.header c.nonce)) : run 9 0 ∈ (solve H n c e).1 := by
  have hsolve := solve_after H n c.header c.nonce e
  have hE := (hsolve.rounds hn he).1
  have hmax : (after H n c.header c.nonce e 9).nsols ≤ maxsols :=
    (hsolve.nsols_le hn he).trans ((hE.length_roundPairs_of_planted hH).trans (by decide))
  obtain ⟨-, s, hs, hsol⟩ := (hsolve.mem_recorded_iff hn he hmax).mpr (hE.planted_mem hH)
  rw [solve_uncancelled hc, ← hsol]
  exact List.mem_map_of_mem (List.mem_range.mpr hs)

end Crowded

section Calls

/-- A crowd for the headers that start with 1, the planted solution for all others. -/
def mixedHash : Blake2b := fun s => hashOfDigits (if s.absorbed.head? = some 1 then crowd else plan) s

/-- A call cancelled behind `digit_1` changes what the next call hands over. -/
theorem solve_depends : ¬∃ F : List Byte → List Byte → List (List ℕ),
    ∀ (calls : List Call) (c : Call), c.Uncancelled →
    (solve mixedHash 1 c (contextAfter mixedHash 1 calls Equi.zeroed)).1 = F c.header c.nonce := by
  rintro ⟨F, hF⟩
  set a : Call := ⟨1 :: List.replicate 31 0, List.replicate 32 0, fun k => k == 1⟩ with ha
  set c : Call := ⟨List.replicate 32 0, List.replicate 32 0, fun _ => false⟩ with hc
  have hcrowd : HasDigits crowd mixedHash (setheader a.header a.nonce) :=
    hasDigits_of_eq fun _ => rfl
  have hplan : Planted mixedHash (setheader c.header c.nonce) := hasDigits_of_eq fun _ => rfl
  have hcrowded : Crowded layout (contextAfter mixedHash 1 [a] Equi.zeroed).mem := by
    have hE := ((solve_after mixedHash 1 a.header a.nonce Equi.zeroed).rounds Nat.one_pos fun _ _ => rfl).1
    rcases solve_cases mixedHash 1 a Equi.zeroed with ⟨k, -, hk, -, heq⟩ | ⟨hrun, -⟩
    · obtain rfl : k = 1 := beq_iff_eq.mp hk
      rw [contextAfter, List.foldl_cons, List.foldl_nil, heq]
      exact hE.crowded hcrowd
    · exact absurd (hrun 1 (by decide)) (by decide)
  have hfirst := hF [] c fun _ => rfl
  rw [← hF [a] c fun _ => rfl, solve_of_crowded Nat.one_pos hcrowded (fun _ => rfl) hplan] at hfirst
  have hmem := run_mem_solve (c := c) Nat.one_pos (e := Equi.zeroed) (fun _ _ => rfl) (fun _ => rfl) hplan
  exact List.not_mem_nil (hfirst ▸ hmem)

end Calls
end Aion.Cuda
