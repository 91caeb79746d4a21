import AionMiner.Cpu.Solutions
import AionMiner.Cuda.Candidates

/-! What a solve of the CUDA miner records, and that the two solvers agree on it
whatever the interleaving of the threads. -/

namespace Aion.Cuda
open Bits Equihash Solver Store Wagner Equi

section Order
variable {H : Blake2b} {n : ℕ} {header nonce : List Byte} {start : Equi} {e : ℕ → Equi}

theorem listindices_pair {base : Blake2bState} {E : ℕ → Memory} (hE : Solver.Rounds layout H base E)
    {p : ℕ × ℕ × ℕ} (hp : p ∈ (E 8).roundPairs layout 9) :
    listindices (E 8) 9 (tree p.1 p.2.1 p.2.2) = ((forestOf layout E).pairTree 8 p).order := by
  have hpair := (mem_roundPairs_iff (by decide) (hE.layer (Nat.le_refl 8))).mp hp
  have hcap : ∀ b, (forestOf layout E).count 8 b ≤ nslotsMax := fun b => Nat.min_le_right _ _
  exact listindices_eq hE rfl (Nat.le_refl 8) (decode_tree hpair.bucket
    (Nat.lt_of_lt_of_le hpair.stored_left (hcap _)) (Nat.lt_of_lt_of_le hpair.stored (hcap _)))

/-- As long as `sols` has room, its duplicate-free proofs are the vectors of the last layer. -/
theorem Solve.mem_recorded_iff (hs : Solve H n header nonce start e) (hn : 0 < n)
    (hzero : ∀ b < nbuckets, start.mem.nslots 1 b = 0) (hmax : (e 9).nsols ≤ maxsols) {v : List ℕ} :
    v ∈ recordedVectors (e 9).sols (e 9).nsols ↔
      v ∈ vectors (forestOf layout fun r => (e r).mem) ((e 8).mem.roundPairs layout 9) := by
  obtain ⟨hE, hnsols⟩ := hs.rounds hn hzero
  obtain ⟨qs, hqs, hproved⟩ := digit9_proved hn (hnsols 8 (Nat.le_refl 8)) hs.digit9
  have hmem : ∀ p, p ∈ qs ↔ p ∈ (e 8).mem.roundPairs layout 9 ∧
      probdupe (listindices (e 8).mem 9 (tree p.1 p.2.1 p.2.2)) = false := fun p => by
    rw [hqs.mem_iff, mem_proofOrder hn]
  constructor
  · rintro ⟨hnd, s, hs, rfl⟩
    have hs' : s < qs.length := by
      rw [← hproved.nsols]
      exact Nat.lt_of_lt_of_le hs (Nat.min_le_left _ _)
    have hp := ((hmem _).mp (List.getElem_mem hs')).1
    rw [hproved.sols s (Nat.lt_of_lt_of_le hs (Nat.min_le_right _ _)) _ (List.getElem?_eq_getElem hs')] at hnd ⊢
    exact mem_vectors.mpr ⟨hnd, _, hp, (listindices_pair hE hp).symm⟩
  · intro hv
    obtain ⟨hnd, p, hp, rfl⟩ := mem_vectors.mp hv
    have hlist := listindices_pair hE hp
    have hpq : p ∈ qs := by
      refine (hmem p).mpr ⟨hp, ?_⟩
      rw [hlist]
      exact probdupe_eq_false hnd (hE.balanced_of_mem hv).2.1
    obtain ⟨s, hs, hsp⟩ := List.mem_iff_getElem.mp hpq
    have hs' : s < maxsols := by
      rw [hproved.nsols] at hmax
      omega
    refine ⟨hnd, s, Nat.lt_min.mpr ⟨by rw [hproved.nsols]; exact hs, hs'⟩, ?_⟩
    rw [hproved.sols s hs' p (by rw [List.getElem?_eq_getElem hs, hsp])]
    exact hlist

theorem Solve.nsols_le (hs : Solve H n header nonce start e) (hn : 0 < n)
    (hzero : ∀ b < nbuckets, start.mem.nslots 1 b = 0) :
    (e 9).nsols ≤ ((e 8).mem.roundPairs layout 9).length := by
  obtain ⟨qs, hqs, hproved⟩ := digit9_proved hn ((hs.rounds hn hzero).2 8 (Nat.le_refl 8)) hs.digit9
  rw [hproved.nsols, hqs.length_eq, ← (pairOrder_perm hn 9 (e 8).mem).length_eq]
  exact List.length_filter_le _ _

end Order

section Sequential

/-- The states of a solve in which the threads of every kernel run one after the other. -/
def after (H : Blake2b) (n : ℕ) (header nonce : List Byte) (start : Equi) : ℕ → Equi
  | 0 => (digitH H).exec n nblocks (start.setheadernonce header nonce)
  | r + 1 =>
    if r < 8 then (digit (r + 1)).exec n nbuckets (after H n header nonce start r)
    else digit9.exec n nbuckets (after H n header nonce start r)

theorem solve_after (H : Blake2b) (n : ℕ) (header nonce : List Byte) (start : Equi) :
    Solve H n header nonce start (after H n header nonce start) where
  digitH := Kernel.runs_exec (digitH_local H) n nblocks _
  digit r hr hr8 := by
    obtain ⟨r, rfl⟩ := Nat.exists_eq_add_of_le' hr
    rw [after, if_pos (by omega), digit_eq hr hr8, Nat.add_sub_cancel]
    exact Kernel.runs_exec (digitXor_local hr) n nbuckets _
  digit9 := by
    have hlast : after H n header nonce start 9 = digit9.exec n nbuckets (after H n header nonce start 8) := by
      rw [after, if_neg (by decide)]
    rw [hlast]
    exact Kernel.runs_exec digit9_local n nbuckets _

end Sequential

section Agreement

/-- Both solvers record the same vectors of distinct indices. -/
theorem recorded_eq_cpu (H : Blake2b) (n : ℕ) (hn : 0 < n) (header nonce : List Byte) (start : Equi)
    (hzero : ∀ i < 2, ∀ b < nbuckets, start.mem.nslots i b = 0) (e : ℕ → Equi)
    (hsolve : Solve H n header nonce start e) (hgpu : NoOverflow fun r => (e r).mem)
    (hcpu : NoOverflow fun r => (Cpu.after H header nonce r).mem) (hmax : (e 9).nsols ≤ maxsols)
    (hmax' : (Cpu.after H header nonce 9).nsols ≤ maxsols) :
    recordedVectors (e 9).sols (e 9).nsols =
      recordedVectors (Cpu.after H header nonce 9).sols (Cpu.after H header nonce 9).nsols := by
  have hzero1 := hzero 1 (by decide)
  obtain ⟨hE, -⟩ := hsolve.rounds hn hzero1
  have hE' := Cpu.rounds_memAfter H header nonce
  refine Set.ext fun v => ?_
  rw [hsolve.mem_recorded_iff hn hzero1 hmax, Cpu.mem_recorded_iff hmax', hE.mem_vectors_iff hgpu,
    hE'.mem_vectors_iff hcpu]

theorem recorded_eq_cpu_planted :
    recordedVectors (after plantedHash 2 (List.replicate 32 0) (List.replicate 32 0) Equi.zeroed 9).sols
        (after plantedHash 2 (List.replicate 32 0) (List.replicate 32 0) Equi.zeroed 9).nsols =
      recordedVectors (Cpu.after plantedHash (List.replicate 32 0) (List.replicate 32 0) 9).sols
        (Cpu.after plantedHash (List.replicate 32 0) (List.replicate 32 0) 9).nsols := by
  have hsolve := solve_after plantedHash 2 (List.replicate 32 0) (List.replicate 32 0) Equi.zeroed
  have hH : Planted plantedHash (setheader (List.replicate 32 0) (List.replicate 32 0)) :=
    planted_plantedHash _
  have hE := (hsolve.rounds (by decide) fun _ _ => rfl).1
  have hE' := Cpu.rounds_memAfter plantedHash (List.replicate 32 0) (List.replicate 32 0)
  have hone : 1 ≤ maxsols := by decide
  exact recorded_eq_cpu plantedHash 2 (by decide) _ _ Equi.zeroed (fun _ _ _ _ => rfl) _ hsolve
    (hE.noOverflow_of_planted hH) (hE'.noOverflow_of_planted hH)
    ((hsolve.nsols_le (by decide) fun _ _ => rfl).trans ((hE.length_roundPairs_of_planted hH).trans hone))
    ((Cpu.nsols_le ..).trans ((hE'.length_roundPairs_of_planted hH).trans hone))

end Agreement
end Aion.Cuda
