import AionMiner.Cuda.Solutions

/-! What the pool's verifier says of the proofs of a CUDA solve. `probdupe` lets some with repeated
indices through. -/

namespace Aion.Cuda
open Bits Equihash Solver Wagner Equi

section Joined
variable {L : Layout} {H : Blake2b} {base : Blake2bState} {E : ℕ → Memory}

theorem lt_of_joined (hE : Solver.Rounds L H base E) {p : ℕ × ℕ × ℕ} (hp : p ∈ (E 8).roundPairs L 9) :
    ∀ i ∈ ((forestOf L E).pairTree 8 p).order, i < 2 ^ 22 := by
  have hpair := (mem_roundPairs_iff (by decide) (hE.layer (Nat.le_refl 8))).mp hp
  intro i hi
  rcases List.mem_append.mp ((mergeOrder_perm _ _).mem_iff.mp hi) with hi | hi
  · exact hE.sound.mem_leaves (Nat.le_refl 8) hpair.bucket hpair.stored_left i hi
  · exact hE.sound.mem_leaves (Nat.le_refl 8) hpair.bucket hpair.stored i hi

/-- The verifier accepts what a pair of the last layer stands for if its indices are distinct. -/
theorem isValidSolution_joined (hE : Solver.Rounds L H base E) {p : ℕ × ℕ × ℕ}
    (hp : p ∈ (E 8).roundPairs L 9) :
    isValidSolution H base (getMinimalFromIndices ((forestOf L E).pairTree 8 p).order 21) = true ↔
      ((forestOf L E).pairTree 8 p).order.Nodup := by
  have hlen := length_order_pairTree (forestOf L E) p
  rw [isValidSolution_pack_iff hlen (lt_of_joined hE hp)]
  constructor
  · rintro ⟨hbal, -⟩
    exact (balanced_disjoint_iff.mp (hbal.imp fun _ _ _ _ _ _ _ _ hP => hP.disjoint)).2
  · intro hnd
    have hmem := hE.balanced_of_mem (mem_vectors.mpr ⟨hnd, p, hp, rfl⟩)
    exact ((balanced_joins_iff hlen).mp hmem.2.2).1

end Joined

variable {H : Blake2b} {n : ℕ} {header nonce : List Byte} {start : Equi} {e : ℕ → Equi} {s : ℕ}

/-- Every stored proof is the order of a joined pair. -/
theorem Solve.sols_eq (hs : Solve H n header nonce start e) (hn : 0 < n)
    (hzero : ∀ b < nbuckets, start.mem.nslots 1 b = 0) (hsol : s < min (e 9).nsols maxsols) :
    ∃ p ∈ (e 8).mem.roundPairs layout 9,
      (e 9).sols s = ((forestOf layout fun r => (e r).mem).pairTree 8 p).order := by
  obtain ⟨hE, hnsols⟩ := hs.rounds hn hzero
  obtain ⟨qs, hqs, hproved⟩ := digit9_proved hn (hnsols 8 (Nat.le_refl 8)) hs.digit9
  have hlt : s < qs.length := by
    rw [← hproved.nsols]
    exact Nat.lt_of_lt_of_le hsol (Nat.min_le_left _ _)
  have hp : qs[s] ∈ (e 8).mem.roundPairs layout 9 :=
    ((mem_proofOrder hn).mp (hqs.mem_iff.mp (List.getElem_mem hlt))).1
  refine ⟨qs[s], hp, ?_⟩
  rw [hproved.sols s (Nat.lt_of_lt_of_le hsol (Nat.min_le_right _ _)) _ (List.getElem?_eq_getElem hlt)]
  exact listindices_pair hE hp

/-- Whatever the schedule and however many buckets overflow, a proof the CUDA miner stores is
accepted by the pool's verifier if and only if no index occurs in it twice. -/
theorem sols_accepted_iff (hs : Solve H n header nonce start e) (hn : 0 < n)
    (hzero : ∀ b < nbuckets, start.mem.nslots 1 b = 0) (hsol : s < min (e 9).nsols maxsols) :
    ∃ soln, Miner.getMinimalFromIndices ((e 9).sols s) 21 = some soln ∧
      (isValidSolution H (initialiseState.update (header ++ nonce)) soln = true ↔ ((e 9).sols s).Nodup) := by
  obtain ⟨hE, -⟩ := hs.rounds hn hzero
  obtain ⟨p, hp, hsols⟩ := hs.sols_eq hn hzero hsol
  rw [hsols]
  refine ⟨_, miner_getMinimalFromIndices_eq (length_order_pairTree _ p), ?_⟩
  rw [← Cpu.setheader_eq]
  exact isValidSolution_joined hE hp

theorem sols_accepted_iff_planted :
    let e := after plantedHash 2 (List.replicate 32 0) (List.replicate 32 0) Equi.zeroed 9
    ∃ s < min e.nsols maxsols, ∃ soln, Miner.getMinimalFromIndices (e.sols s) 21 = some soln ∧
      (isValidSolution plantedHash
        (initialiseState.update (List.replicate 32 0 ++ List.replicate 32 0)) soln = true ↔
        (e.sols s).Nodup) := by
  have hsolve := solve_after plantedHash 2 (List.replicate 32 0) (List.replicate 32 0) Equi.zeroed
  have hE := (hsolve.rounds (by decide) fun _ _ => rfl).1
  have hH : Planted plantedHash (setheader (List.replicate 32 0) (List.replicate 32 0)) :=
    planted_plantedHash _
  have hone : 1 ≤ maxsols := by decide
  have hmax := (hsolve.nsols_le (by decide) fun _ _ => rfl).trans
    ((hE.length_roundPairs_of_planted hH).trans hone)
  obtain ⟨-, s, hs, -⟩ := (hsolve.mem_recorded_iff (by decide) (fun _ _ => rfl) hmax).mpr (hE.planted_mem hH)
  exact ⟨s, hs, sols_accepted_iff hsolve (by decide) (fun _ _ => rfl) hs⟩

end Aion.Cuda
