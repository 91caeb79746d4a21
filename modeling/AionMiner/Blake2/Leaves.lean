import AionMiner.Blake2.Gpu
import AionMiner.Cpu.Solutions

/-! The leaf hashes of the solvers and of the pool's verifier, with the streams they are made of. -/

namespace Aion.Blake2
open Bits Digest Digest.Blake2b Equihash

section Code
variable (isa : Isa)

/-- `setheader` of `equi.h` on its `blake2b_state`. -/
def setheader (header nonce : List Byte) : Option Short.Ctx := do
  let ctx := Short.initParam (paramBytes (Solver.setheader [] []))
  let ctx ← Short.update isa ctx header
  Short.update isa ctx nonce

/-- `InitialiseState` of the verifier and the header it takes in. -/
def verifierState (hdr : List Byte) : Option Short.Ctx :=
  Short.update isa (Short.initParam (paramBytes initialiseState)) (hdr.take 64)

/-- The update and the final call of `digit0`, `genhash` and `GenerateHash`, on a copy. -/
def blockDigest (state : Short.Ctx) (block : ℕ) : Option (List Byte) := do
  let state ← Short.update isa state (le32 block)
  let out ← Short.final isa state hashOutput
  return out.1

end Code

/-- A context that has taken in what a state of the hash function stands for. -/
def Stands (s : Blake2bState) (S : Short.Ctx) : Prop :=
  ∃ k, Short.Absorbs (start (paramBytes s)) s.absorbed k S ∧ (0 < k → 0 < S.buflen)

section Refinement
variable (isa : Isa) {s : Blake2bState} {S : Short.Ctx}

theorem stands_initParam (hp : (paramBytes s).length = 64) (hnil : s.absorbed = []) :
    Stands s (Short.initParam (paramBytes s)) := by
  refine ⟨0, ?_, fun hk => absurd hk (Nat.lt_irrefl 0)⟩
  rw [hnil]
  exact Short.absorbs_initParam hp

theorem Stands.update (h : Stands s S) (data : List Byte) :
    ∃ S', Short.update isa S data = some S' ∧ Stands (s.update data) S' := by
  obtain ⟨k, habs, hlazy⟩ := h
  obtain ⟨S', k', hrun, habs', hlazy'⟩ := Short.update_absorbs isa habs hlazy data
  exact ⟨S', hrun, k', habs', hlazy'⟩

theorem Stands.final (h : Stands s S) (hlen : s.absorbed.length < 2 ^ 16) {outlen : ℕ} (hout : outlen ≤ 64) :
    (Short.final isa S outlen).map Prod.fst = some ((List.range outlen).map (blake2b s)) := by
  obtain ⟨k, habs, hlazy⟩ := h
  rw [Short.final_absorbs isa habs hlazy hout, Short.finish_eq hlen, map_blake2b s hout, digest]

theorem Stands.blockDigest (h : Stands s S) (hlen : s.absorbed.length + 4 < 2 ^ 16) (block : ℕ) :
    blockDigest isa S block = some (generateHash blake2b s block) := by
  obtain ⟨S', hrun, hstands⟩ := h.update isa (le32 block)
  have hlen' : (s.update (le32 block)).absorbed.length < 2 ^ 16 := by
    rw [Blake2bState.update, List.length_append]
    exact hlen
  have hout : hashOutput ≤ 64 := by decide
  have hfinal := hstands.final isa hlen' hout
  rw [Blake2.blockDigest, hrun, generateHash, ← hfinal, Option.map_eq_bind]
  rfl

theorem Stands.blake2bGpuHash (h : Stands s S) (arch : Gpu.Arch) (hlen : s.absorbed.length + 4 ≤ 128)
    (block : ℕ) : Gpu.blake2bGpuHash arch S block hashOutput = generateHash blake2b s block := by
  have hblock := h.blockDigest .sse2 (by omega) block
  obtain ⟨k, habs, -⟩ := h
  have hroom : S.buflen + 4 ≤ 128 := by
    have := habs.msg_length
    omega
  have hout : hashOutput ≤ 64 := by decide
  have hgpu := Gpu.blake2bGpuHash_eq arch .sse2 hroom block hout
  apply Option.some.inj
  rw [hgpu, ← hblock, Blake2.blockDigest, Option.map_bind]
  rfl

theorem setheader_stands (header nonce : List Byte) :
    ∃ S, setheader isa header nonce = some S ∧ Stands (Solver.setheader header nonce) S := by
  have hinit : Stands (Solver.setheader [] []) (Short.initParam (paramBytes (Solver.setheader [] []))) :=
    stands_initParam (length_paramBytes rfl rfl) rfl
  obtain ⟨S₁, hrun₁, hstands₁⟩ := hinit.update isa header
  obtain ⟨S₂, hrun₂, hstands₂⟩ := hstands₁.update isa nonce
  refine ⟨S₂, ?_, hstands₂⟩
  rw [setheader, hrun₁]
  exact hrun₂

theorem verifierState_stands (hdr : List Byte) :
    ∃ S, verifierState isa hdr = some S ∧ Stands (initialiseState.update (hdr.take 64)) S :=
  (stands_initParam (length_paramBytes rfl rfl) rfl).update isa (hdr.take 64)

/-- On one header and nonce of 64 bytes the CPU solver, the GPU and the verifier, each as it is
compiled, hash a leaf to the same bytes. -/
theorem leaves_agree (isa isa' : Isa) (arch : Gpu.Arch) {header nonce : List Byte}
    (hlen : header.length + nonce.length = 64) (block : ℕ) :
    ∃ S S', setheader isa header nonce = some S ∧ verifierState isa' (header ++ nonce) = some S' ∧
      blockDigest isa S block = some (generateHash blake2b (Solver.setheader header nonce) block) ∧
      blockDigest isa' S' block = blockDigest isa S block ∧
      some (Gpu.blake2bGpuHash arch S block hashOutput) = blockDigest isa S block := by
  obtain ⟨S, hrun, hstands⟩ := setheader_stands isa header nonce
  obtain ⟨S', hrun', hstands'⟩ := verifierState_stands isa' (header ++ nonce)
  have happend : (header ++ nonce).length = 64 := by rwa [List.length_append]
  rw [List.take_of_length_le happend.le, ← Cpu.setheader_eq] at hstands'
  have habsorbed : (Solver.setheader header nonce).absorbed.length = 64 := by
    rw [Cpu.setheader_eq]
    exact happend
  have hcpu := hstands.blockDigest isa (by omega) block
  refine ⟨S, S', hrun, hrun', hcpu, ?_, ?_⟩
  · rw [hcpu, hstands'.blockDigest isa' (by omega) block]
  · rw [hcpu, hstands.blake2bGpuHash arch (by omega) block]

theorem leaves_agree_zeros :
    ∃ S S', setheader .sse2 (List.replicate 32 0) (List.replicate 32 0) = some S ∧
      verifierState .ssse3 (List.replicate 32 0 ++ List.replicate 32 0) = some S' ∧
      blockDigest .sse2 S 0 =
        some (generateHash blake2b (Solver.setheader (List.replicate 32 0) (List.replicate 32 0)) 0) ∧
      blockDigest .ssse3 S' 0 = blockDigest .sse2 S 0 ∧
      some (Gpu.blake2bGpuHash .funnel S 0 hashOutput) = blockDigest .sse2 S 0 :=
  leaves_agree .sse2 .ssse3 .funnel rfl 0

end Refinement

end Aion.Blake2
