import AionMiner.Cpu.Report
import AionMiner.Cuda.Soundness
import AionMiner.Miner.Target

/-! One find of a mining thread, from the job the pool sent to the share the pool makes of it. -/

namespace Aion.Network
open Bits Equihash Text Pool Miner Solver

section Code

def jobParams (job : BlockTemplate) : NotifyParams where
  jobId := job.jobId
  clean := true
  target := job.rpcData.target
  headerHash := job.rpcData.headerHash

/-- A vector a solver hands over: by which thread, after how many increments of its nonce, for
whom, and when. -/
structure Find where
  pos : ℕ
  n : ℕ
  index_vector : List ℕ
  user : Str
  timestamp : BitVec 64

/-- The lambda `solutionFound` of a mining thread, down to the message; `none` where none is sent. -/
def mine (H : Blake2b) (extraNonce1 : Str) (params : NotifyParams) (f : Find) : Option SubmitParams := do
  let job ← parseJob (setServerNonce extraNonce1) params
  let nonce := arithToUint256 (job.nonce f.pos f.n)
  let nSolution ← getMinimalFromIndices f.index_vector 21
  let solution ← job.solutionFound H nonce nSolution
  submit f.user solution job.job f.timestamp

def Found (handed : List Byte → List Byte → List ℕ → Prop) (extraNonce1 : Str) (params : NotifyParams)
    (f : Find) : Prop :=
  ∃ job, parseJob (setServerNonce extraNonce1) params = some job ∧
    handed job.header.headerHash.data (arithToUint256 (job.nonce f.pos f.n)).data f.index_vector

/-- What `CPU_TROMP::solve` hands over from within `sols`; its loop may read beyond. -/
def CpuHanded (H : Blake2b) (header nonce : List Byte) (v : List ℕ) : Prop :=
  ∃ cancelf, ∃ x ∈ (Cpu.solve H header nonce cancelf).handed, x.row < maxsols ∧ x.index_vector = v

/-- What a solve of the CUDA miner that starts with clear counters leaves in `sols`, whatever the interleaving
of the threads. -/
def CudaHanded (H : Blake2b) (header nonce : List Byte) (v : List ℕ) : Prop :=
  ∃ n start e, 0 < n ∧ (∀ b < nbuckets, start.mem.nslots 1 b = 0) ∧ Cuda.Solve H n header nonce start e ∧
    ∃ s < min (e 9).nsols maxsols, (e 9).sols s = v

/-- Of the two solvers the CUDA miner may hand over vectors in which an index is repeated. -/
def Handed (H : Blake2b) (header nonce : List Byte) (v : List ℕ) : Prop :=
  CpuHanded H header nonce v ∨ CudaHanded H header nonce v ∧ v.Nodup

end Code

section Sound
variable {H : Blake2b} {header nonce : List Byte} {v : List ℕ}

structure Accepted (H : Blake2b) (header nonce : List Byte) (v : List ℕ) : Prop where
  length : v.length = 512
  valid : isValidSolution H (initialiseState.update (header ++ nonce)) (Equihash.getMinimalFromIndices v 21) = true

theorem accepted_of_cpu (h : CpuHanded H header nonce v) : Accepted H header nonce v := by
  obtain ⟨cancelf, x, hx, hrow, rfl⟩ := h
  obtain ⟨s, hs, -, rfl⟩ := Cpu.mem_solve.mp hx
  have hmin : s < min (Cpu.after H header nonce 9).nsols maxsols := Nat.lt_min.mpr ⟨hs, hrow⟩
  have hlen := Cpu.length_storedBy _ _ _ (Cpu.sols_after H header nonce s hmin)
  have hrec : (Cpu.after H header nonce 9).sols s ∈ vectors (forestOf Cpu.layout (Cpu.memAfter H header nonce))
      ((Cpu.memAfter H header nonce 8).roundPairs Cpu.layout 9) := by
    have hlt := hs
    rw [Cpu.nsols_after] at hlt
    rw [(Cpu.recorded_after H header nonce).sols length_roundPairs_lt s hrow _ (List.getElem?_eq_getElem hlt)]
    exact List.getElem_mem hlt
  obtain ⟨-, hbound, hbal⟩ := (Cpu.rounds_memAfter H header nonce).balanced_of_mem hrec
  dsimp only
  rw [Cpu.indexVector_eq hlen]
  refine ⟨hlen, ?_⟩
  rw [← Cpu.setheader_eq]
  exact (isValidSolution_pack_iff hlen hbound).mpr ((balanced_joins_iff hlen).mp hbal).1

theorem accepted_of_cuda (h : CudaHanded H header nonce v) (hnd : v.Nodup) : Accepted H header nonce v := by
  obtain ⟨n, start, e, hn, hzero, hs, s, hsol, rfl⟩ := h
  obtain ⟨p, hp, hsols⟩ := hs.sols_eq hn hzero hsol
  rw [hsols] at hnd ⊢
  refine ⟨length_order_pairTree _ p, ?_⟩
  rw [← Cpu.setheader_eq]
  exact (Cuda.isValidSolution_joined (hs.rounds hn hzero).1 hp).mpr hnd

theorem Handed.accepted (h : Handed H header nonce v) : Accepted H header nonce v :=
  h.elim accepted_of_cpu fun h => accepted_of_cuda h.1 h.2

end Sound

section Share
variable {host : Host} {job : BlockTemplate} {client : StratumClient} {bytes : List Byte} {f : Find}
  {message : SubmitParams}

/-- What a job must be like for miner and pool to read it alike. -/
structure Minable (params : NotifyParams) : Prop where
  headerHash_hex : IsHexDigits params.headerHash
  headerHash_length : params.headerHash.length = 64
  target_some : params.target ≠ []
  target_hex : IsHexDigits params.target
  target_length : params.target.length ≤ 64

/-- What the target test lets through, the pool lets through. -/
theorem under_target (hhost : host.bignum.Lawful) (hjob : Minable (jobParams job))
    (htarget : host.bignum.ofString job.rpcData.target 16 = some job.target) {server : ServerNonce}
    {minerJob : AionJob}
    (hparse : parseJob server (jobParams job) = some minerJob) {nonce : Uint256} {nSolution : List Byte}
    {solution : EquihashSolution} (hfound : minerJob.solutionFound host.H nonce nSolution = some solution) :
    job.overTarget host (host.blake2 (minerJob.targetInput nonce nSolution)) = false := by
  have hhash : (host.blake2 (minerJob.targetInput nonce nSolution)).length = 32 := Host.length_blake2 ..
  have hbelow : belowTarget minerJob.serverTarget (host.blake2 (minerJob.targetInput nonce nSolution)) = true := by
    have hsome := isSome_solutionFound host.H minerJob nonce nSolution
    rw [hfound] at hsome
    exact hsome.symm
  rw [belowTarget_iff _ hhash, parseJob_serverTarget hparse] at hbelow
  rw [overTarget_iff hhost htarget hjob.target_some hjob.target_hex hhash]
  rw [toNat_serverTarget hjob.target_some hjob.target_hex hjob.target_length] at hbelow
  exact hbelow.le

theorem solutionFound_eq {H : Blake2b} {minerJob : AionJob} {nonce : Uint256} {nSolution : List Byte}
    {solution : EquihashSolution} (hfound : minerJob.solutionFound H nonce nSolution = some solution) :
    solution = ⟨nonce, minerJob.nonce1Size, nSolution⟩ := by
  unfold AionJob.solutionFound at hfound
  dsimp only at hfound
  split_ifs at hfound
  exact (Option.some.inj hfound).symm

structure Sound (host : Host) (job : BlockTemplate) (client : StratumClient) (message : SubmitParams)
    (sh : Share) : Prop where
  submitted : client.handleSubmit message = .ok sh
  jobId : sh.jobId = job.jobId
  formed : sh.formatError host = none
  meets : sh.Meets host job

/-- A message of a mining thread becomes such a share. -/
theorem share_of_mine (hhost : host.bignum.Lawful) (hjob : Minable (jobParams job))
    (htarget : host.bignum.ofString job.rpcData.target 16 = some job.target)
    (hauthorized : client.authorized = true)
    (hbytes : bytes.length = 8) (hextra : client.extraNonce1 = some (hexStr bytes))
    (hfound : Found (Accepted host.H) (hexStr bytes) (jobParams job) f)
    (hmine : mine host.H (hexStr bytes) (jobParams job) f = some message) :
    Sound host job client message (client.share message (hexStr bytes)) := by
  obtain ⟨hfront, hsize, hinc⟩ := setServerNonce_hexStr hbytes
  obtain ⟨minerJob, hparse, hid, hheader, hnonce1, hnonce1Size, hnonce2Inc⟩ :=
    @parseJob_of_hex (setServerNonce (hexStr bytes)) (jobParams job) hjob.headerHash_hex
      hjob.headerHash_length
  obtain ⟨minerJob', hparse', haccepted⟩ := hfound
  cases hparse.symm.trans hparse'
  set nonce := arithToUint256 (minerJob.nonce f.pos f.n) with hnonce
  set soln := Equihash.getMinimalFromIndices f.index_vector 21 with hsoln
  have hlen : soln.length = 1408 := length_getMinimalFromIndices haccepted.length
  have htake : nonce.data.take 8 = bytes := by
    refine (minerJob.take_nonce (k := 2) (by decide) (hnonce2Inc ▸ hinc) f.pos f.n).trans ?_
    rw [hnonce1, hfront]
  -- The message the thread sends is that of `share_of_submit`
  obtain ⟨message', hmessage, hjobId, hformed, hheaderBytes, htargetBytes⟩ :=
    share_of_submit host client (rfl : (jobParams job).headerHash = job.rpcData.headerHash)
      hjob.headerHash_hex hjob.headerHash_length htake hlen f.user minerJob.job f.timestamp
  obtain ⟨solution, hsolution, hsubmit⟩ : ∃ solution,
      minerJob.solutionFound host.H nonce soln = some solution ∧
        submit f.user solution minerJob.job f.timestamp = some message := by
    rw [mine, hparse, Option.bind_eq_bind, Option.bind_some,
      miner_getMinimalFromIndices_eq haccepted.length] at hmine
    exact Option.bind_eq_some_iff.mp hmine
  rw [solutionFound_eq hsolution, hnonce1Size, hsize] at hsubmit
  cases hmessage.symm.trans hsubmit
  have hne : hexStr bytes ≠ [] := List.ne_nil_of_length_pos (by rw [length_hexStr, hbytes]; decide)
  have hdecoded : hexDecode ((client.share message (hexStr bytes)).soln.drop 6) = soln := by
    have hmessageSoln : message.soln = hexStr (writeCompactSize soln.length ++ soln) := by
      rw [← Option.some.inj ((submit_eq f.user minerJob.job f.timestamp soln).symm.trans hsubmit)]
    have hcompact : writeCompactSize soln.length = [0xfd, 0x80, 0x05] := by
      rw [hlen]
      decide
    rw [StratumClient.share, hmessageSoln, show 6 = 2 * 3 from rfl, drop_hexStr, hexDecode_hexStr, hcompact]
    rfl
  refine ⟨StratumClient.handleSubmit_eq hauthorized hextra hne, hjobId.trans hid, hformed, ?_, ?_⟩
  · have hheaderLen : (hexDecode (jobParams job).headerHash ++ nonce.data).length ≤ 64 := by
      rw [List.length_append, nonce.width, ← hheader, minerJob.header.headerHash.width]
    rw [hheaderBytes, hdecoded, Host.hashDigest, verifyEH, List.take_of_length_le hheaderLen,
      List.take_left' hlen, ← hheader]
    exact haccepted.valid
  · have hunder := under_target hhost hjob htarget hparse hsolution
    rwa [AionJob.targetInput, hheader, ← htargetBytes] at hunder

end Share

end Aion.Network
