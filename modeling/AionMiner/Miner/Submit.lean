import AionMiner.Miner.Job
import AionMiner.Pool.Duplicates
import AionMiner.Pool.StratumClient

/-! `StratumClient::submit`, and that the pool rebuilds from a share the bytes the miner has hashed. -/

namespace Aion.Miner
open Bits Equihash Text Pool

structure EquihashSolution where
  nonce : Uint256
  nonce1size : ℕ
  solution : List Byte

section Submit

def substr (s : Str) (pos count : ℕ) : Option Str := if pos ≤ s.length then some ((s.drop pos).take count) else none

def bswap64 (x : BitVec 64) : BitVec 64 :=
  x.extractLsb' 0 8 ++ x.extractLsb' 8 8 ++ x.extractLsb' 16 8 ++ x.extractLsb' 24 8 ++
    x.extractLsb' 32 8 ++ x.extractLsb' 40 8 ++ x.extractLsb' 48 8 ++ x.extractLsb' 56 8

def hex64 (x : BitVec 64) : Str := (List.range 16).map fun i => hexDigit (x.toNat / 16 ^ (15 - i) % 16)

/-- A 256-bit number and a vector of bytes, as `CDataStream` writes them. -/
def serialize (nonce : Uint256) (solution : List Byte) : List Byte :=
  nonce.data ++ (writeCompactSize solution.length ++ solution)

/-- `64 - nonce1size` is a difference of `size_t`. -/
def submit (user : Str) (solution : EquihashSolution) (jobid : Str) (timestamp : BitVec 64) :
    Option SubmitParams := do
  let strHex := hexStr (serialize solution.nonce solution.solution)
  let count := BitVec.ofNat 64 64 - BitVec.ofNat 64 solution.nonce1size
  let extraNonce2 ← substr strHex solution.nonce1size count.toNat
  let soln ← substr strHex 64 strHex.length
  pure { name := user, jobId := jobid, nTime := hex64 (bswap64 timestamp), extraNonce2 := extraNonce2, soln := soln }

theorem substr_hexStr {bytes : List Byte} {pos count : ℕ} (h : pos ≤ bytes.length) :
    substr (hexStr bytes) (2 * pos) (2 * count) = some (hexStr ((bytes.drop pos).take count)) := by
  have hpos : 2 * pos ≤ (hexStr bytes).length := by
    rw [length_hexStr]
    omega
  rw [substr, if_pos hpos, drop_hexStr, take_hexStr]

theorem submit_eq (user jobid : Str) (timestamp : BitVec 64) {nonce : Uint256}
    (solution : List Byte) : submit user ⟨nonce, 16, solution⟩ jobid timestamp = some
      { name := user
        jobId := jobid
        nTime := hex64 (bswap64 timestamp)
        extraNonce2 := hexStr (nonce.data.drop 8)
        soln := hexStr (writeCompactSize solution.length ++ solution) } := by
  -- The first 16 digits are cut off the nonce, and the solution goes out behind its size
  set bytes := serialize nonce solution with hbytes
  have hlen : 32 ≤ bytes.length := by simp [hbytes, serialize, nonce.width]
  have hcount : (BitVec.ofNat 64 64 - BitVec.ofNat 64 16).toNat = 2 * 24 := by decide
  have hfirst : substr (hexStr bytes) 16 (2 * 24) = some (hexStr (nonce.data.drop 8)) := by
    rw [show 16 = 2 * 8 from rfl, substr_hexStr (by omega), hbytes, serialize,
      List.drop_append_of_le_length (by rw [nonce.width]; decide),
      List.take_left' (by rw [List.length_drop, nonce.width])]
  have hsecond : substr (hexStr bytes) 64 (hexStr bytes).length =
      some (hexStr (writeCompactSize solution.length ++ solution)) := by
    rw [length_hexStr, show 64 = 2 * 32 from rfl, substr_hexStr (by omega),
      List.take_of_length_le (by simp), hbytes, serialize, List.drop_left' nonce.width]
  simp only [submit, ← hbytes, hcount, hfirst, hsecond, Option.bind_eq_bind, Option.bind_some]
  rfl

end Submit

section Agreement

theorem ExtraNonceCounter.next_eq {c : ExtraNonceCounter} {extraNonce1 : Str}
    (h : c.next.1 = some extraNonce1) :
    ∃ bytes : List Byte, bytes.length = 8 ∧ extraNonce1 = hexStr bytes := by
  rw [ExtraNonceCounter.next] at h
  split_ifs at h with hlt
  exact ⟨be32 c.instanceId ++ be32 (BitVec.ofNat 32 c.counter), rfl, (Option.some.inj h).symm⟩

theorem setServerNonce_hexStr {bytes : List Byte} (hlen : bytes.length = 8) :
    (setServerNonce (hexStr bytes)).nonce1.data.take 8 = bytes ∧
    (setServerNonce (hexStr bytes)).nonce1Size = 16 ∧
      (setServerNonce (hexStr bytes)).nonce2Inc.pn.take 2 = List.replicate 2 0 := by
  refine ⟨?_, by simp [setServerNonce, hlen],
    Arith256.take_shiftLeft _ (by decide) (by simp [hlen])⟩
  have hparse : parseHex (hexStr bytes) = bytes := by rw [parseHex_eq (isHexDigits_hexStr bytes), hexDecode_hexStr]
  simp only [setServerNonce, hparse]
  rw [List.take_take, Nat.min_eq_left (by decide), List.take_left' hlen]

/-- The share the pool makes of a message with this nonce and solution. -/
theorem share_of_submit (host : Host) (client : StratumClient) {job : BlockTemplate} {params : NotifyParams}
    (hhash : params.headerHash = job.rpcData.headerHash) (hhex : IsHexDigits params.headerHash)
    (hlen : params.headerHash.length = 64) {bytes : List Byte} {nonce : Uint256} (hfront : nonce.data.take 8 = bytes)
    {soln : List Byte} (hsoln : soln.length = 1408) (user jobid : Str) (timestamp : BitVec 64) :
    ∃ message, submit user ⟨nonce, 16, soln⟩ jobid timestamp = some message ∧
      (client.share message (hexStr bytes)).jobId = jobid ∧
      (client.share message (hexStr bytes)).formatError host = none ∧
      job.serializeHeader (client.share message (hexStr bytes)).nonce = hexDecode params.headerHash ++ nonce.data ∧
      job.serializeHeaderTarget (client.share message (hexStr bytes)).nonce
        (client.share message (hexStr bytes)).soln = hexDecode params.headerHash ++ nonce.data ++ soln := by
  have hcompact : writeCompactSize soln.length = [0xfd, 0x80, 0x05] := by
    rw [hsoln]
    decide
  have hnonce : hexStr bytes ++ hexStr (nonce.data.drop 8) = hexStr nonce.data := by
    rw [← hexStr_append, ← hfront, List.take_append_drop]
  have hdrop : hexDecode ((hexStr (writeCompactSize soln.length ++ soln)).drop 6) = soln := by
    rw [show 6 = 2 * 3 from rfl, drop_hexStr, hexDecode_hexStr, hcompact]
    rfl
  have hhash32 : (hexDecode job.rpcData.headerHash).length = 32 := by
    rw [← hhash]
    exact length_hexDecode hhex hlen
  have hnonce32 : (hexDecode (hexStr nonce.data)).length =
      32 := by rw [hexDecode_hexStr, nonce.width]
  refine ⟨_, submit_eq .., rfl, ?_, ?_, ?_⟩
  · refine Share.formatError_eq_none.mpr ⟨?_, ?_, ?_, isHexString_hexStr _ _⟩
    · rw [StratumClient.share, hex64, List.length_map, List.length_range]
    · simp only [StratumClient.share, hnonce, length_hexStr, nonce.width]
    · change (hexStr (writeCompactSize soln.length ++ soln)).length = 2822
      rw [length_hexStr, List.length_append, hcompact, hsoln]
      rfl
  · simp only [StratumClient.share, hnonce]
    rw [BlockTemplate.serializeHeader_eq hhash32 hnonce32, hexDecode_hexStr, hhash]
  · simp only [StratumClient.share, hnonce]
    rw [BlockTemplate.serializeHeaderTarget_eq hhash32 hnonce32 (by rw [hdrop, hsoln]),
      hexDecode_hexStr, hdrop, hhash]

/-- Thread `pos`, after `n` increments, has found `indices`: its job parses, its solution packs, the
message is built and becomes a share, the share passes the format checks, and the pool hashes the
bytes the miner has hashed. -/
def ShareAgrees (host : Host) (job : BlockTemplate) (params : NotifyParams) (extraNonce1 : Str)
    (client : StratumClient) (pos n : ℕ) (indices : List ℕ) (user : Str) (timestamp : BitVec 64) : Prop :=
  ∃ minerJob soln message share, parseJob (setServerNonce extraNonce1) params = some minerJob ∧
    getMinimalFromIndices indices 21 = some soln ∧
    submit user ⟨arithToUint256 (minerJob.nonce pos n), minerJob.nonce1Size, soln⟩ minerJob.job timestamp =
      some message ∧
    client.handleSubmit message = .ok share ∧ share.jobId = params.jobId ∧ share.formatError host = none ∧
    job.serializeHeader share.nonce = minerJob.equihashInput (arithToUint256 (minerJob.nonce pos n)) ∧
    job.serializeHeaderTarget share.nonce share.soln =
      minerJob.targetInput (arithToUint256 (minerJob.nonce pos n)) soln

/-- Miner and pool agree for every header hash, issued extra nonce, thread, nonce and index list. -/
theorem submitted_share_agrees (host : Host) (job : BlockTemplate) (params : NotifyParams)
    (hhash : params.headerHash = job.rpcData.headerHash) (hhex : IsHexDigits params.headerHash)
    (hlen : params.headerHash.length = 64) (c : ExtraNonceCounter) (extraNonce1 : Str)
    (hissued : c.next.1 = some extraNonce1) (client : StratumClient) (hauthorized : client.authorized = true)
    (hsubscribed : client.extraNonce1 = some extraNonce1) (pos n : ℕ) (indices : List ℕ)
    (hindices : indices.length = 512) (user : Str) (timestamp : BitVec 64) :
    ShareAgrees host job params extraNonce1 client pos n indices user timestamp := by
  obtain ⟨bytes, hbytes, rfl⟩ := ExtraNonceCounter.next_eq hissued
  obtain ⟨hfront, hsize, hinc⟩ := setServerNonce_hexStr hbytes
  obtain ⟨minerJob, hparse, hid, hheader, hnonce1, hnonce1Size, hnonce2Inc⟩ :=
    parseJob_of_hex (setServerNonce (hexStr bytes)) hhex hlen
  have htake : (arithToUint256 (minerJob.nonce pos n)).data.take 8 = bytes := by
    refine (minerJob.take_nonce (k := 2) (by decide) (hnonce2Inc ▸ hinc) pos n).trans ?_
    rw [hnonce1, hfront]
  have hne : hexStr bytes ≠ [] := List.ne_nil_of_length_pos (by simp [hbytes])
  obtain ⟨message, hmessage, hjobId, hformat, hinput, htarget⟩ :=
    share_of_submit host client hhash hhex hlen htake (length_getMinimalFromIndices hindices) user
      minerJob.job timestamp
  refine ⟨minerJob, _, message, _, hparse, miner_getMinimalFromIndices_eq hindices, ?_,
    StratumClient.handleSubmit_eq hauthorized hsubscribed hne, hjobId.trans hid, hformat, ?_, ?_⟩
  · rw [hnonce1Size, hsize]
    exact hmessage
  · rw [hinput, AionJob.equihashInput, hheader]
  · rw [htarget, AionJob.targetInput, hheader]

theorem submitted_share_agrees_zeros :
    ShareAgrees plantedHost openJob ⟨[unit '1'], true, [], hexStr (List.replicate 32 0)⟩
      (hexStr [0, 0, 0, 7, 0, 0, 0, 3]) ⟨true, some (hexStr [0, 0, 0, 7, 0, 0, 0, 3]), [], []⟩ 5 1000
      (List.replicate 512 0) [] 0 :=
  submitted_share_agrees plantedHost openJob ⟨[unit '1'], true, [], hexStr (List.replicate 32 0)⟩ rfl
    (isHexDigits_hexStr _) rfl ⟨7, 3⟩ _ rfl ⟨true, some (hexStr [0, 0, 0, 7, 0, 0, 0, 3]), [], []⟩ rfl rfl 5 1000
    (List.replicate 512 0) (List.length_replicate ..) [] 0

end Agreement
end Aion.Miner
