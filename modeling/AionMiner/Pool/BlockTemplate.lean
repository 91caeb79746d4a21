import AionMiner.Equihash.Verifier
import AionMiner.Pool.Js

/-! `blockTemplate.js`: one job, the bytes it hashes for a share, and the shares it has seen. -/

namespace Aion.Pool
open Bits Equihash Text

/-- The package `bignum`. Its numbers are integers; `none` is an exception. A buffer is read with a
`size`, or with none given. -/
structure Bignum where
  ofNumber : ℤ → ℤ
  ofString : Str → ℕ → Option ℤ
  fromBuffer : Option ℕ → List Byte → ℤ
  mul : ℤ → ℤ → ℤ
  pow : ℤ → ℤ → Option ℤ
  gt : ℤ → ℤ → Bool

/-- What the package promises of hex digits, of the 32 bytes of a hash, and of `gt`. -/
structure Bignum.Lawful (b : Bignum) : Prop where
  ofString : ∀ s, s ≠ [] → IsHexDigits s → b.ofString s 16 = some (hexNumber s : ℤ)
  fromBuffer : ∀ bytes, bytes.length = 32 → b.fromBuffer (some 32) bytes = beNat bytes
  gt : ∀ x y, b.gt x y = decide (x > y)

/-- What the pool takes from outside: BLAKE2b, lower case beyond ASCII, the memory behind a buffer
(the native verifier reads 1408 bytes, however long the buffer is), and big numbers. -/
structure Host where
  H : Blake2b
  unicodeLower : Str → Str
  behind : List Byte → List Byte
  bignum : Bignum

def blake2State : Blake2bState where
  digestLength := 32
  keyLength := 0
  fanout := 1
  depth := 1
  leafLength := 0
  nodeOffset := 0
  nodeDepth := 0
  innerLength := 0
  salt := List.replicate 16 0
  personal := List.replicate 16 0
  absorbed := []

namespace Host
variable (host : Host)

def blake2 (input : List Byte) : List Byte := (List.range 32).map (host.H (blake2State.update input))

theorem length_blake2 (input : List Byte) : (host.blake2 input).length = 32 := by
  rw [blake2, List.length_map, List.length_range]

def hashDigest (header solution : List Byte) : Bool := verifyEH host.H header (solution ++ host.behind solution)

/-- `readUInt8(0)` throws on an empty buffer. -/
def bignumFromBitsBuffer : List Byte → Option ℤ
  | [] => none
  | numBytes :: rest =>
    let bigBits := host.bignum.fromBuffer none rest
    let exponent := host.bignum.mul (host.bignum.ofNumber 8) (numBytes.toNat - 3)
    (host.bignum.pow (host.bignum.ofNumber 2) exponent).map fun power => host.bignum.mul bigBits power

def bignumFromBitsHex (bitsString : Str) : Option ℤ := host.bignumFromBitsBuffer (hexDecode bitsString)

end Host

/-- The fields of a daemon's template that are read; an empty `target` is a missing one. -/
structure RpcData where
  previousblockhash : Str
  headerHash : Str
  height : ℤ
  target : Str
  bits : Str
  deriving DecidableEq, Inhabited

structure BlockTemplate where
  rpcData : RpcData
  jobId : Str
  target : ℤ
  submits : List Str
  deriving Inhabited

/-- The constructor; `none` when the target throws, or `reverseByteOrder` reads beyond a short
`previousblockhash` and throws. -/
def blockTemplate (host : Host) (jobId : Str) (rpcData : RpcData) : Option BlockTemplate :=
  let target :=
    if rpcData.target = [] then host.bignumFromBitsHex rpcData.bits else host.bignum.ofString rpcData.target 16
  target.bind fun target =>
    if (hexDecode rpcData.previousblockhash).length < 32 then none
    else some { rpcData := rpcData, jobId := jobId, target := target, submits := [] }

theorem blockTemplate_some {host : Host} {jobId : Str} {rpcData : RpcData} {job : BlockTemplate}
    (h : blockTemplate host jobId rpcData = some job) :
    job.rpcData = rpcData ∧ job.jobId = jobId ∧ job.submits = [] ∧
      (rpcData.target ≠ [] → host.bignum.ofString rpcData.target 16 = some job.target) := by
  obtain ⟨target, htarget, h⟩ := Option.bind_eq_some_iff.mp h
  split_ifs at h
  cases h
  exact ⟨rfl, rfl, rfl, fun hne => (if_neg hne).symm.trans htarget⟩

theorem blockTemplate_eq {host : Host} {jobId : Str} {rpcData : RpcData} {target : ℤ} (hne : rpcData.target ≠ [])
    (htarget : host.bignum.ofString rpcData.target 16 = some target)
    (hlen : ¬(hexDecode rpcData.previousblockhash).length < 32) :
    blockTemplate host jobId rpcData = some ⟨rpcData, jobId, target, []⟩ := by
  unfold blockTemplate
  dsimp only
  rw [if_neg hne, htarget, Option.bind_some, if_neg hlen]

namespace BlockTemplate
variable (job : BlockTemplate)

/-- `completeHeaderBigNum.gt(job.target)`. -/
def overTarget (host : Host) (completeHeaderHash : List Byte) : Bool :=
  host.bignum.gt (host.bignum.fromBuffer (some 32) completeHeaderHash) job.target

def serializeHeader (nonce : Str) : List Byte :=
  let header := List.replicate 64 0
  let header := writeHex header job.rpcData.headerHash 0 32
  writeHex header nonce 32 32

def serializeHeaderTarget (nonce soln : Str) : List Byte :=
  let header := List.replicate 1472 0
  let header := writeHex header job.rpcData.headerHash 0 32
  let header := writeHex header nonce 32 32
  writeHex header (soln.drop 6) 64 1408

section Layout
variable {job}

/-- The hash and nonce of the right sizes lie side by side. -/
theorem serializeHeader_eq {nonce : Str} (hhash : (hexDecode job.rpcData.headerHash).length = 32)
    (hnonce : (hexDecode nonce).length = 32) :
    job.serializeHeader nonce = hexDecode job.rpcData.headerHash ++ hexDecode nonce := by
  have hfirst := writeHex_append [] (List.replicate 32 0) (List.replicate 32 0) job.rpcData.headerHash hhash
  have hsecond := writeHex_append (hexDecode job.rpcData.headerHash) (List.replicate 32 0) [] nonce hnonce
  rw [hhash] at hsecond
  simp only [List.nil_append, List.append_nil, List.length_nil,
    List.length_replicate] at hfirst hsecond
  have hzeros : List.replicate 64 (0 : Byte) = List.replicate 32 0 ++ List.replicate 32 0 := rfl
  rw [serializeHeader, hzeros, hfirst, hsecond]

theorem serializeHeaderTarget_eq {nonce soln : Str}
    (hhash : (hexDecode job.rpcData.headerHash).length = 32)
    (hnonce : (hexDecode nonce).length = 32) (hsoln : (hexDecode (soln.drop 6)).length = 1408) :
    job.serializeHeaderTarget nonce soln =
      hexDecode job.rpcData.headerHash ++ hexDecode nonce ++ hexDecode (soln.drop 6) := by
  have hfirst := writeHex_append [] (List.replicate 32 0) (List.replicate 1440 0) job.rpcData.headerHash hhash
  have hsecond := writeHex_append (hexDecode job.rpcData.headerHash) (List.replicate 32 0) (List.replicate 1408 0)
    nonce hnonce
  have hthird := writeHex_append (hexDecode job.rpcData.headerHash ++ hexDecode nonce) (List.replicate 1408 0) []
    (soln.drop 6) (hsoln.trans (List.length_replicate ..).symm)
  simp only [hhash, hnonce, List.nil_append, List.append_nil, List.length_nil, List.length_append,
    List.length_replicate] at hfirst hsecond hthird
  have hzeros : List.replicate 1472 (0 : Byte) = List.replicate 32 0 ++ List.replicate 1440 0 :=
    List.replicate_add 32 1440 _
  have hzeros' : List.replicate 1440 (0 : Byte) = List.replicate 32 0 ++ List.replicate 1408 0 :=
    List.replicate_add 32 1408 _
  rw [serializeHeaderTarget, hzeros, hfirst, hzeros', ← List.append_assoc, hsecond, hthird]

end Layout

def registerSubmit (extraNonce1 extraNonce2 nTime nonce : Str) : Bool × BlockTemplate :=
  let submission := extraNonce1 ++ extraNonce2 ++ nTime ++ nonce
  if submission ∈ job.submits then (false, job)
  else (true, { job with submits := job.submits ++ [submission] })

end BlockTemplate
end Aion.Pool
