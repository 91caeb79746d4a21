import AionMiner.Miner.Arith

/-! The job a miner makes of the pool's messages, and the nonces its threads go through. -/

namespace Aion.Miner
open Bits Equihash Text

section Text

def isspace (c : CodeUnit) : Bool := c.toNat = 32 ∨ 9 ≤ c.toNat ∧ c.toNat ≤ 13

def parseHex : Str → List Byte
  | [] => []
  | c :: s =>
    if isspace c then parseHex s
    else
      match s with
      | [] => []
      | d :: s =>
        match hexValue c, hexValue d with
        | some x, some y => BitVec.ofNat 8 (16 * x + y) :: parseHex s
        | _, _ => []

/-- `base_blob::SetHex`: the digits fill the number from its low end. -/
def uint256S (psz : Str) : Uint256 where
  data :=
    let psz := psz.dropWhile isspace
    let psz := if psz.take 2 = [unit '0', unit 'x'] ∨ psz.take 2 = [unit '0', unit 'X'] then psz.drop 2 else psz
    let digits := ((psz.takeWhile fun c => (hexValue c).isSome).map fun c => (hexValue c).getD 0).reverse
    (List.range 32).map fun i => BitVec.ofNat 8 (16 * digits.getD (2 * i + 1) 0 + digits.getD (2 * i) 0)
  width := by simp

theorem not_isspace {c : CodeUnit} (hc : (hexValue c).isSome) : isspace c = false := by
  unfold hexValue at hc
  rw [isspace, decide_eq_false_iff_not]
  split_ifs at hc
  · omega
  · omega
  · omega
  · cases hc

/-- Without white space the miner reads hex as the pool does. -/
theorem parseHex_eq : ∀ {s : Str}, IsHexDigits s → parseHex s = hexDecode s
  | [], _ => rfl
  | [c], hs => by simp [parseHex, hexDecode]
  | c :: d :: s, hs => by
    have ih : parseHex s = hexDecode s := parseHex_eq fun e he => hs e (by simp [he])
    have hc := not_isspace (hs c (by simp))
    cases hx : hexValue c <;> cases hy : hexValue d <;> simp [parseHex, hexDecode, hc, ih, hx, hy]

end Text

section Stream

def leBytes (width n : ℕ) : List Byte := (List.range width).map fun i => BitVec.ofNat 8 (n >>> (8 * i))

def writeCompactSize (nSize : ℕ) : List Byte :=
  if nSize < 253 then leBytes 1 nSize
  else if nSize ≤ 0xffff then 253 :: leBytes 2 nSize
  else if nSize ≤ 0xffffffff then 254 :: leBytes 4 nSize
  else 255 :: leBytes 8 nSize

/-- Reading beyond the end of a stream throws. -/
def readBytes (n : ℕ) (ss : List Byte) : Option (List Byte × List Byte) :=
  if n ≤ ss.length then some (ss.take n, ss.drop n) else none

def readUint256 (ss : List Byte) : Option (Uint256 × List Byte) :=
  if h : 32 ≤ ss.length then some (⟨ss.take 32, by simp [h]⟩, ss.drop 32) else none

theorem readUint256_append (x : Uint256) (ss : List Byte) :
    readUint256 (x.data ++ ss) = some (x, ss) := by
  have hlen : 32 ≤ (x.data ++ ss).length := by simp [x.width]
  obtain ⟨data, width⟩ := x
  rw [readUint256, dif_pos hlen]
  simp [List.take_left' width, List.drop_left' width]

/-- A size in `width` bytes that is not below `least`. -/
def readSize (width least : ℕ) (ss : List Byte) : Option (ℕ × List Byte) :=
  (readBytes width ss).bind fun (size, ss) =>
    if least ≤ beNat size.reverse then some (beNat size.reverse, ss) else none

def readCompactSize : List Byte → Option (ℕ × List Byte)
  | [] => none
  | chSize :: ss =>
    (if chSize.toNat < 253 then some (chSize.toNat, ss)
      else if chSize = 253 then readSize 2 253 ss
      else if chSize = 254 then readSize 4 0x10000 ss
      else readSize 8 0x100000000 ss).filter fun size => size.1 ≤ 0x02000000

end Stream

structure ABlockHeader where
  headerHash : Uint256
  nNonce : Uint256
  nSolution : List Byte

def ABlockHeader.unserialize (ss : List Byte) : Option ABlockHeader := do
  let (headerHash, ss) ← readUint256 ss
  let (nNonce, ss) ← readUint256 ss
  let (nSize, ss) ← readCompactSize ss
  let (nSolution, _) ← readBytes nSize ss
  pure { headerHash := headerHash, nNonce := nNonce, nSolution := nSolution }

theorem unserialize_zeros (headerHash : Uint256) :
    ABlockHeader.unserialize (headerHash.data ++ List.replicate 33 0) =
      some { headerHash := headerHash, nNonce := ⟨List.replicate 32 0, rfl⟩, nSolution := [] } := by
  have hzeros : List.replicate 33 (0 : Byte) = (⟨List.replicate 32 0, rfl⟩ : Uint256).data ++ [0] := rfl
  rw [hzeros]
  simp only [ABlockHeader.unserialize, readUint256_append, Option.bind_eq_bind, Option.bind_some]
  rfl

structure ServerNonce where
  nonce1 : Uint256
  nonce1Size : ℕ
  nonce2Inc : Arith256

/-- The extra nonce padded at its end; the increment starts right after it. -/
def setServerNonce (n1str : Str) : ServerNonce where
  nonce1 := ⟨((parseHex n1str) ++ List.replicate (32 - (parseHex n1str).length) 0).take 32, by simp; omega⟩
  nonce1Size := n1str.length
  nonce2Inc := (Arith256.ofUInt64 1).shiftLeft (n1str.length * 4)

structure NotifyParams where
  jobId : Str
  clean : Bool
  target : Str
  headerHash : Str
  deriving DecidableEq, Inhabited

structure AionJob where
  job : Str
  header : ABlockHeader
  nonce1Size : ℕ
  nonce2Inc : Arith256
  serverTarget : Arith256
  clean : Bool

def serverTarget (target : Str) : Arith256 :=
  if target.length > 0 then uintToArith256 (uint256S target)
  else uintToArith256 (uint256S (List.replicate 64 (unit 'f')))

/-- `none` when the header cannot be read and an exception is thrown. -/
def parseJob (server : ServerNonce) (params : NotifyParams) : Option AionJob :=
  let strHexHeader := params.headerHash ++ List.replicate 64 (unit '0') ++ List.replicate 2 (unit '0')
  (ABlockHeader.unserialize (parseHex strHexHeader)).map fun header =>
    { job := params.jobId
      header := { header with nNonce := server.nonce1 }
      nonce1Size := server.nonce1Size
      nonce2Inc := server.nonce2Inc
      serverTarget := serverTarget params.target
      clean := params.clean }

namespace AionJob
variable (job : AionJob)

def startNonce (pos : ℕ) : Arith256 :=
  (uintToArith256 job.header.nNonce).or ((Arith256.ofUInt64 (BitVec.ofNat 64 pos)).shiftLeft (8 * 19))

def nonce (pos n : ℕ) : Arith256 := (fun nonce => nonce.add job.nonce2Inc)^[n] (job.startNonce pos)

def equihashInput (nonce : Uint256) : List Byte := job.header.headerHash.data ++ nonce.data

/-- The bytes whose hash is compared with the target. -/
def targetInput (nonce : Uint256) (nSolution : List Byte) : List Byte :=
  job.header.headerHash.data ++ nonce.data ++ nSolution

theorem take_nonce {k : ℕ} (hk : k ≤ 4) (hinc : job.nonce2Inc.pn.take k = List.replicate k 0)
    (pos n : ℕ) :
    (arithToUint256 (job.nonce pos n)).data.take (k * 4) = job.header.nNonce.data.take (k * 4) := by
  -- Neither the thread number nor the increments touch the first limbs
  have hlimbs : (job.nonce pos n).pn.take k = (uintToArith256 job.header.nNonce).pn.take k := by
    induction n with
    | zero => exact Arith256.take_or (Arith256.take_shiftLeft _ (by omega) (by omega))
    | succ n ih =>
      rw [nonce, Function.iterate_succ_apply']
      exact (Arith256.take_add hinc).trans ih
  rw [take_data_congr hlimbs, arithToUint256_uintToArith256]

end AionJob

/-- A header hash of 64 hex digits is read as the pool reads it. -/
theorem parseJob_of_hex (server : ServerNonce) {params : NotifyParams}
    (hhex : IsHexDigits params.headerHash) (hlen : params.headerHash.length = 64) :
    ∃ job, parseJob server params = some job ∧ job.job = params.jobId ∧
    job.header.headerHash.data = hexDecode params.headerHash ∧
      job.header.nNonce = server.nonce1 ∧ job.nonce1Size = server.nonce1Size ∧
      job.nonce2Inc = server.nonce2Inc := by
  have hzeros : List.replicate 64 (unit '0') ++ List.replicate 2 (unit '0') =
      hexStr (List.replicate 33 0) := by decide
  have hdigits : IsHexDigits (params.headerHash ++ hexStr (List.replicate 33 0)) := by
    intro c hc
    rcases List.mem_append.mp hc with hc | hc
    · exact hhex c hc
    · exact isHexDigits_hexStr _ c hc
  have hbytes : parseHex (params.headerHash ++ List.replicate 64 (unit '0') ++ List.replicate 2 (unit '0')) =
      hexDecode params.headerHash ++ List.replicate 33 0 := by
    rw [List.append_assoc, hzeros, parseHex_eq hdigits, hexDecode_append hhex (n := 32) hlen,
      hexDecode_hexStr]
  have hheader := unserialize_zeros ⟨hexDecode params.headerHash, length_hexDecode hhex hlen⟩
  rw [← hbytes] at hheader
  exact ⟨_, Option.map_eq_some_iff.mpr ⟨_, hheader, rfl⟩, rfl, rfl, rfl, rfl, rfl⟩

end Aion.Miner
