import AionMiner.Pool.BlockTemplate
import Mathlib.Logic.Function.Basic

/-! `jobManager.js`: job numbers, extra nonces, and what becomes of a template or a share. -/

namespace Aion.Pool
open Bits Equihash Text

section Counters

structure JobCounter where
  counter : ℕ

namespace JobCounter

def cur (c : JobCounter) : Str := (Nat.toDigits 16 c.counter).map unit

def next (c : JobCounter) : JobCounter := if (c.counter + 1) % 0xffff = 0 then ⟨1⟩ else ⟨c.counter + 1⟩

theorem cur_inj {c d : JobCounter} (h : c.cur = d.cur) : c = d := by
  have := congrArg hexNumber h
  rw [cur, cur, hexNumber_toDigits, hexNumber_toDigits] at this
  cases c
  cases d
  exact congrArg JobCounter.mk this

theorem next_ne (c : JobCounter) : c.next ≠ c := by
  intro h
  have hcounter := congrArg JobCounter.counter h
  unfold next at hcounter
  split_ifs at hcounter with hwrap
  · change 1 = c.counter at hcounter
    rw [← hcounter] at hwrap
    exact absurd hwrap (by decide)
  · change c.counter + 1 = c.counter at hcounter
    omega

end JobCounter

structure ExtraNonceCounter where
  instanceId : BitVec 32
  counter : ℕ

/-- The four bytes of `writeUInt32BE`. -/
def be32 (x : BitVec 32) : List Byte :=
  [x.extractLsb' 24 8, x.extractLsb' 16 8, x.extractLsb' 8 8, x.extractLsb' 0 8]

/-- The next extra nonce; `none` when the counter no longer fits `writeUInt32BE`, which throws. -/
def ExtraNonceCounter.next (c : ExtraNonceCounter) : Option Str × ExtraNonceCounter :=
  (if c.counter < 2 ^ 32 then some (hexStr (be32 c.instanceId ++ be32 (BitVec.ofNat 32 c.counter))) else none,
    { c with counter := c.counter + 1 })

end Counters

/-- The templates are objects: `currentJob` and `validJobs` refer to them by the number of their creation. -/
structure JobManager where
  jobCounter : JobCounter
  jobs : ℕ → BlockTemplate
  created : ℕ
  currentJob : Option ℕ
  validJobs : Str → Option ℕ

structure Share where
  jobId : Str
  extraNonce1 : Str
  extraNonce2 : Str
  nTime : Str
  nonce : Str
  ipAddress : Str
  port : Str
  workerName : Str
  soln : Str

structure Response where
  error : Option (ℕ × String)
  result : Bool
  blockHash : Option Str
  deriving DecidableEq

/-- The arguments of `emit('share', ...)`. -/
inductive ShareEvent where
  | rejected (job ip worker : Str) (error : String)
  | accepted (job ip port worker : Str) (height : ℤ) (blockHash headerHash nTime nonce solution : Str)

inductive Event where
  | newBlock (job : BlockTemplate)
  | share (e : ShareEvent)

namespace JobManager

def init : JobManager where
  jobCounter := ⟨0⟩
  jobs _ := default
  created := 0
  currentJob := none
  validJobs _ := none

/-- Whether a template is new, and that it is not outdated. -/
def isNewBlock (s : JobManager) (rpcData : RpcData) : Bool :=
  match s.currentJob with
  | none => true
  | some ref =>
    let cur := (s.jobs ref).rpcData
    cur.previousblockhash != rpcData.previousblockhash && !decide (rpcData.height < cur.height)

/-- The result is `none` when an exception escapes; the job number is used up all the same. -/
def processTemplate (host : Host) (s : JobManager) (rpcData : RpcData) : JobManager × Option Bool × List Event :=
  if !s.isNewBlock rpcData then (s, some false, [])
  else
    let s := { s with jobCounter := s.jobCounter.next }
    match blockTemplate host s.jobCounter.cur rpcData with
    | none => (s, none, [])
    | some tmpBlockTemplate =>
      ({ s with
          jobs := Function.update s.jobs s.created tmpBlockTemplate
          created := s.created + 1
          currentJob := some s.created
          validJobs := Function.update s.validJobs tmpBlockTemplate.jobId (some s.created) },
        some true, [.newBlock tmpBlockTemplate])

def shareError (s : JobManager) (sh : Share) (code : ℕ) (text : String) : JobManager × Response × ShareEvent :=
  (s, { error := some (code, text), result := false, blockHash := none },
    .rejected sh.jobId sh.ipAddress sh.workerName text)

def processShare (host : Host) (s : JobManager) (sh : Share) : JobManager × Response × ShareEvent :=
  match s.validJobs sh.jobId with
  | none => s.shareError sh 21 "job not found"
  | some ref =>
    let job := s.jobs ref
    if job.jobId ≠ sh.jobId then s.shareError sh 21 "job not found"
    else if sh.nTime.length ≠ 16 then s.shareError sh 20 "incorrect size of ntime"
    else if sh.nonce.length ≠ 64 then s.shareError sh 20 "incorrect size of nonce"
    else if sh.soln.length ≠ 2822 then s.shareError sh 20 "incorrect size of solution"
    else if !isHexString host.unicodeLower sh.extraNonce2 then s.shareError sh 20 "invalid hex in extraNonce2"
    else
      match job.registerSubmit (toLowerCase host.unicodeLower sh.extraNonce1)
        (toLowerCase host.unicodeLower sh.extraNonce2) sh.nTime sh.nonce with
      | (false, _) => s.shareError sh 22 "duplicate share"
      | (true, job) =>
        let s := { s with jobs := Function.update s.jobs ref job }
        let headerBuffer := job.serializeHeader sh.nonce
        let solution := hexDecode (sh.soln.drop 6)
        let headerHash := host.blake2 (headerBuffer ++ solution)
        if host.hashDigest headerBuffer solution ≠ true then s.shareError sh 20 "invalid solution"
        else
          let completeHeader := job.serializeHeaderTarget sh.nonce sh.soln
          let completeHeaderHash := host.blake2 completeHeader
          if job.overTarget host completeHeaderHash then s.shareError sh 20 "Header hash larger than target"
          else
            let blockHash := hexStr headerHash.reverse
            (s, { error := none, result := true, blockHash := some blockHash },
              .accepted sh.jobId sh.ipAddress sh.port sh.workerName job.rpcData.height (hexStr completeHeaderHash)
                job.rpcData.headerHash sh.nTime sh.nonce (hexStr solution))

end JobManager
end Aion.Pool
