import AionMiner.Miner.Job
import AionMiner.Pool.JobManager

/-! One miner and its pool: the lines the pool writes, the connection they travel on, and what the
miner's stratum client makes of them. -/

namespace Aion.Session
open Text Miner Pool

/-- A line from the pool: the reply to `mining.subscribe`, or `mining.notify`. The replies to
`mining.authorize` and `mining.extranonce.subscribe` change nothing below. -/
inductive Line where
  | subscribed (extraNonce1 : Str)
  | notify (params : NotifyParams)

def Line.params : Line → Option NotifyParams
  | .subscribed _ => none
  | .notify params => some params

structure PoolServer where
  jobCounter : JobCounter
  extraNonceCounter : ExtraNonceCounter
  jobParams : NotifyParams

structure StratumMiner where
  connected : Bool
  server : ServerNonce
  current : Option AionJob
  threads : Option AionJob
  paused : Bool

/-- Connections are numbered. `client` says that the pool has the current one in `stratumClients`,
`requested` that its subscription request is on the way; `inbox` holds what the miner has not
processed, each line with its connection; `torn` says that the piece of a line is left in
`m_responseBuffer`. -/
structure State where
  pool : PoolServer
  miner : StratumMiner
  conn : ℕ
  client : Bool
  requested : Bool
  torn : Bool
  inbox : List (ℕ × Line)

inductive Event where
  | newBlock (target headerHash : Str) (timeout : Bool)
  | subscription (timeout : Bool)
  | restart (instanceId : BitVec 32) (target headerHash : Str) (kept : ℕ)
  | drop (kept : ℕ)
  | connect (kept : ℕ) (torn : Bool)
  | reconnect
  | process

section Pool

def PoolServer.template (pool : PoolServer) (target headerHash : Str) : PoolServer :=
  { pool with
    jobCounter := pool.jobCounter.next
    jobParams := { jobId := pool.jobCounter.next.cur, clean := true, target := target, headerHash := headerHash } }

def PoolServer.start (instanceId : BitVec 32) (target headerHash : Str) : PoolServer :=
  PoolServer.template ⟨⟨0⟩, ⟨instanceId, 0⟩, default⟩ target headerHash

/-- A line on the current connection. Behind the piece of an old line the first one cannot be read. -/
def State.write (s : State) (line : Line) : State :=
  if s.torn then { s with torn := false } else { s with inbox := s.inbox ++ [(s.conn, line)] }

def State.hangUp (s : State) (kept : ℕ) : State :=
  { s with client := false, requested := false, inbox := s.inbox.take kept }

def State.sendMiningJob (s : State) (timeout : Bool) : State :=
  if timeout then { s with client := false, requested := false } else s.write (.notify s.pool.jobParams)

end Pool

section Miner

def StratumMiner.reconnect (m : StratumMiner) : StratumMiner := { m with connected := false, paused := true }

/-- `processReponse`; an exception in `parseJob` leads to `reconnect`. -/
def StratumMiner.processReponse (m : StratumMiner) : Line → StratumMiner
  | .subscribed extraNonce1 => { m with server := setServerNonce extraNonce1 }
  | .notify params =>
    match parseJob m.server params with
    | none => m.reconnect
    | some workOrder =>
      if !workOrder.clean then m
      else if m.current.any (fun current => workOrder.job == current.job) then m
      else { m with current := some workOrder, threads := some workOrder, paused := false }

end Miner

/-- One event; `none` where it cannot happen, or where the extra nonce counter throws and ends the pool. -/
def step (s : State) : Event → Option State
  | .newBlock target headerHash timeout =>
    let s := { s with pool := s.pool.template target headerHash }
    some (if s.client then s.sendMiningJob timeout else s)
  | .subscription timeout =>
    if s.client && s.requested then
      match s.pool.extraNonceCounter.next with
      | (none, _) => none
      | (some extraNonce1, counter) =>
        let s := { s with pool := { s.pool with extraNonceCounter := counter }, requested := false }
        some ((s.write (.subscribed extraNonce1)).sendMiningJob timeout)
    else none
  | .restart instanceId target headerHash kept =>
    some { s.hangUp kept with pool := .start instanceId target headerHash }
  | .drop kept => some (s.hangUp kept)
  | .connect kept torn =>
    if s.miner.connected then none
    else
      some
        { s with
          miner := { s.miner with connected := true }
          conn := s.conn + 1
          client := true
          requested := true
          torn := torn
          inbox := s.inbox.take kept }
  | .reconnect => some { s with miner := s.miner.reconnect }
  | .process =>
    match s.inbox with
    | [] => none
    | (_, line) :: inbox =>
      if s.miner.connected then some { s with miner := s.miner.processReponse line, inbox := inbox } else none

/-- What has been processed on the current connection: the extra nonce of the subscription reply,
the last `mining.notify` after it, and whether `p_current` has been replaced since. -/
structure Seen where
  extraNonce1 : Option Str
  last : Option NotifyParams
  replaced : Bool

def Seen.nothing : Seen := ⟨none, none, false⟩

def Seen.observe (w : Seen) (s : State) : Event → Seen
  | .connect _ _ | .reconnect => .nothing
  | .process =>
    match s.inbox with
    | (conn, line) :: _ =>
      if !(s.miner.processReponse line).connected then .nothing
      else if conn ≠ s.conn then w
      else
        match line with
        | .subscribed extraNonce1 => ⟨some extraNonce1, none, false⟩
        | .notify params =>
          if w.extraNonce1.isSome then
            { w with
              last := some params
              replaced :=
                w.replaced || params.clean && !s.miner.current.any fun current => params.jobId == current.job }
          else w
    | [] => w
  | _ => w

/-- A first pool process, and a miner that has connected to nothing; `server` is what its fields
happen to hold. -/
def start (server : ServerNonce) (instanceId : BitVec 32) (target headerHash : Str) : State where
  pool := .start instanceId target headerHash
  miner := ⟨false, server, none, none, false⟩
  conn := 0
  client := false
  requested := false
  torn := false
  inbox := []

inductive Reachable (ok : State → Seen → Event → Prop) : State → Seen → Prop
  | start (server : ServerNonce) (instanceId : BitVec 32) (target headerHash : Str) :
      Reachable ok (start server instanceId target headerHash) .nothing
  | step {s s' : State} {w : Seen} {e : Event} :
      Reachable ok s w → ok s w e → step s e = some s' → Reachable ok s' (w.observe s e)

end Aion.Session
