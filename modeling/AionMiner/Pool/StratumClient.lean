import AionMiner.Pool.JobManager

/-! `stratum.js`: what the pool makes of a `mining.submit`. -/

namespace Aion.Pool
open Bits Text

structure SubmitParams where
  name : Str
  jobId : Str
  nTime : Str
  extraNonce2 : Str
  soln : Str

structure StratumClient where
  authorized : Bool
  extraNonce1 : Option Str
  remoteAddress : Str
  localPort : Str

namespace StratumClient
variable (client : StratumClient) (params : SubmitParams)

/-- The arguments of `emit('submit', ...)`, with what the listener adds to them. -/
def share (extraNonce1 : Str) : Share where
  jobId := params.jobId
  extraNonce1 := extraNonce1
  extraNonce2 := params.extraNonce2
  nTime := params.nTime
  nonce := extraNonce1 ++ params.extraNonce2
  ipAddress := client.remoteAddress
  port := client.localPort
  workerName := params.name
  soln := params.soln

/-- A share for the job manager, or the code and text of the error that is sent back. The empty
string counts as no extra nonce. -/
def handleSubmit : Except (ℕ × String) Share :=
  if !client.authorized then .error (24, "unauthorized worker")
  else
    match client.extraNonce1 with
    | none | some [] => .error (25, "not subscribed")
    | some extraNonce1 => .ok (client.share params extraNonce1)

variable {client params}

theorem handleSubmit_eq {extraNonce1 : Str} (hauthorized : client.authorized = true)
    (hsubscribed : client.extraNonce1 = some extraNonce1) (hne : extraNonce1 ≠ []) :
    client.handleSubmit params = .ok (client.share params extraNonce1) := by
  unfold handleSubmit
  cases extraNonce1 with
  | nil => exact absurd rfl hne
  | cons c s => simp [hauthorized, hsubscribed]

end StratumClient
end Aion.Pool
