import AionMiner.Machine.Runs
import AionMiner.Payments.Rewards
import AionMiner.Redis.Hashrate

/-! `processPayments` from its first command to its last one, with `handleShare` in between. -/

namespace Aion.Payments
open Text Redis
open Stratum (literal decimal)

section Commands

/-- A number as Redis reads integers: one that it would write like that. -/
def integer (s : Str) : Option ℤ :=
  let digits (s : Str) : ℕ := Nat.ofDigitChars 10 (s.map fun u => Char.ofNat u.toNat) 0
  let n : ℤ := if s.head? = some (unit '-') then -digits s.tail else digits s
  if number n = s then some n else none

def Command.exec (db : Database Str Str) : Command → Option (Database Str Str)
  | .smove source destination member => Redis.smove db source destination member
  | .hincrby key field increment => (integer increment).bind fun n => Redis.exec db (.hincrby key field n)
  | .hincrbyfloat key field increment => Redis.exec db (.hincrbyfloat key field increment)
  | .del keys => some (Redis.del db keys)

def execAll (db : Database Str Str) (commands : List Command) : Database Str Str :=
  commands.foldl (fun db command => (command.exec db).getD db) db

end Commands

section Code

structure KeyOrder where
  order : List (Str × Worker) → List (Str × Worker)
  perm : ∀ workers, (order workers).Perm workers

/-- How Redis writes numbers: integers as such, and nothing else like an integer. -/
structure Numerals where
  text : ℚ → Str
  integers : ∀ n : ℤ, text n = number n
  exact : ∀ x n, text x = number n → x = n

structure Pool where
  coin : Str
  poolAddress : Str
  setup : Setup
  numerals : Numerals
  keys : KeyOrder

def balances (coin : Str) : Str := coin ++ literal ":balances"

def payouts (coin : Str) : Str := coin ++ literal ":payouts"

def roundOf (r : Str) : Round where
  serialized := r
  height := (r.splitOn (unit ':')).getD 2 (literal "undefined")
  category := .other
  canDeleteShares := false
  workerShares := none

def sharesAt (coin : Str) (db : Database Str Str) (height : Str) : Option Credits :=
  match db.lookup (roundKey coin height) with
  | some (.hash fields) => some fields
  | _ => none

namespace Pool
variable (pool : Pool)

/-- Nothing is rounded off: what balances hold are whole satoshis. -/
def coinsToSatoshies (coins : ℚ) : ℕ := ⌊coins * 10 ^ pool.setup.coinPrecision⌋₊

def workersOf (balances : AList fun _ : Str => ℚ) : Accounts :=
  mapValues (fun x => ⟨pool.coinsToSatoshies x, none⟩) balances

def workersIn (workers : Accounts) : List (Str × Worker) :=
  pool.keys.order (workers.entries.map fun e => (e.1, ⟨e.2.balance, e.2.reward.getD 0, none, 0, 0⟩))

end Pool

inductive Phase where
  | idle
  | read (workers : Accounts) (rounds : List Round)
  | owed (workers : Accounts) (rounds : List Round) (allWorkerShares : Str → Option Credits)
      (earnings : List Earning)
  | paid (workers : List (Str × Worker)) (rounds : List Round) (allWorkerShares : Str → Option Credits)
      (earnings : List Earning)
  | disabled (earnings : List Earning)

def Phase.underway : Phase → List Earning
  | .paid _ _ _ earnings | .disabled earnings => earnings
  | _ => []

def Phase.due : Phase → List Earning
  | .owed _ _ _ earnings => earnings
  | _ => []

structure State where
  db : Database Str Str
  phase : Phase
  calls : List Call
  earned : List Earning
  sent : ℚ
  retried : Bool

inductive Event where
  | share (call : Call)
  | start
  | answer (txDetails : List Answer)
  | send (replies : List Reply)
  | record
  | fail

/-- One pass at a time; an exception ends the process, and another one takes its place. -/
def Pool.step (pool : Pool) (s : State) : Event → Option State
  | .share call =>
    some { s with db := handleShare pool.numerals.text pool.coin s.db call, calls := s.calls ++ [call] }
  | .start =>
    match s.phase, hashAt s.db (balances pool.coin), setAt s.db (blocksPending pool.coin) with
    | .idle, some balances, some pending =>
      some { s with phase := .read (pool.workersOf balances) (pending.map roundOf) }
    | _, _, _ => none
  | .answer txDetails =>
    match s.phase with
    | .read workers rounds =>
      match assign pool.poolAddress rounds (txDetails.map Answer.reply) with
      | none => some { s with phase := .idle }
      | some rounds =>
        let allWorkerShares := sharesAt pool.coin s.db
        some { s with
          phase := .owed ((rounds.zip txDetails).foldl (rewardRound pool.poolAddress allWorkerShares) workers) rounds
            allWorkerShares (earningsOf pool.poolAddress allWorkerShares (rounds.zip txDetails)) }
    | _ => none
  | .send replies =>
    match s.phase with
    | .owed workers rounds allWorkerShares earnings =>
      match pool.setup.trySend 0 (pool.workersIn workers) replies with
      | none => some { s with phase := .idle }
      | some (workers, amounts) =>
        some { s with
          phase := .paid workers rounds allWorkerShares earnings
          sent := s.sent + (amounts.map Store.Writes.total).getD 0
          retried := s.retried || decide (0 < Setup.retriesOf replies) }
    | _ => none
  | .record =>
    match s.phase with
    | .paid workers rounds allWorkerShares earnings =>
      match roundCommands pool.coin (fun height => (allWorkerShares height).map (mapValues pool.numerals.text))
          (pool.setup.updates workers) rounds with
      | none => some { s with phase := .idle }
      | some commands =>
        some { s with db := execAll s.db commands, phase := .idle, earned := s.earned ++ earnings }
    | _ => none
  | .fail =>
    match s.phase with
    | .read _ _ | .owed _ _ _ _ => some { s with phase := .idle }
    | .paid _ _ _ earnings => some { s with phase := .disabled earnings }
    | _ => none

end Code

section Allowed

/-- The properties that each object has. -/
def objectProperties : List Str :=
  ["__proto__", "constructor", "hasOwnProperty", "isPrototypeOf", "propertyIsEnumerable",
    "toLocaleString", "toString", "valueOf", "__defineGetter__", "__defineSetter__", "__lookupGetter__",
    "__lookupSetter__"].map literal

/-- A share counts for something, and each block is a share and has a height of its own. -/
structure Fresh (calls : List Call) (call : Call) : Prop where
  positive : call.isValidShare = true → 0 < call.shareData.difficulty
  named : call.isValidShare = true → call.shareData.worker ∉ objectProperties
  valid : call.isValidBlock = true → call.isValidShare = true
  height : call.isValidBlock = true →
    ∀ earlier ∈ calls, earlier.isValidBlock = true → earlier.shareData.height ≠ call.shareData.height
  hash : unit ':' ∉ call.shareData.blockHash.getD [] ∧ unit ':' ∉ call.shareData.txHash.getD []

/-- Less than all is withheld, and no number is so large that `toFixed` leaves it alone. -/
def Pool.Allowed (pool : Pool) (s : State) : Event → Prop
  | .share call => Fresh s.calls call
  | .send replies =>
    Setup.retriesOf replies ≤ 100 ∧
      (((s.earned ++ s.phase.due).map Earning.reward).sum : ℚ) < 10 ^ 21 * 10 ^ pool.setup.coinPrecision
  | _ => True

def start (s : State) : Prop := s = ⟨∅, .idle, [], [], 0, false⟩

end Allowed
end Aion.Payments
