import AionMiner.Store.Writes
import AionMiner.Stratum.Values
import Mathlib.Data.Rat.Floor

/-! The last two steps of `processPayments`: `trySend` with its retries, and what is recorded of it.
All amounts are exact. -/

namespace Aion.Payments
open Text Bits Store.Writes
open Stratum (literal)

section Code

/-- `toFixed(digits)`; from `1e21` on the number is left as it is. -/
def toFixed (digits : ℕ) (x : ℚ) : ℚ :=
  if 10 ^ 21 ≤ |x| then x
  else if x < 0 then -(⌊-x * 10 ^ digits + 1 / 2⌋ / 10 ^ digits)
  else ⌊x * 10 ^ digits + 1 / 2⌋ / 10 ^ digits

/-- What `SetupForPool` finds out; the magnitude is `10 ^ coinPrecision`, and a minimum may be
`NaN`. -/
structure Setup where
  coinPrecision : ℕ
  minPaymentSatoshis : Option ℤ
  getProperAddress : Str → Option Str

/-- Balance and reward are in satoshis. -/
structure Worker where
  balance : ℕ
  reward : ℕ
  address : Option Str
  sent : ℚ
  balanceChange : ℚ

/-- The objects of JavaScript have each key once. -/
abbrev Workers := { entries : List (Str × Worker) // (entries.map Prod.fst).Nodup }

abbrev Amounts := AList fun _ : Str => ℚ

inductive Reply where
  | ok
  | insufficientFunds
  | failed
  deriving DecidableEq

section Address
variable (base58encode : List Byte → Str) (base58decode : Str → Option (List Byte))
variable (sha256d : List Byte → List Byte)

def addressFromEx (exAddress ripdm160Key : Str) : Option Str :=
  (base58decode exAddress).map fun bytes =>
    let addrBase := bytes.take 1 ++ hexDecode ripdm160Key
    base58encode (addrBase ++ (sha256d addrBase).take 4)

def getProperAddress (poolAddress address : Str) : Option Str :=
  if address.length = 40 then addressFromEx base58encode base58decode sha256d poolAddress address
  else some address

end Address

/-- `addressAmounts[address] = coins`; the setter of `__proto__` takes no numbers. -/
def setAmount (addressAmounts : Amounts) (e : Str × ℚ) : Amounts :=
  if e.1 = literal "__proto__" then addressAmounts else write addressAmounts e

def toSend (retries : ℕ) (worker : Worker) : ℚ :=
  (worker.balance + worker.reward) * (1 - retries / 100)

namespace Setup
variable (s : Setup)

def satoshisToCoins (satoshis : ℚ) : ℚ := toFixed s.coinPrecision (satoshis / 10 ^ s.coinPrecision)

def Pays (retries : ℕ) (worker : Worker) : Prop :=
  ∃ m ∈ s.minPaymentSatoshis, (m : ℚ) ≤ toSend retries worker

instance (retries : ℕ) (worker : Worker) : Decidable (s.Pays retries worker) :=
  inferInstanceAs (Decidable (∃ m ∈ s.minPaymentSatoshis, (m : ℚ) ≤ toSend retries worker))

def addressOf (w : Str) (worker : Worker) : Option Str :=
  match worker.address with
  | some (c :: address) => some (c :: address)
  | _ => s.getProperAddress w

def addressKey (w : Str) (worker : Worker) : Str := (s.addressOf w worker).getD (literal "null")

def fill (retries : ℕ) : List (Str × Worker) → Amounts → List (Str × Worker) × Amounts
  | [], addressAmounts => ([], addressAmounts)
  | (w, worker) :: workers, addressAmounts =>
    if s.Pays retries worker then
      let sent := s.satoshisToCoins (toSend retries worker)
      let rest := fill retries workers (setAmount addressAmounts (s.addressKey w worker, sent))
      let balanceChange := min (worker.balance : ℚ) (toSend retries worker) * -1
      ((w, { worker with address := s.addressOf w worker, sent, balanceChange }) :: rest.1, rest.2)
    else
      let rest := fill retries workers addressAmounts
      let balanceChange := max (toSend retries worker - worker.balance) 0
      ((w, { worker with sent := 0, balanceChange }) :: rest.1, rest.2)

/-- The workers behind the last attempt and what `sendmany` was given, if there was something to
send. `none`: it has failed, or has not answered. -/
def trySend (retries : ℕ) (workers : List (Str × Worker)) :
    List Reply → Option (List (Str × Worker) × Option Amounts)
  | [] =>
    let attempt := s.fill retries workers ∅
    if attempt.2.entries = [] then some (attempt.1, none) else none
  | reply :: replies =>
    let attempt := s.fill retries workers ∅
    if attempt.2.entries = [] then some (attempt.1, none)
    else
      match reply with
      | .ok => some (attempt.1, some attempt.2)
      | .insufficientFunds => trySend (retries + 1) attempt.1 replies
      | .failed => none

end Setup

/-- The increments of the hashes `balances` and `payouts`, and that of `totalPaid`. -/
structure Updates where
  balances : List (Str × ℚ)
  payouts : List (Str × ℚ)
  totalPaid : ℚ

def Setup.updates (s : Setup) (workers : List (Str × Worker)) : Updates where
  balances := (workers.filter fun e => e.2.balanceChange ≠ 0).map fun e =>
    (e.1, s.satoshisToCoins e.2.balanceChange)
  payouts := (workers.filter fun e => e.2.sent ≠ 0).map fun e => (e.1, e.2.sent)
  totalPaid := ((workers.filter fun e => e.2.sent ≠ 0).map fun e => e.2.sent).sum

end Code

section Attempts
variable {s : Setup}

namespace Setup

def visit (s : Setup) (retries : ℕ) (e : Str × Worker) : Str × Worker :=
  if s.Pays retries e.2 then
    (e.1,
      { e.2 with
        address := s.addressOf e.1 e.2
        sent := s.satoshisToCoins (toSend retries e.2)
        balanceChange := min (e.2.balance : ℚ) (toSend retries e.2) * -1 })
  else (e.1, { e.2 with sent := 0, balanceChange := max (toSend retries e.2 - e.2.balance) 0 })

def payments (s : Setup) (retries : ℕ) (workers : List (Str × Worker)) : List (Str × ℚ) :=
  (workers.filter fun e => s.Pays retries e.2).map fun e =>
    (s.addressKey e.1 e.2, s.satoshisToCoins (toSend retries e.2))

theorem payments_cons (retries : ℕ) (e : Str × Worker) (workers : List (Str × Worker)) :
    s.payments retries (e :: workers) =
      if s.Pays retries e.2 then
        (s.addressKey e.1 e.2, s.satoshisToCoins (toSend retries e.2)) :: s.payments retries workers
      else s.payments retries workers := by
  rw [payments, List.filter_cons]
  by_cases hpays : s.Pays retries e.2
  · rw [if_pos (decide_eq_true hpays), if_pos hpays]
    rfl
  · rw [if_neg (by rw [decide_eq_true_eq]; exact hpays), if_neg hpays]
    rfl

theorem fill_eq (retries : ℕ) (workers : List (Str × Worker)) (m : Amounts) :
    s.fill retries workers m =
      (workers.map (s.visit retries), (s.payments retries workers).foldl setAmount m) := by
  induction workers generalizing m with
  | nil => rfl
  | cons e workers ih =>
    rw [fill, List.map_cons, visit, payments_cons]
    by_cases hpays : s.Pays retries e.2
    · rw [if_pos hpays, if_pos hpays, if_pos hpays]
      dsimp only
      rw [ih]
      rfl
    · rw [if_neg hpays, if_neg hpays, if_neg hpays]
      dsimp only
      rw [ih]

theorem visit_fst (k : ℕ) (e : Str × Worker) : (s.visit k e).1 = e.1 := by
  rw [visit]
  split_ifs
  all_goals rfl

theorem visit_balance (k : ℕ) (e : Str × Worker) : (s.visit k e).2.balance = e.2.balance := by
  rw [visit]
  split_ifs
  all_goals rfl

theorem toSend_visit (j k : ℕ) (e : Str × Worker) : toSend k (s.visit j e).2 = toSend k e.2 := by
  rw [visit]
  split_ifs
  all_goals rfl

theorem pays_visit (j k : ℕ) (e : Str × Worker) : s.Pays k (s.visit j e).2 ↔ s.Pays k e.2 := by
  rw [Pays, toSend_visit, Pays]

theorem addressOf_visit (j : ℕ) (e : Str × Worker) :
    s.addressOf e.1 (s.visit j e).2 = s.addressOf e.1 e.2 := by
  rw [visit]
  split_ifs
  · unfold addressOf
    dsimp only
    rcases e.2.address with _ | _ | ⟨c, address⟩
    · rcases s.getProperAddress e.1 with _ | _ | ⟨c, address⟩
      all_goals rfl
    · rcases s.getProperAddress e.1 with _ | _ | ⟨c, address⟩
      all_goals rfl
    · rfl
  · rfl

theorem payments_visit (j k : ℕ) (workers : List (Str × Worker)) :
    s.payments k (workers.map (s.visit j)) = s.payments k workers := by
  induction workers with
  | nil => rfl
  | cons e workers ih =>
    rw [List.map_cons, payments_cons, payments_cons, ih, addressKey, visit_fst, addressOf_visit,
      toSend_visit]
    simp only [pays_visit]
    rfl

def record (e : Str × Worker) : Str × ℚ × ℚ := (e.1, e.2.sent, e.2.balanceChange)

theorem record_visit (j k : ℕ) (e : Str × Worker) :
    record (s.visit k (s.visit j e)) = record (s.visit k e) := by
  rw [visit, visit.eq_def s k e]
  simp only [pays_visit, toSend_visit, visit_fst, visit_balance]
  split_ifs
  all_goals rfl

theorem updates_congr {workers workers' : List (Str × Worker)}
    (h : workers.map record = workers'.map record) : s.updates workers = s.updates workers' := by
  have hupdates (l : List (Str × Worker)) : s.updates l =
      ⟨((l.map record).filter fun r => r.2.2 ≠ 0).map fun r => (r.1, s.satoshisToCoins r.2.2),
        ((l.map record).filter fun r => r.2.1 ≠ 0).map fun r => (r.1, r.2.1),
        (((l.map record).filter fun r => r.2.1 ≠ 0).map fun r => r.2.1).sum⟩ := by
    rw [updates, List.filter_map, List.filter_map, List.map_map, List.map_map, List.map_map]
    rfl
  rw [hupdates, hupdates, h]

/-- How often funds did not suffice. -/
def retriesOf (replies : List Reply) : ℕ := (replies.takeWhile (· = .insufficientFunds)).length

/-- What is sent and what is recorded does not depend on the attempts before the last one. -/
theorem trySend_some {k : ℕ} {workers after : List (Str × Worker)} {replies : List Reply}
    {amounts : Amounts} (h : s.trySend k workers replies = some (after, some amounts)) :
    amounts = (s.payments (k + retriesOf replies) workers).foldl setAmount ∅ ∧
      s.updates after = s.updates (workers.map (s.visit (k + retriesOf replies))) := by
  induction replies generalizing k workers with
  | nil =>
    rw [trySend] at h
    split_ifs at h
    cases h
  | cons reply replies ih =>
    rw [trySend.eq_def, fill_eq] at h
    dsimp only at h
    split_ifs at h
    · cases h
    · cases reply with
      | ok =>
        cases h
        exact ⟨rfl, rfl⟩
      | insufficientFunds =>
        have hretries : k + retriesOf (.insufficientFunds :: replies) =
            k + 1 + retriesOf replies := by
          exact (Nat.add_right_comm k 1 (retriesOf replies)).symm
        obtain ⟨hamounts, hupdates⟩ := ih h
        rw [payments_visit] at hamounts
        rw [hretries]
        refine ⟨hamounts, hupdates.trans (updates_congr ?_)⟩
        simp only [List.map_map, Function.comp_def, record_visit]
      | failed => cases h

end Setup
end Attempts

end Aion.Payments
