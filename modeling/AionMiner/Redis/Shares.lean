import AionMiner.Redis.Database
import AionMiner.Stratum.Values

/-! `shareProcessor.js`: the credits of a round are kept in Redis, and a block closes the round. -/

namespace Aion.Redis
open Text Stratum

section Code

structure ShareData where
  worker : Str
  difficulty : ℚ
  height : ℤ
  blockHash : Option Str
  txHash : Option Str

/-- The arguments of `handleShare`, and the clock. -/
structure Call where
  isValidShare : Bool
  isValidBlock : Bool
  shareData : ShareData
  dateNow : ℕ

def number : ℤ → Str
  | .ofNat n => decimal n
  | .negSucc n => unit '-' :: decimal (n + 1)

def roundCurrent (coin : Str) : Str := coin ++ literal ":shares:roundCurrent"

def roundAt (coin : Str) (height : ℤ) : Str := coin ++ literal ":shares:round" ++ number height

def stats (coin : Str) : Str := coin ++ literal ":stats"

def hashrate (coin : Str) : Str := coin ++ literal ":hashrate"

def blocksPending (coin : Str) : Str := coin ++ literal ":blocksPending"

/-- `undefined` joins as nothing. -/
def joinColon (parts : List Str) : Str := List.intercalate (literal ":") parts

def creditCommands (coin : Str) (call : Call) : List (Command Str Str) :=
  if call.isValidShare then
    [.hincrbyfloat (roundCurrent coin) call.shareData.worker call.shareData.difficulty,
      .hincrby (stats coin) (literal "validShares") 1]
  else [.hincrby (stats coin) (literal "invalidShares") 1]

/-- `text` writes a number; `dateNow / 1000 | 0` is a 32-bit integer. -/
def hashrateCommands (text : ℚ → Str) (coin : Str) (call : Call) : List (Command Str Str) :=
  let difficulty := if call.isValidShare then call.shareData.difficulty else -call.shareData.difficulty
  [.zadd (hashrate coin) (BitVec.ofNat 32 (call.dateNow / 1000)).toInt
    (joinColon [text difficulty, call.shareData.worker, decimal call.dateNow])]

def blockCommands (coin : Str) (call : Call) : List (Command Str Str) :=
  let d := call.shareData
  if call.isValidBlock then
    [.rename (roundCurrent coin) (roundAt coin d.height),
      .sadd (blocksPending coin) (joinColon [d.blockHash.getD [], d.txHash.getD [], number d.height]),
      .hincrby (stats coin) (literal "validBlocks") 1]
  else if d.blockHash.getD [] ≠ [] then [.hincrby (stats coin) (literal "invalidBlocks") 1]
  else []

def handleShare (text : ℚ → Str) (coin : Str) (db : Database Str Str) (call : Call) : Database Str Str :=
  multi db (creditCommands coin call ++ hashrateCommands text coin call ++ blockCommands coin call)

def run (text : ℚ → Str) (coin : Str) (calls : List Call) : Database Str Str :=
  calls.foldl (handleShare text coin) ∅

end Code

section Keys

theorem head_decimal (n : ℕ) : ∃ c s, decimal n = unit c :: s ∧ c.isDigit = true := by
  obtain ⟨c, cs, hcs⟩ := List.exists_cons_of_ne_nil (Nat.toDigits_ne_nil (n := n) (b := 10))
  refine ⟨c, cs.map unit, by rw [decimal, hcs, List.map_cons], ?_⟩
  apply Nat.isDigit_of_mem_toDigits (b := 10) (n := n) (by decide) (by decide)
  rw [hcs]
  exact List.mem_cons_self

theorem unit_digit_ne {c d : Char} (hc : c.isDigit = true) (hd : Char.ofNat (unit d).toNat = d)
    (hne : d.isDigit = false) : unit c ≠ unit d := by
  intro h
  rw [← unit_digit hc, h, hd] at hc
  rw [hc] at hne
  cases hne

theorem number_inj {m n : ℤ} (h : number m = number n) : m = n := by
  cases m with
  | ofNat m =>
    cases n with
    | ofNat n => rw [decimal_inj h]
    | negSucc n =>
      obtain ⟨c, s, hm, hc⟩ := head_decimal m
      simp only [number, hm, List.cons.injEq] at h
      exact absurd h.1 (unit_digit_ne hc rfl rfl)
  | negSucc m =>
    cases n with
    | ofNat n =>
      obtain ⟨c, s, hn, hc⟩ := head_decimal n
      simp only [number, hn, List.cons.injEq] at h
      exact absurd h.1.symm (unit_digit_ne hc rfl rfl)
    | negSucc n =>
      simp only [number, List.cons.injEq, true_and] at h
      rw [Nat.succ_injective (decimal_inj h)]

theorem number_ne_current (n : ℤ) : number n ≠ literal "Current" := by
  intro h
  cases n with
  | ofNat n =>
    obtain ⟨c, s, hn, hc⟩ := head_decimal n
    rw [number, hn] at h
    exact absurd (List.cons.inj h).1 (unit_digit_ne hc rfl rfl)
  | negSucc n => exact absurd (List.cons.inj h).1 (by decide)

variable (coin : Str)

def isRound (key : Str) : Bool := (coin ++ literal ":shares:round").isPrefixOf key

theorem isRound_current : isRound coin (roundCurrent coin) = true := by
  rw [isRound, List.isPrefixOf_iff_prefix]
  exact (List.prefix_append_right_inj coin).mpr (by decide)

theorem isRound_at (height : ℤ) : isRound coin (roundAt coin height) = true := by
  rw [isRound, List.isPrefixOf_iff_prefix]
  apply List.prefix_append

theorem isRound_other {suffix : Str} (h : ¬literal ":shares:round" <+: suffix) :
    isRound coin (coin ++ suffix) = false := by
  rw [isRound, Bool.eq_false_iff, Ne, List.isPrefixOf_iff_prefix, List.prefix_append_right_inj]
  exact h

theorem roundAt_ne_current (height : ℤ) : roundAt coin height ≠ roundCurrent coin := by
  have hcurrent : roundCurrent coin = coin ++ literal ":shares:round" ++ literal "Current" := by
    rw [List.append_assoc]
    rfl
  rw [hcurrent, roundAt]
  exact fun h => number_ne_current height (List.append_cancel_left h)

theorem roundAt_inj {h h' : ℤ} (heq : roundAt coin h = roundAt coin h') : h = h' :=
  number_inj (List.append_cancel_left heq)

end Keys
end Aion.Redis
