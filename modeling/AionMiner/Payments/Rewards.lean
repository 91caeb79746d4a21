import AionMiner.Payments.Rounds
import AionMiner.Redis.Holdings
import AionMiner.Store.Parts

/-! The third step of `processPayments`: what workers are owed of the rewards of confirmed rounds. -/

namespace Aion.Payments
open Text Redis Store.Parts

section Code

abbrev Credits := AList fun _ : Str => ℚ

/-- A reward that is `undefined` or `NaN` counts as nothing. -/
structure Account where
  balance : ℕ
  reward : Option ℕ

abbrev Accounts := AList fun _ : Str => Account

/-- An amount is a whole number of satoshis. -/
structure Output where
  address : Str
  category : Category
  amount : ℕ

structure Answer where
  error : Option ℤ
  result : Option (Option (List Output))

def Answer.reply (tx : Answer) : TxReply where
  error := tx.error
  result := tx.result.map fun details => details.map fun outputs => outputs.map fun o => ⟨o.address, o.category⟩

def Answer.amount (poolAddress : Str) (tx : Answer) : ℕ :=
  match tx.result with
  | some (some details) =>
      (((details.find? fun d => d.address = poolAddress).or details.head?).map Output.amount).getD 0
  | _ => 0

def totalShares (workerShares : Credits) : ℚ := (workerShares.entries.map fun e => e.2).sum

/-- Without shares the percentage is `NaN`. -/
def workerRewardTotal (reward : ℕ) (total share : ℚ) : Option ℕ :=
  if total = 0 then none else some (part reward total share)

def addReward (workers : Accounts) (workerAddress : Str) (workerRewardTotal : Option ℕ) : Accounts :=
  let worker := (workers.lookup workerAddress).getD ⟨0, none⟩
  workers.insert workerAddress
    { worker with reward := workerRewardTotal.map fun total => worker.reward.getD 0 + total }

def distribute (workers : Accounts) (reward : ℕ) (workerShares : Credits) : Accounts :=
  workerShares.entries.foldl
    (fun workers e => addReward workers e.1 (workerRewardTotal reward (totalShares workerShares) e.2)) workers

def rewardRound (poolAddress : Str) (allWorkerShares : Str → Option Credits) (workers : Accounts)
    (round : Round × Answer) : Accounts :=
  match allWorkerShares round.1.height with
  | none => workers
  | some workerShares =>
    if round.1.category = .generate then distribute workers (round.2.amount poolAddress) workerShares else workers

end Code

section Distribution

structure Earning where
  serialized : Str
  reward : ℕ
  workerShares : Credits

def Earning.of (e : Earning) (worker : Str) : ℕ :=
  ((e.workerShares.lookup worker).map (part e.reward (totalShares e.workerShares))).getD 0

def Earning.weigh (c : Str → ℚ) (e : Earning) : ℚ :=
  sumOver (fun k x => c k * part e.reward (totalShares e.workerShares) x) e.workerShares

def rewards (c : Str → ℚ) (workers : Accounts) : ℚ := sumOver (fun k a => c k * (a.reward.getD 0 : ℕ)) workers

def balanceOf (workers : Accounts) (worker : Str) : ℕ := ((workers.lookup worker).getD ⟨0, none⟩).balance

variable {c : Str → ℚ} {workers : Accounts}

theorem Earning.weigh_single (e : Earning) (worker : Str) : e.weigh (Pi.single worker 1) = e.of worker := by
  refine (sumOver_single (fun x => (part e.reward (totalShares e.workerShares) x : ℚ))
    e.workerShares worker).trans ?_
  rw [Earning.of]
  cases e.workerShares.lookup worker with
  | none => exact Nat.cast_zero.symm
  | some x => rfl

def Earning.Sound (e : Earning) : Prop := (∀ s ∈ e.workerShares.entries, 0 ≤ s.2) ∧ totalShares e.workerShares ≠ 0

/-- No more than the reward is distributed, and less than a satoshi for each worker is not. -/
theorem Earning.weigh_one {e : Earning} (he : e.Sound) :
    e.weigh 1 ≤ e.reward ∧ (e.reward : ℚ) < e.weigh 1 + e.workerShares.entries.length := by
  have hweights : ∀ x ∈ e.workerShares.entries.map fun s => s.2, 0 ≤ x := List.forall_mem_map.mpr he.1
  have hsum : e.weigh 1 =
      (((e.workerShares.entries.map fun s => s.2).map (part e.reward (totalShares e.workerShares))).sum : ℕ) := by
    rw [Earning.weigh, sumOver, Nat.cast_list_sum, List.map_map, List.map_map]
    exact congrArg _ (List.map_congr_left fun s _ => one_mul _)
  have hle := sum_part_le hweights e.reward
  have hlt := lt_sum_part he.2 e.reward
  rw [List.length_map] at hlt
  rw [hsum]
  exact ⟨by exact_mod_cast hle, by exact_mod_cast hlt⟩

theorem rewards_addReward (workerAddress : Str) (total : ℕ) :
    rewards c (addReward workers workerAddress (some total)) = rewards c workers + c workerAddress * total := by
  have hat : weightAt (fun k a => c k * (a.reward.getD 0 : ℕ)) workers workerAddress =
      c workerAddress * (((workers.lookup workerAddress).getD ⟨0, none⟩).reward.getD 0 : ℕ) := by
    rw [weightAt]
    cases workers.lookup workerAddress with
    | none => exact (mul_zero _).symm
    | some a => rfl
  unfold rewards addReward
  rw [sumOver_insert, ← sumOver_erase _ workers workerAddress, hat]
  dsimp only [Option.map_some, Option.getD_some]
  rw [Nat.cast_add, mul_add, add_right_comm]

theorem balanceOf_addReward (workerAddress worker : Str) (total : Option ℕ) :
    balanceOf (addReward workers workerAddress total) worker = balanceOf workers worker := by
  unfold balanceOf addReward
  by_cases hworker : worker = workerAddress
  · subst hworker
    rw [AList.lookup_insert]
    rfl
  · rw [AList.lookup_insert_ne hworker]

theorem rewards_distribute {e : Earning} (he : e.Sound) :
    rewards c (distribute workers e.reward e.workerShares) = rewards c workers + e.weigh c := by
  unfold distribute Earning.weigh sumOver
  induction e.workerShares.entries generalizing workers with
  | nil => exact (add_zero _).symm
  | cons s entries ih =>
    rw [List.foldl_cons, workerRewardTotal, if_neg he.2, List.map_cons, List.sum_cons, ← add_assoc,
      ← rewards_addReward]
    exact ih

theorem balanceOf_distribute (reward : ℕ) (workerShares : Credits) (worker : Str) :
    balanceOf (distribute workers reward workerShares) worker = balanceOf workers worker := by
  unfold distribute
  induction workerShares.entries generalizing workers with
  | nil => rfl
  | cons s entries ih =>
    rw [List.foldl_cons]
    exact ih.trans (balanceOf_addReward _ _ _)

end Distribution

section Rounds
variable {c : Str → ℚ} {poolAddress : Str} {allWorkerShares : Str → Option Credits}

/-- The confirmed rounds, as far as there are shares of them. -/
def earningsOf (poolAddress : Str) (allWorkerShares : Str → Option Credits) (rounds : List (Round × Answer)) :
    List Earning :=
  rounds.filterMap fun (r, tx) =>
    if r.category = .generate then
      (allWorkerShares r.height).map fun workerShares => ⟨r.serialized, tx.amount poolAddress, workerShares⟩
    else none

theorem rewardRounds_spec {rounds : List (Round × Answer)} {workers : Accounts}
    (h : ∀ e ∈ earningsOf poolAddress allWorkerShares rounds, e.Sound) :
    rewards c (rounds.foldl (rewardRound poolAddress allWorkerShares) workers) =
        rewards c workers + ((earningsOf poolAddress allWorkerShares rounds).map (Earning.weigh c)).sum ∧
      ∀ worker, balanceOf (rounds.foldl (rewardRound poolAddress allWorkerShares) workers) worker =
        balanceOf workers worker := by
  induction rounds generalizing workers with
  | nil => exact ⟨(add_zero _).symm, fun _ => rfl⟩
  | cons round rounds ih =>
    obtain ⟨r, tx⟩ := round
    rw [List.foldl_cons, rewardRound]
    unfold earningsOf at h ⊢
    rw [List.filterMap_cons] at h ⊢
    cases hshares : allWorkerShares r.height with
    | none =>
      simp only [hshares, Option.map_none, ite_self] at h ⊢
      exact ih h
    | some workerShares =>
      by_cases hcategory : r.category = .generate
      · simp only [hshares, hcategory, if_true, Option.map_some] at h ⊢
        obtain ⟨hfirst, hrest⟩ := List.forall_mem_cons.mp h
        obtain ⟨hrewards, hbalances⟩ := ih hrest
        rw [List.map_cons, List.sum_cons, ← add_assoc, ← rewards_distribute hfirst]
        exact ⟨hrewards, fun worker => (hbalances worker).trans (balanceOf_distribute _ _ _)⟩
      · simp only [hcategory, if_false] at h ⊢
        exact ih h

end Rounds
end Aion.Payments
