import AionMiner.Payments.Amounts

/-! What the pool owes and has paid, and how a pass keeps that together. -/

namespace Aion.Payments
open Text Redis

section Books

/-- All that was earned, each worker weighed by `c`. -/
def owing (c : Str → ℚ) (earned : List Earning) : ℚ := (earned.map (Earning.weigh c)).sum

theorem owing_append (c : Str → ℚ) (earned earnings : List Earning) :
    owing c (earned ++ earnings) = owing c earned + owing c earnings := by
  rw [owing, List.map_append, List.sum_append]
  rfl

theorem owing_single (worker : Str) (earned : List Earning) :
    owing (Pi.single worker 1) earned = ((earned.map fun e => e.of worker).sum : ℕ) := by
  rw [owing, Nat.cast_list_sum, List.map_map]
  exact congrArg List.sum (List.map_congr_left fun e _ => e.weigh_single worker)

theorem owing_mono {c d : Str → ℚ} (h : ∀ w, c w ≤ d w) (earned : List Earning) : owing c earned ≤ owing d earned :=
  List.sum_le_sum fun _ _ => List.sum_le_sum fun s _ => mul_le_mul_of_nonneg_right (h s.1) (Nat.cast_nonneg _)

theorem owing_one {earned : List Earning} (h : ∀ e ∈ earned, e.Sound) :
    owing 1 earned ≤ (earned.map Earning.reward).sum := by
  rw [owing, Nat.cast_list_sum, List.map_map]
  exact List.sum_le_sum fun e he => (Earning.weigh_one (h e he)).1

theorem single_nonneg (worker w : Str) : 0 ≤ (Pi.single worker 1 : Str → ℚ) w := by
  by_cases h : w = worker
  · rw [h, Pi.single_eq_same]
    exact zero_le_one
  · rw [Pi.single_eq_of_ne h]

theorem single_le_one (worker w : Str) : (Pi.single worker 1 : Str → ℚ) w ≤ 1 := by
  by_cases h : w = worker
  · rw [h, Pi.single_eq_same]
  · rw [Pi.single_eq_of_ne h]
    exact zero_le_one

/-- Balances are whole satoshis, and together with payouts they are no more than what was earned, and
no less where nothing was withheld. -/
structure Books (coinPrecision : ℕ) (balances payouts : AList fun _ : Str => ℚ) (earned : List Earning)
    (retried : Bool) : Prop where
  whole : ∀ worker, ∃ n : ℕ, (balances.lookup worker).getD 0 * 10 ^ coinPrecision = n
  paid : ∀ worker, 0 ≤ (payouts.lookup worker).getD 0
  kept : ∀ c, (∀ w, 0 ≤ c w) → (weigh c balances + weigh c payouts) * 10 ^ coinPrecision ≤ owing c earned
  all : retried = false → ∀ c, (∀ w, 0 ≤ c w) →
    (weigh c balances + weigh c payouts) * 10 ^ coinPrecision = owing c earned

variable {coinPrecision : ℕ} {balances payouts : AList fun _ : Str => ℚ} {earned : List Earning} {retried : Bool}

theorem Books.weaken (h : Books coinPrecision balances payouts earned retried) (b : Bool) :
    Books coinPrecision balances payouts earned (retried || b) :=
  ⟨h.whole, h.paid, h.kept, fun hretried => h.all (Bool.or_eq_false_iff.mp hretried).1⟩

theorem Books.balance_nonneg (h : Books coinPrecision balances payouts earned retried) (worker : Str) :
    0 ≤ (balances.lookup worker).getD 0 := by
  obtain ⟨n, hn⟩ := h.whole worker
  refine nonneg_of_mul_nonneg_left (b := (10 : ℚ) ^ coinPrecision) ?_ (by positivity)
  rw [hn]
  exact n.cast_nonneg

theorem Books.payouts_le (h : Books coinPrecision balances payouts earned retried) :
    weigh 1 payouts * 10 ^ coinPrecision ≤ owing 1 earned := by
  have hbalances : 0 ≤ weigh 1 balances := by
    refine weigh_nonneg (fun _ => zero_le_one) fun e he => ?_
    have hnonneg := h.balance_nonneg e.1
    rwa [AList.mem_lookup_iff.mpr he] at hnonneg
  have hkept := h.kept 1 fun _ => zero_le_one
  rw [add_mul] at hkept
  have hwhole : 0 ≤ weigh 1 balances * 10 ^ coinPrecision := mul_nonneg hbalances (by positivity)
  linarith

/-- What a single worker has and had. -/
theorem Books.single (h : Books coinPrecision balances payouts earned retried) (worker : Str) :
    ((balances.lookup worker).getD 0 + (payouts.lookup worker).getD 0) * 10 ^ coinPrecision ≤
        ((earned.map fun e => e.of worker).sum : ℕ) ∧
      (retried = false → ((balances.lookup worker).getD 0 + (payouts.lookup worker).getD 0) * 10 ^ coinPrecision =
        ((earned.map fun e => e.of worker).sum : ℕ)) := by
  have hbalance : weigh (Pi.single worker 1) balances = (balances.lookup worker).getD 0 := weigh_single worker
  have hpayout : weigh (Pi.single worker 1) payouts = (payouts.lookup worker).getD 0 := weigh_single worker
  rw [← hbalance, ← hpayout, ← owing_single]
  exact ⟨h.kept _ (single_nonneg worker), fun hretried => h.all hretried _ (single_nonneg worker)⟩

end Books

section Pass
variable {pool : Pool} {balances payouts : AList fun _ : Str => ℚ} {earned earnings : List Earning} {retried : Bool}
  {accounts : Accounts}

/-- The accounts of a pass: balances as they are kept, and as rewards what the rounds have earned. -/
structure Reads (pool : Pool) (balances : AList fun _ : Str => ℚ) (accounts : Accounts) (earnings : List Earning) :
    Prop where
  balance : ∀ worker, (balanceOf accounts worker : ℚ) =
    (balances.lookup worker).getD 0 * 10 ^ pool.setup.coinPrecision
  reward : ∀ c, rewards c accounts = owing c earnings

theorem Reads.account (h : Reads pool balances accounts earnings) {worker : Str} {a : Account}
    (ha : accounts.lookup worker = some a) :
    (a.balance : ℚ) = (balances.lookup worker).getD 0 * 10 ^ pool.setup.coinPrecision ∧
      ((a.reward.getD 0 : ℕ) : ℚ) = owing (Pi.single worker 1) earnings := by
  constructor
  · rw [← h.balance worker, balanceOf, ha]
    rfl
  · rw [← h.reward, rewards, sumOver_single (fun a : Account => ((a.reward.getD 0 : ℕ) : ℚ)), ha]
    rfl

theorem reads_workersOf (h : Books pool.setup.coinPrecision balances payouts earned retried) :
    Reads pool balances (pool.workersOf balances) [] := by
  refine ⟨fun worker => ?_, fun c => ?_⟩
  · obtain ⟨n, hn⟩ := h.whole worker
    rw [balanceOf, Pool.workersOf, lookup_mapValues]
    cases hlookup : balances.lookup worker with
    | none => exact (zero_mul _).symm
    | some x =>
      rw [hlookup, Option.getD_some] at hn
      rw [Option.map_some, Option.getD_some, Option.getD_some, hn]
      dsimp only
      rw [Pool.coinsToSatoshies, hn, Nat.floor_natCast]
  · rw [rewards, Pool.workersOf, sumOver_mapValues]
    refine List.sum_eq_zero fun x hx => ?_
    obtain ⟨e, -, rfl⟩ := List.mem_map.mp hx
    exact (congrArg (c e.1 * ·) Nat.cast_zero).trans (mul_zero _)

theorem sum_workersIn {f : Str → Worker → ℚ} :
    ((pool.workersIn accounts).map fun e => f e.1 e.2).sum =
      sumOver (fun k a => f k ⟨a.balance, a.reward.getD 0, none, 0, 0⟩) accounts := by
  unfold Pool.workersIn
  rw [((pool.keys.perm _).map _).sum_eq, List.map_map]
  rfl

theorem sum_rewards (c : Str → ℚ) :
    ((pool.workersIn accounts).map fun e => c e.1 * e.2.reward).sum = rewards c accounts :=
  sum_workersIn (f := fun w worker => c w * worker.reward)

/-- What an attempt changes about one balance. -/
theorem balances_single (k : ℕ) (worker : Str) :
    Setup.weighAll (Pi.single worker 1)
      (pool.setup.updates ((pool.workersIn accounts).map (pool.setup.visit k))).balances =
      ((accounts.lookup worker).map fun a =>
        pool.setup.satoshisToCoins
          (pool.setup.visit k (worker, ⟨a.balance, a.reward.getD 0, none, 0, 0⟩)).2.balanceChange).getD 0 := by
  rw [Setup.weighAll_balances, List.map_map, ← sumOver_single]
  refine (congrArg List.sum (List.map_congr_left fun e _ => ?_)).trans
    (sum_workersIn (f := fun w account =>
      (Pi.single worker 1 : Str → ℚ) w *
        pool.setup.satoshisToCoins (pool.setup.visit k (worker, account)).2.balanceChange))
  rw [Function.comp_apply, Setup.visit_fst]
  by_cases h : e.1 = worker
  · rw [← h]
  · rw [Pi.single_eq_of_ne h, zero_mul, zero_mul]

/-- No worker has more than was earned. -/
theorem Books.account_lt (h : Books pool.setup.coinPrecision balances payouts earned retried)
    (hreads : Reads pool balances accounts earnings) (hsound : ∀ e ∈ earned ++ earnings, e.Sound)
    (hsmall : (((earned ++ earnings).map Earning.reward).sum : ℚ) < 10 ^ 21 * 10 ^ pool.setup.coinPrecision)
    {worker : Str} {a : Account} (ha : accounts.lookup worker = some a) :
    ((a.balance + a.reward.getD 0 : ℕ) : ℚ) < 10 ^ 21 * 10 ^ pool.setup.coinPrecision := by
  obtain ⟨hbalance, hreward⟩ := hreads.account ha
  have hkept : (a.balance : ℚ) ≤ owing (Pi.single worker 1) earned := by
    have hsingle := (h.single worker).1
    have hpaid : 0 ≤ (payouts.lookup worker).getD 0 * 10 ^ pool.setup.coinPrecision :=
      mul_nonneg (h.paid worker) (by positivity)
    rw [add_mul, ← hbalance, ← owing_single] at hsingle
    linarith
  have hall : owing (Pi.single worker 1) (earned ++ earnings) ≤
      (((earned ++ earnings).map Earning.reward).sum : ℕ) :=
    (owing_mono (single_le_one worker) _).trans (owing_one hsound)
  rw [owing_append] at hall
  push_cast at hall hsmall ⊢
  linarith

/-- What an attempt sends and leaves is what there was and what was earned. -/
theorem Books.send (h : Books pool.setup.coinPrecision balances payouts earned retried)
    (hreads : Reads pool balances accounts earnings) (hsound : ∀ e ∈ earned ++ earnings, e.Sound)
    (hsmall : (((earned ++ earnings).map Earning.reward).sum : ℚ) < 10 ^ 21 * 10 ^ pool.setup.coinPrecision)
    {k : ℕ} (hk : k ≤ 100) {b : Bool} (hb : b = false → k = 0) {u : Updates}
    (hu : u = pool.setup.updates ((pool.workersIn accounts).map (pool.setup.visit k))) :
    Books pool.setup.coinPrecision (addAll balances u.balances) (addAll payouts u.payouts) (earned ++ earnings)
      (retried || b) := by
  have hpower : (0 : ℚ) < 10 ^ pool.setup.coinPrecision := by positivity
  have hweigh (c : Str → ℚ) : (weigh c (addAll balances u.balances) + weigh c (addAll payouts u.payouts)) *
        10 ^ pool.setup.coinPrecision =
      (weigh c balances + weigh c payouts) * 10 ^ pool.setup.coinPrecision +
        (Setup.weighAll c u.payouts + Setup.weighAll c u.balances) * 10 ^ pool.setup.coinPrecision := by
    rw [weigh_addAll, weigh_addAll, Setup.weighAll, Setup.weighAll]
    ring
  have hvisit {c : Str → ℚ} (hc : ∀ w, 0 ≤ c w) := pool.setup.weighAll_visit hc hk (pool.workersIn accounts)
  simp only [← hu, sum_rewards, hreads.reward] at hvisit
  refine ⟨fun worker => ?_, fun worker => ?_, fun c hc => ?_, fun hretried c hc => ?_⟩
  · rw [← weigh_single, weigh_addAll, weigh_single]
    have hsingle := @balances_single pool accounts k worker
    rw [← hu, Setup.weighAll] at hsingle
    rw [hsingle]
    cases ha : accounts.lookup worker with
    | none =>
      rw [Option.map_none, Option.getD_none, add_zero]
      exact h.whole worker
    | some a =>
      rw [Option.map_some, Option.getD_some, add_mul, ← (hreads.account ha).1]
      exact (Setup.visit_spec (s := pool.setup) hk (worker, ⟨a.balance, a.reward.getD 0, none, 0, 0⟩)).2
        (h.account_lt hreads hsound hsmall ha)
  · rw [← weigh_single, weigh_addAll, weigh_single]
    refine add_nonneg (h.paid worker) ?_
    rw [hu]
    refine le_of_le_of_eq (List.sum_nonneg fun x hx => ?_) (Setup.weighAll_payouts _ _).symm
    obtain ⟨e, he, rfl⟩ := List.mem_map.mp hx
    obtain ⟨e, -, rfl⟩ := List.mem_map.mp he
    exact mul_nonneg (single_nonneg _ _) (Setup.sent_nonneg hk e)
  · rw [hweigh, owing_append]
    exact add_le_add (h.kept c hc) ((le_div_iff₀ hpower).mp (hvisit hc).1)
  · obtain ⟨hretried, hfalse⟩ := Bool.or_eq_false_iff.mp hretried
    rw [hweigh, owing_append, h.all hretried c hc]
    exact congrArg _ ((eq_div_iff hpower.ne').mp ((hvisit hc).2 (hb hfalse)))

end Pass
end Aion.Payments
