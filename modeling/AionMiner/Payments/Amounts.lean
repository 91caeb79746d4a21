import AionMiner.Payments.Conserve
import AionMiner.Payments.Pass

/-! What an attempt to pay leaves each worker: at most what it had, in whole satoshis. -/

namespace Aion.Payments
open Text Redis
open Stratum (literal)

namespace Setup
variable {s : Setup}

section Rounding

theorem satoshisToCoins_neg {x : ℚ} (hx : 0 ≤ x) : s.satoshisToCoins (-x) = -s.satoshisToCoins x := by
  rcases hx.eq_or_lt with rfl | hpos
  · rw [neg_zero, satoshisToCoins, zero_div, toFixed_zero, neg_zero]
  · have hpower : (0 : ℚ) < 10 ^ s.coinPrecision := by positivity
    have hquot : 0 < x / 10 ^ s.coinPrecision := div_pos hpos hpower
    unfold satoshisToCoins toFixed
    rw [neg_div, abs_neg, neg_neg, if_pos (neg_neg_of_pos hquot), if_neg (not_lt.mpr hquot.le)]
    split_ifs
    · rfl
    · rfl

/-- No rounding goes beyond a whole number of satoshis. -/
theorem satoshisToCoins_le {x : ℚ} {n : ℕ} (hx : x ≤ n) : s.satoshisToCoins x * 10 ^ s.coinPrecision ≤ n := by
  have hpower : (0 : ℚ) < 10 ^ s.coinPrecision := by positivity
  unfold satoshisToCoins toFixed
  split_ifs with hlarge hneg
  · rwa [div_mul_cancel₀ _ hpower.ne']
  · have hfloor : (0 : ℤ) ≤ ⌊-(x / 10 ^ s.coinPrecision) * 10 ^ s.coinPrecision + 1 / 2⌋ := by
      refine Int.floor_nonneg.mpr (add_nonneg (mul_nonneg ?_ hpower.le) (by norm_num))
      exact (neg_pos.mpr hneg).le
    rw [neg_mul, div_mul_cancel₀ _ hpower.ne']
    exact (neg_nonpos.mpr (by exact_mod_cast hfloor)).trans n.cast_nonneg
  · rw [div_mul_cancel₀ _ hpower.ne', div_mul_cancel₀ _ hpower.ne']
    have hlt : ⌊x + 1 / 2⌋ < (n : ℤ) + 1 := by
      refine Int.floor_lt.mpr ?_
      push_cast
      linarith
    exact_mod_cast Int.lt_add_one_iff.mp hlt

theorem satoshisToCoins_whole {x : ℚ} (hx : 0 ≤ x) (hsmall : x < 10 ^ 21 * 10 ^ s.coinPrecision) :
    ∃ n : ℕ, s.satoshisToCoins x * 10 ^ s.coinPrecision = n := by
  have hpower : (0 : ℚ) < 10 ^ s.coinPrecision := by positivity
  have hquot : 0 ≤ x / 10 ^ s.coinPrecision := div_nonneg hx hpower.le
  have hlarge : ¬(10 : ℚ) ^ 21 ≤ |x / 10 ^ s.coinPrecision| := by
    rw [abs_of_nonneg hquot, not_le]
    exact (div_lt_iff₀ hpower).mpr hsmall
  obtain ⟨n, hn⟩ := Int.eq_ofNat_of_zero_le (Int.floor_nonneg.mpr (add_nonneg hx (by norm_num : (0 : ℚ) ≤ 1 / 2)))
  refine ⟨n, ?_⟩
  unfold satoshisToCoins toFixed
  rw [if_neg hlarge, if_neg (not_lt.mpr hquot), div_mul_cancel₀ _ hpower.ne', div_mul_cancel₀ _ hpower.ne', hn]
  exact Int.cast_natCast n

end Rounding

section Visit

theorem toSend_bounds {k : ℕ} (hk : k ≤ 100) (worker : Worker) :
    0 ≤ toSend k worker ∧ toSend k worker ≤ (worker.balance + worker.reward : ℕ) := by
  have hwhole : (0 : ℚ) ≤ worker.balance + worker.reward := by positivity
  have hcast : (k : ℚ) ≤ 100 := by exact_mod_cast hk
  have hpart : 0 ≤ 1 - (k : ℚ) / 100 := by
    rw [sub_nonneg, div_le_one (by norm_num)]
    exact hcast
  have hle : 1 - (k : ℚ) / 100 ≤ 1 := sub_le_self _ (by positivity)
  unfold toSend
  rw [Nat.cast_add]
  exact ⟨mul_nonneg hwhole hpart, mul_le_of_le_one_right hwhole hle⟩

/-- What a worker is sent and what its balance gains make no more than its reward, and its balance stays
a whole number of satoshis. -/
theorem visit_spec {k : ℕ} (hk : k ≤ 100) (e : Str × Worker) :
    ((s.visit k e).2.sent + s.satoshisToCoins (s.visit k e).2.balanceChange) * 10 ^ s.coinPrecision ≤ e.2.reward ∧
      ((e.2.balance + e.2.reward : ℕ) < (10 : ℚ) ^ 21 * 10 ^ s.coinPrecision →
        ∃ n : ℕ, (e.2.balance : ℚ) +
          s.satoshisToCoins (s.visit k e).2.balanceChange * 10 ^ s.coinPrecision = n) := by
  obtain ⟨hnonneg, hle⟩ := toSend_bounds hk e.2
  have hpower : (10 : ℚ) ^ s.coinPrecision ≠ 0 := by positivity
  have hzero : s.satoshisToCoins 0 = 0 := by rw [satoshisToCoins, zero_div, toFixed_zero]
  rw [visit]
  generalize toSend k e.2 = x at hnonneg hle ⊢
  obtain ⟨w, balance, reward, address, sent, balanceChange⟩ := e
  dsimp only at hle ⊢
  split_ifs
  · dsimp only
    rcases le_total (balance : ℚ) x with hbalance | hbalance
    · have hchange : s.satoshisToCoins (min (balance : ℚ) x * -1) * 10 ^ s.coinPrecision = -balance := by
        have hint := s.satoshisToCoins_int (-balance)
        rw [Int.cast_neg, Int.cast_natCast] at hint
        rw [min_eq_left hbalance, mul_neg_one, hint, div_mul_cancel₀ _ hpower]
      have hsent := satoshisToCoins_le (s := s) hle
      rw [Nat.cast_add] at hsent
      rw [add_mul, hchange]
      exact ⟨by linarith, fun _ => ⟨0, by rw [add_neg_cancel, Nat.cast_zero]⟩⟩
    · rw [min_eq_right hbalance, mul_neg_one, satoshisToCoins_neg hnonneg, add_neg_cancel, zero_mul, neg_mul]
      refine ⟨reward.cast_nonneg, fun hsmall => ?_⟩
      obtain ⟨n, hn⟩ := satoshisToCoins_whole (s := s) hnonneg (hle.trans_lt hsmall)
      have hsent := satoshisToCoins_le (s := s) hbalance
      rw [hn] at hsent ⊢
      exact ⟨balance - n, by rw [Nat.cast_sub (by exact_mod_cast hsent), sub_eq_add_neg]⟩
  · dsimp only
    rw [zero_add]
    rcases le_total (balance : ℚ) x with hbalance | hbalance
    · rw [max_eq_left (sub_nonneg.mpr hbalance)]
      have hgain : x - balance ≤ reward := by
        rw [Nat.cast_add] at hle
        linarith
      refine ⟨satoshisToCoins_le hgain, fun hsmall => ?_⟩
      obtain ⟨n, hn⟩ := satoshisToCoins_whole (s := s) (sub_nonneg.mpr hbalance)
        ((sub_le_self _ balance.cast_nonneg).trans_lt (hle.trans_lt hsmall))
      exact ⟨balance + n, by rw [hn, Nat.cast_add]⟩
    · rw [max_eq_right (sub_nonpos.mpr hbalance), hzero, zero_mul, add_zero]
      exact ⟨reward.cast_nonneg, fun _ => ⟨balance, rfl⟩⟩

theorem sum_filter_of_zero {α : Type} {q : α → Bool} {f : α → ℚ} {l : List α} (h : ∀ a ∈ l, q a = false → f a = 0) :
    ((l.filter q).map f).sum = (l.map f).sum := by
  induction l with
  | nil => rfl
  | cons a l ih =>
    obtain ⟨ha, hl⟩ := List.forall_mem_cons.mp h
    rw [List.filter_cons, List.map_cons, List.sum_cons, ← ih hl]
    cases hq : q a with
    | true => rfl
    | false =>
      rw [ha hq, zero_add]
      rfl

/-- What a list of increments adds up to, each field weighed by `c`. -/
def weighAll (c : Str → ℚ) (increments : List (Str × ℚ)) : ℚ := (increments.map fun e => c e.1 * e.2).sum

theorem weighAll_payouts (c : Str → ℚ) (workers : List (Str × Worker)) :
    weighAll c (s.updates workers).payouts = (workers.map fun e => c e.1 * e.2.sent).sum := by
  rw [weighAll, updates, List.map_map]
  refine sum_filter_of_zero fun e _ hq => ?_
  have hzero : e.2.sent = 0 := of_not_not (of_decide_eq_false hq)
  exact (congrArg (c e.1 * ·) hzero).trans (mul_zero _)

theorem weighAll_balances (c : Str → ℚ) (workers : List (Str × Worker)) :
    weighAll c (s.updates workers).balances =
      (workers.map fun e => c e.1 * s.satoshisToCoins e.2.balanceChange).sum := by
  rw [weighAll, updates, List.map_map]
  refine sum_filter_of_zero fun e _ hq => ?_
  have hzero : e.2.balanceChange = 0 := of_not_not (of_decide_eq_false hq)
  have hcoins : s.satoshisToCoins e.2.balanceChange = 0 := by rw [hzero, satoshisToCoins, zero_div, toFixed_zero]
  exact (congrArg (c e.1 * ·) hcoins).trans (mul_zero _)

theorem weighAll_updates (c : Str → ℚ) (workers : List (Str × Worker)) :
    weighAll c (s.updates workers).payouts + weighAll c (s.updates workers).balances =
      (workers.map fun e => c e.1 * (e.2.sent + s.satoshisToCoins e.2.balanceChange)).sum := by
  rw [weighAll_payouts, weighAll_balances, ← List.sum_map_add]
  exact congrArg List.sum (List.map_congr_left fun e _ => (mul_add _ _ _).symm)

theorem sent_nonneg {k : ℕ} (hk : k ≤ 100) (e : Str × Worker) : 0 ≤ (s.visit k e).2.sent := by
  rw [visit]
  split_ifs
  · exact toFixed_nonneg _ (div_nonneg (toSend_bounds hk e.2).1 (by positivity))
  · exact le_rfl

theorem weighAll_visit {c : Str → ℚ} (hc : ∀ w, 0 ≤ c w) {k : ℕ} (hk : k ≤ 100) (workers : List (Str × Worker)) :
    weighAll c (s.updates (workers.map (s.visit k))).payouts +
        weighAll c (s.updates (workers.map (s.visit k))).balances ≤
        (workers.map fun e => c e.1 * e.2.reward).sum / 10 ^ s.coinPrecision ∧
      (k = 0 →
        weighAll c (s.updates (workers.map (s.visit k))).payouts +
            weighAll c (s.updates (workers.map (s.visit k))).balances =
          (workers.map fun e => c e.1 * e.2.reward).sum / 10 ^ s.coinPrecision) := by
  have hpower : (0 : ℚ) < 10 ^ s.coinPrecision := by positivity
  have hdiv : (workers.map fun e => c e.1 * e.2.reward).sum / 10 ^ s.coinPrecision =
      (workers.map fun e => c e.1 * (e.2.reward / 10 ^ s.coinPrecision)).sum := by
    rw [div_eq_mul_inv, ← List.sum_map_mul_right]
    exact congrArg List.sum (List.map_congr_left fun e _ => by rw [mul_assoc, ← div_eq_mul_inv])
  rw [weighAll_updates, List.map_map, hdiv]
  constructor
  · refine List.sum_le_sum fun e _ => ?_
    rw [Function.comp_apply, visit_fst]
    refine mul_le_mul_of_nonneg_left ((le_div_iff₀ hpower).mpr (visit_spec hk e).1) (hc e.1)
  · rintro rfl
    refine congrArg List.sum (List.map_congr_left fun e _ => ?_)
    rw [Function.comp_apply, visit_fst]
    refine congrArg _ ((eq_div_iff hpower.ne').mpr ?_)
    have hzero := visit_zero (s := s) e
    linarith

end Visit

section Attempt

/-- The attempt that was the last one, whether or not there was something to send. -/
theorem trySend_visit {k : ℕ} {workers after : List (Str × Worker)} {replies : List Reply} {amounts : Option Amounts}
    (h : s.trySend k workers replies = some (after, amounts)) :
    ∃ j, j ≤ retriesOf replies ∧ s.updates after = s.updates (workers.map (s.visit (k + j))) ∧
      (amounts.getD ∅) = (s.payments (k + j) workers).foldl setAmount ∅ := by
  induction replies generalizing k workers with
  | nil =>
    rw [trySend, fill_eq] at h
    dsimp only at h
    split_ifs at h with hempty
    cases h
    exact ⟨0, Nat.zero_le _, rfl, (AList.ext hempty).symm⟩
  | cons reply replies ih =>
    rw [trySend.eq_def, fill_eq] at h
    dsimp only at h
    split_ifs at h with hempty
    · cases h
      exact ⟨0, Nat.zero_le _, rfl, (AList.ext hempty).symm⟩
    · cases reply with
      | ok =>
        cases h
        exact ⟨0, Nat.zero_le _, rfl, rfl⟩
      | insufficientFunds =>
        obtain ⟨j, hj, hupdates, hamounts⟩ := ih h
        rw [payments_visit] at hamounts
        have hk : k + 1 + j = k + (j + 1) := by rw [Nat.add_assoc, Nat.add_comm 1 j]
        rw [hk] at hupdates hamounts
        refine ⟨j + 1, Nat.succ_le_succ hj, hupdates.trans (updates_congr ?_), hamounts⟩
        simp only [List.map_map, Function.comp_def, record_visit]
      | failed => cases h

/-- No more is sent than is recorded. -/
theorem total_le_payouts {k : ℕ} (hk : k ≤ 100) (workers : List (Str × Worker)) :
    Store.Writes.total ((s.payments k workers).foldl setAmount ∅) ≤
      weighAll 1 (s.updates (workers.map (s.visit k))).payouts := by
  have hlost : 0 ≤ (lost (s.payments k workers)).sum := by
    refine List.sum_nonneg fun x hx => ?_
    obtain ⟨e, he, rfl⟩ := mem_lost hx
    obtain ⟨w, -, rfl⟩ := List.mem_map.mp he
    exact toFixed_nonneg _ (div_nonneg (toSend_bounds hk w.2).1 (by positivity))
  have hpaid : weighAll 1 (s.updates (workers.map (s.visit k))).payouts =
      ((s.payments k workers).map Prod.snd).sum := by
    rw [← totalPaid_eq, ← sum_payouts]
    exact congrArg List.sum (List.map_congr_left fun e _ => one_mul _)
  rw [hpaid, ← total_add_lost]
  exact le_add_of_nonneg_right hlost

end Attempt
end Setup
end Aion.Payments
