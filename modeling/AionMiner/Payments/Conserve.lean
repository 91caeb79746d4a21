import AionMiner.Payments.Send

/-! What the amounts sent add up to, and what the hashes of balances and payouts do. -/

namespace Aion.Payments
open Text Store.Writes
open Stratum (literal)

section Sums
variable {s : Setup}

namespace Setup

theorem toFixed_zero (digits : ℕ) : toFixed digits 0 = 0 := by
  rw [toFixed, abs_zero, if_neg (by norm_num), if_neg (lt_irrefl 0), zero_mul, zero_add]
  norm_num

theorem toFixed_nonneg (digits : ℕ) {x : ℚ} (hx : 0 ≤ x) : 0 ≤ toFixed digits x := by
  rw [toFixed]
  split_ifs with hlarge hneg
  · exact hx
  · exact absurd hx (not_le.mpr hneg)
  · positivity

theorem toFixed_nonpos (digits : ℕ) {x : ℚ} (hx : x ≤ 0) : toFixed digits x ≤ 0 := by
  rw [toFixed]
  split_ifs with hlarge hneg
  · exact hx
  · have hpos : 0 ≤ -x := neg_nonneg.mpr hx
    exact neg_nonpos.mpr (by positivity)
  · rw [le_antisymm hx (not_lt.mp hneg), zero_mul, zero_add]
    norm_num

theorem floor_add_half (n : ℤ) : ⌊(n : ℚ) + 1 / 2⌋ = n := by
  rw [Int.floor_eq_iff]
  constructor
  · linarith
  · linarith

/-- Whole satoshis are not rounded. -/
theorem satoshisToCoins_int (n : ℤ) : s.satoshisToCoins n = n / 10 ^ s.coinPrecision := by
  have hne : (10 : ℚ) ^ s.coinPrecision ≠ 0 := by positivity
  have hneg : -((n : ℚ) / 10 ^ s.coinPrecision) * 10 ^ s.coinPrecision = (-n : ℤ) := by
    rw [neg_mul, div_mul_cancel₀ _ hne, Int.cast_neg]
  rw [satoshisToCoins, toFixed]
  split_ifs
  · rfl
  · rw [hneg, floor_add_half, Int.cast_neg, neg_div, neg_neg]
  · rw [div_mul_cancel₀ _ hne, floor_add_half]

theorem foldl_setAmount (es : List (Str × ℚ)) (m : Amounts) :
    es.foldl setAmount m = (es.filter fun e => e.1 ≠ literal "__proto__").foldl write m := by
  induction es generalizing m with
  | nil => rfl
  | cons e es ih =>
    rw [List.foldl_cons, ih, List.filter_cons, setAmount]
    by_cases hproto : e.1 = literal "__proto__"
    · simp [hproto]
    · simp [hproto]

theorem sum_map_filter_ne_zero {α : Type} (f : α → ℚ) (l : List α) :
    ((l.filter fun a => f a ≠ 0).map f).sum = (l.map f).sum := by
  induction l with
  | nil => rfl
  | cons a l ih =>
    by_cases ha : f a = 0
    · rw [List.filter_cons_of_neg (by simpa using ha), ih, List.map_cons, List.sum_cons,
        ha, zero_add]
    · rw [List.filter_cons_of_pos (by simpa using ha), List.map_cons, List.sum_cons, ih,
        List.map_cons, List.sum_cons]

theorem totalPaid_eq (k : ℕ) (workers : List (Str × Worker)) :
    (s.updates (workers.map (s.visit k))).totalPaid =
      ((s.payments k workers).map Prod.snd).sum := by
  refine (sum_map_filter_ne_zero (fun e : Str × Worker => e.2.sent) _).trans ?_
  induction workers with
  | nil => rfl
  | cons e workers ih =>
    rw [List.map_cons, List.map_cons, List.sum_cons, ih, payments_cons, visit]
    split_ifs
    · rfl
    · exact zero_add _

theorem sum_payouts (workers : List (Str × Worker)) :
    ((s.updates workers).payouts.map Prod.snd).sum = (s.updates workers).totalPaid := by
  rw [updates, List.map_map]
  rfl

/-- What a list of increments adds to a field. -/
def added (increments : List (Str × ℚ)) (field : Str) : ℚ :=
  ((increments.filter fun e => e.1 = field).map Prod.snd).sum

theorem filter_key {β : Type} {l : List (Str × β)} (hl : (l.map Prod.fst).Nodup) {e : Str × β}
    (he : e ∈ l) : (l.filter fun e' => e'.1 = e.1) = [e] := by
  induction l with
  | nil => exact absurd he List.not_mem_nil
  | cons a l ih =>
    rw [List.map_cons, List.nodup_cons] at hl
    rcases List.mem_cons.mp he with rfl | he
    · have hrest : (l.filter fun e' => e'.1 = e.1) = [] := by
        rw [List.filter_eq_nil_iff]
        intro e' he' heq
        exact hl.1 (List.mem_map.mpr ⟨e', he', of_decide_eq_true heq⟩)
      rw [List.filter_cons, if_pos (decide_eq_true rfl), hrest]
    · have hne : a.1 ≠ e.1 := fun heq => hl.1 (heq ▸ List.mem_map_of_mem he)
      rw [List.filter_cons, if_neg (by simpa using hne), ih hl.2 he]

theorem added_of_mem {β : Type} (p : Str × β → Bool) (f : Str × β → ℚ) {l : List (Str × β)}
    (hl : (l.map Prod.fst).Nodup) {e : Str × β} (he : e ∈ l) :
    added ((l.filter p).map fun e => (e.1, f e)) e.1 = if p e then f e else 0 := by
  rw [added, List.filter_map, List.filter_filter, List.map_map]
  have hkey : (l.filter fun a =>
        ((fun e' : Str × ℚ => decide (e'.1 = e.1)) ∘ fun e => (e.1, f e)) a && p a) =
      (l.filter fun e' => e'.1 = e.1).filter p := by
    rw [List.filter_filter]
    exact List.filter_congr fun a _ => Bool.and_comm _ _
  rw [hkey, filter_key hl he, List.filter_singleton]
  cases p e with
  | true => exact List.sum_singleton
  | false => rfl

end Setup
end Sums

section Conservation
variable (s : Setup)

/-- What `sendmany` pays out is what is recorded as paid, and without retries no satoshi is lost or
made. -/
def Setup.Conserves (workers : List (Str × Worker)) (retries : ℕ) (amounts : Amounts)
    (u : Updates) : Prop :=
  total amounts = u.totalPaid ∧ (u.payouts.map Prod.snd).sum = u.totalPaid ∧
    (retries = 0 → ∀ e ∈ workers,
      (e.2.balance + e.2.reward : ℚ) =
        added u.payouts e.1 * 10 ^ s.coinPrecision +
          (e.2.balance + added u.balances e.1 * 10 ^ s.coinPrecision))

variable {s}

namespace Setup

theorem visited_nodup (k : ℕ) (workers : Workers) :
    ((workers.1.map (s.visit k)).map Prod.fst).Nodup := by
  rw [List.map_map, show Prod.fst ∘ s.visit k = Prod.fst from funext fun e => visit_fst k e]
  exact workers.2

theorem added_payouts (k : ℕ) (workers : Workers) {e : Str × Worker} (he : e ∈ workers.1) :
    added (s.updates (workers.1.map (s.visit k))).payouts e.1 = (s.visit k e).2.sent := by
  have hmem : s.visit k e ∈ workers.1.map (s.visit k) := List.mem_map_of_mem he
  have hadded :=
    added_of_mem (fun e => e.2.sent ≠ 0) (fun e => e.2.sent) (visited_nodup k workers) hmem
  rw [visit_fst] at hadded
  refine hadded.trans ?_
  by_cases hzero : (s.visit k e).2.sent = 0
  · rw [if_neg (by simpa using hzero), hzero]
  · exact if_pos (by simpa using hzero)

theorem added_balances (k : ℕ) (workers : Workers) {e : Str × Worker} (he : e ∈ workers.1) :
    added (s.updates (workers.1.map (s.visit k))).balances e.1 =
      s.satoshisToCoins (s.visit k e).2.balanceChange := by
  have hmem : s.visit k e ∈ workers.1.map (s.visit k) := List.mem_map_of_mem he
  have hadded := added_of_mem (fun e => e.2.balanceChange ≠ 0)
    (fun e => s.satoshisToCoins e.2.balanceChange) (visited_nodup k workers) hmem
  rw [visit_fst] at hadded
  refine hadded.trans ?_
  by_cases hzero : (s.visit k e).2.balanceChange = 0
  · rw [if_neg (by simpa using hzero), hzero, satoshisToCoins, zero_div, toFixed_zero]
  · exact if_pos (by simpa using hzero)

/-- Without retries a worker has afterwards what it had, in one place or the other. -/
theorem visit_zero (e : Str × Worker) :
    (e.2.balance + e.2.reward : ℚ) =
      (s.visit 0 e).2.sent * 10 ^ s.coinPrecision +
        (e.2.balance + s.satoshisToCoins (s.visit 0 e).2.balanceChange * 10 ^ s.coinPrecision) := by
  have hne : (10 : ℚ) ^ s.coinPrecision ≠ 0 := by positivity
  have hsend : toSend 0 e.2 = (e.2.balance + e.2.reward : ℤ) := by
    rw [toSend]
    push_cast
    ring
  rw [visit]
  split_ifs
  · have hmin : min (e.2.balance : ℚ) (toSend 0 e.2) * -1 = (-e.2.balance : ℤ) := by
      rw [hsend, min_eq_left (by push_cast; exact le_add_of_nonneg_right e.2.reward.cast_nonneg)]
      push_cast
      ring
    dsimp only
    rw [hmin, hsend, satoshisToCoins_int, satoshisToCoins_int, div_mul_cancel₀ _ hne,
      div_mul_cancel₀ _ hne]
    push_cast
    ring
  · have hmax : max (toSend 0 e.2 - e.2.balance) 0 = (e.2.reward : ℤ) := by
      rw [hsend]
      push_cast
      rw [add_sub_cancel_left, max_eq_left e.2.reward.cast_nonneg]
    dsimp only
    rw [hmax, satoshisToCoins_int, div_mul_cancel₀ _ hne]
    push_cast
    ring

/-- All amounts of an attempt have one sign. -/
theorem payments_sign (k : ℕ) (workers : List (Str × Worker)) :
    (∀ e ∈ s.payments k workers, 0 ≤ e.2) ∨ ∀ e ∈ s.payments k workers, e.2 ≤ 0 := by
  have hpower : (0 : ℚ) ≤ 10 ^ s.coinPrecision := by positivity
  have hwhole (worker : Worker) : (0 : ℚ) ≤ worker.balance + worker.reward := by positivity
  rcases le_total (k : ℚ) 100 with hk | hk
  · refine Or.inl fun e he => ?_
    obtain ⟨w, -, rfl⟩ := List.mem_map.mp he
    exact toFixed_nonneg _ (div_nonneg (mul_nonneg (hwhole w.2) (by linarith)) hpower)
  · refine Or.inr fun e he => ?_
    obtain ⟨w, -, rfl⟩ := List.mem_map.mp he
    have hsend : toSend k w.2 ≤ 0 := mul_nonpos_of_nonneg_of_nonpos (hwhole w.2) (by linarith)
    exact toFixed_nonpos _ (div_nonpos_of_nonpos_of_nonneg hsend hpower)

/-- The amounts that are written over, and those that are not written. -/
def lost (es : List (Str × ℚ)) : List ℚ :=
  overwritten ∅ (es.filter fun e => e.1 ≠ literal "__proto__") ++
    (es.filter fun e => e.1 = literal "__proto__").map Prod.snd

theorem total_add_lost (es : List (Str × ℚ)) :
    total (es.foldl setAmount ∅) + (lost es).sum = (es.map Prod.snd).sum := by
  have hwritten := total_foldl_write ∅ (es.filter fun e => e.1 ≠ literal "__proto__")
  have hperm := List.filter_append_perm (fun e : Str × ℚ => e.1 = literal "__proto__") es
  have hparts := (hperm.map Prod.snd).sum_eq
  rw [List.map_append, List.sum_append] at hparts
  simp only [← decide_not] at hparts
  rw [foldl_setAmount, lost, List.sum_append, ← add_assoc, hwritten, ← hparts, add_comm]
  exact congrArg _ (zero_add _)

theorem mem_lost {es : List (Str × ℚ)} {x : ℚ} (h : x ∈ lost es) : ∃ e ∈ es, e.2 = x := by
  rcases List.mem_append.mp h with hwritten | hproto
  · rcases mem_overwritten hwritten with ⟨k, hk⟩ | ⟨e, he, rfl⟩
    · exact absurd hk (by rw [AList.lookup_empty]; exact Option.not_mem_none x)
    · exact ⟨e, List.mem_of_mem_filter he, rfl⟩
  · obtain ⟨e, he, rfl⟩ := List.mem_map.mp hproto
    exact ⟨e, List.mem_of_mem_filter he, rfl⟩

theorem zero_lost (es : List (Str × ℚ)) :
    (∀ x ∈ lost es, x = 0) ↔
      (es.Pairwise fun e e' => e.1 = e'.1 → e.2 = 0) ∧
        ∀ e ∈ es, e.1 = literal "__proto__" → e.2 = 0 := by
  have hempty : ∀ e ∈ es.filter fun e => e.1 ≠ literal "__proto__",
      ∀ x ∈ (∅ : Amounts).lookup e.1, x = 0 := fun e _ x hx => by cases hx
  rw [lost, List.forall_mem_append, zero_overwritten, and_iff_right hempty, List.pairwise_filter,
    List.forall_mem_map]
  constructor
  · rintro ⟨hpairs, hproto⟩
    have hzero : ∀ e ∈ es, e.1 = literal "__proto__" → e.2 = 0 := fun e he heq =>
      hproto e (List.mem_filter.mpr ⟨he, decide_eq_true heq⟩)
    refine ⟨hpairs.imp_of_mem fun {e e'} he he' h heq => ?_, hzero⟩
    by_cases hkey : e.1 = literal "__proto__"
    · exact hzero e he hkey
    · exact h (decide_eq_true hkey) (decide_eq_true (heq ▸ hkey)) heq
  · rintro ⟨hpairs, hzero⟩
    refine ⟨hpairs.imp fun h _ _ heq => h heq, fun e he => ?_⟩
    obtain ⟨hmem, hkey⟩ := List.mem_filter.mp he
    exact hzero e hmem (of_decide_eq_true hkey)

theorem total_iff (k : ℕ) (workers : List (Str × Worker)) :
    total ((s.payments k workers).foldl setAmount ∅) = ((s.payments k workers).map Prod.snd).sum ↔
      (workers.Pairwise fun v w => s.Pays k v.2 → s.Pays k w.2 →
        s.addressKey v.1 v.2 = s.addressKey w.1 w.2 → s.satoshisToCoins (toSend k v.2) = 0) ∧
      ∀ w ∈ workers, s.Pays k w.2 → s.addressKey w.1 w.2 = literal "__proto__" →
        s.satoshisToCoins (toSend k w.2) = 0 := by
  have hsign : (∀ x ∈ lost (s.payments k workers), 0 ≤ x) ∨
      ∀ x ∈ lost (s.payments k workers), x ≤ 0 := by
    rcases s.payments_sign k workers with hpos | hneg
    · refine Or.inl fun x hx => ?_
      obtain ⟨e, he, rfl⟩ := mem_lost hx
      exact hpos e he
    · refine Or.inr fun x hx => ?_
      obtain ⟨e, he, rfl⟩ := mem_lost hx
      exact hneg e he
  rw [← total_add_lost, left_eq_add, sum_eq_zero_iff hsign, zero_lost, payments, List.pairwise_map,
    List.pairwise_filter, List.forall_mem_map]
  simp only [decide_eq_true_eq, List.mem_filter, and_imp]

end Setup

/-- Payouts conserve coins if and only if no amount but zero goes to the address of a later worker
who is paid, or to the key that objects do not have as their own. -/
theorem conserves_iff (s : Setup) (workers : Workers) (replies : List Reply)
    (after : List (Str × Worker)) (amounts : Amounts)
    (hsent : s.trySend 0 workers.1 replies = some (after, some amounts)) :
    s.Conserves workers.1 (Setup.retriesOf replies) amounts (s.updates after) ↔
      (workers.1.Pairwise fun v w =>
        s.Pays (Setup.retriesOf replies) v.2 → s.Pays (Setup.retriesOf replies) w.2 →
          s.addressKey v.1 v.2 = s.addressKey w.1 w.2 →
            s.satoshisToCoins (toSend (Setup.retriesOf replies) v.2) = 0) ∧
      ∀ w ∈ workers.1, s.Pays (Setup.retriesOf replies) w.2 →
        s.addressKey w.1 w.2 = literal "__proto__" →
          s.satoshisToCoins (toSend (Setup.retriesOf replies) w.2) = 0 := by
  obtain ⟨hamounts, hupdates⟩ := Setup.trySend_some hsent
  rw [Nat.zero_add] at hamounts hupdates
  rw [Setup.Conserves, hupdates, hamounts, Setup.totalPaid_eq, Setup.total_iff]
  refine and_iff_left ⟨(Setup.sum_payouts _).trans (Setup.totalPaid_eq _ _), ?_⟩
  intro hzero e he
  rw [hzero, Setup.added_payouts 0 workers he, Setup.added_balances 0 workers he]
  exact Setup.visit_zero e

theorem Setup.trySend_ok {k : ℕ} {workers : List (Str × Worker)}
    (h : (s.fill k workers ∅).2.entries ≠ []) (replies : List Reply) :
    s.trySend k workers (.ok :: replies) =
      some ((s.fill k workers ∅).1, some (s.fill k workers ∅).2) := by
  rw [Setup.trySend.eq_def]
  exact if_neg h

/-- Payments of one satoshi and more, in a coin of one satoshi. -/
def satoshis (properAddress : Str → Option Str) : Setup := ⟨0, some 1, properAddress⟩

def satoshi : Worker := ⟨1, 0, none, 0, 0⟩

theorem pays_satoshi (properAddress : Str → Option Str) : (satoshis properAddress).Pays 0 satoshi :=
  ⟨1, rfl, by norm_num [toSend, satoshi]⟩

theorem coins_satoshi (properAddress : Str → Option Str) :
    (satoshis properAddress).satoshisToCoins (toSend 0 satoshi) = 1 := by
  have hsend : toSend 0 satoshi = (1 : ℤ) := by norm_num [toSend, satoshi]
  rw [hsend, Setup.satoshisToCoins_int]
  norm_num [satoshis]

theorem payments_satoshi (properAddress : Str → Option Str) (names : List Str) :
    (satoshis properAddress).payments 0 (names.map fun w => (w, satoshi)) =
      names.map fun w => ((properAddress w).getD (literal "null"), 1) := by
  induction names with
  | nil => rfl
  | cons w names ih =>
    rw [List.map_cons, Setup.payments_cons, if_pos (pays_satoshi properAddress), ih, coins_satoshi]
    rfl

/-- Two workers with addresses of their own are paid one satoshi each. -/
theorem conserves_satoshi :
    (satoshis some).Conserves [(literal "a0", satoshi), (literal "a1", satoshi)] 0
      (setAmount (setAmount ∅ (literal "a0", 1)) (literal "a1", 1))
      ((satoshis some).updates
        [(satoshis some).visit 0 (literal "a0", satoshi), (satoshis some).visit 0 (literal "a1", satoshi)]) := by
  have hpayments : (satoshis some).payments 0 [(literal "a0", satoshi), (literal "a1", satoshi)] = _ :=
    payments_satoshi some [literal "a0", literal "a1"]
  have hsent : (satoshis some).trySend 0 [(literal "a0", satoshi), (literal "a1", satoshi)] [.ok] = _ :=
    Setup.trySend_ok (by rw [Setup.fill_eq, hpayments]; exact List.cons_ne_nil _ _) []
  rw [Setup.fill_eq, hpayments] at hsent
  refine (conserves_iff (satoshis some) ⟨[(literal "a0", satoshi), (literal "a1", satoshi)], by decide⟩ [.ok] _
    _ hsent).mpr ⟨List.pairwise_pair.mpr fun _ _ hkey => ?_, fun w hw _ hproto => ?_⟩
  · exact absurd hkey (by decide)
  · rcases List.mem_cons.mp hw with rfl | hw
    · exact absurd hproto (by decide)
    · cases List.mem_singleton.mp hw
      exact absurd hproto (by decide)

/-- The key of a miner in two spellings. -/
def spellings : Workers :=
  ⟨[(List.replicate 40 (unit 'a'), satoshi), (List.replicate 40 (unit 'A'), satoshi)], by decide⟩

/-- Addresses in hex, without a version and a checksum. -/
def spelled : Setup :=
  satoshis (getProperAddress hexStr (fun _ => some []) (fun _ => []) (literal "a0"))

theorem spellings_lose :
    ∃ after amounts, spelled.trySend 0 spellings.1 [.ok] = some (after, some amounts) ∧
      ¬spelled.Conserves spellings.1 0 amounts (spelled.updates after) := by
  have hpayments : spelled.payments 0 spellings.1 = _ :=
    payments_satoshi _ [List.replicate 40 (unit 'a'), List.replicate 40 (unit 'A')]
  have hkey : spelled.addressKey (List.replicate 40 (unit 'a')) satoshi =
      spelled.addressKey (List.replicate 40 (unit 'A')) satoshi := by decide
  refine ⟨_, _, Setup.trySend_ok ?_ [], ?_⟩
  · rw [Setup.fill_eq, hpayments]
    exact List.cons_ne_nil _ _
  · rw [Setup.fill_eq]
    rintro ⟨htotal, -⟩
    rw [Setup.totalPaid_eq, Setup.total_iff, spellings, List.pairwise_pair] at htotal
    have hzero := htotal.1 (pays_satoshi _) (pays_satoshi _) hkey
    rw [spelled, coins_satoshi] at hzero
    exact one_ne_zero hzero

end Conservation
end Aion.Payments
