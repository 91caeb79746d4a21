import AionMiner.Cuda.Solutions
import AionMiner.Solver.Agreement

/-! Sequences of `eq_cuda_context::solve` calls on one context. A call clears the
counters of `heap0` only; those of `heap1` are clear when the calls before drained
them, and then its result does not depend on what else they left. -/

namespace Aion.Cuda
open Bits Equihash Solver Store Wagner Equi

structure Call where
  header : List Byte
  nonce : List Byte
  cancelf : ℕ → Bool

/-- Kernels with a check after each; `false` when a check cancels. -/
def launchAll (cancelf : ℕ → Bool) : ℕ → List (Equi → Equi) → Equi → Equi × Bool
  | _, [], e => (e, true)
  | k, kernel :: kernels, e =>
    if cancelf k then (kernel e, false) else launchAll cancelf (k + 1) kernels (kernel e)

def handOver (cancelf : ℕ → Bool) : ℕ → List (List ℕ) → List (List ℕ)
  | _, [] => []
  | k, v :: vs => v :: if cancelf k then [] else handOver cancelf (k + 1) vs

/-- The kernels `solve` checks after, the threads of each one after the other. -/
def kernels (H : Blake2b) (n : ℕ) : List (Equi → Equi) :=
  [(digitH H).exec n nblocks, digit1.exec n nbuckets, digit2.exec n nbuckets, digit3.exec n nbuckets,
    digit4.exec n nbuckets, digit5.exec n nbuckets, digit6.exec n nbuckets, digit7.exec n nbuckets,
    digit8.exec n nbuckets]

def solve (H : Blake2b) (n : ℕ) (c : Call) (e : Equi) : List (List ℕ) × Equi :=
  match launchAll c.cancelf 0 (kernels H n) (e.setheadernonce c.header c.nonce) with
  | (e, false) => ([], e)
  | (e, true) =>
    let e := digit9.exec n nbuckets e
    (handOver c.cancelf 9 ((List.range (min e.nsols maxsols)).map e.sols), e)

def contextAfter (H : Blake2b) (n : ℕ) (calls : List Call) (e : Equi) : Equi :=
  calls.foldl (fun e c => (solve H n c e).2) e

def Call.Uncancelled (c : Call) : Prop := ∀ k, c.cancelf k = false

def Call.StopsAfterOdd (c : Call) : Prop := ∃ k < 9, k % 2 = 1 ∧ c.cancelf k = true ∧ ∀ j < k, c.cancelf j = false

def Drained (e : Equi) : Prop := ∀ b < nbuckets, e.mem.nslots 1 b = 0

/-- Whether the counters of `heap1` are clear behind a call, if `clear` says so of the context
before it: a call cancelled behind `digitH` leaves them alone, any other clears them unless its last
digit fills them. -/
def Call.settles (clear : Prop) (c : Call) : Prop := if c.cancelf 0 = true then clear else ¬c.StopsAfterOdd

section Sequential
variable {H : Blake2b} {n : ℕ} {header nonce : List Byte} {start start' : Equi}

theorem after_digit {r : ℕ} (hr : r < 8) : after H n header nonce start (r + 1) =
    (digitXor (r + 1)).exec n nbuckets (after H n header nonce start r) := by
  rw [after, if_pos hr, digit_eq (by omega) (by omega)]

theorem after_nine :
    after H n header nonce start 9 = digit9.exec n nbuckets (after H n header nonce start 8) := by
  rw [after, if_neg (by decide)]

theorem buckets_after_zero (hn : 0 < n) : (after H n header nonce start 0).mem.buckets 0 =
    Buckets.putAll (leafPlacement layout H (setheader header nonce)) ⟨fun _ => 0, start.mem.heap 0⟩
      (leafOrder n) := by
  -- `digitH` looks at nothing in memory but the counters it has just cleared
  have hput := (Kernel.exec_spec (digitH_local H) hn nblocks (start.setheadernonce header nonce)).1
  rw [putAll_digitH _ _ fun q hq => mem_requests_digitH hq, map_requestOrder_digitH] at hput
  exact hput

theorem buckets_after_digit (H : Blake2b) (header nonce : List Byte) (start : Equi) (hn : 0 < n)
    {r : ℕ} (hr : r < 8) : (after H n header nonce start (r + 1)).mem.buckets ((r + 1) % 2) =
      ((after H n header nonce start r).mem.buckets ((r + 1) % 2)).putAll
        ((after H n header nonce start r).mem.roundPlacement layout (r + 1))
        (pairOrder n (r + 1) (after H n header nonce start r).mem) := by
  have hput := (Kernel.exec_spec (digitXor_local (r := r + 1) (by omega)) hn nbuckets
    (after H n header nonce start r)).1
  rw [← after_digit hr, placement_digitXor (by omega) (by omega),
    requestOrder_digitXor (by omega)] at hput
  exact hput

/-- The leaves and the pairs are served in the order of the threads. -/
theorem inOrder_after (H : Blake2b) (header nonce : List Byte) (hn : 0 < n)
    (hstart : Drained start) :
    InOrder layout H (setheader header nonce) (leafOrder n) (gridOrder n nbuckets)
      fun r => (after H n header nonce start r).mem where
  rounds := ((solve_after H n header nonce start).rounds hn hstart).1
  leaf_perm := leafOrder_perm hn
  order_perm := gridOrder_perm hn nbuckets
  leaf := ⟨(start.setheadernonce header nonce).mem, fun _ _ => rfl, buckets_after_zero hn⟩
  pair _ hr := buckets_after_digit H header nonce start hn hr

theorem heap1_after_zero (H : Blake2b) (header nonce : List Byte) (start : Equi) (hn : 0 < n) :
    (after H n header nonce start 0).mem.buckets 1 = start.mem.buckets 1 := by
  -- What `digitH` and the digits leave alone
  have hview := (Kernel.exec_spec (digitH_local H) hn nblocks (start.setheadernonce header nonce)).2.1
  simp only [Prod.mk.injEq] at hview
  exact congrArg₂ Buckets.mk hview.2.2.1 hview.2.1

theorem cleared_after (hn : 0 < n) {r : ℕ} (hr : r < 8) {b : ℕ} (hb : b < nbuckets) :
    (after H n header nonce start (r + 1)).mem.nslots (r % 2) b = 0 := by
  -- The counters a digit has read are clear behind it
  have hdone := (Kernel.exec_spec (digitXor_local (r := r + 1) (by omega)) hn nbuckets
    (after H n header nonce start r)).2.2
  rw [← after_digit hr, Nat.add_sub_cancel] at hdone
  exact hdone b hb

theorem proved_after (H : Blake2b) (header nonce : List Byte) (hn : 0 < n)
    (hstart : Drained start) :
    Proved (after H n header nonce start 8).mem (proofOrder n (after H n header nonce start 8).mem)
      (after H n header nonce start 9) := by
  have hnsols := ((solve_after H n header nonce start).rounds hn hstart).2 8 (Nat.le_refl 8)
  have hput := (Kernel.exec_spec digit9_local hn nbuckets (after H n header nonce start 8)).1
  rw [← after_nine, requestOrder_digit9] at hput
  exact proved_of_putAll hnsols (length_proofOrder_lt hn _) hput

theorem sols_agree (hn : 0 < n) (hstart : Drained start) (hstart' : Drained start') :
    (List.range (min (after H n header nonce start 9).nsols maxsols)).map (after H n header nonce start 9).sols =
      (List.range (min (after H n header nonce start' 9).nsols maxsols)).map
        (after H n header nonce start' 9).sols := by
  have ho := inOrder_after H header nonce hn hstart
  have ho' := inOrder_after H header nonce hn hstart'
  have hp := proved_after H header nonce hn hstart
  have hp' := proved_after H header nonce hn hstart'
  set E := fun r => (after H n header nonce start r).mem with hE
  set E' := fun r => (after H n header nonce start' r).mem with hE'
  have ha := ho.agree ho' (Nat.le_refl 8)
  have hpairs : pairOrder n 9 (E 8) = pairOrder n 9 (E' 8) := ha.pairs ho ho' (Nat.le_refl 8)
  have hlist : ∀ p ∈ pairOrder n 9 (E 8),
      listindices (E 8) 9 (tree p.1 p.2.1 p.2.2) = listindices (E' 8) 9 (tree p.1 p.2.1 p.2.2) := by
    intro p hmem
    have hmem' := hmem
    rw [hpairs] at hmem'
    have hround := (pairOrder_perm hn 9 (E 8)).mem_iff.mp hmem
    rw [listindices_pair ho.rounds hround,
      listindices_pair ho'.rounds ((pairOrder_perm hn 9 (E' 8)).mem_iff.mp hmem'),
      ha.pairTree ((mem_roundPairs_iff (by decide) (ho.rounds.layer (Nat.le_refl 8))).mp hround)]
  have horder : proofOrder n (E 8) = proofOrder n (E' 8) := by
    rw [proofOrder, proofOrder, ← hpairs]
    exact List.filter_congr fun p hmem => by rw [hlist p hmem]
  rw [hp.nsols, hp'.nsols]
  change (List.range (min (proofOrder n (E 8)).length maxsols)).map _ =
    (List.range (min (proofOrder n (E' 8)).length maxsols)).map _
  rw [← horder]
  refine List.map_congr_left fun s hs => ?_
  obtain ⟨hlt, hmax⟩ := Nat.lt_min.mp (List.mem_range.mp hs)
  obtain ⟨p, hget⟩ : ∃ p, (proofOrder n (E 8))[s]? = some p := ⟨_, List.getElem?_eq_getElem hlt⟩
  rw [hp.sols s hmax p hget, hp'.sols s hmax p (horder ▸ hget)]
  exact hlist p (List.mem_of_mem_filter (List.mem_of_getElem? hget))

end Sequential

section Calls
variable {H : Blake2b} {n : ℕ} {c : Call} {e : Equi}

/-- Either a check cancels, and the first one that does is behind the last kernel that ran, or none does. -/
theorem launchAll_cases (cancelf : ℕ → Bool) (k : ℕ) (fs : List (Equi → Equi)) (e : Equi) :
    (∃ j < fs.length, cancelf (k + j) = true ∧ (∀ i < j, cancelf (k + i) = false) ∧
      launchAll cancelf k fs e = ((fs.take (j + 1)).foldl (fun e f => f e) e, false)) ∨
    ((∀ i < fs.length, cancelf (k + i) = false) ∧
      launchAll cancelf k fs e = (fs.foldl (fun e f => f e) e, true)) := by
  induction fs generalizing k e with
  | nil => exact Or.inr ⟨fun i hi => absurd hi (Nat.not_lt_zero i), rfl⟩
  | cons f fs ih =>
    rw [launchAll]
    cases hk : cancelf k with
    | true => exact Or.inl ⟨0, Nat.succ_pos _, hk, fun i hi => absurd hi (Nat.not_lt_zero i), rfl⟩
    | false =>
      rw [if_neg Bool.false_ne_true]
      have hcons : ∀ j, (∀ i < j, cancelf (k + 1 + i) = false) → ∀ i < j + 1, cancelf (k + i) = false := by
        intro j h i hi
        cases i with
        | zero => exact hk
        | succ i =>
          rw [← Nat.add_assoc, Nat.add_right_comm]
          exact h i (by omega)
      rcases ih (k + 1) (f e) with ⟨j, hj, hcancel, hbefore, heq⟩ | ⟨hall, heq⟩
      · refine Or.inl ⟨j + 1, Nat.succ_lt_succ hj, ?_, hcons j hbefore, heq⟩
        rwa [← Nat.add_assoc, Nat.add_right_comm]
      · exact Or.inr ⟨hcons fs.length hall, heq⟩

theorem foldl_kernels (header nonce : List Byte) {j : ℕ} (hj : j < 9) :
    ((kernels H n).take (j + 1)).foldl (fun e f => f e) (e.setheadernonce header nonce) =
      after H n header nonce e j := by
  induction j with
  | zero => rfl
  | succ j ih =>
    have hlen : j + 1 < (kernels H n).length := hj
    have hkernel : (kernels H n)[j + 1] = (digitXor (j + 1)).exec n nbuckets := by
      have : j < 8 := by omega
      interval_cases j <;> rfl
    rw [List.take_succ_eq_append_getElem hlen, List.foldl_append, ih (by omega), hkernel,
      after_digit (by omega)]
    rfl

/-- A call stops behind some digit, or runs to the end. -/
theorem solve_cases (H : Blake2b) (n : ℕ) (c : Call) (e : Equi) :
    (∃ k < 9, c.cancelf k = true ∧ (∀ j < k, c.cancelf j = false) ∧
      solve H n c e = ([], after H n c.header c.nonce e k)) ∨
    ((∀ k < 9, c.cancelf k = false) ∧ solve H n c e =
      (handOver c.cancelf 9 ((List.range (min (after H n c.header c.nonce e 9).nsols maxsols)).map
        (after H n c.header c.nonce e 9).sols), after H n c.header c.nonce e 9)) := by
  rw [solve]
  rcases launchAll_cases c.cancelf 0 (kernels H n) (e.setheadernonce c.header c.nonce) with
    ⟨k, hk, hcancel, hbefore, heq⟩ | ⟨hrun, heq⟩
  · simp only [Nat.zero_add] at hcancel hbefore
    have hk9 : k < 9 := hk
    exact Or.inl ⟨k, hk9, hcancel, hbefore, by rw [heq, foldl_kernels _ _ hk9]⟩
  · simp only [Nat.zero_add] at hrun
    have hall := foldl_kernels (H := H) (n := n) (e := e) c.header c.nonce (j := 8) (by decide)
    rw [List.take_of_length_le (show (kernels H n).length ≤ 9 from Nat.le_refl 9)] at hall
    refine Or.inr ⟨hrun, ?_⟩
    rw [heq, hall, after_nine]

theorem drained_after (hn : 0 < n) (header nonce : List Byte) {r : ℕ} (hr : r ≤ 8)
    (hpar : r % 2 = 0) (he : r = 0 → Drained e) : Drained (after H n header nonce e r) := by
  -- An even digit clears the counters of `heap1`, or never touches them
  cases r with
  | zero =>
    have hcount : (after H n header nonce e 0).mem.nslots 1 = e.mem.nslots 1 :=
      congrArg Buckets.count (heap1_after_zero _ _ _ _ hn)
    intro b hb
    rw [hcount]
    exact he rfl b hb
  | succ r =>
    intro b hb
    have hcleared : (after H n header nonce e (r + 1)).mem.nslots (r % 2) b = 0 :=
      cleared_after hn (by omega) hb
    rwa [show r % 2 = 1 by omega] at hcleared

/-- What `settles` says of a call holds of the context it leaves. -/
theorem solve_settles (hn : 0 < n) (hc : c.settles (Drained e)) : Drained (solve H n c e).2 := by
  rw [Call.settles] at hc
  rcases solve_cases H n c e with ⟨k, hk, hcancel, hbefore, heq⟩ | ⟨hrun, heq⟩
  · rw [heq]
    -- cancelled behind digit `k`: at the first check nothing was cleared, at a later one the digit
    -- has to be even
    cases k with
    | zero =>
      rw [if_pos hcancel] at hc
      exact drained_after hn _ _ (Nat.zero_le 8) rfl fun _ => hc
    | succ k =>
      rw [if_neg (by rw [hbefore 0 (Nat.succ_pos k)]; exact Bool.false_ne_true)] at hc
      refine drained_after hn _ _ (by omega) ?_ fun h => absurd h (Nat.succ_ne_zero k)
      by_contra hodd
      exact hc ⟨k + 1, hk, by omega, hcancel, hbefore⟩
  · have hview := (Kernel.exec_spec digit9_local hn nbuckets (after H n c.header c.nonce e 8)).2.1
    simp only [Prod.mk.injEq] at hview
    rw [heq, after_nine]
    intro b hb
    change (digit9.exec n nbuckets (after H n c.header c.nonce e 8)).mem.nslots 1 b = 0
    rw [hview.2.1]
    exact drained_after hn _ _ (Nat.le_refl 8) rfl (fun h => absurd h (by decide)) b hb

theorem contextAfter_settles (hn : 0 < n) {p : Prop} (hp : p → Drained e) {calls : List Call}
    (hcalls : calls.foldl Call.settles p) : Drained (contextAfter H n calls e) := by
  induction calls generalizing e p with
  | nil => exact hp hcalls
  | cons c calls ih =>
    refine ih (fun hc => solve_settles hn ?_) hcalls
    rw [Call.settles] at hc ⊢
    split at hc
    · next h => rw [if_pos h]; exact hp hc
    · next h => rw [if_neg h]; exact hc

theorem handOver_eq {cancelf : ℕ → Bool} (h : ∀ k, cancelf k = false) (k : ℕ) (vs : List (List ℕ)) :
    handOver cancelf k vs = vs := by
  induction vs generalizing k with
  | nil => rfl
  | cons v vs ih => rw [handOver, h, if_neg Bool.false_ne_true, ih]

theorem solve_uncancelled (hc : c.Uncancelled) : (solve H n c e).1 =
    (List.range (min (after H n c.header c.nonce e 9).nsols maxsols)).map (after H n c.header c.nonce e 9).sols := by
  rcases solve_cases H n c e with ⟨k, -, hcancel, -⟩ | ⟨-, heq⟩
  · rw [hc] at hcancel
    cases hcancel
  · rw [heq, handOver_eq hc]

/-- What an uncancelled call hands over depends on its header and nonce only, as long as the calls
before it left the counters of `heap1` clear. -/
theorem solve_independent (H : Blake2b) (n : ℕ) (hn : 0 < n) (e : Equi) (calls : List Call)
    (hcalls : calls.foldl Call.settles (Drained e)) (c : Call) (hc : c.Uncancelled) :
    (solve H n c (contextAfter H n calls e)).1 = (solve H n ⟨c.header, c.nonce, fun _ => false⟩ Equi.zeroed).1 := by
  have hfresh : (⟨c.header, c.nonce, fun _ => false⟩ : Call).Uncancelled := fun _ => rfl
  rw [solve_uncancelled hc, solve_uncancelled hfresh]
  exact sols_agree hn (contextAfter_settles hn id hcalls) fun _ _ => rfl

/-- Two cancelled calls, behind `digitH` and behind `digit_2`, do not change the third one. -/
theorem solve_independent_planted :
    (solve plantedHash 2 ⟨List.replicate 32 0, List.replicate 32 0, fun _ => false⟩
        (contextAfter plantedHash 2 [⟨[], [], fun k => k == 0⟩, ⟨[1], [2], fun k => k == 2⟩] Equi.zeroed)).1 =
      (solve plantedHash 2 ⟨List.replicate 32 0, List.replicate 32 0, fun _ => false⟩ Equi.zeroed).1 := by
  refine solve_independent plantedHash 2 (by decide) Equi.zeroed _ ?_ _ fun _ => rfl
  rintro ⟨k, -, hodd, hk, -⟩
  rw [beq_iff_eq.mp hk] at hodd
  cases hodd

end Calls
end Aion.Cuda
