import AionMiner.Cpu.Solutions

/-! The end of `CPU_TROMP::solve`: the rows of `sols` it reads, and what it hands over. -/

namespace Aion.Cpu
open Bits Equihash Solver Store Wagner Equi

section Code

/-- A row of `sols` that was read, and the vector handed to `solutionf` for it. -/
structure Handed where
  row : ℕ
  index_vector : List ℕ

structure Report where
  handed : List Handed
  hashdonef : Bool

/-- The copy of row `s` of `sols`. -/
def indexVector (sols : ℕ → List ℕ) (s : ℕ) : List ℕ := (List.range proofsize).map fun i => (sols s).getD i 0

/-- The loop over the solutions from row `s` on, `n` of them to go. -/
def reportLoop (sols : ℕ → List ℕ) (cancelf : ℕ → Bool) : ℕ → ℕ → Report
  | 0, _ => ⟨[], true⟩
  | n + 1, s =>
    if cancelf s then ⟨[⟨s, indexVector sols s⟩], false⟩
    else
      let report := reportLoop sols cancelf n (s + 1)
      { report with handed := ⟨s, indexVector sols s⟩ :: report.handed }

/-- The digits from 1 to `r`, given up when `cancelf` says so before one of them. -/
def runDigits (cancelf : ℕ → Bool) (e : Equi) : ℕ → Option Equi
  | 0 => some e
  | r + 1 => (runDigits cancelf e r).bind fun e => if cancelf r then none else some (e.digit (r + 1))

/-- `CPU_TROMP::solve`, where `cancelf n` is the answer to call number `n`. -/
def solve (H : Blake2b) (header nonce : List Byte) (cancelf : ℕ → Bool) : Report :=
  match runDigits cancelf ((Equi.new.setnonce header nonce).digit0 H) 9 with
  | none => ⟨[], false⟩
  | some e =>
    if cancelf 9 then ⟨[], false⟩
    else reportLoop e.sols (fun s => cancelf (10 + s)) e.nsols 0

end Code

section Stored

/-- The proofs that calls of `candidate` on `ts`, in this order, copy into `sols`. -/
def storedBy : List Word → Equi → List (List ℕ)
  | [], _ => []
  | t :: ts, e => (stored t e).toList ++ storedBy ts (candidate t e)

variable {e : Equi} {t : Word} {ts : List Word}

theorem storedBy_append (ts : List Word) (t : Word) (e : Equi) :
    storedBy (ts ++ [t]) e = storedBy ts e ++ (stored t (candidates ts e)).toList := by
  induction ts generalizing e with
  | nil => exact List.append_nil _
  | cons u ts ih =>
    change (stored u e).toList ++ storedBy (ts ++ [t]) (candidate u e) = _
    rw [ih, ← List.append_assoc]
    rfl

/-- The counter counts the trees that pass the filter, as long as it cannot wrap. -/
theorem candidates_nsols (he : e.nsols = 0) (hts : ts.length < 2 ^ 32) :
    (candidates ts e).nsols = (ts.filter (counted e.mem)).length := by
  induction ts using List.reverseRecOn with
  | nil => exact he
  | append_singleton ts t ih =>
    rw [List.length_append, List.length_singleton] at hts
    have ih := ih (by omega)
    have hle := List.length_filter_le (counted e.mem) ts
    rw [candidates_append, candidate_nsols, candidates_mem, ih, List.filter_append,
      List.length_append]
    cases hc : counted e.mem t with
    | true =>
      rw [if_pos rfl, List.filter_cons_of_pos hc, List.filter_nil, List.length_singleton]
      exact Nat.mod_eq_of_lt (by omega)
    | false =>
      rw [if_neg Bool.false_ne_true, List.filter_cons_of_neg (by rw [hc]; exact Bool.false_ne_true),
        List.filter_nil]
      rfl

/-- What `candidate` stored is what the rows below the counter hold. -/
theorem candidates_sols (he : e.nsols = 0) (hts : ts.length < 2 ^ 32) :
    ∀ s < min (candidates ts e).nsols maxsols, (candidates ts e).sols s ∈ storedBy ts e := by
  induction ts using List.reverseRecOn with
  | nil =>
    intro s hs
    have hs' : s < min e.nsols maxsols := hs
    omega
  | append_singleton ts t ih =>
    intro s hs
    rw [List.length_append, List.length_singleton] at hts
    have ih := ih (by omega)
    have hle := List.length_filter_le (counted e.mem) ts
    rw [← candidates_nsols he (by omega)] at hle
    rw [candidates_append] at hs ⊢
    rw [storedBy_append]
    rw [candidate_nsols] at hs
    rw [candidate_sols]
    set e' := candidates ts e with he'
    cases hst : stored t e' with
    | none =>
      have hold : s < min e'.nsols maxsols := by
        by_cases hc : counted e'.mem t = true
        · have hfull : ¬e'.nsols < maxsols := by
            intro hlt
            rw [stored, hc, decide_eq_true hlt, Bool.true_and, if_pos rfl] at hst
            rw [counted, hst] at hc
            cases hc
          omega
        · rw [if_neg hc] at hs
          exact hs
      exact List.mem_append_left _ (ih s hold)
    | some prf =>
      rw [stored] at hst
      split_ifs at hst with hcond
      rw [Bool.and_eq_true, decide_eq_true_iff] at hcond
      rw [if_pos hcond.1, Nat.mod_eq_of_lt (by omega)] at hs
      dsimp only
      by_cases hsn : s = e'.nsols
      · rw [hsn, Function.update_self]
        exact List.mem_append_right _ (List.mem_singleton_self prf)
      · rw [Function.update_of_ne hsn]
        exact List.mem_append_left _ (ih s (by omega))

/-- Every vector that passes `listindices1` has room for a proof. -/
theorem length_joinIndices {r : ℕ} {first second : Option (List ℕ)}
    (h1 : ∀ a, first = some a → a.length = 2 ^ r) (h2 : ∀ b, second = some b → b.length = 2 ^ r)
    {v : List ℕ} (h : joinIndices (1 <<< r) first second = some v) : v.length = 2 ^ (r + 1) := by
  rw [joinIndices, Nat.shiftLeft_eq, Nat.one_mul, Option.bind_eq_some_iff] at h
  obtain ⟨a, ha, h⟩ := h
  obtain ⟨b, hb, h⟩ := Option.bind_eq_some_iff.mp h
  have hpos := Nat.two_pow_pos r
  rw [orderindices_append (h1 a ha) (h2 b hb) hpos] at h
  dsimp only at h
  split_ifs at h
  rw [← Option.some.inj h, length_mergeOrder, h1 a ha, h2 b hb, Nat.pow_succ]
  omega

theorem length_listindices (mem : Memory) (r : ℕ) : ∀ t v,
    (listindices0 mem r t = some v → v.length = 2 ^ r) ∧
    (listindices1 mem r t = some v → v.length = 2 ^ r) := by
  induction r with
  | zero =>
    intro t v
    refine ⟨fun h => ?_, fun h => ?_⟩
    · rw [listindices0] at h
      rw [← Option.some.inj h]
      rfl
    · rw [listindices1] at h
      cases h
  | succ r ih =>
    intro t v
    refine ⟨fun h => ?_, fun h => ?_⟩
    · rw [listindices0] at h
      split_ifs at h
      exact length_joinIndices (fun a ha => (ih _ a).2 ha) (fun b hb => (ih _ b).2 hb) h
    · rw [listindices1] at h
      exact length_joinIndices (fun a ha => (ih _ a).1 ha) (fun b hb => (ih _ b).1 hb) h

theorem length_stored {prf : List ℕ} (h : stored t e = some prf) : prf.length = proofsize := by
  rw [stored] at h
  split_ifs at h
  exact (length_listindices e.mem 9 t prf).2 h

theorem length_storedBy (ts : List Word) :
    ∀ (e : Equi), ∀ prf ∈ storedBy ts e, prf.length = proofsize := by
  induction ts with
  | nil => exact fun _ _ h => absurd h List.not_mem_nil
  | cons t ts ih =>
    intro e prf h
    rcases List.mem_append.mp h with h | h
    · exact length_stored (Option.mem_toList.mp h)
    · exact ih _ prf h

end Stored

section Loop
variable {sols : ℕ → List ℕ} {cancelf : ℕ → Bool}

theorem indexVector_eq {s : ℕ} (h : (sols s).length = proofsize) : indexVector sols s = sols s := by
  refine List.ext_getElem (by rw [indexVector, List.length_map, List.length_range, h]) fun i hi hi' => ?_
  simp only [indexVector, List.getElem_map, List.getElem_range]
  exact List.getD_eq_getElem _ _ hi'

/-- The rows the loop reads are those before the counter that no answer of `cancelf` comes before. -/
theorem mem_reportLoop (n : ℕ) : ∀ s x, x ∈ (reportLoop sols cancelf n s).handed ↔
    ∃ i < n, (∀ j < i, cancelf (s + j) = false) ∧ x = ⟨s + i, indexVector sols (s + i)⟩ := by
  induction n with
  | zero =>
    intro s x
    exact ⟨fun h => absurd h List.not_mem_nil, fun ⟨i, hi, _⟩ => absurd hi (Nat.not_lt_zero i)⟩
  | succ n ih =>
    intro s x
    rw [reportLoop]
    dsimp only
    cases hc : cancelf s with
    | true =>
      rw [if_pos rfl, List.mem_singleton]
      constructor
      · rintro rfl
        exact ⟨0, Nat.succ_pos n, fun j hj => absurd hj (Nat.not_lt_zero j), rfl⟩
      · rintro ⟨i, hi, hbefore, rfl⟩
        cases i with
        | zero => rfl
        | succ i =>
          have := hbefore 0 (Nat.succ_pos i)
          rw [Nat.add_zero, hc] at this
          cases this
    | false =>
      rw [if_neg Bool.false_ne_true, List.mem_cons, ih]
      constructor
      · rintro (rfl | ⟨i, hi, hbefore, rfl⟩)
        · exact ⟨0, Nat.succ_pos n, fun j hj => absurd hj (Nat.not_lt_zero j), rfl⟩
        · refine ⟨i + 1, Nat.succ_lt_succ hi,
            fun j hj => ?_, by rw [Nat.add_right_comm, Nat.add_assoc]⟩
          cases j with
          | zero => exact hc
          | succ j =>
            rw [Nat.add_comm j, ← Nat.add_assoc]
            exact hbefore j (Nat.lt_of_succ_lt_succ hj)
      · rintro ⟨i, hi, hbefore, rfl⟩
        cases i with
        | zero => exact Or.inl rfl
        | succ i =>
          refine Or.inr ⟨i, Nat.lt_of_succ_lt_succ hi,
            fun j hj => ?_, by rw [Nat.add_right_comm, Nat.add_assoc]⟩
          rw [Nat.add_assoc, Nat.add_comm 1]
          exact hbefore (j + 1) (Nat.succ_lt_succ hj)

end Loop

section Solve
variable {H : Blake2b} {header nonce : List Byte} {cancelf : ℕ → Bool}

theorem runDigits_after (H : Blake2b) (header nonce : List Byte) (cancelf : ℕ → Bool) (r : ℕ) :
    runDigits cancelf ((Equi.new.setnonce header nonce).digit0 H) r =
      if ∀ n < r, cancelf n = false then some (after H header nonce r) else none := by
  induction r with
  | zero => rw [if_pos fun n hn => absurd hn (Nat.not_lt_zero n), runDigits, after]
  | succ r ih =>
    rw [runDigits, ih]
    by_cases hbefore : ∀ n < r, cancelf n = false
    · rw [if_pos hbefore, Option.bind_some, after]
      cases hc : cancelf r with
      | true => rw [if_pos rfl, if_neg fun h => by rw [h r (Nat.lt_succ_self r)] at hc; cases hc]
      | false =>
        rw [if_neg Bool.false_ne_true, if_pos fun n hn => ?_]
        rcases Nat.lt_succ_iff_lt_or_eq.mp hn with hn | rfl
        · exact hbefore n hn
        · exact hc
    · rw [if_neg hbefore, if_neg fun h => hbefore fun n hn => h n (Nat.lt_succ_of_lt hn)]
      rfl

/-- What `solve` hands over: the rows below the counter, as long as nobody cancels. -/
theorem mem_solve {x : Handed} : x ∈ (solve H header nonce cancelf).handed ↔
    ∃ s < (after H header nonce 9).nsols, (∀ n < 10 + s, cancelf n = false) ∧
      x = ⟨s, indexVector (after H header nonce 9).sols s⟩ := by
  rw [solve, runDigits_after]
  by_cases hdigits : ∀ n < 9, cancelf n = false
  · rw [if_pos hdigits]
    dsimp only
    cases hc : cancelf 9 with
    | true =>
      rw [if_pos rfl]
      refine iff_of_false List.not_mem_nil ?_
      rintro ⟨s, -, hpolls, -⟩
      rw [hpolls 9 (by omega)] at hc
      cases hc
    | false =>
      rw [if_neg Bool.false_ne_true, mem_reportLoop]
      simp only [Nat.zero_add]
      refine exists_congr fun s => and_congr_right fun _ => and_congr_left fun _ => ?_
      constructor
      · intro hrows n hn
        rcases Nat.lt_trichotomy n 9 with hlt | rfl | hgt
        · exact hdigits n hlt
        · exact hc
        · obtain ⟨j, rfl⟩ := Nat.exists_eq_add_of_le (show 10 ≤ n by omega)
          exact hrows j (by omega)
      · exact fun hpolls j hj => hpolls (10 + j) (by omega)
  · rw [if_neg hdigits]
    refine iff_of_false List.not_mem_nil ?_
    rintro ⟨s, -, hpolls, -⟩
    exact hdigits fun n hn => hpolls n (by omega)

/-- How many of the pairs that `digit9` joins pass the duplicate filter. -/
def passing (mem : Memory) : ℕ :=
  ((mem.roundPairs layout 9).filter fun p => counted mem (tree p.1 p.2.1 p.2.2)).length

theorem agree_after (H : Blake2b) (header nonce : List Byte) : Agree (after H header nonce 9)
    (candidates (pairTrees ((after H header nonce 8).mem.roundPairs layout 9)) (after H header nonce 8)) := by
  rw [after]
  exact digit9_agree _

theorem length_pairTrees_lt (mem : Memory) :
    (pairTrees (mem.roundPairs layout 9)).length < 2 ^ 32 := by
  rw [pairTrees, List.length_map]
  exact length_roundPairs_lt

theorem calls_after (H : Blake2b) (header nonce : List Byte) :
    (after H header nonce 9).calls = pairTrees ((after H header nonce 8).mem.roundPairs layout 9) := by
  rw [(agree_after H header nonce).calls, candidates_calls,
    (log_after H header nonce (Nat.le_refl 8)).2, List.nil_append]

theorem nsols_after_eq (H : Blake2b) (header nonce : List Byte) :
    (after H header nonce 9).nsols = passing (after H header nonce 8).mem := by
  rw [(agree_after H header nonce).nsols,
    candidates_nsols (log_after H header nonce (Nat.le_refl 8)).1 (length_pairTrees_lt _), passing,
    pairTrees, List.filter_map, List.length_map]
  rfl

theorem sols_after (H : Blake2b) (header nonce : List Byte) : ∀ s < min (after H header nonce 9).nsols maxsols,
    (after H header nonce 9).sols s ∈ storedBy (after H header nonce 9).calls (after H header nonce 8) := by
  have hagree := agree_after H header nonce
  rw [calls_after, hagree.nsols, hagree.sols]
  exact candidates_sols (log_after H header nonce (Nat.le_refl 8)).1 (length_pairTrees_lt _)

/-- `solve` stays inside `sols`, and hands over what `candidate` stored, if and only if there is
room for all proofs or somebody cancels in time. -/
theorem handed_stored_iff (H : Blake2b) (header nonce : List Byte) (cancelf : ℕ → Bool) :
    (∀ x ∈ (solve H header nonce cancelf).handed, x.row < maxsols ∧
      x.index_vector ∈ storedBy (after H header nonce 9).calls (after H header nonce 8)) ↔
    passing (after H header nonce 8).mem ≤ maxsols ∨ ∃ n < 10 + maxsols, cancelf n = true := by
  rw [← nsols_after_eq]
  constructor
  · intro hall
    by_contra hnot
    push Not at hnot
    obtain ⟨hmore, hpolls⟩ := hnot
    have hread : (⟨maxsols, indexVector (after H header nonce 9).sols maxsols⟩ : Handed) ∈
        (solve H header nonce cancelf).handed :=
      mem_solve.mpr ⟨maxsols, hmore, fun n hn => Bool.eq_false_of_not_eq_true (hpolls n hn), rfl⟩
    exact absurd (hall _ hread).1 (Nat.lt_irrefl maxsols)
  · intro hroom x hx
    obtain ⟨s, hs, hpolls, rfl⟩ := mem_solve.mp hx
    have hrow : s < maxsols := by
      rcases hroom with hle | ⟨n, hn, hc⟩
      · exact Nat.lt_of_lt_of_le hs hle
      · by_contra hge
        rw [hpolls n (by omega)] at hc
        cases hc
    have hstored := sols_after H header nonce s (Nat.lt_min.mpr ⟨hs, hrow⟩)
    refine ⟨hrow, ?_⟩
    dsimp only
    rwa [indexVector_eq (length_storedBy _ _ _ hstored)]

/-- Under `orchardHash` there are 8192 proofs, and the loop runs past the end of `sols`. -/
theorem handed_not_stored :
    ¬∀ x ∈ (solve orchardHash (List.replicate 32 0) (List.replicate 32 0) fun _ => false).handed,
    x.row < maxsols ∧
      x.index_vector ∈ storedBy (after orchardHash (List.replicate 32 0) (List.replicate 32 0) 9).calls
      (after orchardHash (List.replicate 32 0) (List.replicate 32 0) 8) := by
  set header : List Byte := List.replicate 32 0 with hheader
  have hE := rounds_memAfter orchardHash header header
  have hmore : maxsols < (after orchardHash header header 9).nsols := by
    have hsub : (List.range 8192).map (run 9) ⊆ vectors (forestOf layout (memAfter orchardHash header header))
        ((memAfter orchardHash header header 8).roundPairs layout 9) := by
      intro v hv
      obtain ⟨k, hk, rfl⟩ := List.mem_map.mp hv
      exact hE.run_mem siblings_orchard (hasDigits_orchardHash _) (List.mem_range.mp hk)
    have hnodup : ((List.range 8192).map (run 9)).Nodup := by
      refine List.nodup_range.map fun k k' heq => ?_
      have hhead := congrArg (List.headD · 0) heq
      simp only [headD_run] at hhead
      omega
    have hlen := (List.subperm_of_subset hnodup hsub).length_le
    rw [List.length_map, List.length_range] at hlen
    rw [nsols_after]
    exact Nat.lt_of_lt_of_le (by decide) hlen
  intro hall
  exact absurd (hall _ (mem_solve.mpr ⟨maxsols, hmore, fun _ _ => rfl, rfl⟩)).1 (Nat.lt_irrefl maxsols)

end Solve
end Aion.Cpu
