import AionMiner.Payments.Invariant

/-! `processPayments` keeps the accounts: over all runs in which shares come in between its steps, what
workers have and have been paid is what the rounds of confirmed blocks brought them. -/

namespace Aion.Payments
open Text Redis
open Stratum (literal decimal)

section Answers
variable {coin poolAddress : Str}

theorem sharesAt_pos {db : Database Str Str} (h : GoodRounds coin db) {height : Str} {fields : Credits}
    (hfields : sharesAt coin db height = some fields) : fields.entries ≠ [] ∧ ∀ e ∈ fields.entries, 0 < e.2 := by
  unfold sharesAt at hfields
  split at hfields
  · rename_i fields' hlookup
    cases hfields
    obtain ⟨fields'', heq, hgood⟩ := h _ _ (isRound_roundKey height) hlookup
    cases heq
    exact hgood
  · cases hfields

theorem isSome_sharesAt {db : Database Str Str} (h : GoodRounds coin db) {height : Str}
    (hround : (db.lookup (roundKey coin height)).isSome) : (sharesAt coin db height).isSome := by
  obtain ⟨v, hv⟩ := Option.isSome_iff_exists.mp hround
  obtain ⟨fields, rfl, -⟩ := h _ v (isRound_roundKey height) hv
  rw [sharesAt, hv]
  rfl

theorem sound_of_pos {e : Earning} (h : e.workerShares.entries ≠ [] ∧ ∀ s ∈ e.workerShares.entries, 0 < s.2) :
    e.Sound := by
  refine ⟨fun s hs => (h.2 s hs).le, ne_of_gt ?_⟩
  refine List.sum_pos _ (List.forall_mem_map.mpr h.2) ?_
  exact fun hnil => h.1 (List.map_eq_nil_iff.mp hnil)

theorem mem_earningsOf {allWorkerShares : Str → Option Credits} {rounds : List (Round × Answer)} {e : Earning}
    (he : e ∈ earningsOf poolAddress allWorkerShares rounds) :
    ∃ round ∈ rounds, round.1.category = .generate ∧ round.1.serialized = e.serialized ∧
      allWorkerShares round.1.height = some e.workerShares := by
  obtain ⟨⟨r, tx⟩, hround, hsome⟩ := List.mem_filterMap.mp he
  dsimp only at hsome
  split_ifs at hsome with hcategory
  obtain ⟨workerShares, hshares, rfl⟩ := Option.map_eq_some_iff.mp hsome
  exact ⟨(r, tx), hround, hcategory, rfl, hshares⟩

theorem serialized_earningsOf (allWorkerShares : Str → Option Credits) (rounds : List (Round × Answer)) :
    ((earningsOf poolAddress allWorkerShares rounds).map Earning.serialized).Sublist
      (rounds.map fun round => round.1.serialized) := by
  unfold earningsOf
  induction rounds with
  | nil => exact List.Sublist.refl []
  | cons round rounds ih =>
    obtain ⟨r, tx⟩ := round
    rw [List.filterMap_cons, List.map_cons]
    dsimp only
    split_ifs
    · cases allWorkerShares r.height with
      | none => exact ih.cons _
      | some workerShares => exact ih.cons_cons _
    · exact ih.cons _

theorem zip_fst_sublist {α β : Type} (as : List α) (bs : List β) : ((as.zip bs).map Prod.fst).Sublist as := by
  induction as generalizing bs with
  | nil => exact List.Sublist.refl []
  | cons a as ih =>
    cases bs with
    | nil => exact List.nil_sublist _
    | cons b bs => exact (ih bs).cons_cons a

end Answers

section Steps
variable {pool : Pool} {members : List Str} {balances payouts : AList fun _ : Str => ℚ} {s : State}

theorem Pool.Inv.answer (h : pool.Inv members balances payouts s) {workers : Accounts} {rounds assigned : List Round}
    (hread : s.phase = .read workers rounds) {txDetails : List Answer}
    (hassigned : assign pool.poolAddress rounds (txDetails.map Answer.reply) = some assigned) :
    pool.Inv members balances payouts
      { s with
        phase := .owed
          ((assigned.zip txDetails).foldl (rewardRound pool.poolAddress (sharesAt pool.coin s.db)) workers)
          assigned (sharesAt pool.coin s.db)
          (earningsOf pool.poolAddress (sharesAt pool.coin s.db) (assigned.zip txDetails)) } := by
  have hphase := h.phase
  rw [hread] at hphase
  obtain ⟨hsent, hreads, hnodup, hpending⟩ := hphase
  have hpairs := assign_some hassigned
  -- Answers change nothing but categories, so that the rounds are still those of the pending blocks.
  have hserialized : assigned.map Round.serialized = rounds.map Round.serialized := by
    have hmap := congrArg (List.map Prod.fst) hpairs
    rwa [List.map_map, List.map_map] at hmap
  have hlisted : ∀ r ∈ assigned, r.serialized ∈ members ∧ r.height = (roundOf r.serialized).height := by
    intro r hr
    have hmem : (r.serialized, r.height) ∈ rounds.map fun r => (r.serialized, r.height) :=
      hpairs ▸ List.mem_map_of_mem hr
    obtain ⟨r', hr', heq⟩ := List.mem_map.mp hmem
    obtain ⟨hserialized, hheight⟩ := Prod.mk.inj heq
    rw [← hserialized, ← hheight]
    exact hpending r' hr'
  have hsound : ∀ e ∈ earningsOf pool.poolAddress (sharesAt pool.coin s.db) (assigned.zip txDetails), e.Sound := by
    intro e he
    obtain ⟨round, -, -, -, hshares⟩ := mem_earningsOf he
    exact sound_of_pos (sharesAt_pos h.rounds hshares)
  have hsub : ((earningsOf pool.poolAddress (sharesAt pool.coin s.db) (assigned.zip txDetails)).map
      Earning.serialized).Sublist (rounds.map Round.serialized) := by
    rw [← hserialized]
    refine (serialized_earningsOf _ _).trans ?_
    have hzip := (zip_fst_sublist assigned txDetails).map Round.serialized
    rwa [List.map_map] at hzip
  have hmembers : ∀ m ∈ rounds.map Round.serialized, m ∈ members :=
    List.forall_mem_map.mpr fun r hr => (hpending r hr).1
  refine h.toPhase ⟨hsent, ⟨fun worker => ?_, fun c => ?_⟩, ⟨hnodup.sublist hsub, fun e he => ?_, hsound⟩,
    fun height fields hfields => (sharesAt_pos h.rounds hfields).2, fun r hr => ?_, hlisted, fun e he => ?_⟩
  · rw [(rewardRounds_spec (c := 1) hsound).2 worker]
    exact hreads.balance worker
  · rw [(rewardRounds_spec hsound).1, hreads.reward]
    exact zero_add _
  · exact hmembers _ (hsub.subset (List.mem_map_of_mem he))
  · obtain ⟨hmember, hheight⟩ := hlisted r hr
    rw [hheight]
    exact isSome_sharesAt h.rounds (h.closed _ hmember)
  · obtain ⟨round, hround, hcategory, heq, -⟩ := mem_earningsOf he
    exact ⟨round.1, (zip_fst_sublist assigned txDetails).subset (List.mem_map_of_mem hround), hcategory, heq⟩

theorem Pool.Inv.send (h : pool.Inv members balances payouts s) {workers : Accounts} {rounds : List Round}
    {allWorkerShares : Str → Option Credits} {earnings : List Earning}
    (howed : s.phase = .owed workers rounds allWorkerShares earnings) {replies : List Reply}
    (hreplies : Setup.retriesOf replies ≤ 100)
    (hsmall : (((s.earned ++ earnings).map Earning.reward).sum : ℚ) < 10 ^ 21 * 10 ^ pool.setup.coinPrecision)
    {after : List (Str × Worker)} {amounts : Option Amounts}
    (hsend : pool.setup.trySend 0 (pool.workersIn workers) replies = some (after, amounts)) :
    pool.Inv members balances payouts
      { s with
        phase := .paid after rounds allWorkerShares earnings
        sent := s.sent + (amounts.map Store.Writes.total).getD 0
        retried := s.retried || decide (0 < Setup.retriesOf replies) } := by
  have hphase := h.phase
  rw [howed] at hphase
  obtain ⟨hsent, hreads, hlooked⟩ := hphase
  -- What earlier attempts left in the workers does not count.
  obtain ⟨k, hk, hupdates, hamounts⟩ := Setup.trySend_visit hsend
  rw [Nat.zero_add] at hupdates hamounts
  have hlow : k ≤ 100 := hk.trans hreplies
  have hsound : ∀ e ∈ s.earned ++ earnings, e.Sound :=
    List.forall_mem_append.mpr ⟨fun e he => (h.earned e he).1, hlooked.blocks.sound⟩
  have hzero : decide (0 < Setup.retriesOf replies) = false → k = 0 := by
    intro hnone
    exact Nat.le_zero.mp (hk.trans (Nat.not_lt.mp (of_decide_eq_false hnone)))
  have htotal : (amounts.map Store.Writes.total).getD 0 ≤ Setup.weighAll 1 (pool.setup.updates after).payouts := by
    have hgetD : (amounts.map Store.Writes.total).getD 0 = Store.Writes.total (amounts.getD ∅) := by
      cases amounts with
      | none => rfl
      | some amounts => rfl
    rw [hgetD, hamounts, hupdates]
    exact Setup.total_le_payouts hlow _
  refine { h with books := h.books.weaken _, phase := ?_ }
  refine ⟨h.books.send hreads hsound hsmall hlow hzero hupdates, ?_, hlooked⟩
  rw [weigh_addAll]
  exact add_le_add hsent htotal

theorem integer_text (numerals : Numerals) {x : ℚ} {n : ℤ} (h : integer (numerals.text x) = some n) : x = n := by
  unfold integer at h
  obtain ⟨hnumber, heq⟩ := Option.ite_none_right_eq_some.mp h
  rw [Option.some.inj heq] at hnumber
  exact numerals.exact _ _ hnumber.symm

/-- Shares that come back count for something. -/
theorem closing_merged {rounds : List Round} {allWorkerShares : Str → Option Credits}
    (hshares : ∀ height fields, allWorkerShares height = some fields → ∀ e ∈ fields.entries, 0 < e.2) {c : Command}
    (hc : c ∈ ((rounds.filter comes).map
      (looked (fun height => (allWorkerShares height).map (mapValues pool.numerals.text)) rounds)).flatMap
        (Round.merged pool.coin)) : Closing pool.coin c := by
  obtain ⟨r', hr', hc⟩ := List.mem_flatMap.mp hc
  obtain ⟨r, -, rfl⟩ := List.mem_map.mp hr'
  rw [merged_looked] at hc
  split_ifs at hc
  · obtain ⟨e, he, rfl⟩ := List.mem_map.mp hc
    cases hfields : allWorkerShares r.height with
    | none =>
      rw [hfields] at he
      exact absurd he List.not_mem_nil
    | some fields =>
      rw [hfields] at he
      obtain ⟨x, hx, rfl⟩ := List.mem_map.mp he
      rw [roundKey_current]
      refine .merge x.1 fun n hn => ?_
      have hpos := hshares _ _ hfields x hx
      rw [integer_text pool.numerals hn] at hpos
      exact_mod_cast hpos
  · exact absurd hc List.not_mem_nil

theorem category_looked (shares : Str → Option Shares) (rounds : List Round) (r : Round) :
    (looked shares rounds r).category = r.category := by
  unfold looked lookUp
  split_ifs
  all_goals rfl

theorem serialized_looked (shares : Str → Option Shares) (rounds : List Round) (r : Round) :
    (looked shares rounds r).serialized = r.serialized := by
  unfold looked lookUp
  split_ifs
  all_goals rfl

theorem category_of_comes {r : Round} (h : comes r = true) : r.category ≠ .other := by
  intro hcategory
  rw [comes, hcategory] at h
  cases h

theorem Pool.Inv.record (h : pool.Inv members balances payouts s) {workers : List (Str × Worker)}
    {rounds : List Round}
    {allWorkerShares : Str → Option Credits} {earnings : List Earning}
    (hpaid : s.phase = .paid workers rounds allWorkerShares earnings) {commands : List Command}
    (hcommands : roundCommands pool.coin (fun height => (allWorkerShares height).map (mapValues pool.numerals.text))
      (pool.setup.updates workers) rounds = some commands) :
    ∃ members' balances' payouts', pool.Inv members' balances' payouts'
      { s with db := execAll s.db commands, phase := .idle, earned := s.earned ++ earnings } := by
  have hphase := h.phase
  rw [hpaid] at hphase
  obtain ⟨hbooks, hsent, hlooked⟩ := hphase
  rw [roundCommands_eq] at hcommands
  split_ifs at hcommands
  obtain rfl := Option.some.inj hcommands
  obtain ⟨⟨members', hpending, hnodup, hmem⟩, hsets⟩ := @setAt_closing pool.coin s.db (pool.setup.updates workers)
    ((rounds.filter comes).map
      (looked (fun height => (allWorkerShares height).map (mapValues pool.numerals.text)) rounds))
    members h.pending h.nodup h.sets
  have hsub : ∀ m ∈ members', m ∈ members := fun m hm => ((hmem m).mp hm).1
  -- The blocks of the rounds that come to the end leave `blocksPending`, and those that stay keep their shares.
  have hleft : ∀ r ∈ rounds, comes r = true → r.serialized ∉ members' := by
    intro r hr hcomes hm
    have hlast := ((hmem _).mp hm).2 _ (List.mem_map_of_mem (List.mem_filter.mpr ⟨hr, hcomes⟩))
    rw [category_looked, serialized_looked] at hlast
    exact hlast (category_of_comes hcomes) rfl
  refine ⟨members', _, _,
    { rounds := goodRounds_closing h.rounds fun c hc => closing_merged hlooked.shares hc
      balancesAt := hashAt_balances h.balancesAt
      payoutsAt := hashAt_payouts h.payoutsAt
      pending := hpending
      nodup := hnodup
      sets := hsets
      blocks := fun m hm => h.blocks m (hsub m hm)
      heights := fun m hm m' hm' => h.heights m (hsub m hm) m' (hsub m' hm')
      closed := fun m hm => ?_
      books := hbooks
      once := ?_
      earned := ?_
      phase := hsent }⟩
  · obtain ⟨call, -, -, -, hheight⟩ := h.blocks m (hsub m hm)
    refine (congrArg Option.isSome (lookup_round (isRound_roundKey _) ?_ fun hdeleted => ?_)).trans
      (h.closed m (hsub m hm))
    · rw [hheight, roundKey_number]
      exact roundAt_ne_current _ _
    · obtain ⟨r', hr', hdeleted⟩ := List.mem_flatMap.mp hdeleted
      obtain ⟨r, hr, rfl⟩ := List.mem_map.mp hr'
      obtain ⟨hr, hcomes⟩ := List.mem_filter.mp hr
      rw [deleted_looked] at hdeleted
      split_ifs at hdeleted
      · have heq := List.append_cancel_left (List.mem_singleton.mp hdeleted)
        obtain ⟨hlisted, hrheight⟩ := hlooked.listed r hr
        rw [hrheight] at heq
        have hsame := h.heights m (hsub m hm) r.serialized hlisted heq
        exact hleft r hr hcomes (hsame ▸ hm)
      · exact List.not_mem_nil hdeleted
  · rw [List.map_append, List.nodup_append]
    refine ⟨h.once, hlooked.blocks.nodup, fun a ha b hb => ?_⟩
    obtain ⟨e, he, rfl⟩ := List.mem_map.mp ha
    obtain ⟨e', he', rfl⟩ := List.mem_map.mp hb
    intro heq
    exact (h.earned e he).2.1 (heq ▸ hlooked.blocks.pending e' he')
  · refine List.forall_mem_append.mpr ⟨fun e he => ?_, fun e he => ?_⟩
    · obtain ⟨hsound, hnot, hcall⟩ := h.earned e he
      exact ⟨hsound, fun hm => hnot (hsub _ hm), hcall⟩
    · obtain ⟨call, hcall, hblock, hmember, -⟩ := h.blocks _ (hlooked.blocks.pending e he)
      refine ⟨hlooked.blocks.sound e he, ?_, call, hcall, hblock, hmember⟩
      obtain ⟨r, hr, hcategory, hserialized⟩ := hlooked.confirmed e he
      rw [← hserialized]
      refine hleft r hr ?_
      rw [comes, hcategory]
      rfl

/-- There are shares of each round, so that there is no exception once payments are sent. -/
theorem isSome_record (h : pool.Inv members balances payouts s) {workers : List (Str × Worker)} {rounds : List Round}
    {allWorkerShares : Str → Option Credits} {earnings : List Earning}
    (hpaid : s.phase = .paid workers rounds allWorkerShares earnings) :
    (roundCommands pool.coin (fun height => (allWorkerShares height).map (mapValues pool.numerals.text))
      (pool.setup.updates workers) rounds).isSome := by
  have hphase := h.phase
  rw [hpaid] at hphase
  obtain ⟨-, -, hlooked⟩ := hphase
  refine (isSome_roundCommands _ _).mpr fun r hr _ => ?_
  rw [Option.isSome_map]
  exact hlooked.found r hr

end Steps

section Runs
variable {pool : Pool} {s s' : State}

def Pool.Invariant (pool : Pool) (s : State) : Prop :=
  ∃ members balances payouts, pool.Inv members balances payouts s

theorem invariant_start (h : start s) : pool.Invariant s := by
  obtain rfl := h
  have hnone (c : Str → ℚ) : (weigh c ∅ + weigh c ∅) * 10 ^ pool.setup.coinPrecision = owing c [] :=
    (congrArg (· * (10 : ℚ) ^ pool.setup.coinPrecision) (add_zero _)).trans (zero_mul _)
  refine ⟨[], ∅, ∅,
    { rounds := fun key v _ hv => nomatch hv
      balancesAt := rfl
      payoutsAt := rfl
      pending := rfl
      nodup := List.nodup_nil
      sets := fun set _ => rfl
      blocks := fun m hm => absurd hm List.not_mem_nil
      heights := fun m hm => absurd hm List.not_mem_nil
      closed := fun m hm => absurd hm List.not_mem_nil
      books :=
        { whole := fun worker => ⟨0, (zero_mul _).trans Nat.cast_zero.symm⟩
          paid := fun worker => le_rfl
          kept := fun c _ => (hnone c).le
          all := fun _ c _ => hnone c }
      once := List.nodup_nil
      earned := fun e he => absurd he List.not_mem_nil
      phase := le_rfl }⟩

theorem invariant_step {e : Event} (h : pool.Invariant s) (hallowed : pool.Allowed s e)
    (hstep : pool.step s e = some s') :
    pool.Invariant s' := by
  obtain ⟨members, balances, payouts, h⟩ := h
  have hphase := h.phase
  cases e with
  | share call =>
    cases hstep
    obtain ⟨members', hshare⟩ := h.share hallowed
    exact ⟨members', balances, payouts, hshare⟩
  | start =>
    rw [Pool.step] at hstep
    split at hstep
    · rename_i balances' pending hidle hbalances hpending
      obtain rfl := Option.some.inj (hbalances.symm.trans h.balancesAt)
      obtain rfl := Option.some.inj (hpending.symm.trans h.pending)
      cases hstep
      exact ⟨_, _, _, h.start hidle⟩
    · cases hstep
  | answer txDetails =>
    rw [Pool.step] at hstep
    split at hstep
    · rename_i workers rounds hread
      split at hstep
      · cases hstep
        rw [hread] at hphase
        exact ⟨_, _, _, h.toPhase hphase.1⟩
      · rename_i assigned hassigned
        cases hstep
        exact ⟨_, _, _, h.answer hread hassigned⟩
    · cases hstep
  | send replies =>
    obtain ⟨hreplies, hsmall⟩ := hallowed
    rw [Pool.step] at hstep
    split at hstep
    · rename_i workers rounds allWorkerShares earnings howed
      rw [howed] at hsmall
      split at hstep
      · cases hstep
        rw [howed] at hphase
        exact ⟨_, _, _, h.toPhase hphase.1⟩
      · rename_i after amounts hsend
        cases hstep
        exact ⟨_, _, _, h.send howed hreplies hsmall hsend⟩
    · cases hstep
  | record =>
    rw [Pool.step] at hstep
    split at hstep
    · rename_i workers rounds allWorkerShares earnings hpaid
      have hsome := isSome_record h hpaid
      split at hstep
      · rename_i hnone
        rw [hnone] at hsome
        cases hsome
      · rename_i commands hcommands
        cases hstep
        exact h.record hpaid hcommands
    · cases hstep
  | fail =>
    rw [Pool.step] at hstep
    split at hstep
    · rename_i workers rounds hread
      cases hstep
      rw [hread] at hphase
      exact ⟨_, _, _, h.toPhase hphase.1⟩
    · rename_i workers rounds allWorkerShares earnings howed
      cases hstep
      rw [howed] at hphase
      exact ⟨_, _, _, h.toPhase hphase.1⟩
    · rename_i workers rounds allWorkerShares earnings hpaid
      cases hstep
      rw [hpaid] at hphase
      obtain ⟨hbooks, hsent, hlooked⟩ := hphase
      exact ⟨_, _, _, h.toPhase ⟨⟨_, _, hbooks, hsent⟩, hlooked.blocks⟩⟩
    · cases hstep

/-- What is under way belongs to pending blocks, and the books with it cover what was sent. -/
theorem Pool.Inv.underway {members : List Str} {balances payouts : AList fun _ : Str => ℚ}
    (h : pool.Inv members balances payouts s) :
    (∃ balances' payouts',
      Books pool.setup.coinPrecision balances' payouts' (s.earned ++ s.phase.underway) s.retried ∧
      s.sent ≤ weigh 1 payouts') ∧ Blocks members s.phase.underway := by
  have hphase := h.phase
  have hbooks := h.books
  have hnone : Blocks members [] :=
    ⟨List.nodup_nil, fun e he => absurd he List.not_mem_nil, fun e he => absurd he List.not_mem_nil⟩
  rw [← List.append_nil s.earned] at hbooks
  cases hs : s.phase with
  | idle =>
    rw [hs] at hphase
    exact ⟨⟨_, _, hbooks, hphase⟩, hnone⟩
  | read workers rounds =>
    rw [hs] at hphase
    exact ⟨⟨_, _, hbooks, hphase.1⟩, hnone⟩
  | owed workers rounds allWorkerShares earnings =>
    rw [hs] at hphase
    exact ⟨⟨_, _, hbooks, hphase.1⟩, hnone⟩
  | paid workers rounds allWorkerShares earnings =>
    rw [hs] at hphase
    obtain ⟨hbooks, hsent, hlooked⟩ := hphase
    exact ⟨⟨_, _, hbooks, hsent⟩, hlooked.blocks⟩
  | disabled earnings =>
    rw [hs] at hphase
    exact hphase

/-- What workers have and have been paid is what the confirmed blocks brought them, less what attempts
that had to be repeated withheld. No block brings anything twice, each worker of a block misses less than a
satoshi, and no more is sent than the blocks brought. -/
theorem accounts_kept (h : Machine.Reachable pool.step start pool.Allowed s) :
    (∃ held paid, hashAt s.db (balances pool.coin) = some held ∧ hashAt s.db (payouts pool.coin) = some paid ∧
      ∀ worker, (∃ n : ℕ, (held.lookup worker).getD 0 * 10 ^ pool.setup.coinPrecision = n) ∧
        0 ≤ (paid.lookup worker).getD 0 ∧
        ((held.lookup worker).getD 0 + (paid.lookup worker).getD 0) * 10 ^ pool.setup.coinPrecision ≤
          ((s.earned.map fun e => e.of worker).sum : ℕ) ∧
        (s.retried = false →
          ((held.lookup worker).getD 0 + (paid.lookup worker).getD 0) * 10 ^ pool.setup.coinPrecision =
            ((s.earned.map fun e => e.of worker).sum : ℕ))) ∧
      s.sent * 10 ^ pool.setup.coinPrecision ≤ (((s.earned ++ s.phase.underway).map Earning.reward).sum : ℕ) ∧
      ((s.earned ++ s.phase.underway).map Earning.serialized).Nodup ∧
      ∀ e ∈ s.earned ++ s.phase.underway,
        (e.weigh 1 ≤ e.reward ∧ (e.reward : ℚ) < e.weigh 1 + e.workerShares.entries.length) ∧
          ∃ call ∈ s.calls, call.isValidBlock = true ∧ e.serialized = blockMember call := by
  obtain ⟨members, held, paid, hinv⟩ : pool.Invariant s :=
    h.invariant (fun s hs => invariant_start hs) fun s e s' hs hallowed hstep => invariant_step hs hallowed hstep
  obtain ⟨⟨held', paid', hbooks, hsent⟩, hblocks⟩ := hinv.underway
  have hsound : ∀ e ∈ s.earned ++ s.phase.underway, e.Sound :=
    List.forall_mem_append.mpr ⟨fun e he => (hinv.earned e he).1, hblocks.sound⟩
  refine ⟨⟨held, paid, hinv.balancesAt, hinv.payoutsAt, fun worker => ?_⟩, ?_, ?_, fun e he => ?_⟩
  · exact ⟨hinv.books.whole worker, hinv.books.paid worker, hinv.books.single worker⟩
  · calc s.sent * 10 ^ pool.setup.coinPrecision
      _ ≤ weigh 1 paid' * 10 ^ pool.setup.coinPrecision := mul_le_mul_of_nonneg_right hsent (by positivity)
      _ ≤ owing 1 (s.earned ++ s.phase.underway) := hbooks.payouts_le
      _ ≤ (((s.earned ++ s.phase.underway).map Earning.reward).sum : ℕ) := owing_one hsound
  · rw [List.map_append, List.nodup_append]
    refine ⟨hinv.once, hblocks.nodup, fun a ha b hb => ?_⟩
    obtain ⟨e, he, rfl⟩ := List.mem_map.mp ha
    obtain ⟨e', he', rfl⟩ := List.mem_map.mp hb
    exact fun heq => (hinv.earned e he).2.1 (heq ▸ hblocks.pending e' he')
  · refine ⟨Earning.weigh_one (hsound e he), ?_⟩
    rcases List.mem_append.mp he with he | he
    · exact (hinv.earned e he).2.2
    · obtain ⟨call, hcall, hblock, hmember, -⟩ := hinv.blocks _ (hblocks.pending e he)
      exact ⟨call, hcall, hblock, hmember⟩

end Runs

section Pair

theorem point_notMem_number (n : ℤ) : unit '.' ∉ number n := by
  have hdecimal (n : ℕ) : unit '.' ∉ decimal n := by
    intro h
    obtain ⟨c, hc, heq⟩ := List.mem_map.mp h
    exact unit_digit_ne (d := '.') (Nat.isDigit_of_mem_toDigits (b := 10) (by decide) (by decide) hc) rfl rfl heq
  cases n with
  | ofNat n => exact hdecimal n
  | negSucc n => exact fun h => (List.mem_cons.mp h).elim (by decide) (hdecimal _)

/-- Whole numbers are written as such; of others only the point counts here. -/
def wholeNumerals : Numerals where
  text x := if x.den = 1 then number x.num else literal "."
  integers _ := if_pos rfl
  exact x n h := by
    split_ifs at h with hden
    · rw [← number_inj h]
      exact ((Rat.den_eq_one_iff x).mp hden).symm
    · exact absurd (h ▸ List.mem_singleton.mpr rfl) (point_notMem_number n)

/-- Two workers share a block. -/
def pair : Pool where
  coin := literal "aion"
  poolAddress := literal "a0"
  setup := satoshis some
  numerals := wholeNumerals
  keys := ⟨id, fun _ => .refl _⟩

def shareOf (worker : String) (difficulty : ℚ) (isValidBlock : Bool) : Call where
  isValidShare := true
  isValidBlock := isValidBlock
  shareData := ⟨literal worker, difficulty, 7, some (literal "b7"), some (literal "t7")⟩
  dateNow := 0

def coinbase : Answer := ⟨none, some (some [⟨literal "a0", .generate, 5⟩])⟩

def Pool.after (pool : Pool) (s : State) (e : Event) : State := (pool.step s e).getD s

def shared : State :=
  pair.after (pair.after ⟨∅, .idle, [], [], 0, false⟩ (.share (shareOf "a2" 1 false))) (.share (shareOf "a1" 2 true))

def answered : State := pair.after (pair.after shared .start) (.answer [coinbase])

def paidOut : State := pair.after (pair.after answered (.send [.ok])) .record

theorem reachable_after {pool : Pool} {s : State} {e : Event} (h : Machine.Reachable pool.step start pool.Allowed s)
    (hallowed : pool.Allowed s e) (hsome : (pool.step s e).isSome = true) :
    Machine.Reachable pool.step start pool.Allowed (pool.after s e) := by
  obtain ⟨s', hs'⟩ := Option.isSome_iff_exists.mp hsome
  rw [Pool.after, hs']
  exact .step h hallowed hs'

theorem fresh_shareOf (worker : String) {difficulty : ℚ} (hdifficulty : 0 < difficulty) (isValidBlock : Bool)
    (hworker : literal worker ∉ objectProperties) {calls : List Call}
    (hcalls : ∀ call ∈ calls, call.isValidBlock = false) :
    Fresh calls (shareOf worker difficulty isValidBlock) where
  positive _ := hdifficulty
  named _ := hworker
  valid _ := rfl
  height _ earlier hearlier hblock := absurd hblock (by rw [hcalls earlier hearlier]; decide)
  hash := ⟨(by decide : unit ':' ∉ literal "b7"), (by decide : unit ':' ∉ literal "t7")⟩

theorem reachable_paidOut : Machine.Reachable pair.step start pair.Allowed paidOut := by
  have hshared : Machine.Reachable pair.step start pair.Allowed shared := by
    refine reachable_after (reachable_after (.start rfl) ?_ rfl) ?_ rfl
    · exact fresh_shareOf "a2" (by decide) false (by decide) fun call hcall => absurd hcall List.not_mem_nil
    · refine fresh_shareOf "a1" (by decide) true (by decide) fun call hcall => ?_
      rw [List.mem_singleton.mp hcall]
      rfl
  have hanswered : Machine.Reachable pair.step start pair.Allowed answered :=
    reachable_after (reachable_after hshared trivial (by decide +kernel)) trivial (by decide +kernel)
  refine reachable_after (reachable_after hanswered ?_ (by decide +kernel)) trivial (by decide +kernel)
  exact ⟨by decide, by decide +kernel⟩

/-- Of five satoshis three go to the worker with two of the three shares. -/
theorem accounts_kept_pair : (paidOut.earned.map fun e => e.of (literal "a1")).sum = 3 ∧ paidOut.retried = false ∧
    ∃ held paid, hashAt paidOut.db (balances pair.coin) = some held ∧
      hashAt paidOut.db (payouts pair.coin) = some paid ∧
      ((held.lookup (literal "a1")).getD 0 + (paid.lookup (literal "a1")).getD 0) *
        10 ^ pair.setup.coinPrecision = 3 := by
  have hsum : (paidOut.earned.map fun e => e.of (literal "a1")).sum = 3 := by decide +kernel
  have hretried : paidOut.retried = false := by decide +kernel
  obtain ⟨⟨held, paid, hheld, hpaid, hworkers⟩, -⟩ := accounts_kept reachable_paidOut
  obtain ⟨-, -, -, hall⟩ := hworkers (literal "a1")
  exact ⟨hsum, hretried, held, paid, hheld, hpaid, (hall hretried).trans (by rw [hsum]; rfl)⟩

end Pair
end Aion.Payments
