import AionMiner.Payments.Closing
import AionMiner.Payments.Ledger

/-! What holds of the database and of a pass at any moment. -/

namespace Aion.Payments
open Text Redis
open Stratum (literal)

section Members

theorem colon_notMem_number (n : ℤ) : unit ':' ∉ number n := by
  cases n with
  | ofNat n => exact colon_notMem_decimal n
  | negSucc n => exact fun h => (List.mem_cons.mp h).elim (by decide) (colon_notMem_decimal _)

theorem last_inj {a b c d : Str} (hb : unit ':' ∉ b) (hd : unit ':' ∉ d)
    (h : a ++ unit ':' :: b = c ++ unit ':' :: d) :
    b = d := by
  have hreverse := congrArg List.reverse h
  rw [List.reverse_append, List.reverse_append, List.reverse_cons, List.reverse_cons, List.append_assoc,
    List.append_assoc, List.singleton_append, List.singleton_append] at hreverse
  have hlast := congrArg (List.takeWhile fun c => c != unit ':') hreverse
  rw [takeWhile_colon (mt List.mem_reverse.mp hb), takeWhile_colon (mt List.mem_reverse.mp hd)] at hlast
  exact List.reverse_injective hlast

theorem blockMember_eq (call : Call) : blockMember call =
    (call.shareData.blockHash.getD [] ++ unit ':' :: call.shareData.txHash.getD []) ++
      unit ':' :: number call.shareData.height := by
  have hcolon : literal ":" = [unit ':'] := rfl
  simp [blockMember, joinColon, List.intercalate, hcolon]

/-- Members of different heights are different. -/
theorem height_of_blockMember {call call' : Call} (h : blockMember call = blockMember call') :
    call.shareData.height = call'.shareData.height := by
  rw [blockMember_eq, blockMember_eq] at h
  exact number_inj (last_inj (colon_notMem_number _) (colon_notMem_number _) h)

/-- The height is found again. -/
theorem height_roundOf {call : Call}
    (h : unit ':' ∉ call.shareData.blockHash.getD [] ∧ unit ':' ∉ call.shareData.txHash.getD []) :
    (roundOf (blockMember call)).height = number call.shareData.height := by
  have hparts : ∀ part ∈ [call.shareData.blockHash.getD [], call.shareData.txHash.getD [],
    number call.shareData.height],
      unit ':' ∉ part := by
    refine List.forall_mem_cons.mpr ⟨h.1, List.forall_mem_cons.mpr ⟨h.2, List.forall_mem_cons.mpr ⟨?_, ?_⟩⟩⟩
    · exact colon_notMem_number _
    · exact fun part hpart => absurd hpart List.not_mem_nil
  have hsplit := List.splitOn_intercalate (unit ':') hparts (List.cons_ne_nil _ _)
  dsimp only [roundOf]
  exact congrArg (fun parts => parts.getD 2 (literal "undefined")) hsplit

theorem roundKey_number (coin : Str) (height : ℤ) : roundKey coin (number height) = roundAt coin height := rfl

end Members

section Holds

/-- Different pending blocks with shares. -/
structure Blocks (members : List Str) (earnings : List Earning) : Prop where
  nodup : (earnings.map Earning.serialized).Nodup
  pending : ∀ e ∈ earnings, e.serialized ∈ members
  sound : ∀ e ∈ earnings, e.Sound

/-- The rounds of a pass with categories, their shares and what is earned. -/
structure Looked (members : List Str) (rounds : List Round) (allWorkerShares : Str → Option Credits)
    (earnings : List Earning) : Prop where
  blocks : Blocks members earnings
  shares : ∀ height fields, allWorkerShares height = some fields → ∀ e ∈ fields.entries, 0 < e.2
  found : ∀ r ∈ rounds, (allWorkerShares r.height).isSome
  listed : ∀ r ∈ rounds, r.serialized ∈ members ∧ r.height = (roundOf r.serialized).height
  confirmed : ∀ e ∈ earnings, ∃ r ∈ rounds, r.category = .generate ∧ r.serialized = e.serialized

theorem Blocks.mono {members members' : List Str} (hsub : members ⊆ members') {earnings : List Earning}
    (h : Blocks members earnings) : Blocks members' earnings :=
  ⟨h.nodup, fun e he => hsub (h.pending e he), h.sound⟩

theorem Looked.mono {members members' : List Str} (hsub : members ⊆ members') {rounds : List Round}
    {allWorkerShares : Str → Option Credits} {earnings : List Earning}
    (h : Looked members rounds allWorkerShares earnings) :
    Looked members' rounds allWorkerShares earnings :=
  { h with blocks := h.blocks.mono hsub, listed := fun r hr => (h.listed r hr).imp_left fun hr => hsub hr }

/-- What a pass relies on. -/
def Pool.Holds (pool : Pool) (members : List Str) (balances payouts : AList fun _ : Str => ℚ) (earned : List Earning)
    (retried : Bool) (sent : ℚ) : Phase → Prop
  | .idle => sent ≤ weigh 1 payouts
  | .read workers rounds =>
    sent ≤ weigh 1 payouts ∧ Reads pool balances workers [] ∧ (rounds.map Round.serialized).Nodup ∧
      ∀ r ∈ rounds, r.serialized ∈ members ∧ r.height = (roundOf r.serialized).height
  | .owed workers rounds allWorkerShares earnings =>
    sent ≤ weigh 1 payouts ∧ Reads pool balances workers earnings ∧ Looked members rounds allWorkerShares earnings
  | .paid workers rounds allWorkerShares earnings =>
    Books pool.setup.coinPrecision (addAll balances (pool.setup.updates workers).balances)
        (addAll payouts (pool.setup.updates workers).payouts) (earned ++ earnings) retried ∧
      sent ≤ weigh 1 (addAll payouts (pool.setup.updates workers).payouts) ∧
        Looked members rounds allWorkerShares earnings
  | .disabled earnings =>
    (∃ balances' payouts', Books pool.setup.coinPrecision balances' payouts' (earned ++ earnings) retried ∧
      sent ≤ weigh 1 payouts') ∧ Blocks members earnings

variable {pool : Pool} {members members' : List Str} {balances payouts : AList fun _ : Str => ℚ}
  {earned : List Earning}
  {retried : Bool} {sent : ℚ}

theorem Pool.Holds.mono (hsub : members ⊆ members') {phase : Phase}
    (h : pool.Holds members balances payouts earned retried sent phase) :
    pool.Holds members' balances payouts earned retried sent phase := by
  cases phase with
  | idle => exact h
  | read workers rounds =>
    obtain ⟨hsent, hreads, hnodup, hpending⟩ := h
    exact ⟨hsent, hreads, hnodup, fun r hr => (hpending r hr).imp_left fun hr => hsub hr⟩
  | owed workers rounds allWorkerShares earnings =>
    obtain ⟨hsent, hreads, hlooked⟩ := h
    exact ⟨hsent, hreads, hlooked.mono hsub⟩
  | paid workers rounds allWorkerShares earnings =>
    obtain ⟨hbooks, hsent, hlooked⟩ := h
    exact ⟨hbooks, hsent, hlooked.mono hsub⟩
  | disabled earnings =>
    obtain ⟨hbooks, hblocks⟩ := h
    exact ⟨hbooks, hblocks.mono hsub⟩

/-- The pending blocks, the balances and the payouts of a database, with all that has been earned. -/
structure Pool.Inv (pool : Pool) (members : List Str) (balances payouts : AList fun _ : Str => ℚ)
    (s : State) : Prop where
  rounds : GoodRounds pool.coin s.db
  balancesAt : hashAt s.db (Payments.balances pool.coin) = some balances
  payoutsAt : hashAt s.db (Payments.payouts pool.coin) = some payouts
  pending : setAt s.db (blocksPending pool.coin) = some members
  nodup : members.Nodup
  sets : ∀ set ∈ destinations, (setAt s.db (pool.coin ++ literal set)).isSome
  blocks : ∀ m ∈ members, ∃ call ∈ s.calls, call.isValidBlock = true ∧ m = blockMember call ∧
    (roundOf m).height = number call.shareData.height
  heights : ∀ m ∈ members, ∀ m' ∈ members, (roundOf m).height = (roundOf m').height → m = m'
  closed : ∀ m ∈ members, (s.db.lookup (roundKey pool.coin (roundOf m).height)).isSome
  books : Books pool.setup.coinPrecision balances payouts s.earned s.retried
  once : (s.earned.map Earning.serialized).Nodup
  earned : ∀ e ∈ s.earned, e.Sound ∧ e.serialized ∉ members ∧
    ∃ call ∈ s.calls, call.isValidBlock = true ∧ e.serialized = blockMember call
  phase : pool.Holds members balances payouts s.earned s.retried s.sent s.phase

end Holds

section Steps
variable {pool : Pool} {members : List Str} {balances payouts : AList fun _ : Str => ℚ} {s : State}

theorem Pool.Inv.toPhase (h : pool.Inv members balances payouts s) {phase : Phase}
    (hphase : pool.Holds members balances payouts s.earned s.retried s.sent phase) :
    pool.Inv members balances payouts { s with phase } :=
  { h with phase := hphase }

theorem notMem_aside {coin suffix : Str}
    (h : ∀ other ∈ [literal ":stats", literal ":hashrate", literal ":blocksPending"], suffix ≠ other) :
    coin ++ suffix ∉ aside coin := by
  intro hmem
  simp only [aside, List.mem_cons, List.not_mem_nil, or_false] at hmem
  rcases hmem with heq | heq | heq
  · exact h _ List.mem_cons_self (List.append_cancel_left heq)
  · exact h _ (List.mem_cons_of_mem _ List.mem_cons_self) (List.append_cancel_left heq)
  · exact h _ (List.mem_cons_of_mem _ (List.mem_cons_of_mem _ List.mem_cons_self)) (List.append_cancel_left heq)

/-- A share comes in between. -/
theorem Pool.Inv.share (h : pool.Inv members balances payouts s) {call : Call} (hfresh : Fresh s.calls call) :
    ∃ members', pool.Inv members' balances payouts
      { s with db := handleShare pool.numerals.text pool.coin s.db call, calls := s.calls ++ [call] } := by
  obtain ⟨hgood, hframe, ⟨members', hpending, hnodup, hmem⟩, hround⟩ :=
    @handleShare_frame pool.numerals.text pool.coin s.db h.rounds call members h.pending h.nodup
      hfresh.positive hfresh.valid
  have hsub : members ⊆ members' := fun m hm => (hmem m).mpr (.inr hm)
  have hkept {suffix : Str} (hround : ¬literal ":shares:round" <+: suffix)
      (haside : ∀ other ∈ [literal ":stats", literal ":hashrate", literal ":blocksPending"], suffix ≠ other) :
      (handleShare pool.numerals.text pool.coin s.db call).lookup (pool.coin ++ suffix) =
        s.db.lookup (pool.coin ++ suffix) :=
    hframe _ (ne_of_isRound (isRound_other _ hround) (isRound_current _)) (notMem_aside haside) fun _ =>
      ne_of_isRound (isRound_other _ hround) (isRound_at _ _)
  have hlast : call ∈ s.calls ++ [call] := List.mem_append_right _ List.mem_cons_self
  have hnew := height_roundOf hfresh.hash
  -- No earlier block has the height of this one.
  have hother {m : Str} (hm : m ∈ members) (hblock : call.isValidBlock = true) :
      (roundOf m).height ≠ (roundOf (blockMember call)).height := by
    obtain ⟨earlier, hcall, hearlier, -, hheight⟩ := h.blocks m hm
    rw [hheight, hnew]
    exact fun heq => hfresh.height hblock earlier hcall hearlier (number_inj heq)
  refine ⟨members',
    { rounds := hgood
      balancesAt := (hashAt_congr (hkept (by decide) (by decide))).trans h.balancesAt
      payoutsAt := (hashAt_congr (hkept (by decide) (by decide))).trans h.payoutsAt
      pending := hpending
      nodup := hnodup
      sets := fun set hset => (congrArg Option.isSome (setAt_congr (hkept ?_ ?_))).trans (h.sets set hset)
      blocks := fun m hm => ?_
      heights := fun m hm m' hm' heq => ?_
      closed := fun m hm => ?_
      books := h.books
      once := h.once
      earned := fun e he => ?_
      phase := h.phase.mono hsub }⟩
  · revert set
    decide
  · revert set
    decide
  · rcases (hmem m).mp hm with ⟨hblock, rfl⟩ | hm
    · exact ⟨call, hlast, hblock, rfl, hnew⟩
    · obtain ⟨earlier, hcall, hearlier⟩ := h.blocks m hm
      exact ⟨earlier, List.mem_append_left _ hcall, hearlier⟩
  · rcases (hmem m).mp hm with ⟨hblock, rfl⟩ | hm
    · rcases (hmem m').mp hm' with ⟨-, rfl⟩ | hm'
      · rfl
      · exact absurd heq.symm (hother hm' hblock)
    · rcases (hmem m').mp hm' with ⟨hblock, rfl⟩ | hm'
      · exact absurd heq (hother hm hblock)
      · exact h.heights m hm m' hm' heq
  · rcases (hmem m).mp hm with ⟨hblock, rfl⟩ | hm
    · rw [hnew, roundKey_number]
      exact hround hblock
    · have hclosed := h.closed m hm
      obtain ⟨earlier, -, -, -, hheight⟩ := h.blocks m hm
      have haside : roundKey pool.coin (roundOf m).height ∉ aside pool.coin := fun hmem =>
        ne_of_isRound (isRound_aside hmem) (isRound_roundKey _) rfl
      refine (congrArg Option.isSome (hframe _ ?_ haside fun hblock heq => ?_)).trans hclosed
      · rw [hheight, roundKey_number]
        exact roundAt_ne_current _ _
      · refine hother hm hblock ?_
        rw [hnew]
        exact List.append_cancel_left heq
  · obtain ⟨hsound, hnot, earlier, hcall, hearlier, hmember⟩ := h.earned e he
    refine ⟨hsound, fun hm => ?_, earlier, List.mem_append_left _ hcall, hearlier, hmember⟩
    rcases (hmem _).mp hm with ⟨hblock, heq⟩ | hm
    · exact hfresh.height hblock earlier hcall hearlier (height_of_blockMember (hmember.symm.trans heq))
    · exact hnot hm

theorem Pool.Inv.start (h : pool.Inv members balances payouts s) (hidle : s.phase = .idle) :
    pool.Inv members balances payouts { s with phase := .read (pool.workersOf balances) (members.map roundOf) } := by
  have hphase := h.phase
  rw [hidle] at hphase
  have hserialized : (members.map roundOf).map Round.serialized = members := by
    rw [List.map_map]
    exact List.map_id _
  refine h.toPhase ⟨hphase, reads_workersOf h.books, hserialized.symm ▸ h.nodup, fun r hr => ?_⟩
  obtain ⟨m, hm, rfl⟩ := List.mem_map.mp hr
  exact ⟨hm, rfl⟩

end Steps
end Aion.Payments
