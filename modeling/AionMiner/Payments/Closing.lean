import AionMiner.Payments.Amounts
import AionMiner.Payments.Effects

/-! The last commands of a pass: blocks leave `blocksPending`, balances and payouts grow, and the shares
of blocks that are still pending stay. -/

namespace Aion.Payments
open Text Redis
open Stratum (literal)

section Moves
variable {coin : Str}

theorem mem_moves_of (r : Round) {c : Command} (h : c ∈ r.moves coin) :
    r.category ≠ .other ∧ ∃ set ∈ destinations, c = moveTo coin r set := by
  unfold Round.moves at h
  cases hcategory : r.category with
  | kicked =>
    rw [hcategory] at h
    refine ⟨by decide, ?_⟩
    rcases List.mem_cons.mp h with rfl | h
    · exact ⟨_, by decide, rfl⟩
    · exact ⟨_, by decide, List.mem_singleton.mp h⟩
  | orphan =>
    rw [hcategory] at h
    exact ⟨by decide, _, by decide, List.mem_singleton.mp h⟩
  | generate =>
    rw [hcategory] at h
    exact ⟨by decide, _, by decide, List.mem_singleton.mp h⟩
  | other =>
    rw [hcategory] at h
    exact absurd h List.not_mem_nil

theorem exists_move {r : Round} (h : r.category ≠ .other) : ∃ set, moveTo coin r set ∈ r.moves coin := by
  unfold Round.moves
  cases hcategory : r.category with
  | kicked => exact ⟨_, List.mem_cons_self⟩
  | orphan => exact ⟨_, List.mem_cons_self⟩
  | generate => exact ⟨_, List.mem_cons_self⟩
  | other => exact absurd hcategory h

theorem moved_iff {rs : List Round} (m : Str) :
    (∀ r set, moveTo coin r set ∈ rs.flatMap (Round.moves coin) → m ≠ r.serialized) ↔
      ∀ r ∈ rs, r.category ≠ .other → m ≠ r.serialized := by
  constructor
  · intro h r hr hcategory
    obtain ⟨set, hset⟩ := @exists_move coin r hcategory
    exact h r set (List.mem_flatMap.mpr ⟨r, hr, hset⟩)
  · intro h r set hmem
    obtain ⟨r', hr', hmove⟩ := List.mem_flatMap.mp hmem
    obtain ⟨hcategory, set', -, heq⟩ := mem_moves_of r' hmove
    rw [(Command.smove.inj heq).2.2]
    exact h r' hr' hcategory

end Moves

section Final
variable {coin : Str} {db : Database Str Str} {u : Updates} {rs : List Round}

/-- The commands for some rounds. -/
def closingCommands (coin : Str) (u : Updates) (rs : List Round) : List Command :=
  finalRedisCommands coin u
    ⟨rs.flatMap (Round.moves coin), rs.flatMap (Round.merged coin), rs.flatMap (Round.deleted coin)⟩

def deletions (keys : List Str) : List Command := if keys = [] then [] else [.del keys]

def totals (coin : Str) (totalPaid : ℚ) : List Command :=
  if totalPaid = 0 then [] else [.hincrbyfloat (coin ++ literal ":stats") (literal "totalPaid") totalPaid]

theorem execAll_closing : execAll db (closingCommands coin u rs) =
    execAll (execAll
      (execAll (execAll (execAll (execAll db (rs.flatMap (Round.moves coin))) (rs.flatMap (Round.merged coin)))
      (u.balances.map fun e => .hincrbyfloat (balances coin) e.1 e.2))
        (u.payouts.map fun e => .hincrbyfloat (payouts coin) e.1 e.2)) (deletions (rs.flatMap (Round.deleted coin))))
          (totals coin u.totalPaid) := by
  rw [← execAll_append, ← execAll_append, ← execAll_append, ← execAll_append, ← execAll_append]
  unfold closingCommands finalRedisCommands balances payouts deletions totals
  simp only [List.append_assoc]

theorem lookup_moves {k : Str} (hpending : k ≠ blocksPending coin)
    (hsets : ∀ set ∈ destinations, k ≠ coin ++ literal set) :
    (execAll db (rs.flatMap (Round.moves coin))).lookup k = db.lookup k := by
  refine lookup_execAll fun c hc hk => ?_
  obtain ⟨r, -, hmove⟩ := List.mem_flatMap.mp hc
  obtain ⟨-, set, hset, rfl⟩ := mem_moves_of r hmove
  rcases List.mem_cons.mp hk with heq | hk
  · exact hpending heq
  · exact hsets set hset (List.mem_singleton.mp hk)

theorem lookup_merged {k : Str} (hk : k ≠ roundCurrent coin) :
    (execAll db (rs.flatMap (Round.merged coin))).lookup k = db.lookup k := by
  refine lookup_execAll fun c hc hmem => ?_
  obtain ⟨field, increment, rfl⟩ := mem_merged hc
  exact hk ((List.mem_singleton.mp hmem).trans roundKey_current)

theorem lookup_increments {k key : Str} (hk : k ≠ key) (increments : List (Str × ℚ)) :
    (execAll db (increments.map fun e => .hincrbyfloat key e.1 e.2)).lookup k = db.lookup k := by
  refine lookup_execAll fun c hc hmem => ?_
  obtain ⟨e, -, rfl⟩ := List.mem_map.mp hc
  exact hk (List.mem_singleton.mp hmem)

theorem lookup_deletions {k : Str} {keys : List Str} (hk : k ∉ keys) :
    (execAll db (deletions keys)).lookup k = db.lookup k := by
  refine lookup_execAll fun c hc hmem => ?_
  unfold deletions at hc
  split_ifs at hc
  · exact List.not_mem_nil hc
  · rw [List.mem_singleton.mp hc] at hmem
    exact hk hmem

theorem lookup_totals {k : Str} (hk : k ≠ stats coin) (totalPaid : ℚ) :
    (execAll db (totals coin totalPaid)).lookup k = db.lookup k := by
  refine lookup_execAll fun c hc hmem => ?_
  unfold totals at hc
  split_ifs at hc
  · exact List.not_mem_nil hc
  · rw [List.mem_singleton.mp hc] at hmem
    exact hk (List.mem_singleton.mp hmem)

theorem isRound_of_deleted {k : Str} (hk : k ∈ rs.flatMap (Round.deleted coin)) : isRound coin k = true := by
  obtain ⟨r, -, hk⟩ := List.mem_flatMap.mp hk
  unfold Round.deleted at hk
  split_ifs at hk
  · rw [List.mem_singleton.mp hk]
    exact isRound_roundKey _
  · exact absurd hk List.not_mem_nil

/-- A key that is neither a round nor written at the end of a pass. -/
structure Apart (coin : Str) (k : Str) : Prop where
  round : isRound coin k = false
  stats : k ≠ stats coin

theorem lookup_end {k : Str} (hk : Apart coin k) (keys : List Str) (hkeys : ∀ key ∈ keys, isRound coin key = true)
    (totalPaid : ℚ) :
    (execAll (execAll db (deletions keys)) (totals coin totalPaid)).lookup k = db.lookup k := by
  rw [lookup_totals hk.stats, lookup_deletions fun hmem => ne_of_isRound hk.round (hkeys k hmem) rfl]

theorem apart (suffix : Str) (h : ¬literal ":shares:round" <+: suffix) (hstats : suffix ≠ literal ":stats") :
    Apart coin (coin ++ suffix) :=
  ⟨isRound_other coin h, key_ne hstats⟩

theorem destination_ne {suffix : Str} (h : ∀ set ∈ destinations, suffix ≠ literal set) :
    ∀ set ∈ destinations, coin ++ suffix ≠ coin ++ literal set := fun set hset => key_ne (h set hset)

theorem hashAt_balances {B : AList fun _ : Str => ℚ} (h : hashAt db (balances coin) = some B) :
    hashAt (execAll db (closingCommands coin u rs)) (balances coin) = some (addAll B u.balances) := by
  have hapart : Apart coin (balances coin) := apart _ (by decide) (by decide)
  have hpayouts : balances coin ≠ payouts coin := key_ne (by decide)
  have hpending : balances coin ≠ blocksPending coin := key_ne (by decide)
  have hsets : ∀ set ∈ destinations, balances coin ≠ coin ++ literal set := destination_ne (by decide)
  rw [execAll_closing, hashAt_congr (lookup_end hapart _ (fun key => isRound_of_deleted) _),
    hashAt_congr (lookup_increments hpayouts _)]
  refine hashAt_hincrbyfloat (Eq.trans (hashAt_congr ?_) h) _
  rw [lookup_merged (ne_of_isRound hapart.round (isRound_current coin)), lookup_moves hpending hsets]

theorem hashAt_payouts {P : AList fun _ : Str => ℚ} (h : hashAt db (payouts coin) = some P) :
    hashAt (execAll db (closingCommands coin u rs)) (payouts coin) = some (addAll P u.payouts) := by
  have hapart : Apart coin (payouts coin) := apart _ (by decide) (by decide)
  have hbalances : payouts coin ≠ balances coin := key_ne (by decide)
  have hpending : payouts coin ≠ blocksPending coin := key_ne (by decide)
  have hsets : ∀ set ∈ destinations, payouts coin ≠ coin ++ literal set := destination_ne (by decide)
  rw [execAll_closing, hashAt_congr (lookup_end hapart _ (fun key => isRound_of_deleted) _)]
  refine hashAt_hincrbyfloat (Eq.trans (hashAt_congr ?_) h) _
  rw [lookup_increments hbalances, lookup_merged (ne_of_isRound hapart.round (isRound_current coin)),
    lookup_moves hpending hsets]

/-- The sets of blocks. -/
theorem lookup_blocks {k : Str} (hk : Apart coin k) (hbalances : k ≠ balances coin) (hpayouts : k ≠ payouts coin) :
    (execAll db (closingCommands coin u rs)).lookup k = (execAll db (rs.flatMap (Round.moves coin))).lookup k := by
  rw [execAll_closing, lookup_end hk _ (fun key => isRound_of_deleted), lookup_increments hpayouts,
    lookup_increments hbalances, lookup_merged (ne_of_isRound hk.round (isRound_current coin))]

theorem setAt_closing {members : List Str} (hmembers : setAt db (blocksPending coin) = some members)
    (hnodup : members.Nodup) (hsets : ∀ set ∈ destinations, (setAt db (coin ++ literal set)).isSome) :
    (∃ members', setAt (execAll db (closingCommands coin u rs)) (blocksPending coin) = some members' ∧
      members'.Nodup ∧
      ∀ m, m ∈ members' ↔ m ∈ members ∧ ∀ r ∈ rs, r.category ≠ .other → m ≠ r.serialized) ∧
      ∀ set ∈ destinations, (setAt (execAll db (closingCommands coin u rs)) (coin ++ literal set)).isSome := by
  have hmoves : ∀ c ∈ rs.flatMap (Round.moves coin), ∃ r, ∃ set ∈ destinations, c = moveTo coin r set := by
    intro c hc
    obtain ⟨r, -, hmove⟩ := List.mem_flatMap.mp hc
    exact ⟨r, (mem_moves_of r hmove).2⟩
  obtain ⟨⟨members', hmembers', hnodup', hmem⟩, hsets'⟩ := setAt_moves hmoves hmembers hnodup hsets
  refine ⟨⟨members', ?_, hnodup', fun m => (hmem m).trans (and_congr_right' (moved_iff m))⟩, fun set hset => ?_⟩
  · have hapart : Apart coin (blocksPending coin) := apart _ (by decide) (by decide)
    have hbalances : blocksPending coin ≠ balances coin := key_ne (by decide)
    have hpayouts : blocksPending coin ≠ payouts coin := key_ne (by decide)
    rw [setAt_congr (lookup_blocks hapart hbalances hpayouts)]
    exact hmembers'
  · have hlookup : (execAll db (closingCommands coin u rs)).lookup (coin ++ literal set) =
        (execAll db (rs.flatMap (Round.moves coin))).lookup (coin ++ literal set) :=
      lookup_blocks ⟨isRound_destination hset, key_ne (by revert set; decide)⟩ (key_ne (by revert set; decide))
        (key_ne (by revert set; decide))
    rw [setAt_congr hlookup]
    exact hsets' set hset

/-- A closed round stays where it is not deleted. -/
theorem lookup_round {k : Str} (hk : isRound coin k = true) (hcurrent : k ≠ roundCurrent coin)
    (h : k ∉ rs.flatMap (Round.deleted coin)) : (execAll db (closingCommands coin u rs)).lookup k = db.lookup k := by
  have hround {suffix : Str} (hsuffix : ¬literal ":shares:round" <+: suffix) : k ≠ coin ++ suffix :=
    (ne_of_isRound (isRound_other coin hsuffix) hk).symm
  have hbalances : k ≠ balances coin := hround (by decide)
  have hpayouts : k ≠ payouts coin := hround (by decide)
  have hpending : k ≠ blocksPending coin := hround (by decide)
  rw [execAll_closing, lookup_totals (hround (by decide)), lookup_deletions h, lookup_increments hpayouts,
    lookup_increments hbalances, lookup_merged hcurrent, lookup_moves hpending]
  exact fun set hset => (ne_of_isRound (isRound_destination hset) hk).symm

theorem goodRounds_closing (h : GoodRounds coin db)
    (hmerged : ∀ c ∈ rs.flatMap (Round.merged coin), Closing coin c) :
    GoodRounds coin (execAll db (closingCommands coin u rs)) := by
  have hincrements {key : Str} (hkey : isRound coin key = false) (increments : List (Str × ℚ)) :
      ∀ c ∈ increments.map fun e => Command.hincrbyfloat key e.1 e.2, Closing coin c := by
    intro c hc
    obtain ⟨e, -, rfl⟩ := List.mem_map.mp hc
    exact .other hkey e.1 e.2
  rw [execAll_closing]
  refine GoodRounds.execAll (GoodRounds.execAll (GoodRounds.execAll (GoodRounds.execAll (GoodRounds.execAll
    (h.execAll fun c hc => ?_) hmerged) (hincrements (isRound_other coin (by decide)) _))
      (hincrements (isRound_other coin (by decide)) _)) fun c hc => ?_) fun c hc => ?_
  · obtain ⟨r, -, hmove⟩ := List.mem_flatMap.mp hc
    obtain ⟨-, set, hset, rfl⟩ := mem_moves_of r hmove
    exact .move r hset
  · unfold deletions at hc
    split_ifs at hc
    · exact absurd hc List.not_mem_nil
    · rw [List.mem_singleton.mp hc]
      exact .del _
  · unfold totals at hc
    split_ifs at hc
    · exact absurd hc List.not_mem_nil
    · rw [List.mem_singleton.mp hc]
      exact .other (isRound_other coin (by decide)) _ _

end Final
end Aion.Payments
