import AionMiner.Redis.Shares

/-! What the keys of all rounds hold together: each share adds to it, and a block may overwrite an
older round. -/

namespace Aion.Redis
open Text Stratum

section Totals
variable (coin : Str)

def weight (key : Str) (v : Value Str) : ℚ := if isRound coin key then v.total else 0

def total (db : Database Str Str) : ℚ := sumOver (weight coin) db

def roundTotal (db : Database Str Str) (height : ℤ) : ℚ := ((db.lookup (roundAt coin height)).map Value.total).getD 0

def Hashes (db : Database Str Str) : Prop :=
  ∀ key v, db.lookup key = some v → isRound coin key = true → ∃ fields, v = .hash fields

end Totals

section Commands
variable {coin : Str} {db : Database Str Str}

theorem weight_other {key : Str} (hk : isRound coin key = false) (v : Value Str) :
    weight coin key v = 0 := by
  rw [weight, hk]
  rfl

theorem weightAt_current :
    weightAt (weight coin) db (roundCurrent coin) = ((db.lookup (roundCurrent coin)).map Value.total).getD 0 := by
  have hw : weight coin (roundCurrent coin) = Value.total := by
    funext v
    rw [weight, if_pos (isRound_current coin)]
  rw [weightAt, hw]

theorem weightAt_round (height : ℤ) :
    weightAt (weight coin) db (roundAt coin height) = roundTotal coin db height := by
  have hw : weight coin (roundAt coin height) = Value.total := by
    funext v
    rw [weight, if_pos (isRound_at coin height)]
  rw [weightAt, hw]
  rfl

theorem multi_other (coin : Str) (db : Database Str Str) {cs : List (Command Str Str)}
    (h : ∀ c ∈ cs, c.isRename = false ∧ isRound coin c.key = false) :
    total coin (multi db cs) = total coin db ∧
      ∀ key, isRound coin key = true → (multi db cs).lookup key = db.lookup key := by
  -- Commands on other keys leave the rounds alone
  refine ⟨sumOver_multi fun c hc => ⟨(h c hc).1, fun v => weight_other (h c hc).2 v⟩, ?_⟩
  intro key hround
  apply lookup_multi
  intro c hc
  obtain ⟨hrename, hkey⟩ := h c hc
  refine ⟨hrename, ?_⟩
  rintro rfl
  rw [hround] at hkey
  cases hkey

theorem Hashes.of_lookup {db' : Database Str Str} (h : Hashes coin db)
    (hlookup : ∀ key, isRound coin key = true → db'.lookup key = db.lookup key) : Hashes coin db' :=
  fun key v hv hround => h key v (hlookup key hround ▸ hv) hround

theorem exec_credit (h : Hashes coin db) (worker : Str) (difficulty : ℚ) :
    ∃ db', exec db (.hincrbyfloat (roundCurrent coin) worker difficulty) = some db' ∧
      total coin db' = total coin db + difficulty ∧ (db'.lookup (roundCurrent coin)).isSome ∧
      (∀ key, key ≠ roundCurrent coin → db'.lookup key = db.lookup key) ∧ Hashes coin db' := by
  -- A share is added to its worker's credits in the current round
  obtain ⟨fields, hfields, hat⟩ : ∃ fields, hashAt db (roundCurrent coin) = some fields ∧
      weightAt (weight coin) db (roundCurrent coin) = (Value.hash fields).total := by
    rw [weightAt_current, hashAt]
    cases hlookup : db.lookup (roundCurrent coin) with
    | none => exact ⟨∅, rfl, rfl⟩
    | some v =>
      obtain ⟨fields, rfl⟩ := h _ v hlookup (isRound_current coin)
      exact ⟨fields, rfl, rfl⟩
  refine ⟨increment db (roundCurrent coin) worker difficulty fields, ?_, ?_, ?_, fun key hkey => ?_,
    fun key v hv hround => ?_⟩
  · rw [exec, hfields]
    rfl
  · unfold total increment
    rw [sumOver_insert, ← sumOver_erase (weight coin) db (roundCurrent coin), hat, weight,
      if_pos (isRound_current coin), total_increment, add_right_comm]
  · rw [increment, AList.lookup_insert]
    rfl
  · exact AList.lookup_insert_ne hkey
  · by_cases hkey : key = roundCurrent coin
    · rw [hkey, increment, AList.lookup_insert] at hv
      exact ⟨_, (Option.some_inj.mp hv).symm⟩
    · rw [increment, AList.lookup_insert_ne hkey] at hv
      exact h key v hv hround

theorem exec_rename (height : ℤ) :
    total coin ((exec db (.rename (roundCurrent coin) (roundAt coin height))).getD db) =
      total coin db - if (db.lookup (roundCurrent coin)).isSome then roundTotal coin db height else 0 := by
  -- A closed round takes the place of what was kept for its height
  have hne := roundAt_ne_current coin height
  rw [exec]
  cases hcurrent : db.lookup (roundCurrent coin) with
  | none => exact (sub_zero _).symm
  | some v =>
    have hat : weightAt (weight coin) (db.erase (roundCurrent coin)) (roundAt coin height) =
        roundTotal coin db height := by
      rw [← weightAt_round, weightAt, weightAt, AList.lookup_erase_ne hne]
    have hwhole := sumOver_erase (weight coin) db (roundCurrent coin)
    have hrest := sumOver_erase (weight coin) (db.erase (roundCurrent coin)) (roundAt coin height)
    rw [weightAt_current, hcurrent, Option.map_some, Option.getD_some] at hwhole
    rw [hat] at hrest
    rw [Option.map_some, if_neg hne.symm, Option.getD_some, Option.isSome_some, if_pos rfl]
    unfold total
    rw [sumOver_insert, weight, if_pos (isRound_at coin height), ← hwhole, ← hrest]
    exact (sub_eq_of_eq_add (by rw [add_left_comm, add_comm])).symm

theorem Hashes.rename (h : Hashes coin db) (height : ℤ) :
    Hashes coin ((exec db (.rename (roundCurrent coin) (roundAt coin height))).getD db) := by
  have hne := roundAt_ne_current coin height
  rw [exec]
  cases hcurrent : db.lookup (roundCurrent coin) with
  | none => exact h
  | some v =>
    intro key v' hv hround
    rw [Option.map_some, if_neg hne.symm, Option.getD_some] at hv
    by_cases hkey : key = roundAt coin height
    · rw [hkey, AList.lookup_insert] at hv
      rw [← Option.some_inj.mp hv]
      exact h _ v hcurrent (isRound_current coin)
    · rw [AList.lookup_insert_ne hkey] at hv
      by_cases hkey' : key = roundCurrent coin
      · rw [hkey', AList.lookup_erase] at hv
        cases hv
      · rw [AList.lookup_erase_ne hkey'] at hv
        exact h key v' hv hround

end Commands

section Runs
variable {text : ℚ → Str} {coin : Str}

/-- The difficulty that a call should add. -/
def Call.credit (call : Call) : ℚ := if call.isValidShare then call.shareData.difficulty else 0

def credited (calls : List Call) : ℚ := ((calls.filter (·.isValidShare)).map (·.shareData.difficulty)).sum

theorem credited_concat (calls : List Call) (call : Call) :
    credited (calls ++ [call]) = credited calls + call.credit := by
  unfold credited Call.credit
  rw [List.filter_append, List.map_append, List.sum_append, List.filter_singleton]
  congr 1
  cases call.isValidShare with
  | true => exact add_zero _
  | false => rfl

/-- Whether the call closes a round: there is one, if only by its own share. -/
def Call.closes (coin : Str) (db : Database Str Str) (call : Call) : Bool :=
  call.isValidBlock && (call.isValidShare || (db.lookup (roundCurrent coin)).isSome)

theorem multi_stats (coin : Str) (db : Database Str Str) (field : Str) (n : ℤ) :
    total coin (multi db [.hincrby (stats coin) field n]) = total coin db ∧
      ∀ key, isRound coin key = true →
      (multi db [.hincrby (stats coin) field n]).lookup key = db.lookup key := by
  apply multi_other coin db
  intro c hc
  rw [List.mem_singleton.mp hc]
  exact ⟨rfl, isRound_other coin (by decide)⟩

theorem multi_hashrate (text : ℚ → Str) (coin : Str) (db : Database Str Str) (call : Call) :
    total coin (multi db (hashrateCommands text coin call)) = total coin db ∧
      ∀ key, isRound coin key = true →
      (multi db (hashrateCommands text coin call)).lookup key = db.lookup key := by
  apply multi_other coin db
  intro c hc
  rw [List.mem_singleton.mp hc]
  exact ⟨rfl, isRound_other coin (by decide)⟩

theorem multi_block (coin : Str) (db : Database Str Str) (call : Call) :
    let cs : List (Command Str Str) :=
      [.sadd (blocksPending coin)
        (joinColon [call.shareData.blockHash.getD [], call.shareData.txHash.getD [], number call.shareData.height]),
        .hincrby (stats coin) (literal "validBlocks") 1]
    total coin (multi db cs) = total coin db ∧
      ∀ key, isRound coin key = true → (multi db cs).lookup key = db.lookup key := by
  apply multi_other coin db
  intro c hc
  obtain rfl | hc := List.mem_cons.mp hc
  · exact ⟨rfl, isRound_other coin (by decide)⟩
  · rw [List.mem_singleton.mp hc]
    exact ⟨rfl, isRound_other coin (by decide)⟩

theorem creditCommands_spec {db : Database Str Str} (h : Hashes coin db) (call : Call) :
    total coin (multi db (creditCommands coin call)) = total coin db + call.credit ∧
      Hashes coin (multi db (creditCommands coin call)) ∧
      (∀ height, (multi db (creditCommands coin call)).lookup (roundAt coin height) =
        db.lookup (roundAt coin height)) ∧
      ((multi db (creditCommands coin call)).lookup (roundCurrent coin)).isSome =
        (call.isValidShare || (db.lookup (roundCurrent coin)).isSome) := by
  unfold creditCommands Call.credit
  cases call.isValidShare with
  | false =>
    obtain ⟨htotal, hlookup⟩ := multi_stats coin db (literal "invalidShares") 1
    exact ⟨htotal.trans (add_zero _).symm, h.of_lookup hlookup,
      fun height => hlookup _ (isRound_at coin height),
      congrArg Option.isSome (hlookup _ (isRound_current coin))⟩
  | true =>
    obtain ⟨db', hexec, htotal', hsome, hother, hhashes⟩ :=
      exec_credit h call.shareData.worker call.shareData.difficulty
    obtain ⟨htotal, hlookup⟩ := multi_stats coin db' (literal "validShares") 1
    rw [if_pos rfl, if_pos rfl, multi_cons, hexec, Option.getD_some]
    refine ⟨htotal.trans htotal', hhashes.of_lookup hlookup, fun height => ?_, ?_⟩
    · rw [hlookup _ (isRound_at coin height), hother _ (roundAt_ne_current coin height)]
    · rw [hlookup _ (isRound_current coin), hsome]
      rfl

def Call.overwrites (coin : Str) (db : Database Str Str) (call : Call) : ℚ :=
  if call.closes coin db then roundTotal coin db call.shareData.height else 0

theorem blockCommands_spec {db : Database Str Str} (h : Hashes coin db) (call : Call) :
    total coin (multi db (blockCommands coin call)) =
        total coin db -
          (if call.isValidBlock && (db.lookup (roundCurrent coin)).isSome then
            roundTotal coin db call.shareData.height else 0) ∧
      Hashes coin (multi db (blockCommands coin call)) := by
  unfold blockCommands
  cases hblock : call.isValidBlock with
  | false =>
    simp only [Bool.false_and, Bool.false_eq_true, if_false, sub_zero]
    split_ifs
    · obtain ⟨htotal, hlookup⟩ := multi_stats coin db (literal "invalidBlocks") 1
      exact ⟨htotal, h.of_lookup hlookup⟩
    · exact ⟨rfl, h⟩
  | true =>
    dsimp only
    rw [if_pos rfl, multi_cons, Bool.true_and, ← exec_rename]
    obtain ⟨htotal, hlookup⟩ := multi_block coin
      ((exec db (.rename (roundCurrent coin) (roundAt coin call.shareData.height))).getD db) call
    exact ⟨htotal, (h.rename call.shareData.height).of_lookup hlookup⟩

theorem handleShare_spec {db : Database Str Str} (h : Hashes coin db) (call : Call) :
    total coin (handleShare text coin db call) = total coin db + call.credit - call.overwrites coin db ∧
      Hashes coin (handleShare text coin db call) := by
  obtain ⟨htotal₁, hhashes₁, hround₁, hsome₁⟩ := creditCommands_spec h call
  obtain ⟨htotal₂, hlookup₂⟩ := multi_hashrate text coin (multi db (creditCommands coin call)) call
  obtain ⟨htotal₃, hhashes₃⟩ := blockCommands_spec (hhashes₁.of_lookup hlookup₂) call
  unfold handleShare
  rw [multi_append, multi_append]
  refine ⟨?_, hhashes₃⟩
  rw [htotal₃, htotal₂, htotal₁]
  unfold Call.overwrites Call.closes roundTotal
  rw [hlookup₂ _ (isRound_current coin), hsome₁, hlookup₂ _ (isRound_at coin _), hround₁]

theorem run_concat (calls : List Call) (call : Call) :
    run text coin (calls ++ [call]) = handleShare text coin (run text coin calls) call := by
  unfold run
  rw [List.foldl_append]
  rfl

theorem hashes_run (calls : List Call) : Hashes coin (run text coin calls) := by
  induction calls using List.reverseRecOn with
  | nil =>
    exact fun key v hv =>
      absurd ((AList.lookup_empty key).symm.trans hv) (Option.some_ne_none v).symm
  | append_singleton calls call ih =>
    rw [run_concat]
    exact (handleShare_spec ih call).2

theorem total_concat (calls : List Call) (call : Call) :
    total coin (run text coin (calls ++ [call])) =
      total coin (run text coin calls) + call.credit - call.overwrites coin (run text coin calls) := by
  rw [run_concat]
  exact (handleShare_spec (hashes_run calls) call).1

theorem conserved_of_zero {calls : List Call}
    (h : ∀ past call, past ++ [call] <+: calls → call.closes coin (run text coin past) = true →
      roundTotal coin (run text coin past) call.shareData.height = 0)
    (past : List Call) (hpre : past <+: calls) :
    total coin (run text coin past) = credited past := by
  induction past using List.reverseRecOn with
  | nil => rfl
  | append_singleton past call ih =>
    have hzero : call.overwrites coin (run text coin past) = 0 := by
      unfold Call.overwrites
      split_ifs with hcloses
      · exact h past call hpre hcloses
      · rfl
    rw [total_concat, credited_concat, ih ((List.prefix_append past [call]).trans hpre),
      hzero, sub_zero]

/-- The rounds hold the difficulty of every valid share, all along a run, if and only if no call
that closes a round finds credits under its height. -/
theorem credits_conserved_iff (text : ℚ → Str) (coin : Str) (calls : List Call) :
    (∀ past, past <+: calls → total coin (run text coin past) = credited past) ↔
      ∀ past call, past ++ [call] <+: calls → call.closes coin (run text coin past) = true →
        roundTotal coin (run text coin past) call.shareData.height = 0 := by
  constructor
  · intro h past call hpre hcloses
    have hpast := h past ((List.prefix_append past [call]).trans hpre)
    have hnext := h (past ++ [call]) hpre
    rw [total_concat, credited_concat, hpast, Call.overwrites, if_pos hcloses] at hnext
    exact sub_eq_self.mp hnext
  · exact conserved_of_zero

theorem lookup_handleShare {db : Database Str Str} (h : Hashes coin db) (call : Call) {height : ℤ}
    (hne : call.isValidBlock = true → call.shareData.height ≠ height) :
    (handleShare text coin db call).lookup (roundAt coin height) =
      db.lookup (roundAt coin height) := by
  -- Only a block of its height changes a closed round
  obtain ⟨-, -, hround₁, -⟩ := creditCommands_spec h call
  obtain ⟨-, hlookup₂⟩ := multi_hashrate text coin (multi db (creditCommands coin call)) call
  unfold handleShare
  rw [multi_append, multi_append, ← hround₁, ← hlookup₂ _ (isRound_at coin height)]
  generalize multi (multi db (creditCommands coin call)) (hashrateCommands text coin call) = db'
  unfold blockCommands
  cases hblock : call.isValidBlock with
  | false =>
    simp only [Bool.false_eq_true, if_false]
    split_ifs
    · exact (multi_stats coin db' (literal "invalidBlocks") 1).2 _ (isRound_at coin height)
    · rfl
  | true =>
    have hkey : roundAt coin height ≠ roundAt coin call.shareData.height := fun heq =>
      hne hblock (roundAt_inj coin heq).symm
    dsimp only
    rw [if_pos rfl, multi_cons, (multi_block coin _ call).2 _ (isRound_at coin height), exec]
    cases db'.lookup (roundCurrent coin) with
    | none => rfl
    | some v =>
      rw [Option.map_some, if_neg (roundAt_ne_current coin _).symm, Option.getD_some,
        AList.lookup_insert_ne hkey, AList.lookup_erase_ne (roundAt_ne_current coin height)]

theorem roundTotal_unclosed {calls : List Call} {height : ℤ}
    (h : ∀ call ∈ calls, call.isValidBlock = true → call.shareData.height ≠ height) :
    roundTotal coin (run text coin calls) height = 0 := by
  induction calls using List.reverseRecOn with
  | nil => rfl
  | append_singleton calls call ih =>
    obtain ⟨hcalls, hcall⟩ := List.forall_mem_append.mp h
    rw [run_concat, roundTotal,
      lookup_handleShare (hashes_run calls) call (hcall call (List.mem_singleton_self call))]
    exact ih hcalls

/-- Nothing is lost while no two blocks have one height. -/
theorem conserved_of_heights (text : ℚ → Str) (coin : Str) {calls : List Call}
    (h : calls.Pairwise fun a b =>
      a.isValidBlock = true → b.isValidBlock = true → a.shareData.height ≠ b.shareData.height) :
    total coin (run text coin calls) = credited calls := by
  apply conserved_of_zero _ calls (List.prefix_refl calls)
  intro past call hpre hcloses
  have hblock : call.isValidBlock = true := (Bool.and_eq_true_iff.mp hcloses).1
  obtain ⟨-, -, hlast⟩ := List.pairwise_append.mp (h.sublist hpre.sublist)
  exact roundTotal_unclosed fun a ha hab =>
    hlast a ha call (List.mem_singleton_self call) hab hblock

end Runs

section Overwritten

def blockShare : Call where
  isValidShare := true
  isValidBlock := true
  shareData :=
    { worker := literal "w", difficulty := 1, height := 5, blockHash := some (literal "ab"), txHash := none }
  dateNow := 0

/-- Two shares of one job may both be blocks: the second takes the place of the first. -/
theorem credit_overwritten :
    credited [blockShare, blockShare] = 2 ∧
      total (literal "aion") (run (fun _ => literal "1") (literal "aion") [blockShare, blockShare]) = 1 := by
  constructor
  · decide +kernel
  · decide +kernel

end Overwritten
end Aion.Redis
