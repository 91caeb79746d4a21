import AionMiner.Redis.Credits
import Mathlib.Data.List.Dedup
import Mathlib.Tactic.Linarith

/-! The sorted set of recent shares: what `handleShare` leaves in it, and the shares that
`getGlobalStats` reads out of it again. -/

namespace Aion.Redis
open Text Stratum

section Code

/-- The members of the sorted set. -/
def hashrates (coin : Str) (db : Database Str Str) : List Str :=
  match db.lookup (hashrate coin) with
  | some (.zset scores) => scores.keys
  | _ => []

/-- `parseFloat(parts[0])`. -/
def workerShares (parseFloat : Str → ℚ) (ins : Str) : ℚ :=
  parseFloat (ins.takeWhile fun c => c != unit ':')

/-- `coinStats.shares`: what is positive counts. -/
def coinShares (parseFloat : Str → ℚ) (hashrates : List Str) : ℚ :=
  (hashrates.map fun ins =>
    if workerShares parseFloat ins > 0 then workerShares parseFloat ins else 0).sum

end Code

section Members

def Call.signed (call : Call) : ℚ :=
  if call.isValidShare then call.shareData.difficulty else -call.shareData.difficulty

def member (text : ℚ → Str) (call : Call) : Str :=
  joinColon [text call.signed, call.shareData.worker, decimal call.dateNow]

variable {text : ℚ → Str} {coin : Str} {db : Database Str Str}

theorem hashrate_ne {suffix : Str} (h : literal ":hashrate" ≠ suffix) :
    hashrate coin ≠ coin ++ suffix :=
  fun heq => h (List.append_cancel_left heq)

theorem hashrate_ne_current : hashrate coin ≠ roundCurrent coin := hashrate_ne (by decide)

theorem hashrate_ne_round (height : ℤ) : hashrate coin ≠ roundAt coin height := by
  intro h
  have hround := isRound_at coin height
  rw [← h, hashrate, isRound_other coin (by decide)] at hround
  cases hround

theorem lookup_creditCommands (call : Call) :
    (multi db (creditCommands coin call)).lookup (hashrate coin) = db.lookup (hashrate coin) := by
  apply lookup_multi
  intro c hc
  rw [creditCommands] at hc
  split at hc
  · rcases List.mem_cons.mp hc with rfl | hc
    · exact ⟨rfl, hashrate_ne (by decide)⟩
    · rw [List.mem_singleton.mp hc]
      exact ⟨rfl, hashrate_ne (by decide)⟩
  · rw [List.mem_singleton.mp hc]
    exact ⟨rfl, hashrate_ne (by decide)⟩

theorem lookup_blockCommands (call : Call) :
    (multi db (blockCommands coin call)).lookup (hashrate coin) = db.lookup (hashrate coin) := by
  rw [blockCommands]
  split_ifs
  · rw [multi_cons, lookup_multi, lookup_exec_rename hashrate_ne_current (hashrate_ne_round _)]
    intro c hc
    rcases List.mem_cons.mp hc with rfl | hc
    · exact ⟨rfl, hashrate_ne (by decide)⟩
    · rw [List.mem_singleton.mp hc]
      exact ⟨rfl, hashrate_ne (by decide)⟩
  · apply lookup_multi
    intro c hc
    rw [List.mem_singleton.mp hc]
    exact ⟨rfl, hashrate_ne (by decide)⟩
  · rfl

/-- A share enters its member, or gives it a new score. -/
theorem mem_hashrates_handleShare
    (h : ∀ v, db.lookup (hashrate coin) = some v → ∃ scores, v = .zset scores) (call : Call) :
    (∃ scores, (handleShare text coin db call).lookup (hashrate coin) = some (.zset scores)) ∧
      ∀ m, m ∈ hashrates coin (handleShare text coin db call) ↔
        m = member text call ∨ m ∈ hashrates coin db := by
  obtain ⟨scores, hscores, hmem⟩ : ∃ scores : AList fun _ : Str => ℤ,
      (handleShare text coin db call).lookup (hashrate coin) = some (.zset scores) ∧
        ∀ m, m ∈ scores.keys ↔ m = member text call ∨ m ∈ hashrates coin db := by
    rw [handleShare, multi_append, multi_append, lookup_blockCommands, hashrateCommands,
      multi_cons, multi_nil, exec, lookup_creditCommands, hashrates]
    cases hlookup : db.lookup (hashrate coin) with
    | none =>
      refine ⟨_, AList.lookup_insert _, fun m => ?_⟩
      rw [AList.keys_singleton, List.mem_singleton]
      exact ⟨Or.inl, fun hm => hm.resolve_right List.not_mem_nil⟩
    | some v =>
      obtain ⟨scores, rfl⟩ := h v hlookup
      refine ⟨_, AList.lookup_insert _, fun m => ?_⟩
      rw [← AList.mem_keys, AList.mem_insert, AList.mem_keys]
      rfl
  refine ⟨⟨scores, hscores⟩, fun m => ?_⟩
  rw [hashrates, hscores]
  exact hmem m

theorem mem_hashrates_run (text : ℚ → Str) (coin : Str) (calls : List Call) :
    (∀ v, (run text coin calls).lookup (hashrate coin) = some v → ∃ scores, v = .zset scores) ∧
      ∀ m, m ∈ hashrates coin (run text coin calls) ↔ m ∈ calls.map (member text) := by
  induction calls using List.reverseRecOn with
  | nil =>
    refine ⟨fun v hv => absurd ((AList.lookup_empty _).symm.trans hv) (Option.some_ne_none v).symm,
      fun m => ?_⟩
    exact ⟨fun h => absurd h List.not_mem_nil, fun h => absurd h List.not_mem_nil⟩
  | append_singleton calls call ih =>
    obtain ⟨⟨scores, hscores⟩, hmem⟩ := mem_hashrates_handleShare ih.1 call
    rw [run_concat]
    refine ⟨fun v hv => ⟨scores, Option.some_inj.mp (hv.symm.trans hscores)⟩, fun m => ?_⟩
    rw [hmem, ih.2, List.map_append, List.mem_append, List.map_singleton,
      List.mem_singleton, or_comm]

theorem nodup_hashrates (coin : Str) (db : Database Str Str) : (hashrates coin db).Nodup := by
  rw [hashrates]
  split
  · exact AList.keys_nodup _
  · exact List.nodup_nil

/-- Each member once: as many as there are different ones among the calls. -/
theorem perm_hashrates_run (text : ℚ → Str) (coin : Str) (calls : List Call) :
    (hashrates coin (run text coin calls)).Perm (calls.map (member text)).dedup := by
  rw [List.perm_ext_iff_of_nodup (nodup_hashrates coin _) (List.nodup_dedup _)]
  intro m
  rw [(mem_hashrates_run text coin calls).2, List.mem_dedup]

theorem length_hashrates_iff (text : ℚ → Str) (coin : Str) (calls : List Call) :
    (hashrates coin (run text coin calls)).length = calls.length ↔
      (calls.map (member text)).Nodup := by
  rw [(perm_hashrates_run text coin calls).length_eq]
  constructor
  · intro hlen
    have hsame :=
      (List.dedup_sublist (calls.map (member text))).eq_of_length (by rw [hlen, List.length_map])
    rw [← hsame]
    exact List.nodup_dedup _
  · intro hnodup
    rw [hnodup.dedup, List.length_map]

end Members

section Entries

/-- What a member is joined from. -/
def Call.entry (call : Call) : ℚ × Str × ℕ := (call.signed, call.shareData.worker, call.dateNow)

theorem takeWhile_colon {a : Str} (h : unit ':' ∉ a) (b : Str) :
    (a ++ unit ':' :: b).takeWhile (fun c => c != unit ':') = a := by
  rw [List.takeWhile_append_of_pos, List.takeWhile_cons_of_neg, List.append_nil]
  · rw [bne_self_eq_false]
    exact Bool.false_ne_true
  · intro c hc
    rw [bne_iff_ne]
    rintro rfl
    exact h hc

theorem colon_notMem_decimal (n : ℕ) : unit ':' ∉ decimal n := by
  intro h
  obtain ⟨c, hc, heq⟩ := List.mem_map.mp h
  exact unit_digit_ne (d := ':') (Nat.isDigit_of_mem_toDigits (b := 10) (by decide) (by decide) hc)
    rfl rfl heq

theorem member_eq (text : ℚ → Str) (call : Call) : member text call =
    text call.signed ++ unit ':' ::
      (call.shareData.worker ++ unit ':' :: decimal call.dateNow) := by
  have hcolon : literal ":" = [unit ':'] := rfl
  simp [member, joinColon, List.intercalate, hcolon]

variable {text : ℚ → Str} {parseFloat : Str → ℚ} {calls : List Call}

/-- What stands before the last colon, and behind it. -/
theorem worker_inj {w w' : Str} {n n' : ℕ}
    (h : w ++ unit ':' :: decimal n = w' ++ unit ':' :: decimal n') : w = w' ∧ n = n' := by
  have hreverse := congrArg List.reverse h
  rw [List.reverse_append, List.reverse_append, List.reverse_cons, List.reverse_cons,
    List.append_assoc, List.append_assoc, List.singleton_append, List.singleton_append] at hreverse
  have hdigits := congrArg (List.takeWhile fun c => c != unit ':') hreverse
  rw [takeWhile_colon (mt List.mem_reverse.mp (colon_notMem_decimal n)),
    takeWhile_colon (mt List.mem_reverse.mp (colon_notMem_decimal n'))] at hdigits
  have hn := decimal_inj (List.reverse_injective hdigits)
  subst hn
  exact ⟨List.append_cancel_right h, rfl⟩

theorem member_inj {a b : Call}
    (ha : unit ':' ∉ text a.signed ∧ parseFloat (text a.signed) = a.signed)
    (hb : unit ':' ∉ text b.signed ∧ parseFloat (text b.signed) = b.signed)
    (h : member text a = member text b) : a.entry = b.entry := by
  rw [member_eq, member_eq] at h
  have htext := congrArg (List.takeWhile fun c => c != unit ':') h
  rw [takeWhile_colon ha.1, takeWhile_colon hb.1] at htext
  have hsigned : a.signed = b.signed := by rw [← ha.2, ← hb.2, htext]
  rw [htext] at h
  obtain ⟨hworker, hdate⟩ := worker_inj (List.cons.inj (List.append_cancel_left h)).2
  rw [Call.entry, Call.entry, hsigned, hworker, hdate]

theorem nodup_members_iff
    (htext : ∀ call ∈ calls, unit ':' ∉ text call.signed ∧ parseFloat (text call.signed) =
      call.signed) :
    (calls.map (member text)).Nodup ↔ (calls.map Call.entry).Nodup := by
  have hmap : calls.map (member text) =
      (calls.map Call.entry).map fun x => joinColon [text x.1, x.2.1, decimal x.2.2] := by
    rw [List.map_map]
    rfl
  constructor
  · intro h
    rw [hmap] at h
    exact h.of_map
  · intro h
    rw [hmap]
    refine h.map_on fun x hx y hy hxy => ?_
    obtain ⟨a, ha, rfl⟩ := List.mem_map.mp hx
    obtain ⟨b, hb, rfl⟩ := List.mem_map.mp hy
    exact member_inj (htext a ha) (htext b hb) hxy

end Entries

section Sums

/-- What a call adds to the decoded shares. -/
def Call.positive (call : Call) : ℚ := if call.signed > 0 then call.signed else 0

theorem credited_eq (calls : List Call) : credited calls = (calls.map Call.credit).sum := by
  induction calls using List.reverseRecOn with
  | nil => rfl
  | append_singleton calls call ih =>
    rw [credited_concat, ih, List.map_append, List.sum_append, List.map_singleton,
      List.sum_singleton]

theorem credit_le_positive (call : Call) : call.credit ≤ call.positive := by
  rw [Call.credit, Call.positive, Call.signed]
  split_ifs
  · exact le_refl _
  · linarith
  · linarith
  · exact le_refl _

theorem positive_eq_credit_iff (call : Call) :
    call.positive = call.credit ↔ 0 ≤ call.shareData.difficulty := by
  rw [Call.credit, Call.positive, Call.signed]
  split_ifs
  · exact iff_of_true rfl (by linarith)
  · constructor
    · intro h
      linarith
    · intro h
      linarith
  · exact iff_of_false (by linarith) (by linarith)
  · exact iff_of_true rfl (by linarith)

theorem sum_positive_iff (calls : List Call) :
    (calls.map Call.credit).sum ≤ (calls.map Call.positive).sum ∧
      ((calls.map Call.positive).sum = (calls.map Call.credit).sum ↔
        ∀ call ∈ calls, 0 ≤ call.shareData.difficulty) := by
  induction calls with
  | nil => exact ⟨le_refl _, fun _ _ h => absurd h List.not_mem_nil, fun _ => rfl⟩
  | cons call calls ih =>
    obtain ⟨hle, hiff⟩ := ih
    have hcall := credit_le_positive call
    rw [List.map_cons, List.map_cons, List.sum_cons, List.sum_cons, List.forall_mem_cons, ← hiff,
      ← positive_eq_credit_iff]
    refine ⟨add_le_add hcall hle, fun heq => ?_, fun ⟨h1, h2⟩ => by rw [h1, h2]⟩
    constructor
    · linarith
    · linarith

variable {text : ℚ → Str} {parseFloat : Str → ℚ} {calls : List Call}

theorem coinShares_run
    (htext : ∀ call ∈ calls, unit ':' ∉ text call.signed ∧ parseFloat (text call.signed) =
      call.signed)
    (hnodup : (calls.map (member text)).Nodup) (coin : Str) :
    coinShares parseFloat (hashrates coin (run text coin calls)) =
      (calls.map Call.positive).sum := by
  have hperm := perm_hashrates_run text coin calls
  rw [hnodup.dedup] at hperm
  rw [coinShares, (hperm.map _).sum_eq, List.map_map]
  refine congrArg List.sum (List.map_congr_left fun call hcall => ?_)
  have hshares : workerShares parseFloat (member text call) = call.signed := by
    rw [workerShares, member_eq, takeWhile_colon (htext call hcall).1, (htext call hcall).2]
  rw [Function.comp_apply, hshares, Call.positive]

/-- Every share leaves its own entry, and the valid ones are what is counted, if and only if no two
of them have the same signed difficulty, worker and clock reading, and no difficulty is negative. -/
theorem own_entries_iff (coin : Str)
    (htext : ∀ call ∈ calls, unit ':' ∉ text call.signed ∧ parseFloat (text call.signed) =
      call.signed) :
    (hashrates coin (run text coin calls)).length = calls.length ∧
        coinShares parseFloat (hashrates coin (run text coin calls)) = credited calls ↔
      (calls.map Call.entry).Nodup ∧ ∀ call ∈ calls, 0 ≤ call.shareData.difficulty := by
  rw [length_hashrates_iff, ← nodup_members_iff htext]
  refine and_congr_right fun hnodup => ?_
  rw [coinShares_run htext hnodup, credited_eq]
  exact (sum_positive_iff calls).2

def validShare : Call where
  isValidShare := true
  isValidBlock := false
  shareData :=
    { worker := literal "w", difficulty := 1, height := 5, blockHash := none, txHash := none }
  dateNow := 1500

/-- It is rejected in the same millisecond. -/
def invalidShare : Call := { validShare with isValidShare := false }

def laterShare : Call :=
  { validShare with
    shareData := { validShare.shareData with worker := literal "v", difficulty := 3 }
    dateNow := 2500 }

/-- Whole numbers are written and read. -/
def wholeText (x : ℚ) : Str := number x.num

def wholeFloat (s : Str) : ℚ :=
  let digits (s : Str) : ℕ := Nat.ofDigitChars 10 (s.map fun u => Char.ofNat u.toNat) 0
  if s.head? = some (unit '-') then -digits s.tail else digits s

theorem own_entries_once :
    (hashrates (literal "aion")
        (run wholeText (literal "aion") [validShare, invalidShare, laterShare])).length = 3 ∧
      coinShares wholeFloat
          (hashrates (literal "aion") (run wholeText (literal "aion") [validShare, invalidShare, laterShare])) =
        credited [validShare, invalidShare, laterShare] :=
  (own_entries_iff (literal "aion") (by decide +kernel)).mpr ⟨by decide, by decide⟩

/-- Two shares of one worker in one millisecond are one entry. -/
theorem entry_shared :
    ¬((hashrates (literal "aion")
          (run wholeText (literal "aion") [validShare, validShare])).length = 2 ∧
        coinShares wholeFloat
            (hashrates (literal "aion") (run wholeText (literal "aion") [validShare, validShare])) =
          credited [validShare, validShare]) := by
  intro h
  have hlen : (hashrates (literal "aion")
      (run wholeText (literal "aion") [validShare, validShare])).length = 1 := by
    decide +kernel
  rw [hlen] at h
  exact absurd h.1 (by decide)

end Sums
end Aion.Redis
