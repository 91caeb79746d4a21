import AionMiner.Miner.Submit
import AionMiner.Miner.Values

/-! The target test of `solutionFound`, and the one the pool makes of the same share. -/

namespace Aion.Miner
open Bits Equihash Text Pool

section Code

/-- `sprintf("%02x")` from the high byte down. -/
def Uint256.getHex (a : Uint256) : Str := hexStr a.data.reverse

def Arith256.getHex (a : Arith256) : Str := (arithToUint256 a).getHex

/-- The loop over `targetHex`: every two characters are read as a hex number. -/
def targetBytes : Str → List Byte
  | c :: d :: s => BitVec.ofNat 8 (hexNumber [c, d]) :: targetBytes s
  | [c] => [BitVec.ofNat 8 (hexNumber [c])]
  | [] => []

/-- `targetComp >= 0` drops the solution. -/
def belowTarget (actualTarget : Arith256) (hash : List Byte) : Bool :=
  memcmp hash (targetBytes actualTarget.getHex) == .lt

/-- `solutionFound` once the solution is in its header: what it hands to `submit`. -/
def AionJob.solutionFound (H : Blake2b) (job : AionJob) (nonce : Uint256) (nSolution : List Byte) :
    Option EquihashSolution :=
  let hash := (List.range 32).map (H (blake2State.update (job.targetInput nonce nSolution)))
  if belowTarget job.serverTarget hash then
    some { nonce := nonce, nonce1size := job.nonce1Size, solution := nSolution }
  else none

end Code

section Order

theorem beNat_cons {w : ℕ} (x : BitVec w) (xs : List (BitVec w)) :
    beNat (x :: xs) = x.toNat * 2 ^ (w * xs.length) + beNat xs := by
  induction xs using List.reverseRecOn with
  | nil => simp [beNat]
  | append_singleton xs y ih =>
    rw [← List.cons_append, beNat_append_singleton, beNat_append_singleton, ih, List.length_append,
      List.length_singleton, Nat.mul_succ, Nat.pow_add]
    ring

theorem beNat_reverse {w : ℕ} (xs : List (BitVec w)) : beNat xs.reverse = leNat xs := by
  induction xs with
  | nil => rfl
  | cons x xs ih =>
    rw [List.reverse_cons, beNat_append_singleton, ih, leNat_cons]
    ring

theorem compare_mul_add {a b c d P : ℕ} (hc : c < P) (hd : d < P) :
    (compare a b).then (compare c d) = compare (a * P + c) (b * P + d) := by
  rcases Nat.lt_trichotomy a b with hlt | rfl | hgt
  · have hle := Nat.mul_le_mul_right P (Nat.succ_le_of_lt hlt)
    rw [Nat.succ_mul] at hle
    have hsum : a * P + c < b * P + d := by omega
    rw [Nat.compare_eq_lt.mpr hlt, Nat.compare_eq_lt.mpr hsum]
    rfl
  · rw [Nat.compare_eq_eq.mpr rfl]
    change compare c d = _
    rcases Nat.lt_trichotomy c d with hlt | rfl | hgt
    · rw [Nat.compare_eq_lt.mpr hlt, Nat.compare_eq_lt.mpr (Nat.add_lt_add_left hlt _)]
    · rw [Nat.compare_eq_eq.mpr rfl, Nat.compare_eq_eq.mpr rfl]
    · rw [Nat.compare_eq_gt.mpr hgt, Nat.compare_eq_gt.mpr (Nat.add_lt_add_left hgt _)]
  · have hle := Nat.mul_le_mul_right P (Nat.succ_le_of_lt hgt)
    rw [Nat.succ_mul] at hle
    have hsum : b * P + d < a * P + c := by omega
    rw [Nat.compare_eq_gt.mpr hgt, Nat.compare_eq_gt.mpr hsum]
    rfl

theorem memcmp_eq_compare {xs ys : List Byte} (hlen : xs.length = ys.length) :
    memcmp xs ys = compare (beNat xs) (beNat ys) := by
  induction xs generalizing ys with
  | nil =>
    rw [List.length_eq_zero_iff.mp hlen.symm]
    rfl
  | cons x xs ih =>
    cases ys with
    | nil => cases hlen
    | cons y ys =>
      have htail : xs.length = ys.length := Nat.succ_injective hlen
      rw [memcmp, ih htail, beNat_cons, beNat_cons, htail]
      apply compare_mul_add
      · rw [← htail]
        exact beNat_lt xs
      · exact beNat_lt ys

end Order

section Digits

theorem nibbles_lt {digits : List ℕ} (hlt : ∀ d ∈ digits, d < 16) (i : ℕ) :
    digits.getD i 0 < 16 := by
  rw [List.getD_eq_getElem?_getD]
  cases hd : digits[i]? with
  | none => decide
  | some d => exact hlt d (List.mem_of_getElem? hd)

/-- `SetHex` fills the bytes from the low end of the digits. -/
theorem leNat_nibbles (n : ℕ) {digits : List ℕ} (hlt : ∀ d ∈ digits, d < 16) (hlen : digits.length ≤ 2 * n) :
    leNat ((List.range n).map fun i => BitVec.ofNat 8 (16 * digits.getD (2 * i + 1) 0 + digits.getD (2 * i) 0)) =
      Nat.ofDigits 16 digits := by
  induction n generalizing digits with
  | zero =>
    rw [List.length_eq_zero_iff.mp (Nat.le_zero.mp hlen)]
    rfl
  | succ n ih =>
    have hdrop : (digits.drop 2).length ≤ 2 * n := by rw [List.length_drop]; omega
    have htail := ih (fun d hd => hlt d (List.mem_of_mem_drop hd)) hdrop
    have hdigits : Nat.ofDigits 16 digits =
        digits.getD 0 0 + 16 * (digits.getD 1 0 + 16 * Nat.ofDigits 16 (digits.drop 2)) := by
      match digits with
      | [] => rfl
      | [a] => simp
      | a :: b :: digits => simp [Nat.ofDigits_cons]
    have hshift : ∀ i, digits.getD (2 * (i + 1)) 0 = (digits.drop 2).getD (2 * i) 0 ∧
        digits.getD (2 * (i + 1) + 1) 0 = (digits.drop 2).getD (2 * i + 1) 0 := by
      intro i
      simp only [List.getD_eq_getElem?_getD, List.getElem?_drop]
      exact ⟨by rw [show 2 + 2 * i = 2 * (i + 1) by omega], by rw [show 2 + (2 * i + 1) = 2 * (i + 1) + 1 by omega]⟩
    have hlow := nibbles_lt hlt (2 * 0)
    have hhigh := nibbles_lt hlt (2 * 0 + 1)
    rw [List.range_succ_eq_map, List.map_cons, List.map_map, leNat_cons, hdigits, ← htail,
      BitVec.toNat_ofNat,
      Nat.mod_eq_of_lt (show 16 * digits.getD (2 * 0 + 1) 0 + digits.getD (2 * 0) 0 < 2 ^ 8 by omega)]
    have hrest : (fun i => BitVec.ofNat 8 (16 * digits.getD (2 * i + 1) 0 + digits.getD (2 * i) 0)) ∘ Nat.succ =
        fun i => BitVec.ofNat 8 (16 * (digits.drop 2).getD (2 * i + 1) 0 + (digits.drop 2).getD (2 * i) 0) := by
      funext i
      change BitVec.ofNat 8 (16 * digits.getD (2 * (i + 1) + 1) 0 + digits.getD (2 * (i + 1)) 0) = _
      rw [(hshift i).1, (hshift i).2]
    rw [hrest]
    ring

theorem ofDigits_hexValues (s : Str) :
    Nat.ofDigits 16 (s.map fun c => (hexValue c).getD 0).reverse = hexNumber s := by
  induction s using List.reverseRecOn with
  | nil => rfl
  | append_singleton s c ih =>
    rw [List.map_append, List.map_cons, List.map_nil, List.reverse_append, List.reverse_singleton,
      List.singleton_append, Nat.ofDigits_cons, ih, hexNumber_append_singleton, Nat.add_comm]

theorem takeWhile_of_isHexDigits {s : Str} (hs : IsHexDigits s) :
    (s.takeWhile fun c => (hexValue c).isSome) = s :=
  List.takeWhile_eq_self_iff.mpr hs

theorem hexValue_getD_lt (c : CodeUnit) : (hexValue c).getD 0 < 16 := by
  unfold hexValue
  split_ifs <;> simp <;> omega

/-- At most 64 digits fit into the 32 bytes. -/
theorem leNat_uint256S {s : Str} (hs : IsHexDigits s) (hlen : s.length ≤ 64) :
    leNat (uint256S s).data = hexNumber s := by
  have hspace : s.dropWhile isspace = s := by
    cases s with
    | nil => rfl
    | cons c s => rw [List.dropWhile_cons, if_neg (by rw [not_isspace (hs c (by simp))]; decide)]
  have hx : ¬(s.take 2 = [unit '0', unit 'x'] ∨ s.take 2 = [unit '0', unit 'X']) := by
    have hdigit : ∀ c ∈ s.take 2, (hexValue c).isSome := fun c hc => hs c (List.mem_of_mem_take hc)
    rintro (h | h)
    · rw [h] at hdigit
      exact absurd (hdigit (unit 'x') (by simp)) (by decide)
    · rw [h] at hdigit
      exact absurd (hdigit (unit 'X') (by simp)) (by decide)
  unfold uint256S
  dsimp only
  rw [hspace, if_neg hx, takeWhile_of_isHexDigits hs, ← ofDigits_hexValues]
  apply leNat_nibbles 32
  · intro d hd
    obtain ⟨c, -, rfl⟩ := List.mem_map.mp (List.mem_reverse.mp hd)
    exact hexValue_getD_lt c
  · rw [List.length_reverse, List.length_map]
    exact hlen

theorem targetBytes_hexStr (bytes : List Byte) : targetBytes (hexStr bytes) = bytes := by
  induction bytes with
  | nil => rfl
  | cons b bytes ih =>
    have hpair : hexNumber [hexDigit (b >>> 4).toNat, hexDigit (b &&& 15).toNat] =
        16 * (b >>> 4).toNat + (b &&& 15).toNat := by
      simp only [hexNumber, List.foldl_cons, List.foldl_nil, hexValue_hexDigit (high_lt b),
        hexValue_hexDigit (low_lt b), Option.getD_some, Nat.mul_zero, Nat.zero_add]
    rw [hexStr_cons, targetBytes, ih, hpair, halves]

theorem beNat_targetBytes (a : Arith256) : beNat (targetBytes a.getHex) = a.toNat := by
  rw [Arith256.getHex, Uint256.getHex, targetBytes_hexStr, beNat_reverse, Arith256.leNat_data]

theorem length_targetBytes (a : Arith256) : (targetBytes a.getHex).length = 32 := by
  rw [Arith256.getHex, Uint256.getHex, targetBytes_hexStr, List.length_reverse, Uint256.width]

end Digits

section Rule
variable {target : Str} {hash : List Byte}

theorem toNat_serverTarget (hne : target ≠ []) (hhex : IsHexDigits target)
    (hlen : target.length ≤ 64) : (serverTarget target).toNat = hexNumber target := by
  rw [serverTarget, if_pos (List.length_pos_iff.mpr hne), Arith256.toNat_uintToArith256,
    leNat_uint256S hhex hlen]

theorem belowTarget_iff (a : Arith256) (hhash : hash.length = 32) :
    belowTarget a hash = true ↔ beNat hash < a.toNat := by
  rw [belowTarget, memcmp_eq_compare (hhash.trans (length_targetBytes a).symm), beNat_targetBytes,
    beq_iff_eq, Nat.compare_eq_lt]

theorem gt_iff {b : Bignum} (hb : b.Lawful) (hne : target ≠ []) (hhex : IsHexDigits target)
    (hhash : hash.length = 32) :
    (b.ofString target 16).map (b.gt (b.fromBuffer (some 32) hash)) = some false ↔
      beNat hash ≤ hexNumber target := by
  rw [hb.ofString target hne hhex, Option.map_some, hb.gt, hb.fromBuffer hash hhash, Option.some_inj,
    decide_eq_false_iff_not, not_lt, Nat.cast_le]

/-- Miner and pool judge a hash alike unless it is the target itself. -/
theorem target_rule_iff (b : Bignum) (hb : b.Lawful) (hne : target ≠ []) (hhex : IsHexDigits target)
    (hlen : target.length ≤ 64) (hhash : hash.length = 32) :
    (belowTarget (serverTarget target) hash = true ↔
        (b.ofString target 16).map (b.gt (b.fromBuffer (some 32) hash)) = some false) ↔
      beNat hash ≠ hexNumber target := by
  rw [belowTarget_iff _ hhash, toNat_serverTarget hne hhex hlen, gt_iff hb hne hhex hhash]
  omega

theorem isHexDigits_one : IsHexDigits [unit '1'] := by
  intro c hc
  rw [List.mem_singleton.mp hc]
  rfl

/-- Of the hash that is the target itself the pool takes a solution, but the miner drops it. -/
theorem target_itself :
    ¬(belowTarget (serverTarget [unit '1']) (List.replicate 31 0 ++ [1]) = true ↔
      (integers.ofString [unit '1'] 16).map
        (integers.gt (integers.fromBuffer (some 32) (List.replicate 31 0 ++ [1]))) = some false) := by
  rw [belowTarget_iff _ rfl, toNat_serverTarget (List.cons_ne_nil _ _) isHexDigits_one (by decide),
    gt_iff lawful_integers (List.cons_ne_nil _ _) isHexDigits_one rfl]
  decide

theorem target_rule_below :
    (belowTarget (serverTarget [unit '1']) (List.replicate 32 0) = true ↔
        (integers.ofString [unit '1'] 16).map (integers.gt (integers.fromBuffer (some 32) (List.replicate 32 0))) =
          some false) ↔
      beNat (List.replicate 32 (0 : Byte)) ≠ hexNumber [unit '1'] :=
  target_rule_iff integers lawful_integers (List.cons_ne_nil _ _) isHexDigits_one (by decide) rfl

end Rule

section Jobs
variable {host : Host} {jobId : Str} {rpcData : RpcData} {job : BlockTemplate}

theorem overTarget_iff (hhost : host.bignum.Lawful)
    (htarget : host.bignum.ofString rpcData.target 16 = some job.target)
    (hne : rpcData.target ≠ []) (hhex : IsHexDigits rpcData.target) {hash : List Byte} (hhash : hash.length = 32) :
    job.overTarget host hash = false ↔ beNat hash ≤ hexNumber rpcData.target := by
  rw [← gt_iff hhost hne hhex hhash, htarget, Option.map_some, Option.some_inj, BlockTemplate.overTarget]

theorem parseJob_serverTarget {server : ServerNonce} {params : NotifyParams} {minerJob : AionJob}
    (hparse : parseJob server params = some minerJob) :
    minerJob.serverTarget = serverTarget params.target := by
  obtain ⟨header, -, rfl⟩ := Option.map_eq_some_iff.mp hparse
  rfl

theorem isSome_solutionFound (H : Blake2b) (minerJob : AionJob) (nonce : Uint256)
    (nSolution : List Byte) :
    (minerJob.solutionFound H nonce nSolution).isSome = belowTarget minerJob.serverTarget
      ((List.range 32).map (H (blake2State.update (minerJob.targetInput nonce nSolution)))) := by
  unfold AionJob.solutionFound
  dsimp only
  split_ifs with h
  · exact h.symm
  · exact (Bool.eq_false_iff.mpr h).symm

/-- Of one solution of one job: unless its hash is the target, the miner submits it if and only if
the pool lets it pass the target test. -/
theorem solutionFound_iff (hhost : host.bignum.Lawful) (hjob : blockTemplate host jobId rpcData = some job)
    {server : ServerNonce} {params : NotifyParams} {minerJob : AionJob}
    (hparse : parseJob server params = some minerJob) (htarget : params.target = rpcData.target)
    (hne : params.target ≠ []) (hhex : IsHexDigits params.target) (hlen : params.target.length ≤ 64)
    {sh : Share} {nonce : Uint256} {nSolution : List Byte}
    (hbytes : job.serializeHeaderTarget sh.nonce sh.soln = minerJob.targetInput nonce nSolution)
    (hedge : beNat (host.blake2 (minerJob.targetInput nonce nSolution)) ≠ hexNumber params.target) :
    (minerJob.solutionFound host.H nonce nSolution).isSome = true ↔
      job.overTarget host (host.blake2 (job.serializeHeaderTarget sh.nonce sh.soln)) = false := by
  have hhash : (host.blake2 (minerJob.targetInput nonce nSolution)).length = 32 := Host.length_blake2 ..
  have hnumber := (blockTemplate_some hjob).2.2.2 (htarget ▸ hne)
  have hminer := isSome_solutionFound host.H minerJob nonce nSolution
  change _ = belowTarget minerJob.serverTarget (host.blake2 (minerJob.targetInput nonce nSolution)) at hminer
  rw [hminer, belowTarget_iff _ hhash, parseJob_serverTarget hparse,
    toNat_serverTarget hne hhex hlen, hbytes,
    overTarget_iff hhost hnumber (htarget ▸ hne) (htarget ▸ hhex) hhash, ← htarget]
  omega

end Jobs
end Aion.Miner
