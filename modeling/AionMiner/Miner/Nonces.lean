import AionMiner.Miner.Job
import AionMiner.Miner.Values

/-! The nonces that the threads of a miner try for a job. -/

namespace Aion.Miner
open Bits Equihash Text

namespace AionJob
variable (job : AionJob)

def nonceEnd (pos : ℕ) : Arith256 :=
  (uintToArith256 job.header.nNonce).or
    (((Arith256.ofUInt64 (BitVec.ofNat 64 pos)).add (Arith256.ofUInt64 1)).shiftLeft (8 * 19))

/-- The loop gets to `n` increments, if new work or a pause does not end it before. -/
def Tries (pos n : ℕ) : Prop := ∀ m, 0 < m → m ≤ n → job.nonce pos m ≠ job.nonceEnd pos

def threads : ℕ := 2 ^ 31

/-- The nonces of each thread start with the extra nonce, are apart from those of other threads,
come once and come to an end. -/
structure Ranges (job : AionJob) (extraNonce1 : List Byte) : Prop where
  starts : ∀ p < threads, ∀ n, job.Tries p n →
    (arithToUint256 (job.nonce p n)).data.take extraNonce1.length = extraNonce1
  apart : ∀ p < threads, ∀ q < threads, p ≠ q → ∀ m n, job.Tries p m → job.Tries q n → job.nonce p m ≠ job.nonce q n
  once : ∀ p < threads, ∀ m n, job.Tries p m → job.Tries p n → job.nonce p m = job.nonce p n → m = n
  ends : ∀ p < threads, ∃ n, 0 < n ∧ job.nonce p n = job.nonceEnd p

end AionJob

section Server

/-- An extra nonce of `len` bytes: the first bytes of `nonce1`, and an increment right after them. -/
theorem setServerNonce_digits {n1str : Str} {len : ℕ} (hhex : IsHexDigits n1str)
    (hlen : n1str.length = 2 * len) (hle : len ≤ 31) :
    (parseHex n1str).length = len ∧
    leNat (setServerNonce n1str).nonce1.data = leNat (parseHex n1str) ∧
      (setServerNonce n1str).nonce2Inc.toNat = 2 ^ (8 * len) := by
  have hbytes : (parseHex n1str).length = len := by
    rw [parseHex_eq hhex]
    exact length_hexDecode hhex hlen
  refine ⟨hbytes, ?_, ?_⟩
  · unfold setServerNonce
    dsimp only
    rw [List.take_of_length_le, leNat_append, leNat_zeros, Nat.mul_zero, Nat.add_zero]
    rw [List.length_append, List.length_replicate, hbytes]
    omega
  · unfold setServerNonce
    dsimp only
    rw [Arith256.toNat_shiftLeft, Arith256.toNat_ofUInt64, hlen, show 2 * len * 4 = 8 * len by ring]
    have hlt : 2 ^ (8 * len) < 2 ^ 256 := Nat.pow_lt_pow_right (by decide) (by omega)
    exact (congrArg (· % 2 ^ 256) (Nat.mul_one _)).trans (Nat.mod_eq_of_lt hlt)

end Server

section Values
variable {job : AionJob} {base len : ℕ}

/-- A job whose extra nonce has `len` bytes, which stand for `base`. -/
structure Serves (job : AionJob) (base len : ℕ) : Prop where
  nonce : leNat job.header.nNonce.data = base
  lt : base < 2 ^ (8 * len)
  le : len ≤ 31
  inc : job.nonce2Inc.toNat = 2 ^ (8 * len)

theorem toNat_thread {n : ℕ} (hn : n ≤ AionJob.threads) {a : Arith256} (ha : a.toNat = n) :
    (a.shiftLeft (8 * 19)).toNat = 2 ^ 152 * n := by
  -- The thread number stands at byte 19
  rw [Arith256.toNat_shiftLeft, ha]
  apply Nat.mod_eq_of_lt
  unfold AionJob.threads at hn
  calc 2 ^ 152 * n ≤ 2 ^ 152 * 2 ^ 31 := Nat.mul_le_mul_left _ hn
    _ < 2 ^ 256 := by decide

theorem Serves.startNonce (h : Serves job base len) {pos : ℕ} (hpos : pos < AionJob.threads) :
    (job.startNonce pos).toNat = base ||| 2 ^ 152 * pos := by
  have hthread : (Arith256.ofUInt64 (BitVec.ofNat 64 pos)).toNat = pos := by
    rw [Arith256.toNat_ofUInt64, BitVec.toNat_ofNat]
    exact Nat.mod_eq_of_lt (hpos.trans (by decide))
  rw [AionJob.startNonce, Arith256.toNat_or, Arith256.toNat_uintToArith256, h.nonce,
    toNat_thread hpos.le hthread]

theorem Serves.nonceEnd (h : Serves job base len) {pos : ℕ} (hpos : pos < AionJob.threads) :
    (job.nonceEnd pos).toNat = base ||| 2 ^ 152 * (pos + 1) := by
  have hthread : ((Arith256.ofUInt64 (BitVec.ofNat 64 pos)).add (Arith256.ofUInt64 1)).toNat = pos + 1 := by
    have hlt : pos < 2 ^ 64 - 1 := hpos.trans (by decide)
    rw [Arith256.toNat_add, Arith256.toNat_ofUInt64, Arith256.toNat_ofUInt64, BitVec.toNat_ofNat]
    change (pos % 2 ^ 64 + 1) % 2 ^ 256 = pos + 1
    omega
  rw [AionJob.nonceEnd, Arith256.toNat_or, Arith256.toNat_uintToArith256, h.nonce,
    toNat_thread hpos hthread]

theorem Serves.toNat_nonce (h : Serves job base len) {pos : ℕ}
    (hpos : pos < AionJob.threads) (n : ℕ) :
    (job.nonce pos n).toNat = ((base ||| 2 ^ 152 * pos) + n * 2 ^ (8 * len)) % 2 ^ 256 := by
  induction n with
  | zero =>
    rw [Nat.zero_mul, Nat.add_zero, ← h.startNonce hpos]
    exact (Nat.mod_eq_of_lt (Arith256.toNat_lt _)).symm
  | succ n ih =>
    rw [AionJob.nonce, Function.iterate_succ_apply', Arith256.toNat_add, h.inc]
    change ((job.nonce pos n).toNat + _) % _ = _
    rw [ih, Nat.mod_add_mod, Nat.succ_mul n (2 ^ (8 * len)), Nat.add_assoc]

theorem steps_mul (hlen : len ≤ 19) : 2 ^ (152 - 8 * len) * 2 ^ (8 * len) = 2 ^ 152 := by
  rw [← Nat.pow_add]
  congr 1
  omega

section Within
variable (h : Serves job base len) (hlen : len ≤ 19)
include h hlen

theorem Serves.base_lt : base < 2 ^ 152 :=
  h.lt.trans_le (Nat.pow_le_pow_right (by decide) (by omega))

theorem Serves.or_thread (p : ℕ) : base ||| 2 ^ 152 * p = 2 ^ 152 * p + base :=
  (Nat.or_comm ..).trans (Nat.two_pow_add_eq_or_of_lt (h.base_lt hlen) p).symm

theorem Serves.nonce_eq {p n : ℕ} (hp : p < AionJob.threads) (hn : n ≤ 2 ^ (152 - 8 * len)) :
    (job.nonce p n).toNat = 2 ^ 152 * p + base + n * 2 ^ (8 * len) := by
  -- The nonce counter does not run over before the end of its range
  rw [h.toNat_nonce hp, h.or_thread hlen]
  apply Nat.mod_eq_of_lt
  have hbase := h.base_lt hlen
  have hsteps : n * 2 ^ (8 * len) ≤ 2 ^ 152 := steps_mul hlen ▸ Nat.mul_le_mul_right _ hn
  have hthread : 2 ^ 152 * p ≤ 2 ^ 152 * 2 ^ 31 := Nat.mul_le_mul_left _ hp.le
  calc 2 ^ 152 * p + base + n * 2 ^ (8 * len) ≤ 2 ^ 152 * 2 ^ 31 + 2 ^ 152 + 2 ^ 152 := by omega
    _ < 2 ^ 256 := by decide

theorem Serves.nonce_end {p : ℕ} (hp : p < AionJob.threads) :
    job.nonce p (2 ^ (152 - 8 * len)) = job.nonceEnd p := by
  apply Arith256.toNat_inj
  rw [h.nonce_eq hlen hp le_rfl, h.nonceEnd hp, h.or_thread hlen, steps_mul hlen, Nat.mul_succ]
  omega

theorem Serves.tries_lt {p n : ℕ} (hp : p < AionJob.threads) (hn : job.Tries p n) :
    n < 2 ^ (152 - 8 * len) := by
  -- A thread stops before the range of the next one
  by_contra hge
  exact hn _ (Nat.two_pow_pos _) (Nat.not_lt.mp hge) (h.nonce_end hlen hp)

theorem Serves.tries_nonce {p n : ℕ} (hp : p < AionJob.threads) (hn : job.Tries p n) :
    (job.nonce p n).toNat = 2 ^ 152 * p + (base + n * 2 ^ (8 * len)) ∧ base + n * 2 ^ (8 * len) < 2 ^ 152 := by
  have hlt := h.tries_lt hlen hp hn
  refine ⟨(h.nonce_eq hlen hp hlt.le).trans (Nat.add_assoc ..), ?_⟩
  calc base + n * 2 ^ (8 * len) < 2 ^ (8 * len) + n * 2 ^ (8 * len) := Nat.add_lt_add_right h.lt _
    _ = (n + 1) * 2 ^ (8 * len) := by rw [Nat.succ_mul n (2 ^ (8 * len)), Nat.add_comm]
    _ ≤ 2 ^ (152 - 8 * len) * 2 ^ (8 * len) := Nat.mul_le_mul_right _ hlt
    _ = 2 ^ 152 := steps_mul hlen

theorem Serves.ranges {extraNonce1 : List Byte} (hbytes : extraNonce1.length = len)
    (hbase : leNat extraNonce1 = base) : job.Ranges extraNonce1 where
  starts := by
    intro p hp n hn
    rw [Arith256.take_data_iff _ (by omega), hbytes, hbase, (h.tries_nonce hlen hp hn).1,
      ← steps_mul hlen]
    calc (2 ^ (152 - 8 * len) * 2 ^ (8 * len) * p + (base + n * 2 ^ (8 * len))) % 2 ^ (8 * len)
        = (base + 2 ^ (8 * len) * (2 ^ (152 - 8 * len) * p + n)) % 2 ^ (8 * len) := by
          congr 1
          ring
      _ = base := by rw [Nat.add_mul_mod_self_left, Nat.mod_eq_of_lt h.lt]
  apart := by
    intro p hp q hq hpq m n hm hn heq
    obtain ⟨hm, hmlt⟩ := h.tries_nonce hlen hp hm
    obtain ⟨hn, hnlt⟩ := h.tries_nonce hlen hq hn
    have hdiv := congrArg (fun a => a.toNat / 2 ^ 152) heq
    simp only [hm, hn, Nat.mul_add_div (Nat.two_pow_pos 152), Nat.div_eq_of_lt hmlt,
      Nat.div_eq_of_lt hnlt, Nat.add_zero] at hdiv
    exact hpq hdiv
  once := by
    intro p hp m n hm hn heq
    have hvalue := congrArg Arith256.toNat heq
    rw [(h.tries_nonce hlen hp hm).1, (h.tries_nonce hlen hp hn).1] at hvalue
    have hsteps := Nat.add_left_cancel (Nat.add_left_cancel hvalue)
    exact Nat.eq_of_mul_eq_mul_right (Nat.two_pow_pos _) hsteps
  ends := fun p hp => ⟨_, Nat.two_pow_pos _, h.nonce_end hlen hp⟩

end Within

theorem AionJob.tries_zero (job : AionJob) (pos : ℕ) :
    job.Tries pos 0 := fun _ hpos hle => absurd hpos hle.not_gt

theorem AionJob.Tries.succ {pos n : ℕ} (h : job.Tries pos n)
    (hnext : job.nonce pos (n + 1) ≠ job.nonceEnd pos) : job.Tries pos (n + 1) := by
  intro m hpos hle
  obtain hle | rfl := Nat.le_succ_iff.mp hle
  · exact h m hpos hle
  · exact hnext

/-- Byte 19 belongs to the extra nonce: when the number of thread 1 leaves it as it is, thread 0 has
the same nonce. -/
theorem Serves.not_ranges (h : Serves job base len) (hlen : 20 ≤ len) {extraNonce1 : List Byte}
    (hbytes : extraNonce1.length = len) (hbase : leNat extraNonce1 = base) :
    ¬job.Ranges extraNonce1 := by
  intro hranges
  have hle := h.le
  have hfirst := hranges.starts 1 (by decide) 0 (job.tries_zero 1)
  have hone : (job.nonce 1 0).toNat = base ||| 2 ^ 152 * 1 := h.startNonce (by decide)
  have hzero : (job.nonce 0 0).toNat = base ||| 2 ^ 152 * 0 := h.startNonce (by decide)
  have hthread : 2 ^ 152 < 2 ^ (8 * len) := Nat.pow_lt_pow_right (by decide) (by omega)
  have hlt : base ||| 2 ^ 152 * 1 < 2 ^ (8 * len) := Nat.or_lt_two_pow h.lt hthread
  rw [Arith256.take_data_iff _ (by omega), hbytes, hbase, hone, Nat.mod_eq_of_lt hlt] at hfirst
  apply hranges.apart 0 (by decide) 1 (by decide) (by decide) 0 0 (job.tries_zero 0) (job.tries_zero 1)
  apply Arith256.toNat_inj
  rw [hzero, hone, hfirst, Nat.mul_zero, Nat.or_zero]

end Values

section Server
variable {n1str : Str} {len : ℕ}

theorem serves_of_parseJob (hhex : IsHexDigits n1str) (hlen : n1str.length = 2 * len)
    (hle : len ≤ 31) {params : NotifyParams} {job : AionJob}
    (hjob : parseJob (setServerNonce n1str) params = some job) :
    Serves job (leNat (parseHex n1str)) len := by
  obtain ⟨hbytes, hnonce, hinc⟩ := setServerNonce_digits hhex hlen hle
  have hlt := leNat_lt (parseHex n1str)
  rw [hbytes] at hlt
  obtain ⟨header, -, rfl⟩ := Option.map_eq_some_iff.mp hjob
  exact { nonce := hnonce, lt := hlt, le := hle, inc := hinc }

/-- Exactly the extra nonces that end before the byte of the thread number keep the ranges apart. -/
theorem ranges_iff (hhex : IsHexDigits n1str) (hlen : n1str.length = 2 * len) (hle : len ≤ 31)
    {params : NotifyParams} {job : AionJob} (hjob : parseJob (setServerNonce n1str) params = some job) :
    job.Ranges (parseHex n1str) ↔ len ≤ 19 := by
  have hserves := serves_of_parseJob hhex hlen hle hjob
  have hbytes := (setServerNonce_digits hhex hlen hle).1
  constructor
  · intro hranges
    by_contra hlong
    exact hserves.not_ranges (Nat.not_le.mp hlong) hbytes rfl hranges
  · intro hshort
    exact hserves.ranges hshort hbytes rfl

/-- Notified with a header hash of zeros. -/
def zeroParams : NotifyParams where
  jobId := [unit '1']
  clean := true
  target := []
  headerHash := hexStr (List.replicate 32 0)

theorem zeroParams_headerHash :
    IsHexDigits zeroParams.headerHash ∧ zeroParams.headerHash.length = 64 :=
  ⟨isHexDigits_hexStr _, length_hexStr _⟩

/-- Eight bytes, as the pool issues them. -/
theorem ranges_issued :
    ∃ job, parseJob (setServerNonce (hexStr [0, 0, 0, 7, 0, 0, 0, 3])) zeroParams = some job ∧
      (job.Ranges (parseHex (hexStr [0, 0, 0, 7, 0, 0, 0, 3])) ↔ 8 ≤ 19) := by
  obtain ⟨hhex, hsize⟩ := zeroParams_headerHash
  obtain ⟨job, hjob, -⟩ := parseJob_of_hex (setServerNonce (hexStr [0, 0, 0, 7, 0, 0, 0, 3])) hhex hsize
  exact ⟨job, hjob, ranges_iff (isHexDigits_hexStr _) (length_hexStr _) (by decide) hjob⟩

/-- With an extra nonce of twenty zeros the first nonce of thread 1 starts with another one. -/
theorem ranges_collide :
    ∃ job, parseJob (setServerNonce (hexStr (List.replicate 20 0))) zeroParams = some job ∧
      ¬job.Ranges (parseHex (hexStr (List.replicate 20 0))) := by
  obtain ⟨hhex, hsize⟩ := zeroParams_headerHash
  obtain ⟨job, hjob, -⟩ := parseJob_of_hex (setServerNonce (hexStr (List.replicate 20 0))) hhex hsize
  have hlen : (hexStr (List.replicate 20 0)).length = 2 * 20 := length_hexStr _
  have hserves := serves_of_parseJob (isHexDigits_hexStr _) hlen (by decide) hjob
  exact ⟨job, hjob,
    hserves.not_ranges le_rfl (setServerNonce_digits (isHexDigits_hexStr _) hlen (by decide)).1 rfl⟩

end Server
end Aion.Miner
