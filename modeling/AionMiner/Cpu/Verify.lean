import AionMiner.Cpu.Solutions

/-! `verify` of `equi.h`, the miner's own check of a proof, against the verifier of the pool. -/

namespace Aion.Cpu
open Bits Equihash Solver Wagner Equi

section Model

inductive VerifyCode where
  | powOk
  | powDuplicate
  | powOutOfOrder
  | powNonzeroXor
  deriving DecidableEq

/-- A `uchar` array, and whether something has been written behind its end. -/
structure HashBuffer where
  bytes : List Byte
  overrun : Bool

namespace HashBuffer

def new (size : ℕ) : HashBuffer := ⟨List.replicate size 0, false⟩

def store (hash : HashBuffer) (i : ℕ) (x : Byte) : HashBuffer where
  bytes := hash.bytes.set i x
  overrun := hash.overrun || decide (hash.bytes.length ≤ i)

/-- `for (int i = 0; i < HASHLEN; i++) hash[i] = f(i)`, or a `memcpy`. -/
def fill (f : ℕ → Byte) (hash : HashBuffer) : HashBuffer :=
  (List.range hashLen).foldl (fun hash i => hash.store i (f i)) hash

/-- What has gone wrong with another buffer counts as well. -/
def beside (other hash : HashBuffer) : HashBuffer := { hash with overrun := hash.overrun || other.overrun }

end HashBuffer

def digitBits : ℕ := paramN / (paramK + 1)

def genhash (H : Blake2b) (ctx : Blake2bState) (idx : ℕ) (hash : HashBuffer) : HashBuffer :=
  let state := ctx.update (le32 (idx / hashesPerBlake))
  let blakehash := (List.range (hashesPerBlake * (paramN + 7) / 8)).map (H state)
  -- `HASHLEN` has no parentheses
  hash.fill fun k => blakehash.getD (idx % hashesPerBlake * (paramN + 7) / 8 + k) 0

def leadingZeros (b : ℕ) (hash : HashBuffer) : Bool :=
  ((List.range (b / 8)).all fun i => hash.bytes.getD i 0 == 0) &&
    !(b % 8 != 0 && hash.bytes.getD (b / 8) 0 >>> (8 - b % 8) != 0)

def verifyrec (H : Blake2b) (ctx : Blake2bState) : ℕ → List ℕ → HashBuffer → VerifyCode × HashBuffer
  | 0, indices, hash => (.powOk, genhash H ctx (indices.getD 0 0) hash)
  | r + 1, indices, hash =>
    let indices1 := indices.drop (1 <<< r)
    if indices.getD 0 0 ≥ indices1.getD 0 0 then (.powOutOfOrder, hash)
    else
      let (vrf0, hash0) := verifyrec H ctx r indices (.new hashLen)
      let hash := hash0.beside hash
      if vrf0 ≠ .powOk then (vrf0, hash)
      else
        let (vrf1, hash1) := verifyrec H ctx r indices1 (.new hashLen)
        let hash := hash1.beside hash
        if vrf1 ≠ .powOk then (vrf1, hash)
        else
          let hash := hash.fill fun i => hash0.bytes.getD i 0 ^^^ hash1.bytes.getD i 0
          if leadingZeros ((r + 1) * digitBits) hash then (.powOk, hash) else (.powNonzeroXor, hash)

/-- The code, and whether a hash buffer was overrun. The one of the root has `WN / 8` bytes. -/
def verify (H : Blake2b) (indices : List ℕ) (header nonce : List Byte) : VerifyCode × Bool :=
  if duped indices then (.powDuplicate, false)
  else
    let (code, hash) := verifyrec H (setheader header nonce) paramK indices (.new (paramN / 8))
    (code, hash.overrun)

end Model

section Buffer

theorem fill_eq (f : ℕ → Byte) (hash : HashBuffer) :
    hash.fill f = ⟨writeLoop 0 0 27 f hash.bytes, hash.overrun || decide (hash.bytes.length < 27)⟩ := by
  have hfold : ∀ n, (List.range n).foldl (fun hash i => HashBuffer.store hash i (f i)) hash =
      ⟨writeLoop 0 0 n f hash.bytes, hash.overrun || decide (hash.bytes.length < n)⟩ := by
    intro n
    induction n with
    | zero => simp [writeLoop]
    | succ n ih =>
      rw [List.range_succ, List.foldl_append, ih, List.foldl_cons, List.foldl_nil, HashBuffer.store]
      congr 1
      · rw [writeLoop, writeLoop, List.range'_1_concat, List.foldl_append, Nat.zero_add,
          List.foldl_cons, List.foldl_nil, Nat.zero_add]
      · rw [length_writeLoop, Bool.or_assoc, ← Bool.decide_or]
        congr 2
        exact propext (by omega)
  rw [HashBuffer.fill, show hashLen = 27 from rfl, hfold]

theorem length_fill (f : ℕ → Byte) (hash : HashBuffer) :
    (hash.fill f).bytes.length = hash.bytes.length := by
  rw [fill_eq, length_writeLoop]

theorem getD_fill (f : ℕ → Byte) (hash : HashBuffer) {k : ℕ} (hk : k < 27)
    (hlen : k < hash.bytes.length) : (hash.fill f).bytes.getD k 0 = f k := by
  have hwrite := getD_writeLoop 0 0 27 f hash.bytes 0 (x := k) (Nat.zero_le k) (by rwa [Nat.zero_add])
    (by rwa [Nat.zero_add])
  rw [fill_eq]
  simpa only [Nat.zero_add] using hwrite

theorem overrun_fill (f : ℕ → Byte) (hash : HashBuffer) :
    (hash.fill f).overrun = (hash.overrun || decide (hash.bytes.length < 27)) := by
  rw [fill_eq]

theorem leadingZeros_iff {hash : HashBuffer} {a : Hash} {b : ℕ}
    (ha : ∀ k ≤ b / 8, hash.bytes.getD k 0 = a k) :
    leadingZeros b hash = true ↔ ∀ n < b, a.bit n = false := by
  -- Whole bytes first, then the high bits of the next one
  have hbytes : leadingZeros b hash = true ↔
      (∀ i < b / 8, a i = 0#8) ∧ (b % 8 ≠ 0 → a (b / 8) >>> (8 - b % 8) = 0#8) := by
    rw [leadingZeros, Bool.and_eq_true, List.all_eq_true, Bool.not_eq_true', Bool.and_eq_false_iff,
      ha _ le_rfl]
    simp only [List.mem_range, beq_iff_eq, bne_eq_false_iff_eq]
    apply and_congr
    · exact forall₂_congr fun i hi => by rw [ha i hi.le]; rfl
    · exact or_iff_not_imp_left
  rw [hbytes]
  constructor
  · rintro ⟨hwhole, hpart⟩ n hn
    unfold Hash.bit
    rcases Nat.lt_or_ge (n / 8) (b / 8) with hlt | hge
    · rw [hwhole _ hlt, BitVec.getLsbD_zero]
    · have hdiv : n / 8 = b / 8 := by omega
      have hbit := congrArg (BitVec.getLsbD · (b % 8 - 1 - n % 8)) (hpart (by omega))
      simp only [BitVec.getLsbD_ushiftRight, BitVec.getLsbD_zero] at hbit
      rwa [hdiv, show 7 - n % 8 = 8 - b % 8 + (b % 8 - 1 - n % 8) by omega]
  · intro h
    refine ⟨fun i hi => BitVec.eq_of_getLsbD_eq fun t ht => ?_,
      fun hb => BitVec.eq_of_getLsbD_eq fun t ht => ?_⟩
    · have hbit := h (8 * i + (7 - t)) (by omega)
      rw [Hash.bit, show (8 * i + (7 - t)) / 8 = i by omega, show 7 - (8 * i + (7 - t)) % 8 = t by omega] at hbit
      rw [hbit, BitVec.getLsbD_zero]
    · rw [BitVec.getLsbD_ushiftRight, BitVec.getLsbD_zero]
      rcases Nat.lt_or_ge (8 - b % 8 + t) 8 with hlt | hge
      · have hbit := h (8 * (b / 8) + (7 - (8 - b % 8 + t))) (by omega)
        rwa [Hash.bit, show (8 * (b / 8) + (7 - (8 - b % 8 + t))) / 8 = b / 8 by omega,
          show 7 - (8 * (b / 8) + (7 - (8 - b % 8 + t))) % 8 = 8 - b % 8 + t by omega] at hbit
      · exact BitVec.getLsbD_of_ge _ _ hge

end Buffer

section Spec
variable {H : Blake2b} {ctx : Blake2bState}

/-- What `verifyrec` wants of two halves. -/
structure Joined (H : Blake2b) (ctx : Blake2bState) (h : ℕ) (l r : List ℕ) : Prop where
  before : l.headD 0 < r.headD 0
  zeros : ∀ n < 21 * (h + 1), (xorHash H ctx (l ++ r)).bit n = false

/-- What a call `verifyrec` on the first `2 ^ r` indices has done. -/
structure Verified (H : Blake2b) (ctx : Blake2bState) (r : ℕ) (v : List ℕ) (hash : HashBuffer)
    (result : VerifyCode × HashBuffer) : Prop where
  ok_iff : result.1 = .powOk ↔ Balanced (Joined H ctx) r (v.take (2 ^ r))
  length : result.2.bytes.length = hash.bytes.length
  bytes : result.1 = .powOk → ∀ k < 27, k < hash.bytes.length →
    result.2.bytes.getD k 0 = xorHash H ctx (v.take (2 ^ r)) k
  fits : 27 ≤ hash.bytes.length → result.2.overrun = hash.overrun
  spills : hash.bytes.length < 27 → result.1 = .powOk → result.2.overrun = true

theorem genhash_eq (H : Blake2b) (ctx : Blake2bState) (i : ℕ) (hash : HashBuffer) :
    ∃ f, genhash H ctx i hash = hash.fill f ∧ ∀ k < 27, f k = leafHash H ctx i k := by
  -- The half of the digest that is a leaf hash
  refine ⟨_, rfl, fun k hk => ?_⟩
  have hhalf : i % hashesPerBlake * (paramN + 7) / 8 = i % indicesPerHashOutput * hashLen := by
    have hmod : i % 2 = 0 ∨ i % 2 = 1 := by omega
    change i % 2 * 217 / 8 = i % 2 * 27
    rcases hmod with h | h <;> rw [h]
  have hlt : i % indicesPerHashOutput * hashLen + k < 54 := by
    change i % 2 * 27 + k < 54
    omega
  rw [hhalf, show hashesPerBlake * (paramN + 7) / 8 = 54 from rfl,
    List.getD_eq_getElem _ _ (by simpa using hlt), List.getElem_map, List.getElem_range, leafHash,
    if_pos (show k < hashLen from hk)]
  rfl

theorem take_two_pow_succ (v : List ℕ) (r : ℕ) :
    v.take (2 ^ (r + 1)) = v.take (2 ^ r) ++ (v.drop (2 ^ r)).take (2 ^ r) := by
  rw [Nat.pow_succ, Nat.mul_two, List.take_add]

theorem headD_take (v : List ℕ) (r : ℕ) : (v.take (2 ^ r)).headD 0 = v.getD 0 0 := by
  obtain ⟨n, hn⟩ := Nat.exists_eq_succ_of_ne_zero (Nat.two_pow_pos r).ne'
  rw [hn]
  cases v <;> rfl

theorem Verified.refuse {r : ℕ} {v : List ℕ} {hash hash' : HashBuffer} {code : VerifyCode}
    (hcode : code ≠ .powOk) (hlen : hash'.bytes.length = hash.bytes.length)
    (hover : hash'.overrun = hash.overrun) (hbal : ¬Balanced (Joined H ctx) r (v.take (2 ^ r))) :
    Verified H ctx r v hash (code, hash') where
  ok_iff := iff_of_false hcode hbal
  length := hlen
  bytes hok := absurd hok hcode
  fits _ := hover
  spills _ hok := absurd hok hcode

theorem balanced_take_succ {r : ℕ} {v : List ℕ} (hv : 2 ^ (r + 1) ≤ v.length) :
    Balanced (Joined H ctx) (r + 1) (v.take (2 ^ (r + 1))) ↔
      Balanced (Joined H ctx) r (v.take (2 ^ r)) ∧
      Balanced (Joined H ctx) r ((v.drop (2 ^ r)).take (2 ^ r)) ∧
        Joined H ctx r (v.take (2 ^ r)) ((v.drop (2 ^ r)).take (2 ^ r)) := by
  rw [take_two_pow_succ]
  apply balanced_append_iff
  rw [List.length_take, Nat.min_eq_left]
  exact (Nat.pow_le_pow_right (by decide) (Nat.le_succ r)).trans hv

theorem verified_leaf (i : ℕ) (v : List ℕ) (hash : HashBuffer) :
    Verified H ctx 0 (i :: v) hash (verifyrec H ctx 0 (i :: v) hash) := by
  obtain ⟨f, hgen, hf⟩ := genhash_eq H ctx i hash
  rw [verifyrec, List.getD_cons_zero, hgen]
  refine ⟨iff_of_true rfl rfl, length_fill f hash, fun _ k hk hk' => ?_, fun h27 => ?_,
    fun h27 _ => ?_⟩
  · rw [getD_fill f hash hk hk', hf k hk, Nat.pow_zero, List.take_succ_cons, List.take_zero,
      xorHash, List.map_singleton, List.sum_singleton]
  · rw [overrun_fill, decide_eq_false (Nat.not_lt.mpr h27), Bool.or_false]
  · rw [overrun_fill, decide_eq_true h27, Bool.or_true]

theorem length_new : (HashBuffer.new hashLen).bytes.length = 27 := List.length_replicate ..

/-- What a call does once both halves are verified: their xor goes into `hash`. -/
def joinHashes (r : ℕ) (hash0 hash1 hash : HashBuffer) : VerifyCode × HashBuffer :=
  let hash := hash.fill fun i => hash0.bytes.getD i 0 ^^^ hash1.bytes.getD i 0
  if leadingZeros ((r + 1) * digitBits) hash then (.powOk, hash) else (.powNonzeroXor, hash)

theorem Verified.join {r : ℕ} {v : List ℕ} {hash hash' hash0 hash1 : HashBuffer} (hr : r < 9)
    (hv : 2 ^ (r + 1) ≤ v.length) (hlen : 24 ≤ hash.bytes.length) (hsame : hash'.bytes = hash.bytes)
    (hover : hash'.overrun = hash.overrun) (h0 : Verified H ctx r v (.new hashLen) (.powOk, hash0))
    (h1 : Verified H ctx r (v.drop (2 ^ r)) (.new hashLen) (.powOk, hash1))
    (hbefore : v.getD 0 0 < (v.drop (2 ^ r)).getD 0 0) :
    Verified H ctx (r + 1) v hash (joinHashes r hash0 hash1 hash') := by
  unfold joinHashes
  dsimp only
  set joined := hash'.fill fun i => hash0.bytes.getD i 0 ^^^ hash1.bytes.getD i 0 with hjoin
  have hlength : joined.bytes.length = hash.bytes.length := by rw [hjoin, length_fill, hsame]
  have hoverrun : joined.overrun = (hash.overrun || decide (hash.bytes.length < 27)) := by
    rw [hjoin, overrun_fill, hover, hsame]
  have hbytes : ∀ k < 27, k < hash.bytes.length → joined.bytes.getD k 0 =
      xorHash H ctx (v.take (2 ^ (r + 1))) k := by
    intro k hk hk'
    rw [hjoin, getD_fill _ _ hk (hsame ▸ hk'), h0.bytes rfl k hk (length_new ▸ hk),
      h1.bytes rfl k hk (length_new ▸ hk), take_two_pow_succ, xorHash_append, Hash.add_apply]
  have hzeros : leadingZeros ((r + 1) * digitBits) joined = true ↔
      ∀ n < 21 * (r + 1), (xorHash H ctx (v.take (2 ^ (r + 1)))).bit n = false := by
    have hbits : (r + 1) * digitBits = 21 * (r + 1) := Nat.mul_comm ..
    rw [hbits]
    apply leadingZeros_iff
    intro k hk
    exact hbytes k (by omega) (by omega)
  have hjoined : leadingZeros ((r + 1) * digitBits) joined = true ↔
      Balanced (Joined H ctx) (r + 1) (v.take (2 ^ (r + 1))) := by
    rw [hzeros, balanced_take_succ hv]
    constructor
    · intro hz
      refine ⟨h0.ok_iff.mp rfl, h1.ok_iff.mp rfl, ?_, take_two_pow_succ v r ▸ hz⟩
      rw [headD_take, headD_take]
      exact hbefore
    · intro hb
      rw [take_two_pow_succ]
      exact hb.2.2.zeros
  split_ifs with hz
  · refine ⟨iff_of_true rfl (hjoined.mp hz), hlength, fun _ => hbytes, fun h27 => ?_,
      fun h27 _ => ?_⟩
    · rw [hoverrun, decide_eq_false (Nat.not_lt.mpr h27), Bool.or_false]
    · rw [hoverrun, decide_eq_true h27, Bool.or_true]
  · have hcode : VerifyCode.powNonzeroXor ≠ .powOk := by decide
    refine ⟨iff_of_false hcode fun hb => hz (hjoined.mpr hb), hlength, fun hf => absurd hf hcode,
      fun h27 => ?_, fun _ hf => absurd hf hcode⟩
    rw [hoverrun, decide_eq_false (Nat.not_lt.mpr h27), Bool.or_false]

/-- `verifyrec` accepts when all halves are `Joined`. It has then written a whole hash, also into a
buffer that is too short for one. -/
theorem verifyrec_spec {r : ℕ} {v : List ℕ} {hash : HashBuffer} (hr : r ≤ 9) (hv : 2 ^ r ≤ v.length)
    (hlen : 24 ≤ hash.bytes.length) : Verified H ctx r v hash (verifyrec H ctx r v hash) := by
  induction r generalizing v hash with
  | zero =>
    obtain ⟨i, v, rfl⟩ := List.exists_cons_of_length_pos hv
    exact verified_leaf i v hash
  | succ r ih =>
    have hpow : 2 ^ (r + 1) = 2 ^ r + 2 ^ r := by rw [Nat.pow_succ, Nat.mul_two]
    have hnew : 24 ≤ (HashBuffer.new hashLen).bytes.length := by rw [length_new]; decide
    have h0 : Verified H ctx r v (.new hashLen) (verifyrec H ctx r v (.new hashLen)) :=
      ih (by omega) (by omega) hnew
    have h1 : Verified H ctx r (v.drop (2 ^ r)) (.new hashLen) (verifyrec H ctx r (v.drop (2 ^ r)) (.new hashLen)) :=
      ih (by omega) (by rw [List.length_drop]; omega) hnew
    have hbalanced := @balanced_take_succ H ctx r v hv
    rw [verifyrec, Nat.one_shiftLeft]
    by_cases hbefore : v.getD 0 0 < (v.drop (2 ^ r)).getD 0 0
    swap
    · rw [if_pos (Nat.not_lt.mp hbefore)]
      refine .refuse (by decide) rfl rfl fun hb => hbefore ?_
      rw [← headD_take v r, ← headD_take _ r]
      exact (hbalanced.mp hb).2.2.before
    rw [if_neg (Nat.not_le.mpr hbefore)]
    rcases hrec0 : verifyrec H ctx r v (.new hashLen) with ⟨vrf0, hash0⟩
    rw [hrec0] at h0
    have hover0 : hash0.overrun = false := h0.fits length_new.ge
    by_cases hok0 : vrf0 = .powOk
    swap
    · dsimp only
      rw [if_pos hok0]
      refine .refuse hok0 rfl ?_ fun hb => hok0 (h0.ok_iff.mpr (hbalanced.mp hb).1)
      rw [HashBuffer.beside, hover0, Bool.or_false]
    dsimp only
    rw [if_neg (not_not_intro hok0)]
    rcases hrec1 : verifyrec H ctx r (v.drop (2 ^ r)) (.new hashLen) with ⟨vrf1, hash1⟩
    rw [hrec1] at h1
    have hover1 : hash1.overrun = false := h1.fits length_new.ge
    have hover : (hash1.beside (hash0.beside hash)).overrun = hash.overrun := by
      rw [HashBuffer.beside, HashBuffer.beside, hover0, hover1, Bool.or_false, Bool.or_false]
    by_cases hok1 : vrf1 = .powOk
    swap
    · dsimp only
      rw [if_pos hok1]
      exact .refuse hok1 rfl hover fun hb => hok1 (h1.ok_iff.mpr (hbalanced.mp hb).2.1)
    dsimp only
    rw [if_neg (not_not_intro hok1)]
    subst hok0 hok1
    exact Verified.join hr hv hlen rfl hover h0 h1 hbefore

end Spec

section Agreement
variable {H : Blake2b} {header nonce : List Byte} {v : List ℕ}

theorem verifyrec_root (H : Blake2b) (header nonce : List Byte) (hlen : v.length = 512) :
    Verified H (setheader header nonce) 9 v (.new (paramN / 8))
      (verifyrec H (setheader header nonce) 9 v (.new (paramN / 8))) :=
  verifyrec_spec le_rfl hlen.ge (by decide)

theorem verify_overruns (hlen : v.length = 512) (hok : (verify H v header nonce).1 = .powOk) :
    (verify H v header nonce).2 = true := by
  -- The last step of an accepting run writes byte 26 of 26
  unfold verify at hok ⊢
  split_ifs at hok ⊢ with hdup
  exact (verifyrec_root H header nonce hlen).spills (by decide) hok

theorem isValidSolution_iff_validIndices (hlen : v.length = 512) (hlt : ∀ i ∈ v, i < 2 ^ 22) :
    isValidSolution H (initialiseState.update (header ++ nonce)) (getMinimalFromIndices v 21) = true ↔
      ValidIndices H (setheader header nonce) v := by
  rw [← setheader_eq, isValidSolution_pack_iff hlen hlt]
  exact balanced_pairOk_iff hlen

/-- Both checkers decide the same, and `verify` stays inside its buffers where it accepts. -/
def Agrees (H : Blake2b) (v : List ℕ) (header nonce : List Byte) : Prop :=
  verify H v header nonce = (.powOk, false) ↔
    isValidSolution H (initialiseState.update (header ++ nonce)) (getMinimalFromIndices v 21) = true

/-- The checkers agree on what is no solution. -/
theorem verify_agrees_iff (H : Blake2b) (header nonce : List Byte) (v : List ℕ) (hlen : v.length = 512)
    (hlt : ∀ i ∈ v, i < 2 ^ 22) : Agrees H v header nonce ↔ ¬ValidIndices H (setheader header nonce) v := by
  have hnever : verify H v header nonce ≠ (.powOk, false) := by
    intro heq
    have hover := verify_overruns hlen (congrArg Prod.fst heq)
    rw [heq] at hover
    cases hover
  rw [Agrees, isValidSolution_iff_validIndices hlen hlt]
  exact ⟨fun h hvalid => hnever (h.mpr hvalid), fun h => iff_of_false hnever h⟩

theorem verify_agrees_zeros :
    Agrees plantedHash (List.replicate 512 0) (List.replicate 32 0) (List.replicate 32 0) := by
  refine (verify_agrees_iff plantedHash _ _ _ (List.length_replicate ..) fun i hi => ?_).mpr fun hvalid => ?_
  · rw [List.eq_of_mem_replicate hi]
    exact Nat.two_pow_pos 22
  · have hordered := hvalid.ordered 1 le_rfl (by decide) 0 (by decide)
    rw [List.getD_replicate _ (by decide), List.getD_replicate _ (by decide)] at hordered
    exact absurd hordered (lt_irrefl 0)

/-- `verify` overruns its buffer when it accepts the planted solution. -/
theorem verify_disagrees : ¬Agrees plantedHash (run 9 0) (List.replicate 32 0) (List.replicate 32 0) := by
  have hlen : (run 9 0).length = 512 := length_run 9 0
  have hlt : ∀ i ∈ run 9 0, i < 2 ^ 22 := run_lt_nhashes le_rfl (by decide)
  have hvalid : ValidIndices plantedHash (setheader (List.replicate 32 0) (List.replicate 32 0)) (run 9 0) :=
    (balanced_pairOk_iff hlen).mp (balanced_of_planted (planted_plantedHash _)).1
  intro hagrees
  have heq := hagrees.mpr ((isValidSolution_iff_validIndices hlen hlt).mpr hvalid)
  have hover := verify_overruns hlen (congrArg Prod.fst heq)
  rw [heq] at hover
  cases hover

end Agreement
end Aion.Cpu
