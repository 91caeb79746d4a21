import AionMiner.Blake2.Simd
import AionMiner.Equihash.Hash

/-! `blake2bx.cpp` of the miner and `blake2b.cpp` of the verifier, which are one text: the buffer
holds one block and the counter has 16 bits. -/

namespace Aion.Blake2
open Bits Digest Digest.Blake2b Equihash Sse

def paramBytes (P : Blake2bState) : List Byte :=
  [BitVec.ofNat 8 P.digestLength, BitVec.ofNat 8 P.keyLength, BitVec.ofNat 8 P.fanout,
    BitVec.ofNat 8 P.depth] ++ le32 P.leafLength ++ bytes64 (BitVec.ofNat 64 P.nodeOffset) ++
    [BitVec.ofNat 8 P.nodeDepth, BitVec.ofNat 8 P.innerLength] ++ List.replicate 14 0 ++
    P.salt ++ P.personal

theorem length_paramBytes {P : Blake2bState} (hsalt : P.salt.length = 16)
    (hpersonal : P.personal.length = 16) : (paramBytes P).length = 64 := by
  simp only [paramBytes, le32, List.length_append, List.length_cons, List.length_nil, length_bytes64,
    List.length_replicate, hsalt, hpersonal]

/-- The hash function the streams compute, for whatever takes one as a parameter. -/
def blake2b : Equihash.Blake2b := fun s k => (digest (paramBytes s) s.absorbed).getD k 0

theorem length_digest (p msg : List Byte) : (digest p msg).length = 64 := length_allBytes _

theorem map_blake2b (s : Blake2bState) {n : ℕ} (hn : n ≤ 64) :
    (List.range n).map (blake2b s) = (digest (paramBytes s) s.absorbed).take n := by
  apply List.ext_getElem
  · rw [List.length_map, List.length_range, List.length_take, length_digest, Nat.min_eq_left hn]
  · intro i hi hi'
    rw [List.length_map, List.length_range] at hi
    rw [List.getElem_map, List.getElem_range, List.getElem_take, blake2b,
      List.getD_eq_getElem _ _ (by rw [length_digest]; omega)]

/-- `memcpy(buf + offset, src, src.length)`. -/
def memcpy (buf : List Byte) (offset : ℕ) (src : List Byte) : List Byte :=
  buf.take offset ++ src ++ buf.drop (offset + src.length)

theorem length_memcpy {buf : List Byte} {offset : ℕ} {src : List Byte}
    (h : offset + src.length ≤ buf.length) : (memcpy buf offset src).length = buf.length := by
  rw [memcpy, List.length_append, List.length_append, List.length_take, List.length_drop]
  omega

theorem take_memcpy {buf : List Byte} {offset : ℕ} (src : List Byte) (h : offset ≤ buf.length) :
    (memcpy buf offset src).take (offset + src.length) = buf.take offset ++ src := by
  rw [memcpy, List.take_left' (by rw [List.length_append, List.length_take]; omega)]

namespace Short

structure Ctx where
  h : Vector Word 8
  buf : List Byte
  counter : BitVec 16
  buflen : ℕ
  lastblock : Bool

/-- `blake2b_init_param`; `p` are the 64 bytes of the parameter block. -/
def initParam (p : List Byte) : Ctx where
  h := wordsOf 8 (List.zipWith (· ^^^ ·) (allBytes iv) p)
  buf := List.replicate 128 0
  counter := 0
  buflen := 0
  lastblock := false

section Code
variable (isa : Isa)

def compress (S : Ctx) (block : List Byte) : Ctx :=
  let f : BitVec 32 := 0 - (BitVec.ofBool S.lastblock).setWidth 32
  { S with h := compressRows isa S.h block (setEpi32 0 0 0 (S.counter.setWidth 32)) (setEpi32 0 0 f f) }

/-- The loop of `blake2b_update`; `none` when the fuel does not suffice. -/
def updateLoop : ℕ → Ctx → List Byte → Option Ctx
  | _, S, [] => some S
  | 0, _, _ :: _ => none
  | fuel + 1, S, x :: inp =>
    let fill := 128 - S.buflen
    if fill < (x :: inp).length then
      let S := { S with
        buf := memcpy S.buf S.buflen ((x :: inp).take fill)
        counter := S.counter + 128 }
      updateLoop fuel { compress isa S S.buf with buflen := 0 } ((x :: inp).drop fill)
    else
      some { S with
        buf := memcpy S.buf S.buflen (x :: inp)
        buflen := S.buflen + (x :: inp).length }

/-- An iteration takes a byte, but for one that finds the buffer full. -/
def update (S : Ctx) (inp : List Byte) : Option Ctx := updateLoop isa (inp.length + 1) S inp

/-- `blake2b_final`: what it writes to `out`; `none` where it returns -1. -/
def final (S : Ctx) (outlen : ℕ) : Option (List Byte × Ctx) :=
  if 64 < outlen then none
  else
    let S :=
      if 128 < S.buflen then
        let S := compress isa { S with counter := S.counter + 128 } S.buf
        { S with buflen := S.buflen - 128, buf := memcpy S.buf 0 ((S.buf.drop 128).take (S.buflen - 128)) }
      else S
    let S := { S with
      counter := S.counter + BitVec.ofNat 16 S.buflen
      lastblock := true
      buf := memcpy S.buf S.buflen (List.replicate (128 - S.buflen) 0) }
    let S := compress isa S S.buf
    some ((allBytes S.h).take outlen, { S with lastblock := false })

def hash (p : List Byte) (pieces : List (List Byte)) (outlen : ℕ) : Option (List Byte) := do
  let S ← pieces.foldlM (update isa) (initParam p)
  let out ← final isa S outlen
  return out.1

end Code

/-- BLAKE2b with the counter modulo 2^16. -/
def mode : Mode (Vector Word 8) Byte where
  size := 128
  size_pos := Digest.Blake2b.mode.size_pos
  zero := 0
  compress h block t last :=
    Digest.Blake2b.compress h (wordsOf 16 block) (BitVec.ofNat 64 (t % 2 ^ 16)) 0 (lastWord last) 0

theorem mode_compress (h : Vector Word 8) (block : List Byte) (t : ℕ) (last : Bool) :
    mode.compress h block t last = Digest.Blake2b.compress h (wordsOf 16 block)
      (BitVec.ofNat 64 (t % 2 ^ 16)) 0 (lastWord last) 0 := rfl

/-- Short messages cannot tell the counters apart. -/
theorem finish_eq {start : Vector Word 8} {msg : List Byte} (hlen : msg.length < 2 ^ 16) :
    mode.finish start msg = Digest.Blake2b.mode.finish start msg := by
  refine Mode.finish_congr ?_ ?_ fun h block t ht last => ?_
  · rfl
  · rfl
  have hlt : t < 2 ^ 16 := Nat.lt_of_le_of_lt ht hlen
  rw [mode_compress, Digest.Blake2b.mode_compress, Nat.mod_eq_of_lt hlt,
    Nat.div_eq_of_lt (hlt.trans (by decide))]
  rfl

section Refinement
variable (isa : Isa) {start : Vector Word 8} {msg : List Byte} {k : ℕ} {S : Ctx}

theorem lo_counter (c : BitVec 16) : lo (setEpi32 0 0 0 (c.setWidth 32)) = c.setWidth 64 := by
  have happend : setEpi32 0 0 0 (c.setWidth 32) = ((0 : BitVec 32) ++ (0 : BitVec 32)) ++
      ((0 : BitVec 32) ++ c.setWidth 32) := BitVec.append_assoc
  rw [happend, lo_append]
  apply BitVec.eq_of_toNat_eq
  have hlt := c.isLt
  rw [BitVec.toNat_append, BitVec.toNat_setWidth, BitVec.toNat_setWidth,
    Nat.mod_eq_of_lt (hlt.trans (by decide)), Nat.mod_eq_of_lt (hlt.trans (by decide))]
  exact Nat.zero_or _

theorem setWidth_counter (t : ℕ) : (BitVec.ofNat 16 t).setWidth 64 = BitVec.ofNat 64 (t % 2 ^ 16) := by
  apply BitVec.eq_of_toNat_eq
  rw [BitVec.toNat_setWidth, BitVec.toNat_ofNat, BitVec.toNat_ofNat]

theorem hi_counter (c : BitVec 32) : hi (setEpi32 0 0 0 c) = 0 := by
  have happend : setEpi32 0 0 0 c = ((0 : BitVec 32) ++ (0 : BitVec 32)) ++ ((0 : BitVec 32) ++ c) :=
    BitVec.append_assoc
  rw [happend, hi_append]
  rfl

theorem lo_last (last : Bool) :
    lo (setEpi32 0 0 (0 - (BitVec.ofBool last).setWidth 32) (0 - (BitVec.ofBool last).setWidth 32)) =
      lastWord last := by
  cases last <;> decide

theorem hi_last (f : BitVec 32) : hi (setEpi32 0 0 f f) = 0 := by
  have happend : setEpi32 0 0 f f = ((0 : BitVec 32) ++ (0 : BitVec 32)) ++ (f ++ f) :=
    BitVec.append_assoc
  rw [happend, hi_append]
  rfl

theorem h_compress {t : ℕ} (ht : S.counter = BitVec.ofNat 16 t) (block : List Byte) :
    (compress isa S block).h = mode.compress S.h block t S.lastblock := by
  rw [compress, mode_compress]
  dsimp only
  rw [compressRows_eq, ht, lo_counter, setWidth_counter, hi_counter, lo_last, hi_last]

/-- The context after `msg`, of which `k` blocks are compressed. -/
structure Absorbs (start : Vector Word 8) (msg : List Byte) (k : ℕ) (S : Ctx) : Prop where
  holds : Holds mode start msg k S.h (S.buf.take S.buflen)
  counter : S.counter = BitVec.ofNat 16 (k * 128)
  size : S.buf.length = 128
  fits : S.buflen ≤ 128
  more : S.lastblock = false

theorem absorbs_initParam {p : List Byte} (hp : p.length = 64) :
    Absorbs (Digest.Blake2b.start p) [] 0 (initParam p) where
  holds := by
    have hh : (initParam p).h = Digest.Blake2b.start p := wordsOf_xor hp
    rw [hh]
    exact Holds.nil mode _
  counter := rfl
  size := List.length_replicate
  fits := Nat.zero_le _
  more := rfl

theorem Absorbs.tail_length (h : Absorbs start msg k S) : (S.buf.take S.buflen).length = S.buflen := by
  rw [List.length_take, h.size, Nat.min_eq_left h.fits]

theorem Absorbs.msg_length (h : Absorbs start msg k S) : msg.length = k * 128 + S.buflen := by
  rw [h.holds.length, h.tail_length]
  rfl

theorem Absorbs.append (h : Absorbs start msg k S) (data : List Byte) (hfit : S.buflen + data.length ≤ 128) :
    Absorbs start (msg ++ data) k
      { S with buf := memcpy S.buf S.buflen data, buflen := S.buflen + data.length } where
  holds := by
    dsimp only
    rw [take_memcpy data (by rw [h.size]; exact h.fits)]
    exact h.holds.append data
  counter := h.counter
  size := (length_memcpy (by rwa [h.size])).trans h.size
  fits := hfit
  more := h.more

theorem Absorbs.compress (h : Absorbs start msg k S) (hfull : S.buflen = 128) :
    Absorbs start msg (k + 1) { Short.compress isa { S with counter := S.counter + 128 } S.buf with
      buflen := 0 } where
  holds := by
    have hcounter : S.counter + 128 = BitVec.ofNat 16 ((k + 1) * 128) := by
      rw [h.counter, Nat.succ_mul, BitVec.ofNat_add]
      rfl
    have hbuf : S.buf.take S.buflen = S.buf := List.take_of_length_le (by rw [h.size, hfull])
    have hstep := h.holds.compress (by rw [h.tail_length, hfull]; exact Nat.le_refl _)
    rw [hbuf, List.take_of_length_le (by rw [h.size]; exact Nat.le_refl _),
      List.drop_eq_nil_of_le (by rw [h.size]; exact Nat.le_refl _)] at hstep
    dsimp only
    rw [h_compress isa hcounter, h.more]
    exact hstep
  counter := by
    change S.counter + 128 = _
    rw [h.counter, Nat.succ_mul, BitVec.ofNat_add]
    rfl
  size := h.size
  fits := Nat.zero_le _
  more := h.more

theorem updateLoop_absorbs {fuel : ℕ} {inp : List Byte} (h : Absorbs start msg k S)
    (hlazy : inp = [] → 0 < k → 0 < S.buflen) (hfuel : inp.length + S.buflen / 128 ≤ fuel) :
    ∃ S' k', updateLoop isa fuel S inp = some S' ∧ Absorbs start (msg ++ inp) k' S' ∧
      (0 < k' → 0 < S'.buflen) := by
  induction fuel generalizing msg k S inp with
  | zero =>
    obtain rfl : inp = [] := List.length_eq_zero_iff.mp (by omega)
    exact ⟨S, k, rfl, by rwa [List.append_nil], hlazy rfl⟩
  | succ fuel ih =>
    cases inp with
    | nil => exact ⟨S, k, rfl, by rwa [List.append_nil], hlazy rfl⟩
    | cons x inp =>
      have hfits := h.fits
      rw [updateLoop]
      split_ifs with hfill
      · have hlen : ((x :: inp).take (128 - S.buflen)).length = 128 - S.buflen := by
          rw [List.length_take, Nat.min_eq_left hfill.le]
        have hleft : ((x :: inp).drop (128 - S.buflen)).length = (x :: inp).length - (128 - S.buflen) :=
          List.length_drop
        have hne : (x :: inp).drop (128 - S.buflen) ≠ [] := by
          intro hnil
          rw [hnil, List.length_nil] at hleft
          omega
        have hfull := h.append ((x :: inp).take (128 - S.buflen)) (by omega)
        obtain ⟨S', k', hrun, habs, hk'⟩ := ih (hfull.compress isa (by dsimp only; omega))
          (fun hnil _ => absurd hnil hne) (by dsimp only; omega)
        rw [List.append_assoc, List.take_append_drop] at habs
        exact ⟨S', k', hrun, habs, hk'⟩
      · exact ⟨_, k, rfl, h.append _ (by omega), fun _ => Nat.lt_of_lt_of_le (Nat.succ_pos _)
          (Nat.le_add_left (x :: inp).length S.buflen)⟩

theorem update_absorbs (h : Absorbs start msg k S) (hlazy : 0 < k → 0 < S.buflen) (inp : List Byte) :
    ∃ S' k', update isa S inp = some S' ∧ Absorbs start (msg ++ inp) k' S' ∧ (0 < k' → 0 < S'.buflen) := by
  have hfits := h.fits
  exact updateLoop_absorbs isa h (fun _ => hlazy) (by omega)

theorem updates_absorb (pieces : List (List Byte)) (h : Absorbs start msg k S)
    (hlazy : 0 < k → 0 < S.buflen) :
    ∃ S' k', pieces.foldlM (update isa) S = some S' ∧ Absorbs start (msg ++ pieces.flatten) k' S' ∧
      (0 < k' → 0 < S'.buflen) := by
  induction pieces generalizing msg k S with
  | nil => exact ⟨S, k, rfl, by rwa [List.flatten_nil, List.append_nil], hlazy⟩
  | cons inp pieces ih =>
    obtain ⟨S₁, k₁, hrun, habs, hk₁⟩ := update_absorbs isa h hlazy inp
    obtain ⟨S', k', hrest, habs', hk'⟩ := ih habs hk₁
    refine ⟨S', k', ?_, by rwa [List.flatten_cons, ← List.append_assoc], hk'⟩
    rw [List.foldlM_cons, hrun]
    exact hrest

theorem final_absorbs (h : Absorbs start msg k S) (hlazy : 0 < k → 0 < S.buflen) {outlen : ℕ}
    (hout : outlen ≤ 64) :
    (final isa S outlen).map Prod.fst = some ((allBytes (mode.finish start msg)).take outlen) := by
  have hbuf : memcpy S.buf S.buflen (List.replicate (128 - S.buflen) 0) =
      mode.padded (S.buf.take S.buflen) := by
    rw [memcpy, Mode.padded, h.tail_length, List.length_replicate,
      List.drop_eq_nil_of_le (by rw [h.size]; have := h.fits; omega), List.append_nil]
    rfl
  have hcounter : S.counter + BitVec.ofNat 16 S.buflen = BitVec.ofNat 16 msg.length := by
    rw [h.counter, ← BitVec.ofNat_add, h.msg_length]
  rw [final, if_neg (Nat.not_lt.mpr hout), if_neg (Nat.not_lt.mpr h.fits)]
  dsimp only
  rw [Option.map_some, h_compress isa hcounter, hbuf]
  exact congrArg (fun h => some ((allBytes h).take outlen))
    (h.holds.finish (by rw [h.tail_length]; exact h.fits) (by rwa [h.tail_length]))

/-- However a message below 64 KiB is cut into pieces and whatever instruction set is compiled, the
stream returns the first `outlen` bytes of its BLAKE2b digest. -/
theorem hash_eq {p : List Byte} (hp : p.length = 64) (pieces : List (List Byte))
    (hlen : pieces.flatten.length < 2 ^ 16) {outlen : ℕ} (hout : outlen ≤ 64) :
    hash isa p pieces outlen = some ((digest p pieces.flatten).take outlen) := by
  obtain ⟨S, k, hrun, habs, hlazy⟩ := updates_absorb isa pieces (absorbs_initParam hp)
    (fun hk => absurd hk (Nat.lt_irrefl 0))
  have hfinal := final_absorbs isa habs hlazy hout
  rw [List.nil_append, finish_eq hlen] at hfinal
  rw [hash, hrun, digest, ← hfinal, Option.map_eq_bind, Option.bind_eq_bind, Option.bind_some]
  rfl

end Refinement

end Short

end Aion.Blake2
