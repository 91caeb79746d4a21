import AionMiner.Blake2.Stream

/-! `blake2b.c` of the pool's hash module: the buffer holds two blocks, of which one stays behind,
and the counter has 128 bits. -/

namespace Aion.Blake2
open Bits Digest Digest.Blake2b Equihash Sse

namespace Node

/-- `blake2b_state`; the two words of `t` are one number. -/
structure Ctx where
  h : Vector Word 8
  t : BitVec 128
  f0 : Word
  f1 : Word
  buf : List Byte
  buflen : ℕ
  lastNode : Bool

/-- The parameters of `blake2b_init` and `blake2b_init_key`. -/
def param (outlen keylen : ℕ) : Blake2bState where
  digestLength := outlen
  keyLength := keylen
  fanout := 1
  depth := 1
  leafLength := 0
  nodeOffset := 0
  nodeDepth := 0
  innerLength := 0
  salt := List.replicate 16 0
  personal := List.replicate 16 0
  absorbed := []

/-- `blake2b_init_param`. -/
def initParam (p : List Byte) : Ctx where
  h := wordsOf 8 (List.zipWith (· ^^^ ·) (allBytes iv) p)
  t := 0
  f0 := 0
  f1 := 0
  buf := List.replicate 256 0
  buflen := 0
  lastNode := false

section Code
variable (isa : Isa)

def incrementCounter (S : Ctx) (inc : ℕ) : Ctx := { S with t := S.t + BitVec.ofNat 128 inc }

def isLastblock (S : Ctx) : Bool := S.f0 != 0

def setLastblock (S : Ctx) : Ctx :=
  let S := if S.lastNode then { S with f1 := BitVec.allOnes 64 } else S
  { S with f0 := BitVec.allOnes 64 }

def compress (S : Ctx) (block : List Byte) : Ctx :=
  { S with h := compressRows isa S.h block S.t (S.f1 ++ S.f0) }

/-- The loop of `blake2b_update`; `none` when the fuel does not suffice. -/
def updateLoop : ℕ → Ctx → List Byte → Option Ctx
  | _, S, [] => some S
  | 0, _, _ :: _ => none
  | fuel + 1, S, x :: inp =>
    let fill := 256 - S.buflen
    if fill < (x :: inp).length then
      let S := { S with
        buf := memcpy S.buf S.buflen ((x :: inp).take fill)
        buflen := S.buflen + fill }
      let S := incrementCounter S 128
      let S := compress isa S S.buf
      let S := { S with
        buf := memcpy S.buf 0 ((S.buf.drop 128).take 128)
        buflen := S.buflen - 128 }
      updateLoop fuel S ((x :: inp).drop fill)
    else
      some { S with
        buf := memcpy S.buf S.buflen (x :: inp)
        buflen := S.buflen + (x :: inp).length }

/-- An iteration takes a byte, but for one that finds the buffer full. -/
def update (S : Ctx) (inp : List Byte) : Option Ctx := updateLoop isa (inp.length + 1) S inp

/-- What `blake2b_final` does first: one of two blocks is compressed. -/
def drain (S : Ctx) : Ctx :=
  if 128 < S.buflen then
    let S := incrementCounter S 128
    let S := compress isa S S.buf
    let S := { S with buflen := S.buflen - 128 }
    { S with buf := memcpy S.buf 0 ((S.buf.drop 128).take S.buflen) }
  else S

/-- And then: the last block is padded and compressed. -/
def compressLast (S : Ctx) : Ctx :=
  let S := incrementCounter S S.buflen
  let S := setLastblock S
  let S := { S with buf := memcpy S.buf S.buflen (List.replicate (256 - S.buflen) 0) }
  compress isa S S.buf

/-- `blake2b_final`: what it writes to `out`; `none` where it returns -1. -/
def final (S : Ctx) (outlen : ℕ) : Option (List Byte × Ctx) :=
  if 64 < outlen then none
  else if isLastblock S then none
  else
    let S := compressLast isa (drain isa S)
    some ((allBytes S.h).take outlen, S)

def init (outlen : ℕ) : Option Ctx :=
  if outlen = 0 ∨ 64 < outlen then none else some (initParam (paramBytes (param outlen 0)))

def initKey (outlen : ℕ) (key : List Byte) : Option Ctx :=
  if outlen = 0 ∨ 64 < outlen then none
  else if key.length = 0 ∨ 64 < key.length then none
  else update isa (initParam (paramBytes (param outlen key.length))) (memcpy (List.replicate 128 0) 0 key)

def initHash (outlen : ℕ) (key : List Byte) : Option Ctx :=
  if key.length = 0 then init outlen else initKey isa outlen key

def hash (outlen : ℕ) (key : List Byte) (pieces : List (List Byte)) : Option (List Byte) := do
  let S ← initHash isa outlen key
  let S ← pieces.foldlM (update isa) S
  let out ← final isa S outlen
  return out.1

end Code

section Refinement
variable (isa : Isa) {start : Vector Word 8} {msg : List Byte} {k : ℕ} {S : Ctx}

theorem lo_ofNat (t : ℕ) : lo (BitVec.ofNat 128 t) = BitVec.ofNat 64 t := by
  apply BitVec.eq_of_toNat_eq
  rw [lo, BitVec.extractLsb'_toNat, BitVec.toNat_ofNat, BitVec.toNat_ofNat, Nat.shiftRight_zero]
  exact Nat.mod_mod_of_dvd t (Nat.pow_dvd_pow 2 (by decide))

theorem hi_ofNat (t : ℕ) : hi (BitVec.ofNat 128 t) = BitVec.ofNat 64 (t / 2 ^ 64) := by
  apply BitVec.eq_of_toNat_eq
  rw [hi, BitVec.extractLsb'_toNat, BitVec.toNat_ofNat, BitVec.toNat_ofNat, Nat.shiftRight_eq_div_pow]
  omega

theorem wordsOf_take (bytes : List Byte) : wordsOf 16 (bytes.take 128) = wordsOf 16 bytes := by
  apply Vector.ext
  intro i hi
  rw [wordsOf, wordsOf, Vector.getElem_ofFn, Vector.getElem_ofFn, wordOf, wordOf]
  apply word64_congr
  intro j hj
  rw [List.getD_eq_getElem?_getD, List.getD_eq_getElem?_getD, List.getElem?_take_of_lt (by omega)]

theorem h_compress (S : Ctx) (block : List Byte) (t : ℕ) (last : Bool) (ht : S.t = BitVec.ofNat 128 t)
    (hf0 : S.f0 = lastWord last) (hf1 : S.f1 = 0) :
    (compress isa S block).h = mode.compress S.h (block.take 128) t last := by
  rw [compress, mode_compress]
  dsimp only
  rw [compressRows_eq, ht, lo_ofNat, hi_ofNat, lo_append, hi_append, hf0, hf1, wordsOf_take]

structure Absorbs (start : Vector Word 8) (msg : List Byte) (k : ℕ) (S : Ctx) : Prop where
  holds : Holds mode start msg k S.h (S.buf.take S.buflen)
  counter : S.t = BitVec.ofNat 128 (k * 128)
  size : S.buf.length = 256
  fits : S.buflen ≤ 256
  more : S.f0 = 0
  node : S.f1 = 0
  leaf : S.lastNode = false

theorem absorbs_initParam {p : List Byte} (hp : p.length = 64) :
    Absorbs (Digest.Blake2b.start p) [] 0 (initParam p) where
  holds := by
    have hh : (initParam p).h = Digest.Blake2b.start p := wordsOf_xor hp
    rw [hh]
    exact Holds.nil mode _
  counter := rfl
  size := List.length_replicate
  fits := Nat.zero_le _
  more := rfl
  node := rfl
  leaf := rfl

theorem Absorbs.tail_length (h : Absorbs start msg k S) : (S.buf.take S.buflen).length = S.buflen := by
  rw [List.length_take, h.size, Nat.min_eq_left h.fits]

theorem Absorbs.msg_length (h : Absorbs start msg k S) : msg.length = k * 128 + S.buflen := by
  rw [h.holds.length, h.tail_length]
  rfl

/-- `memcpy` into the free part of the buffer. -/
theorem Absorbs.append (h : Absorbs start msg k S) (data : List Byte) (hfit : S.buflen + data.length ≤ 256) :
    Absorbs start (msg ++ data) k
      { S with buf := memcpy S.buf S.buflen data, buflen := S.buflen + data.length } where
  holds := by
    dsimp only
    rw [take_memcpy data (by rw [h.size]; exact h.fits)]
    exact h.holds.append data
  counter := h.counter
  size := (length_memcpy (by rwa [h.size])).trans h.size
  fits := hfit
  more := h.more
  node := h.node
  leaf := h.leaf

/-- The first block is compressed and `n` bytes behind it move to the front. -/
theorem Absorbs.shift (h : Absorbs start msg k S) (hfull : 128 ≤ S.buflen) {n : ℕ}
    (hn : S.buflen - 128 ≤ n) (hn' : n ≤ 128) :
    Absorbs start msg (k + 1) { compress isa (incrementCounter S 128) S.buf with
      buf := memcpy S.buf 0 ((S.buf.drop 128).take n)
      buflen := S.buflen - 128 } := by
  have hlen : ((S.buf.drop 128).take n).length = n := by
    rw [List.length_take, List.length_drop, h.size]
    omega
  have hcounter : (incrementCounter S 128).t = BitVec.ofNat 128 ((k + 1) * 128) := by
    rw [incrementCounter, h.counter, Nat.succ_mul, BitVec.ofNat_add]
  have htail : (memcpy S.buf 0 ((S.buf.drop 128).take n)).take (S.buflen - 128) =
      (S.buf.take S.buflen).drop 128 := by
    rw [memcpy, List.take_zero, List.nil_append, List.take_append_of_le_length (by omega),
      List.take_take, Nat.min_eq_left hn, List.drop_take]
  have hblock : S.buf.take 128 = (S.buf.take S.buflen).take 128 := by
    rw [List.take_take, Nat.min_eq_left hfull]
  refine ⟨?_, hcounter, ?_, ?_, h.more, h.node, h.leaf⟩
  · dsimp only
    rw [htail, h_compress isa _ _ _ false hcounter h.more h.node, hblock]
    exact h.holds.compress (by rw [h.tail_length]; exact hfull)
  · exact (length_memcpy (by rw [hlen, h.size]; omega)).trans h.size
  · exact (Nat.sub_le _ _).trans h.fits

/-- Behind compressed blocks more than one block waits, once `inp` is in. -/
def Lazy (k : ℕ) (S : Ctx) (inp : List Byte) : Prop := 0 < k → 128 < S.buflen + inp.length

theorem updateLoop_absorbs {fuel : ℕ} {inp : List Byte} (h : Absorbs start msg k S)
    (hlazy : Lazy k S inp) (hfuel : inp.length + S.buflen / 256 ≤ fuel) :
    ∃ S' k', updateLoop isa fuel S inp = some S' ∧ Absorbs start (msg ++ inp) k' S' ∧
      Lazy k' S' [] := by
  induction fuel generalizing msg k S inp with
  | zero =>
    obtain rfl : inp = [] := List.length_eq_zero_iff.mp (by omega)
    exact ⟨S, k, rfl, by rwa [List.append_nil], hlazy⟩
  | succ fuel ih =>
    cases inp with
    | nil => exact ⟨S, k, rfl, by rwa [List.append_nil], hlazy⟩
    | cons x inp =>
      have hfits := h.fits
      rw [updateLoop]
      split_ifs with hfill
      · have hlen : ((x :: inp).take (256 - S.buflen)).length = 256 - S.buflen := by
          rw [List.length_take, Nat.min_eq_left hfill.le]
        have hleft : ((x :: inp).drop (256 - S.buflen)).length = (x :: inp).length - (256 - S.buflen) :=
          List.length_drop
        have hfull := h.append ((x :: inp).take (256 - S.buflen)) (by omega)
        rw [hlen] at hfull
        obtain ⟨S', k', hrun, habs, hk'⟩ := @ih _ _ _ ((x :: inp).drop (256 - S.buflen))
          (hfull.shift isa (by dsimp only; omega) (by dsimp only; omega) (Nat.le_refl 128))
          (fun _ => by dsimp only; omega) (by dsimp only; omega)
        rw [List.append_assoc, List.take_append_drop] at habs
        exact ⟨S', k', hrun, habs, hk'⟩
      · exact ⟨_, k, rfl, h.append _ (by omega), hlazy⟩

theorem update_absorbs (h : Absorbs start msg k S) (hlazy : Lazy k S []) (inp : List Byte) :
    ∃ S' k', update isa S inp = some S' ∧ Absorbs start (msg ++ inp) k' S' ∧ Lazy k' S' [] := by
  have hfits := h.fits
  refine updateLoop_absorbs isa h (fun hk => ?_) (by omega)
  exact (hlazy hk).trans_le (Nat.le_add_right _ _)

theorem updates_absorb (pieces : List (List Byte)) (h : Absorbs start msg k S) (hlazy : Lazy k S []) :
    ∃ S' k', pieces.foldlM (update isa) S = some S' ∧ Absorbs start (msg ++ pieces.flatten) k' S' ∧
      Lazy k' S' [] := by
  induction pieces generalizing msg k S with
  | nil => exact ⟨S, k, rfl, by rwa [List.flatten_nil, List.append_nil], hlazy⟩
  | cons inp pieces ih =>
    obtain ⟨S₁, k₁, hrun, habs, hk₁⟩ := update_absorbs isa h hlazy inp
    obtain ⟨S', k', hrest, habs', hk'⟩ := ih habs hk₁
    refine ⟨S', k', ?_, by rwa [List.flatten_cons, ← List.append_assoc], hk'⟩
    rw [List.foldlM_cons, hrun]
    exact hrest

theorem drain_absorbs (h : Absorbs start msg k S) (hlazy : Lazy k S []) :
    ∃ k', Absorbs start msg k' (drain isa S) ∧ (drain isa S).buflen ≤ 128 ∧
      (0 < k' → 0 < (drain isa S).buflen) := by
  have hfits := h.fits
  rw [drain]
  split_ifs with hlong
  · have hshift := h.shift isa hlong.le (Nat.le_refl _) (by omega)
    exact ⟨k + 1, hshift, Nat.sub_le_of_le_add hfits, fun _ => Nat.sub_pos_of_lt hlong⟩
  · exact ⟨k, h, by omega, fun hk => (Nat.zero_lt_succ 127).trans (hlazy hk)⟩

theorem compressLast_absorbs (h : Absorbs start msg k S) (hshort : S.buflen ≤ 128)
    (hne : 0 < k → 0 < S.buflen) : (compressLast isa S).h = mode.finish start msg := by
  have hlast : setLastblock (incrementCounter S S.buflen) =
      { S with t := S.t + BitVec.ofNat 128 S.buflen, f0 := BitVec.allOnes 64 } := by
    rw [setLastblock, incrementCounter, h.leaf]
    rfl
  have hcounter : S.t + BitVec.ofNat 128 S.buflen = BitVec.ofNat 128 msg.length := by
    rw [h.counter, ← BitVec.ofNat_add, h.msg_length]
  have hbuf : (memcpy S.buf S.buflen (List.replicate (256 - S.buflen) 0)).take 128 =
      mode.padded (S.buf.take S.buflen) := by
    rw [memcpy, Mode.padded, h.tail_length, List.length_replicate, List.append_assoc,
      List.take_append, h.tail_length, List.take_of_length_le (by rw [h.tail_length]; exact hshort),
      List.drop_eq_nil_of_le (by rw [h.size]; omega), List.append_nil, List.take_replicate,
      Nat.min_eq_left (by omega)]
    rfl
  rw [compressLast, hlast]
  refine (h_compress isa _ _ msg.length true ?_ ?_ ?_).trans ?_
  · exact hcounter
  · rfl
  · exact h.node
  dsimp only
  rw [hbuf]
  exact h.holds.finish (by rwa [h.tail_length]) (by rwa [h.tail_length])

theorem final_absorbs (h : Absorbs start msg k S) (hlazy : Lazy k S []) {outlen : ℕ} (hout : outlen ≤ 64) :
    (final isa S outlen).map Prod.fst = some ((allBytes (mode.finish start msg)).take outlen) := by
  obtain ⟨k', habs, hshort, hne⟩ := drain_absorbs isa h hlazy
  have hmore : isLastblock S = false := by rw [isLastblock, h.more]; rfl
  rw [final, if_neg (Nat.not_lt.mpr hout), hmore, if_neg Bool.false_ne_true]
  dsimp only
  rw [Option.map_some, compressLast_absorbs isa habs hshort hne]

theorem length_param (outlen keylen : ℕ) : (paramBytes (param outlen keylen)).length = 64 :=
  length_paramBytes List.length_replicate List.length_replicate

/-- The key, when there is one, is hashed as a block of its own before the message. -/
def keyBlock (key : List Byte) : List Byte :=
  if key.length = 0 then [] else key ++ List.replicate (128 - key.length) 0

theorem initHash_absorbs {outlen : ℕ} (hpos : 0 < outlen) (hout : outlen ≤ 64) {key : List Byte}
    (hkey : key.length ≤ 64) :
    ∃ S k, initHash isa outlen key = some S ∧
      Absorbs (Digest.Blake2b.start (paramBytes (param outlen key.length))) (keyBlock key) k S ∧
      Lazy k S [] := by
  have hlen : ¬(outlen = 0 ∨ 64 < outlen) := by omega
  have habs := absorbs_initParam (length_param outlen key.length)
  rw [initHash, keyBlock]
  split_ifs with hnil
  · rw [hnil] at habs ⊢
    exact ⟨_, 0, by rw [init, if_neg hlen], habs, fun hk => absurd hk (Nat.lt_irrefl 0)⟩
  · obtain ⟨S, k, hrun, habs, hlazy⟩ := update_absorbs isa habs
      (fun hk => absurd hk (Nat.lt_irrefl 0)) (memcpy (List.replicate 128 0) 0 key)
    refine ⟨S, k, ?_, ?_, hlazy⟩
    · rw [initKey, if_neg hlen, if_neg (by omega), hrun]
    · rwa [memcpy, List.take_zero, List.nil_append, List.nil_append, List.drop_replicate,
        Nat.zero_add] at habs

/-- However a message is cut into pieces and whatever instruction set is compiled, the stream returns
the first `outlen` bytes of its BLAKE2b digest, with or without a key. -/
theorem hash_eq {outlen : ℕ} (hpos : 0 < outlen) (hout : outlen ≤ 64) {key : List Byte}
    (hkey : key.length ≤ 64) (pieces : List (List Byte)) :
    hash isa outlen key pieces = some ((digest (paramBytes (param outlen key.length))
      (keyBlock key ++ pieces.flatten)).take outlen) := by
  obtain ⟨S₀, k₀, hinit, habs₀, hlazy₀⟩ := initHash_absorbs isa hpos hout hkey
  obtain ⟨S, k, hrun, habs, hlazy⟩ := updates_absorb isa pieces habs₀ hlazy₀
  have hfinal := final_absorbs isa habs hlazy hout
  rw [hash, hinit, Option.bind_eq_bind, Option.bind_some, hrun, digest, ← hfinal, Option.map_eq_bind,
    Option.bind_eq_bind, Option.bind_some]
  rfl

end Refinement

end Node

/-- Of the same bytes the miner's stream and the pool's compute one digest, the BLAKE2b digest, each
from its own pieces and compiled for its own instruction set; the miner's only below 64 KiB. -/
theorem hashers_agree (isa isa' : Isa) {outlen : ℕ} (hpos : 0 < outlen) (hout : outlen ≤ 64) {key : List Byte}
    (hkey : key.length ≤ 64) {pieces pieces' : List (List Byte)}
    (hsame : pieces.flatten = Node.keyBlock key ++ pieces'.flatten) :
    Node.hash isa' outlen key pieces' =
        some ((digest (paramBytes (Node.param outlen key.length)) pieces.flatten).take outlen) ∧
      (pieces.flatten.length < 2 ^ 16 →
        Short.hash isa (paramBytes (Node.param outlen key.length)) pieces outlen =
          Node.hash isa' outlen key pieces') := by
  have hnode := Node.hash_eq isa' hpos hout hkey pieces'
  rw [← hsame] at hnode
  refine ⟨hnode, fun hlen => ?_⟩
  rw [Short.hash_eq isa (Node.length_param outlen key.length) pieces hlen hout, hnode]

theorem hashers_agree_abc :
    Short.hash .sse2 (paramBytes (Node.param 32 0)) [[97], [98, 99]] 32 = Node.hash .xop 32 [] [[97, 98], [99]] := by
  have hkey : ([] : List Byte).length ≤ 64 := Nat.zero_le 64
  have hsame : ([[97], [98, 99]] : List (List Byte)).flatten =
      Node.keyBlock [] ++ ([[97, 98], [99]] : List (List Byte)).flatten := by decide
  exact (hashers_agree .sse2 .xop (by decide) (by decide) hkey hsame).2 (by decide)

end Aion.Blake2
