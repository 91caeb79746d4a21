import AionMiner.Equihash.Verifier
import AionMiner.Store.Buckets

/-! What `equi_miner_210.h` and `equi_miner.cu` have in common for `WN = 210`,
`WK = 9`, `RESTBITS = 7`: the constants, the packed tree nodes, the sizes of the
hashes of each round, and the bits each round looks at. -/

namespace Aion.Solver
open Equihash

abbrev Word := BitVec 32

/-- The words of a slot: what is left of a hash, and tree nodes. -/
abbrev Slot := ℕ → Word

def nbuckets : ℕ := 1 <<< 14
def slotBits : ℕ := 9
def nslotsMax : ℕ := 1 <<< slotBits
def nrests : ℕ := 1 <<< 7
def maxsols : ℕ := 10
def hashesPerBlake : ℕ := 512 / 210
def nhashes : ℕ := 2 * (1 <<< 21)
def nblocks : ℕ := (nhashes + hashesPerBlake - 1) / hashesPerBlake
def proofsize : ℕ := 1 <<< 9

/-- `setheader` of `equi.h`: the last eight bytes of `"AION0PoW01230123"` are overwritten. -/
def setheader (header nonce : List Byte) : Blake2bState :=
  let text : List Byte := [0x41, 0x49, 0x4f, 0x4e, 0x30, 0x50, 0x6f, 0x57, 0x30, 0x31, 0x32, 0x33, 0x30, 0x31,
    0x32, 0x33]
  let ctx : Blake2bState :=
    { digestLength := hashOutput, keyLength := 0, fanout := 1, depth := 1, leafLength := 0, nodeOffset := 0
      nodeDepth := 0, innerLength := 0, salt := List.replicate 16 0
      personal := text.take 8 ++ le32 paramN ++ le32 paramK, absorbed := [] }
  (ctx.update header).update nonce

section Tree

def tree (bid s0 s1 : ℕ) : Word :=
  ((BitVec.ofNat 32 bid <<< slotBits ||| BitVec.ofNat 32 s0) <<< slotBits) ||| BitVec.ofNat 32 s1

def getindex (t : Word) : ℕ := t.toNat
def bucketid (t : Word) : ℕ := (t >>> (2 * slotBits)).toNat
def slotid0 (t : Word) : ℕ := ((t >>> slotBits) &&& 0x1ff).toNat
def slotid1 (t : Word) : ℕ := (t &&& 0x1ff).toNat

end Tree

section Layout

/-- Bytes of a hash still stored after round `r`. No round is beyond 9. -/
def hashsize : ℕ → ℕ
  | 0 => 26
  | 1 => 23
  | 2 => 20
  | 3 => 18
  | 4 => 15
  | 5 => 13
  | 6 => 10
  | 7 => 7
  | 8 => 5
  | _ => 0

def hashwords (bytes : ℕ) : ℕ := (bytes + 3) / 4

def nexthtunits (r : ℕ) : ℕ := hashwords (hashsize r)
def prevhtunits (r : ℕ) : ℕ := hashwords (hashsize (r - 1))
def nextbo (r : ℕ) : ℕ := nexthtunits r * 4 - hashsize r
def prevbo (r : ℕ) : ℕ := prevhtunits r * 4 - hashsize (r - 1)
def dunits (r : ℕ) : ℕ := prevhtunits r - nexthtunits r

/-- Where round `r` puts the tree node and the hash words of an entry inside its slot: outside
each other, and off every tree node an earlier round left in the same heap. -/
structure Layout where
  tag : ℕ → ℕ
  hash : ℕ → ℕ
  tag_hash : ∀ r < 9, tag r < hash r ∨ hash r + nexthtunits r ≤ tag r
  frame : ∀ r < 9, ∀ r' < r, r' % 2 = r % 2 →
    tag r' ≠ tag r ∧ (tag r' < hash r ∨ hash r + nexthtunits r ≤ tag r')

end Layout

section Bytes

/-- Byte `k` of the words from a slot on; words are little-endian in memory. -/
def slotByte (slot : Slot) (k : ℕ) : Byte := (slot (k / 4)).extractLsb' (8 * (k % 4)) 8

def wordOfBytes (f : ℕ → Byte) : Word := f 3 ++ f 2 ++ f 1 ++ f 0

def memcpyBytes (dst len : ℕ) (src : ℕ → Byte) (slot : Slot) : Slot := fun w =>
  wordOfBytes fun i =>
    if dst ≤ 4 * w + i ∧ 4 * w + i < dst + len then src (4 * w + i - dst)
    else slotByte slot (4 * w + i)

def u32 (b : Byte) : Word := b.setWidth 32

def bucketid0 (ph : ℕ → Byte) : Word := u32 (ph 0) <<< 6 ||| u32 (ph 1) >>> 2

def xhash (r : ℕ) (bytes : ℕ → Byte) : Word :=
  let bo := prevbo r
  match r with
  | 1 => (u32 (bytes bo) &&& 0x3) <<< 5 ||| u32 (bytes (bo + 1)) >>> 3
  | 2 => (u32 (bytes bo) &&& 0x1f) <<< 2 ||| u32 (bytes (bo + 1)) >>> 6
  | 3 => u32 (bytes bo) >>> 1
  | 4 => (u32 (bytes bo) &&& 0x7) <<< 4 ||| u32 (bytes (bo + 1)) >>> 4
  | 5 => (u32 (bytes bo) &&& 0x3f) <<< 1 ||| u32 (bytes (bo + 1)) >>> 7
  | 6 => (u32 (bytes bo) &&& 0x1) <<< 6 ||| u32 (bytes (bo + 1)) >>> 2
  | 7 => (u32 (bytes bo) &&& 0xf) <<< 3 ||| u32 (bytes (bo + 1)) >>> 5
  | 8 => u32 (bytes bo) &&& 0x7f
  | 9 => (u32 (bytes bo) &&& 0x3) <<< 5 ||| u32 (bytes (bo + 1)) >>> 3
  | _ => 0

def xorbucketid (r : ℕ) (bytes0 bytes1 : ℕ → Byte) : Word :=
  let bo := prevbo r
  let x i := u32 (bytes0 (bo + i) ^^^ bytes1 (bo + i))
  match r with
  | 1 => ((x 1 &&& 0x7) <<< 8 ||| x 2) <<< 3 ||| x 3 >>> 5
  | 2 => (x 1 &&& 0x3f) <<< 8 ||| x 2
  | 3 => ((x 0 &&& 0x1) <<< 8 ||| x 1) <<< 5 ||| x 2 >>> 3
  | 4 => ((x 1 &&& 0xf) <<< 8 ||| x 2) <<< 2 ||| x 3 >>> 6
  | 5 => (x 1 &&& 0x7f) <<< 7 ||| x 2 >>> 1
  | 6 => ((x 1 &&& 0x3) <<< 8 ||| x 2) <<< 4 ||| x 3 >>> 4
  | 7 => ((x 1 &&& 0x1f) <<< 8 ||| x 2) <<< 1 ||| x 3 >>> 7
  | 8 => x 1 <<< 6 ||| x 2 >>> 2
  | _ => 0

def equal (r : ℕ) (hash0 hash1 : Slot) : Bool := hash0 (prevhtunits r - 1) == hash1 (prevhtunits r - 1)

/-- The last 21 bits agree, the test of round 9. -/
def equal210 (bytes0 bytes1 : ℕ → Byte) : Bool :=
  let bo := prevbo 9
  (bytes0 (bo + 1) &&& 0x7) == (bytes1 (bo + 1) &&& 0x7) && bytes0 (bo + 2) == bytes1 (bo + 2) &&
    bytes0 (bo + 3) == bytes1 (bo + 3) && bytes0 (bo + 4) >>> 6 == bytes1 (bo + 4) >>> 6

end Bytes

structure Memory where
  heap : ℕ → ℕ → ℕ → Slot
  nslots : ℕ → ℕ → ℕ

namespace Memory

def withHeap (M : Memory) (i : ℕ) (bid s : ℕ) (slot : Slot) : Memory :=
  let bucket := Function.update (M.heap i bid) s slot
  { M with heap := Function.update M.heap i (Function.update (M.heap i) bid bucket) }

def withCount (M : Memory) (i bid n : ℕ) : Memory :=
  { M with nslots := Function.update M.nslots i (Function.update (M.nslots i) bid n) }

def getnslots (M : Memory) (i bid : ℕ) : ℕ × Memory :=
  (min (M.nslots i bid) nslotsMax, M.withCount i bid 0)

def getslot (M : Memory) (i bid : ℕ) : ℕ × Memory :=
  (M.nslots i bid, M.withCount i bid ((M.nslots i bid + 1) % 2 ^ 32))

def place (M : Memory) (i bid : ℕ) (write : Slot → Slot) : Memory :=
  let (slot, M) := M.getslot i bid
  if slot ≥ nslotsMax then M else M.withHeap i bid slot (write (M.heap i bid slot))

def prevHash (L : Layout) (r : ℕ) (M : Memory) (bid s : ℕ) : Slot := fun w =>
  M.heap ((r - 1) % 2) bid s (L.hash (r - 1) + w)

end Memory
end Aion.Solver
