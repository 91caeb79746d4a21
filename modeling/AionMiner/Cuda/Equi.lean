import AionMiner.Solver.Listing
import AionMiner.Solver.Rounds
import AionMiner.Store.Kernel

/-! The CUDA solver: `equi` and its kernels from `equi_miner.cu`, and
`eq_cuda_context::solve`. Inside a kernel the steps of the threads interleave. -/

namespace Aion.Cuda
open Bits Equihash Solver Store

/-- The tree node stands first. The arrays of later rounds start one word further each: `heap0` and
`heap1` are pointers to words, and round `r` reads its array at `heap + r / 2`. -/
def layout : Layout where
  tag r := r / 2
  hash r := r / 2 + 1
  tag_hash := by decide
  frame := by decide

structure Equi where
  bstate : Blake2bState
  mem : Memory
  sols : ℕ → List ℕ
  nsols : ℕ

def Equi.zeroed : Equi where
  bstate := setheader [] []
  mem := { heap := fun _ _ _ _ => 0, nslots := fun _ _ => 0 }
  sols _ := List.replicate proofsize 0
  nsols := 0

namespace Equi

def setheadernonce (e : Equi) (header nonce : List Byte) : Equi :=
  { e with
    bstate := setheader header nonce
    mem := { e.mem with nslots := Function.update e.mem.nslots 0 fun _ => 0 }
    nsols := 0 }

section Memory

def buckets (i : ℕ) (e : Equi) : Buckets ℕ Slot := e.mem.buckets i

def withBuckets (i : ℕ) (e : Equi) (B : Buckets ℕ Slot) : Equi :=
  { e with mem := ⟨Function.update e.mem.heap i B.slot, Function.update e.mem.nslots i B.count⟩ }

/-- `nsols` and `sols`, which take solutions like a bucket takes entries. -/
def proofs (e : Equi) : Buckets Unit (List ℕ) := ⟨fun _ => e.nsols, fun _ => e.sols⟩

def withProofs (e : Equi) (B : Buckets Unit (List ℕ)) : Equi := { e with nsols := B.count (), sols := B.slot () }

end Memory

section Digits

def ph (H : Blake2b) (e : Equi) (block i k : ℕ) : Byte := H (e.bstate.update (le32 block)) (i * hashLen + k)

def leafWrites (H : Blake2b) (e : Equi) (q : ℕ × ℕ) : List (Slot → Slot) :=
  (fun s => Function.update s (layout.tag 0) (BitVec.ofNat 32 (q.1 * hashesPerBlake + q.2))) ::
    (List.range (hashsize 0)).map fun k =>
      memcpyBytes (4 * layout.hash 0 + nextbo 0 + k) 1 fun _ => ph H e q.1 q.2 (hashLen - hashsize 0 + k)

def digitH (H : Blake2b) : Kernel Equi ℕ Slot (ℕ × ℕ) where
  fetch block e := ((List.range hashesPerBlake).map fun i => (block, i), e)
  skips _ _ := false
  placement e :=
    { capacity := nslotsMax
      modulus := 2 ^ 32
      key := fun q => (bucketid0 (ph H e q.1 q.2)).toNat
      write := fun q => runSteps (leafWrites H e q) }
  steps := leafWrites H
  buckets := buckets 0
  withBuckets := withBuckets 0

def collisions (r bucketid : ℕ) (e : Equi) : List (ℕ × ℕ × ℕ) × Equi :=
  let (bsize, mem) := e.mem.getnslots ((r - 1) % 2) bucketid
  (bucketLoop (fun _ s => e.mem.rest layout r bucketid s) (fun s0 s1 ps => ps ++ [(bucketid, s0, s1)]) bsize
    ⟨fun _ => 0, fun _ => 0, 0⟩ [], { e with mem := mem })

def xorWrites (r : ℕ) (e : Equi) (p : ℕ × ℕ × ℕ) : List (Slot → Slot) :=
  let hash0 := e.mem.prevHash layout r p.1 p.2.1
  let hash1 := e.mem.prevHash layout r p.1 p.2.2
  (fun s => Function.update s (layout.tag r) (tree p.1 p.2.1 p.2.2)) ::
    (List.range' (dunits r) (prevhtunits r - dunits r)).map fun i s =>
      Function.update s (layout.hash r + (i - dunits r)) (hash0 i ^^^ hash1 i)

def digitXor (r : ℕ) : Kernel Equi ℕ Slot (ℕ × ℕ × ℕ) where
  fetch := collisions r
  skips e p := equal r (e.mem.prevHash layout r p.1 p.2.1) (e.mem.prevHash layout r p.1 p.2.2)
  placement e :=
    { capacity := nslotsMax
      modulus := 2 ^ 32
      key := fun p => (xorbucketid r (slotByte (e.mem.prevHash layout r p.1 p.2.1))
        (slotByte (e.mem.prevHash layout r p.1 p.2.2))).toNat
      write := fun p => runSteps (xorWrites r e p) }
  steps := xorWrites r
  buckets := buckets (r % 2)
  withBuckets := withBuckets (r % 2)

def digit1 : Kernel Equi ℕ Slot (ℕ × ℕ × ℕ) := digitXor 1
def digit2 : Kernel Equi ℕ Slot (ℕ × ℕ × ℕ) := digitXor 2
def digit3 : Kernel Equi ℕ Slot (ℕ × ℕ × ℕ) := digitXor 3
def digit4 : Kernel Equi ℕ Slot (ℕ × ℕ × ℕ) := digitXor 4
def digit5 : Kernel Equi ℕ Slot (ℕ × ℕ × ℕ) := digitXor 5
def digit6 : Kernel Equi ℕ Slot (ℕ × ℕ × ℕ) := digitXor 6
def digit7 : Kernel Equi ℕ Slot (ℕ × ℕ × ℕ) := digitXor 7
def digit8 : Kernel Equi ℕ Slot (ℕ × ℕ × ℕ) := digitXor 8

end Digits

section Candidates

/-- `listindices1 .. listindices9`, by height. -/
def listindices (mem : Memory) : ℕ → Word → List ℕ
  | 0, t => [getindex t]
  | r + 1, t =>
    let attr s := mem.heap (r % 2) (bucketid t) s (layout.tag r)
    orderindices (listindices mem r (attr (slotid0 t)) ++ listindices mem r (attr (slotid1 t))) (1 <<< r)

/-- The loop of `probdupe`; `susp` are 16-bit numbers. -/
def probdupeFrom : List ℕ → (ℕ → ℕ) → Bool
  | [], _ => false
  | x :: prf, susp =>
    let bin := x % proofsize
    let msb := x / 2 ^ 9 % 2 ^ 16
    if msb = susp bin then true else probdupeFrom prf (Function.update susp bin msb)

def probdupe (prf : List ℕ) : Bool := probdupeFrom prf fun _ => 0xffff

/-- A pair that fails the test of the last 21 bits, or the duplicate test of `candidate`, takes no number. -/
def digit9 : Kernel Equi Unit (List ℕ) (ℕ × ℕ × ℕ) where
  fetch := collisions 9
  skips e p :=
    !equal210 (slotByte (e.mem.prevHash layout 9 p.1 p.2.1)) (slotByte (e.mem.prevHash layout 9 p.1 p.2.2)) ||
      probdupe (listindices e.mem 9 (tree p.1 p.2.1 p.2.2))
  placement e :=
    { capacity := maxsols
      modulus := 2 ^ 32
      key := fun _ => ()
      write := fun p _ => listindices e.mem 9 (tree p.1 p.2.1 p.2.2) }
  steps e p := [fun _ => listindices e.mem 9 (tree p.1 p.2.1 p.2.2)]
  buckets := proofs
  withBuckets := withProofs

end Candidates

def digit : ℕ → Kernel Equi ℕ Slot (ℕ × ℕ × ℕ)
  | 1 => digit1
  | 2 => digit2
  | 3 => digit3
  | 4 => digit4
  | 5 => digit5
  | 6 => digit6
  | 7 => digit7
  | _ => digit8

end Equi

/-- A solve that is not cancelled: each kernel runs, in some interleaving of its threads, to the end
before the next one starts. `e r` is the memory after digit `r`. -/
structure Solve (H : Blake2b) (n : ℕ) (header nonce : List Byte) (start : Equi) (e : ℕ → Equi) : Prop where
  digitH : (Equi.digitH H).Runs n nblocks (start.setheadernonce header nonce) (e 0)
  digit : ∀ r, 1 ≤ r → r ≤ 8 → (Equi.digit r).Runs n nbuckets (e (r - 1)) (e r)
  digit9 : Equi.digit9.Runs n nbuckets (e 8) (e 9)

end Aion.Cuda
