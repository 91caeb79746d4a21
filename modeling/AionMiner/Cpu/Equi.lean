import AionMiner.Equihash.Verifier
import AionMiner.Solver.Listing
import AionMiner.Solver.Rounds

/-! The CPU solver: `equi` of `equi_miner_210.h` with one thread, as
`CPU_TROMP::solve` runs it. -/

namespace Aion.Cpu
open Bits Equihash Solver

def layout : Layout where
  tag := nexthtunits
  hash _ := 0
  tag_hash := by decide
  frame := by decide

/-- The solver object. `calls` is a log of the trees `candidate` was called on; no function reads it. -/
structure Equi where
  bstate : Blake2bState
  mem : Memory
  sols : ℕ → List ℕ
  nsols : ℕ
  calls : List Word

/-- The constructor; its buffers come from `calloc`. -/
def Equi.new : Equi where
  bstate := setheader [] []
  mem := { heap := fun _ _ _ _ => 0, nslots := fun _ _ => 0 }
  sols _ := List.replicate proofsize 0
  nsols := 0
  calls := []

namespace Equi

def setnonce (e : Equi) (header nonce : List Byte) : Equi :=
  { e with
    bstate := setheader header nonce
    mem := { e.mem with nslots := Function.update e.mem.nslots 0 fun _ => 0 }
    nsols := 0
    calls := [] }

section Digits

def digit0Leaf (H : Blake2b) (block j : ℕ) (e : Equi) : Equi :=
  let hashes := H (e.bstate.update (le32 block))
  let ph k := hashes (j * hashLen + k)
  let mem := e.mem.place 0 (bucketid0 ph).toNat fun s =>
    let s := memcpyBytes (4 * nexthtunits 0 - hashsize 0) (hashsize 0) (fun k => ph (hashLen - hashsize 0 + k)) s
    Function.update s (nexthtunits 0) (BitVec.ofNat 32 (block * hashesPerBlake + j))
  { e with mem := mem }

def digit0 (H : Blake2b) (e : Equi) : Equi :=
  (List.range nblocks).foldl (fun e block =>
    (List.range hashesPerBlake).foldl (fun e j => e.digit0Leaf H block j) e) e

def storeXor (r : ℕ) (hash0 hash1 slot : Slot) : Slot :=
  (List.range (prevhtunits r - dunits r)).foldl
    (fun xs i => Function.update xs i (hash0 (dunits r + i) ^^^ hash1 (dunits r + i))) slot

def digitPair (r bucketid s0 s1 : ℕ) (e : Equi) : Equi :=
  let hash0 := e.mem.prevHash layout r bucketid s0
  let hash1 := e.mem.prevHash layout r bucketid s1
  if equal r hash0 hash1 then e
  else
    let xorbucket := (xorbucketid r (slotByte hash0) (slotByte hash1)).toNat
    let mem := e.mem.place (r % 2) xorbucket fun xs =>
      Function.update (storeXor r hash0 hash1 xs) (prevhtunits r - dunits r) (tree bucketid s0 s1)
    { e with mem := mem }

def eachPair (r : ℕ) (pair : ℕ → ℕ → ℕ → Equi → Equi) (e : Equi) : Equi :=
  (List.range nbuckets).foldl (fun e bucketid =>
    let (bsize, mem) := e.mem.getnslots ((r - 1) % 2) bucketid
    bucketLoop (fun e s => e.mem.rest layout r bucketid s) (pair bucketid) bsize ⟨fun _ => 0, fun _ => 0, 0⟩
      { e with mem := mem }) e

def digit1 : Equi → Equi := eachPair 1 (digitPair 1)
def digit2 : Equi → Equi := eachPair 2 (digitPair 2)
def digit3 : Equi → Equi := eachPair 3 (digitPair 3)
def digit4 : Equi → Equi := eachPair 4 (digitPair 4)
def digit5 : Equi → Equi := eachPair 5 (digitPair 5)
def digit6 : Equi → Equi := eachPair 6 (digitPair 6)
def digit7 : Equi → Equi := eachPair 7 (digitPair 7)
def digit8 : Equi → Equi := eachPair 8 (digitPair 8)

end Digits

section Candidates

/-- False for trees that share a child subtree. -/
def probDisjoint (t0 t1 : Word) : Bool :=
  let xort := t0 ^^^ t1
  bucketid xort != 0 || (slotid0 xort != 0 && slotid1 xort != 0)

/-- The last three disjuncts of `listindices0` and `listindices1`; `none` is their `true`. -/
def joinIndices (size : ℕ) (first second : Option (List ℕ)) : Option (List ℕ) :=
  first.bind fun a => second.bind fun b =>
    let indices := orderindices (a ++ b) size
    if indices.getD 0 0 == indices.getD size 0 then none else some indices

mutual

def listindices0 (mem : Memory) : ℕ → Word → Option (List ℕ)
  | 0, t => some [getindex t]
  | r + 1, t =>
    let tagi := hashwords (hashsize r)
    let t0 := mem.heap 1 (bucketid t) (slotid0 t) tagi
    let t1 := mem.heap 1 (bucketid t) (slotid1 t) tagi
    if !probDisjoint t0 t1 then none
    else joinIndices (1 <<< r) (listindices1 mem r t0) (listindices1 mem r t1)

/-- Only called with odd heights. -/
def listindices1 (mem : Memory) : ℕ → Word → Option (List ℕ)
  | 0, _ => none
  | r + 1, t =>
    let tagi := hashwords (hashsize r)
    let t0 := mem.heap 0 (bucketid t) (slotid0 t) tagi
    let t1 := mem.heap 0 (bucketid t) (slotid1 t) tagi
    joinIndices (1 <<< r) (listindices0 mem r t0) (listindices0 mem r t1)

end

def duped (prf : List ℕ) : Bool :=
  let sortprf := prf.mergeSort fun a b => decide (a ≤ b)
  (List.range (proofsize - 1)).any fun i => decide (sortprf.getD (i + 1) 0 ≤ sortprf.getD i 0)

def candidate (t : Word) (e : Equi) : Equi :=
  let e := { e with calls := e.calls ++ [t] }
  match listindices1 e.mem 9 t with
  | none => e
  | some prf =>
    if duped prf then e
    else
      { e with
        nsols := (e.nsols + 1) % 2 ^ 32
        sols := if e.nsols < maxsols then Function.update e.sols e.nsols prf else e.sols }

def digit9Pair (bucketid s0 s1 : ℕ) (e : Equi) : Equi :=
  if equal210 (slotByte (e.mem.prevHash layout 9 bucketid s0)) (slotByte (e.mem.prevHash layout 9 bucketid s1)) then
    candidate (tree bucketid s0 s1) e
  else e

def digit9 : Equi → Equi := eachPair 9 digit9Pair

end Candidates
end Equi

/-- The calls of `CPU_TROMP::solve` after `digit0`. -/
def Equi.digit : ℕ → Equi → Equi
  | 1 => digit1
  | 2 => digit2
  | 3 => digit3
  | 4 => digit4
  | 5 => digit5
  | 6 => digit6
  | 7 => digit7
  | 8 => digit8
  | 9 => digit9
  | _ => id

def after (H : Blake2b) (header nonce : List Byte) : ℕ → Equi
  | 0 => (Equi.new.setnonce header nonce).digit0 H
  | r + 1 => (after H header nonce r).digit (r + 1)

end Aion.Cpu
