import AionMiner.Equihash.Hash

/-! `Equihash<210,9>` of `equi210.h` and `equi210.cpp`. -/

namespace Aion.Equihash
open Bits

def paramN : ℕ := 210
def paramK : ℕ := 9
def collisionBitLength : ℕ := paramN / (paramK + 1)
def collisionByteLength : ℕ := (collisionBitLength + 7) / 8
def hashLength : ℕ := (paramK + 1) * collisionByteLength
def finalFullWidth : ℕ := 2 * collisionByteLength + 4 * 2 ^ paramK
def solutionWidth : ℕ := 2 ^ paramK * (collisionBitLength + 1) / 8

def personalPrefix : List Byte := [0x41, 0x49, 0x4f, 0x4e, 0x30, 0x50, 0x6f, 0x57]

def initialiseState : Blake2bState where
  digestLength := hashOutput
  keyLength := 0
  fanout := 1
  depth := 1
  leafLength := 0
  nodeOffset := 0
  nodeDepth := 0
  innerLength := 0
  salt := List.replicate 16 0
  personal := personalPrefix ++ le32 paramN ++ le32 paramK
  absorbed := []

def generateHash (H : Blake2b) (base : Blake2bState) (g : ℕ) : List Byte :=
  (List.range hashOutput).map (H (base.update (le32 g)))

def memcmp : List Byte → List Byte → Ordering
  | x :: xs, y :: ys => (compare x.toNat y.toNat).then (memcmp xs ys)
  | _, _ => .eq

/-- A `FullStepRow`: the remaining hash bytes, the indices behind them, and unused space. -/
abbrev StepRow := List Byte

namespace StepRow

def slice (row : StepRow) (start len : ℕ) : List Byte :=
  (List.range len).map fun x => row.getD (start + x) 0#8

def ofHash (hashIn : List Byte) (hLen cBitLen i : ℕ) : StepRow :=
  let hash := expandArray hashIn (List.replicate finalFullWidth 0) cBitLen 0
  writeLoop hLen 0 4 (fun x => (ehIndexToArray i).getD x 0#8) hash

def indicesBefore (a b : StepRow) (len lenIndices : ℕ) : Bool :=
  memcmp (a.slice len lenIndices) (b.slice len lenIndices) == .lt

def distinctIndices (a b : StepRow) (len lenIndices : ℕ) : Bool :=
  (List.range (lenIndices / 4)).all fun i => (List.range (lenIndices / 4)).all fun j =>
    memcmp (a.slice (len + 4 * i) 4) (b.slice (len + 4 * j) 4) != .eq

def hasCollision (a b : StepRow) (l : ℕ) : Bool :=
  (List.range l).all fun j => a.getD j 0#8 == b.getD j 0#8

def isZero (a : StepRow) (len : ℕ) : Bool := (List.range len).all fun i => a.getD i 0#8 == 0#8

/-- The merging constructor of `FullStepRow`. -/
def merge (a b : StepRow) (len lenIndices trim : ℕ) : StepRow :=
  let hash := writeLoop 0 0 (len - trim) (fun x => a.getD (x + trim) 0#8 ^^^ b.getD (x + trim) 0#8) a
  let first := if a.indicesBefore b len lenIndices then a else b
  let second := if a.indicesBefore b len lenIndices then b else a
  let hash := writeLoop (len - trim) 0 lenIndices (fun x => first.getD (len + x) 0#8) hash
  writeLoop (len - trim + lenIndices) 0 lenIndices (fun x => second.getD (len + x) 0#8) hash

def mergeable (a b : StepRow) (len lenIndices : ℕ) : Bool :=
  a.hasCollision b collisionByteLength && !b.indicesBefore a len lenIndices &&
    a.distinctIndices b len lenIndices

end StepRow

/-- One pass of the inner loop; `none` is its `return false`. A row without a partner does
not occur: the number of rows is a power of two. -/
def mergePass (len lenIndices : ℕ) : List StepRow → Option (List StepRow)
  | a :: b :: rest =>
    if a.mergeable b len lenIndices then
      (mergePass len lenIndices rest).map (a.merge b len lenIndices collisionByteLength :: ·)
    else none
  | [_] => none
  | [] => some []

theorem length_mergePass {len lenIndices : ℕ} : ∀ {rows rows' : List StepRow},
    mergePass len lenIndices rows = some rows' → 2 * rows'.length = rows.length
  | a :: b :: rest, rows', h => by
    rw [mergePass] at h
    split at h
    · obtain ⟨tail, htail, rfl⟩ := Option.map_eq_some_iff.mp h
      have := length_mergePass htail
      simp only [List.length_cons]
      omega
    · cases h
  | [], rows', h => by
    cases h
    rfl

/-- The `while` loop, and the final test on the one remaining row. -/
def mergeLevels (len lenIndices : ℕ) (rows : List StepRow) : Bool :=
  if 1 < rows.length then
    match h : mergePass len lenIndices rows with
    | none => false
    | some rows' => mergeLevels (len - collisionByteLength) (lenIndices * 2) rows'
  else (rows.getD 0 []).isZero len
termination_by rows.length
decreasing_by
  have := length_mergePass h
  omega

def leafRow (H : Blake2b) (base : Blake2bState) (i : ℕ) : StepRow :=
  let tmpHash := generateHash H base (i / indicesPerHashOutput)
  let hashIn := (tmpHash.drop (i % indicesPerHashOutput * hashLen)).take hashLen
  StepRow.ofHash hashIn hashLength collisionBitLength i

def isValidSolution (H : Blake2b) (base : Blake2bState) (soln : List Byte) : Bool :=
  if soln.length ≠ solutionWidth then false
  else mergeLevels hashLength 4
    ((getIndicesFromMinimal soln collisionBitLength).map (leafRow H base))

/-- `hdr` and `soln` are read as 64 and 1408 bytes. -/
def verifyEH (H : Blake2b) (hdr soln : List Byte) : Bool :=
  isValidSolution H (initialiseState.update (hdr.take 64)) (soln.take 1408)

end Aion.Equihash
