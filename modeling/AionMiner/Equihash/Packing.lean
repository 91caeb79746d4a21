import AionMiner.Bits.Stream
import AionMiner.Bits.Buffer

/-! The bit packing of `equi210.cpp`, shared by the verifier and (with two
assertions in front) by `AionStratum.cpp`. -/

namespace Aion.Equihash
open Bits

/-- The state of either packing loop. The `accBits` low bits of `accValue` are pending;
`j` is the cursor in the array of elements. -/
structure PackState where
  accBits : ℕ
  accValue : BitVec 32
  j : ℕ
  out : List Byte

def bitLenMask (bitLen : ℕ) : BitVec 32 := (1#32 <<< bitLen) - 1#32

def outWidth (bitLen bytePad : ℕ) : ℕ := (bitLen + 7) / 8 + bytePad

def expandByte (bitLen width accBits : ℕ) (accValue : BitVec 32) (x : ℕ) : Byte :=
  ((accValue >>> (accBits + 8 * (width - x - 1))) &&&
    ((bitLenMask bitLen >>> (8 * (width - x - 1))) &&& 0xff#32)).setWidth 8

def expandStep (bitLen bytePad : ℕ) (s : PackState) (b : Byte) : PackState :=
  let width := outWidth bitLen bytePad
  let accValue := (s.accValue <<< 8) ||| b.setWidth 32
  if bitLen ≤ s.accBits + 8 then
    let accBits := s.accBits + 8 - bitLen
    let out := writeLoop s.j 0 bytePad (fun _ => 0#8) s.out
    { accBits := accBits
      accValue := accValue
      j := s.j + width
      out := writeLoop s.j bytePad (width - bytePad) (expandByte bitLen width accBits accValue) out }
  else { s with accBits := s.accBits + 8, accValue := accValue }

def expandArray (inp out : List Byte) (bitLen bytePad : ℕ) : List Byte :=
  (inp.foldl (expandStep bitLen bytePad) ⟨0, 0#32, 0, out⟩).out

/-- One input byte shifted to its place, masked to the `bitLen` low bits of the element. -/
def compressByte (inp : List Byte) (bitLen width j : ℕ) (accValue : BitVec 32) (x : ℕ) : BitVec 32 :=
  accValue ||| (((inp.getD (j + x) 0#8).setWidth 32 &&&
    ((bitLenMask bitLen >>> (8 * (width - x - 1))) &&& 0xff#32)) <<< (8 * (width - x - 1)))

def compressRead (inp : List Byte) (bitLen bytePad : ℕ) (s : PackState) : PackState :=
  let width := outWidth bitLen bytePad
  { s with
    accBits := s.accBits + bitLen
    accValue := (List.range' bytePad (width - bytePad)).foldl
      (compressByte inp bitLen width s.j) (s.accValue <<< bitLen)
    j := s.j + width }

def compressWrite (s : PackState) (i : ℕ) : PackState :=
  { s with
    accBits := s.accBits - 8
    out := s.out.set i (((s.accValue >>> (s.accBits - 8)) &&& 0xff#32).setWidth 8) }

/-- With fewer than 8 bits left in the accumulator, the next element is read first. -/
def compressStep (inp : List Byte) (bitLen bytePad : ℕ) (s : PackState) (i : ℕ) : PackState :=
  compressWrite (if s.accBits < 8 then compressRead inp bitLen bytePad s else s) i

def compressArray (inp out : List Byte) (bitLen bytePad : ℕ) : List Byte :=
  ((List.range out.length).foldl (compressStep inp bitLen bytePad) ⟨0, 0#32, 0, out⟩).out

def ehIndexToArray (i : ℕ) : List Byte :=
  [BitVec.ofNat 8 (i >>> 24), BitVec.ofNat 8 (i >>> 16), BitVec.ofNat 8 (i >>> 8), BitVec.ofNat 8 i]

def arrayToEhIndex (array : List Byte) : ℕ := beNat (array.take 4)

def getIndicesFromMinimal (minimal : List Byte) (cBitLen : ℕ) : List ℕ :=
  let lenIndices := 8 * 4 * minimal.length / (cBitLen + 1)
  let bytePad := 4 - (cBitLen + 1 + 7) / 8
  let array := expandArray minimal (List.replicate lenIndices 0) (cBitLen + 1) bytePad
  (List.range' 0 ((lenIndices + 3) / 4)).map fun i => arrayToEhIndex (array.drop (4 * i))

def getMinimalFromIndices (indices : List ℕ) (cBitLen : ℕ) : List Byte :=
  let lenIndices := indices.length * 4
  let minLen := (cBitLen + 1) * lenIndices / (8 * 4)
  let bytePad := 4 - (cBitLen + 1 + 7) / 8
  compressArray (indices.flatMap ehIndexToArray) (List.replicate minLen 0) (cBitLen + 1) bytePad

end Aion.Equihash

namespace Aion.Miner
open Equihash

/-- The copy in `AionStratum.cpp`: a failed assertion ends the process. -/
def compressArray (inp out : List Byte) (bitLen bytePad : ℕ) : Option (List Byte) :=
  if 8 ≤ bitLen ∧ 7 + bitLen ≤ 8 * 4 ∧
      out.length = bitLen * inp.length / (8 * outWidth bitLen bytePad) then
    some (Equihash.compressArray inp out bitLen bytePad)
  else none

def getMinimalFromIndices (indices : List ℕ) (cBitLen : ℕ) : Option (List Byte) :=
  if (cBitLen + 1 + 7) / 8 ≤ 4 then
    let lenIndices := indices.length * 4
    let minLen := (cBitLen + 1) * lenIndices / (8 * 4)
    let bytePad := 4 - (cBitLen + 1 + 7) / 8
    compressArray (indices.flatMap ehIndexToArray) (List.replicate minLen 0) (cBitLen + 1) bytePad
  else none

end Aion.Miner
