import AionMiner.Equihash.Packing
import Mathlib.Algebra.BigOperators.Group.List.Basic

/-! The hash inputs of verifier and solvers, and leaf hashes as a group under
exclusive or. BLAKE2b itself is a parameter. -/

namespace Aion.Equihash

/-- The fields `blake2b_init_param` mixes into the state, and the bytes absorbed since. -/
structure Blake2bState where
  digestLength : ℕ
  keyLength : ℕ
  fanout : ℕ
  depth : ℕ
  leafLength : ℕ
  nodeOffset : ℕ
  nodeDepth : ℕ
  innerLength : ℕ
  salt : List Byte
  personal : List Byte
  absorbed : List Byte

def Blake2bState.update (s : Blake2bState) (data : List Byte) : Blake2bState :=
  { s with absorbed := s.absorbed ++ data }

/-- `blake2b_final`: byte `k` of the digest of a state. -/
abbrev Blake2b := Blake2bState → ℕ → Byte

def le32 (x : ℕ) : List Byte :=
  [BitVec.ofNat 8 x, BitVec.ofNat 8 (x >>> 8), BitVec.ofNat 8 (x >>> 16), BitVec.ofNat 8 (x >>> 24)]

def indicesPerHashOutput : ℕ := 512 / 210
def hashLen : ℕ := (210 + 7) / 8
def hashOutput : ℕ := indicesPerHashOutput * hashLen

def Hash : Type := ℕ → Byte

instance : Zero Hash := ⟨fun _ => 0#8⟩

instance : Add Hash := ⟨fun a b k => a k ^^^ b k⟩

instance : Neg Hash := ⟨id⟩

instance : AddCommGroup Hash where
  add_assoc _ _ _ := funext fun _ => BitVec.xor_assoc ..
  zero_add _ := funext fun _ => BitVec.zero_xor
  add_zero _ := funext fun _ => BitVec.xor_zero
  add_comm _ _ := funext fun _ => BitVec.xor_comm ..
  neg_add_cancel _ := funext fun _ => BitVec.xor_self
  nsmul := nsmulRec
  zsmul := zsmulRec

namespace Hash

@[simp] theorem add_apply (a b : Hash) (k : ℕ) : (a + b) k = a k ^^^ b k := rfl

@[simp] theorem zero_apply (k : ℕ) : (0 : Hash) k = 0#8 := rfl

/-- Bit `n`, the high bit of byte 0 being bit 0. -/
def bit (a : Hash) (n : ℕ) : Bool := (a (n / 8)).getLsbD (7 - n % 8)

@[simp] theorem bit_add (a b : Hash) (n : ℕ) : (a + b).bit n = (a.bit n ^^ b.bit n) := by
  rw [bit, add_apply, BitVec.getLsbD_xor, bit, bit]

@[simp] theorem bit_zero (n : ℕ) : (0 : Hash).bit n = false := by
  rw [bit, zero_apply, BitVec.getLsbD_zero]

theorem bit_add_eq_false {a b : Hash} {n : ℕ} : (a + b).bit n = false ↔ a.bit n = b.bit n := by
  rw [bit_add]
  cases a.bit n <;> cases b.bit n <;> decide

end Hash

def leafHash (H : Blake2b) (base : Blake2bState) (i : ℕ) : Hash := fun k =>
  if k < hashLen then
    H (base.update (le32 (i / indicesPerHashOutput))) (i % indicesPerHashOutput * hashLen + k)
  else 0#8

def xorHash (H : Blake2b) (base : Blake2bState) (v : List ℕ) : Hash := (v.map (leafHash H base)).sum

theorem xorHash_append (H : Blake2b) (base : Blake2bState) (v w : List ℕ) :
    xorHash H base (v ++ w) = xorHash H base v + xorHash H base w := by
  rw [xorHash, List.map_append, List.sum_append, xorHash, xorHash]

end Aion.Equihash
