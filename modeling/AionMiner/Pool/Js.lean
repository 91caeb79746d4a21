import AionMiner.Text.Hex
import Mathlib.Data.List.TakeWhile

/-! The parts of ECMAScript and of Node's `Buffer` the pool's share handling rests on. -/

namespace Aion.Pool
open Text

section Strings

def lowerUnit (c : CodeUnit) : CodeUnit := if 65 ≤ c.toNat ∧ c.toNat ≤ 90 then c + 32 else c

/-- `toLowerCase`; beyond ASCII it is left to `unicodeLower`. -/
def toLowerCase (unicodeLower : Str → Str) (s : Str) : Str :=
  if s.all fun c => c.toNat < 128 then s.map lowerUnit else unicodeLower s

def isStrWhiteSpace (c : CodeUnit) : Bool :=
  c.toNat ∈ [0x09, 0x0a, 0x0b, 0x0c, 0x0d, 0x20, 0xa0, 0x1680, 0x2028, 0x2029, 0x202f, 0x205f, 0x3000, 0xfeff] ||
    (decide (0x2000 ≤ c.toNat) && decide (c.toNat ≤ 0x200a))

def hexNumber (s : Str) : ℕ := s.foldl (fun n c => 16 * n + (hexValue c).getD 0) 0

/-- `parseInt(s, 16)`; `none` is `NaN`. -/
def parseInt (s : Str) : Option ℤ :=
  let s := s.dropWhile isStrWhiteSpace
  let negative := s.head? = some (unit '-')
  let s := if s.head? = some (unit '-') ∨ s.head? = some (unit '+') then s.tail else s
  let s := if s.take 2 = [unit '0', unit 'x'] ∨ s.take 2 = [unit '0', unit 'X'] then s.drop 2 else s
  let digits := s.takeWhile fun c => (hexValue c).isSome
  if digits = [] then none
  else some (if negative then -(hexNumber digits : ℤ) else (hexNumber digits : ℤ))

/-- `toString(16)` of an integer or `NaN`. -/
def toString16 : Option ℤ → Str
  | none => [unit 'N', unit 'a', unit 'N']
  | some n => (if n < 0 then [unit '-'] else []) ++ (Nat.toDigits 16 n.natAbs).map unit

def isHex (c : Str) : Bool :=
  let a := parseInt c
  let b := (toString16 a).map lowerUnit
  let b := if b.length % 2 = 1 then unit '0' :: b else b
  b == c

def allHex : Str → Bool
  | c :: d :: s => isHex [c, d] && allHex s
  | _ => true

def isHexString (unicodeLower : Str → Str) (s : Str) : Bool :=
  let check := toLowerCase unicodeLower s
  if check.length % 2 = 1 then false else allHex check

theorem hexNumber_append_singleton (s : Str) (c : CodeUnit) :
    hexNumber (s ++ [c]) = 16 * hexNumber s + (hexValue c).getD 0 := by simp [hexNumber]

theorem hexValue_digitChar : ∀ d < 16, hexValue (unit (Nat.digitChar d)) = some d := by decide

theorem hexNumber_toDigits (n : ℕ) : hexNumber ((Nat.toDigits 16 n).map unit) = n := by
  induction n using Nat.strongRecOn with
  | ind n ih =>
    rcases Nat.lt_or_ge n 16 with hlt | hge
    · rw [Nat.toDigits_of_lt_base hlt]
      simp [hexNumber, hexValue_digitChar n hlt]
    · rw [Nat.toDigits_of_base_le (by decide) hge, List.map_append, List.map_cons, List.map_nil,
        hexNumber_append_singleton, ih _ (by omega),
        hexValue_digitChar _ (Nat.mod_lt n (by decide)), Option.getD_some]
      exact Nat.div_add_mod n 16

theorem isHex_hexDigit : ∀ x < 16, ∀ y < 16, isHex [hexDigit x, hexDigit y] = true := by decide

theorem lowerUnit_hexDigit {x : ℕ} (hx : x < 16) : lowerUnit (hexDigit x) = hexDigit x := by
  revert x
  decide

theorem hexDigit_lt {x : ℕ} (hx : x < 16) : (hexDigit x).toNat < 128 := by
  revert x
  decide

theorem toLowerCase_hexStr (unicodeLower : Str → Str) (bytes : List Byte) :
    toLowerCase unicodeLower (hexStr bytes) = hexStr bytes := by
  have hall : (hexStr bytes).all fun c => c.toNat < 128 := by
    simp only [List.all_eq_true, decide_eq_true_eq]
    intro c hc
    obtain ⟨x, hx, rfl⟩ := exists_of_mem_hexStr hc
    exact hexDigit_lt hx
  rw [toLowerCase, if_pos hall]
  refine (List.map_congr_left fun c hc => ?_).trans (List.map_id _)
  obtain ⟨x, hx, rfl⟩ := exists_of_mem_hexStr hc
  exact lowerUnit_hexDigit hx

theorem allHex_hexStr (bytes : List Byte) : allHex (hexStr bytes) = true := by
  induction bytes with
  | nil => rfl
  | cons b bytes ih =>
    rw [hexStr_cons, allHex, isHex_hexDigit _ (high_lt b) _ (low_lt b), ih]
    rfl

theorem isHexString_hexStr (unicodeLower : Str → Str) (bytes : List Byte) :
    isHexString unicodeLower (hexStr bytes) = true := by
  unfold isHexString
  simp [toLowerCase_hexStr, allHex_hexStr]

end Strings

section Buffers

/-- `buf.write(s, offset, length, 'hex')`. -/
def writeHex (buf : List Byte) (s : Str) (offset length : ℕ) : List Byte :=
  let bytes := (hexDecode s).take (min length (buf.length - offset))
  buf.take offset ++ bytes ++ buf.drop (offset + bytes.length)

@[simp] theorem length_writeHex (buf : List Byte) (s : Str) {offset length : ℕ}
    (h : offset ≤ buf.length) : (writeHex buf s offset length).length = buf.length := by
  simp only [writeHex, List.length_append, List.length_take, List.length_drop]
  omega

/-- A write that fills a gap exactly. -/
theorem writeHex_append (xs ys zs : List Byte) (s : Str) (hlen : (hexDecode s).length = ys.length) :
    writeHex (xs ++ ys ++ zs) s xs.length ys.length = xs ++ hexDecode s ++ zs := by
  have htake : (hexDecode s).take (min ys.length ((xs ++ ys ++ zs).length - xs.length)) = hexDecode s := by
    apply List.take_of_length_le
    simp only [List.length_append]
    omega
  simp only [writeHex]
  rw [htake, hlen]
  simp [List.append_assoc, List.drop_append]

end Buffers
end Aion.Pool
