import AionMiner.Bits.Stream

/-! Strings of code units, and bytes written as two hex digits each. -/

namespace Aion.Text
open Bits

/-- A UTF-16 code unit; an ASCII `char` is the code unit of the same number. -/
abbrev CodeUnit := BitVec 16

abbrev Str := List CodeUnit

def unit (c : Char) : CodeUnit := BitVec.ofNat 16 c.toNat

section Digits

/-- `hexmap`. -/
def hexDigit (n : ℕ) : CodeUnit := BitVec.ofNat 16 (if n < 10 then 48 + n else 87 + n)

def hexValue (c : CodeUnit) : Option ℕ :=
  if 48 ≤ c.toNat ∧ c.toNat ≤ 57 then some (c.toNat - 48)
  else if 97 ≤ c.toNat ∧ c.toNat ≤ 102 then some (c.toNat - 87)
  else if 65 ≤ c.toNat ∧ c.toNat ≤ 70 then some (c.toNat - 55)
  else none

@[simp] theorem hexValue_hexDigit {n : ℕ} (hn : n < 16) : hexValue (hexDigit n) = some n := by
  revert n
  decide

end Digits

section Encode

theorem high_lt (b : Byte) : (b >>> 4).toNat < 16 := by
  rw [BitVec.toNat_ushiftRight, Nat.shiftRight_eq_div_pow]
  omega

theorem low_lt (b : Byte) : (b &&& 15).toNat < 16 := by
  rw [BitVec.toNat_and]
  exact Nat.lt_succ_of_le Nat.and_le_right

def hexStr (bytes : List Byte) : Str :=
  bytes.flatMap fun b : Byte => [hexDigit (b >>> 4).toNat, hexDigit (b &&& 15).toNat]

@[simp] theorem hexStr_nil : hexStr [] = [] := rfl

@[simp] theorem hexStr_cons (b : Byte) (bytes : List Byte) :
    hexStr (b :: bytes) = hexDigit (b >>> 4).toNat :: hexDigit (b &&& 15).toNat :: hexStr bytes := rfl

@[simp] theorem hexStr_append (xs ys : List Byte) : hexStr (xs ++ ys) = hexStr xs ++ hexStr ys :=
  List.flatMap_append ..

@[simp] theorem length_hexStr (bytes : List Byte) : (hexStr bytes).length = 2 * bytes.length := by
  induction bytes with
  | nil => rfl
  | cons b bytes ih => simp [ih]; omega

theorem drop_hexStr (bytes : List Byte) (k : ℕ) :
    (hexStr bytes).drop (2 * k) = hexStr (bytes.drop k) := by
  induction k generalizing bytes with
  | zero => rfl
  | succ k ih =>
    cases bytes with
    | nil => simp
    | cons b bytes => simpa [Nat.mul_succ] using ih bytes

theorem take_hexStr (bytes : List Byte) (k : ℕ) :
    (hexStr bytes).take (2 * k) = hexStr (bytes.take k) := by
  induction k generalizing bytes with
  | zero => rfl
  | succ k ih =>
    cases bytes with
    | nil => simp
    | cons b bytes => simpa [Nat.mul_succ] using ih bytes

theorem exists_of_mem_hexStr {bytes : List Byte} {c : CodeUnit} (hc : c ∈ hexStr bytes) :
    ∃ n < 16, c = hexDigit n := by
  obtain ⟨b, -, hb⟩ := List.mem_flatMap.mp hc
  simp only [List.mem_cons, List.not_mem_nil, or_false] at hb
  rcases hb with rfl | rfl
  · exact ⟨_, high_lt b, rfl⟩
  · exact ⟨_, low_lt b, rfl⟩

end Encode

section Decode

/-- Two digits at a time, up to the first pair that is not hex. -/
def hexDecode : Str → List Byte
  | c :: d :: s =>
    match hexValue c, hexValue d with
    | some x, some y => BitVec.ofNat 8 (16 * x + y) :: hexDecode s
    | _, _ => []
  | _ => []

theorem halves (b : Byte) : BitVec.ofNat 8 (16 * (b >>> 4).toNat + (b &&& 15).toNat) = b := by
  revert b
  decide

@[simp] theorem hexDecode_hexStr_append (bytes : List Byte) (s : Str) :
    hexDecode (hexStr bytes ++ s) = bytes ++ hexDecode s := by
  induction bytes with
  | nil => rfl
  | cons b bytes ih =>
    rw [hexStr_cons, List.cons_append, List.cons_append, hexDecode, hexValue_hexDigit (high_lt b),
      hexValue_hexDigit (low_lt b)]
    dsimp only
    rw [ih, halves, List.cons_append]

@[simp] theorem hexDecode_hexStr (bytes : List Byte) : hexDecode (hexStr bytes) = bytes := by
  simpa [hexDecode] using hexDecode_hexStr_append bytes []

def IsHexDigits (s : Str) : Prop := ∀ c ∈ s, (hexValue c).isSome

theorem length_hexDecode {s : Str} (hs : IsHexDigits s) {n : ℕ} (hlen : s.length = 2 * n) :
    (hexDecode s).length = n := by
  induction n generalizing s with
  | zero => rw [List.eq_nil_of_length_eq_zero hlen]; rfl
  | succ n ih =>
    match s with
    | c :: d :: s =>
      obtain ⟨x, hx⟩ := Option.isSome_iff_exists.mp (hs c (by simp))
      obtain ⟨y, hy⟩ := Option.isSome_iff_exists.mp (hs d (by simp))
      simp only [List.length_cons] at hlen
      simp [hexDecode, hx, hy,
        ih (fun e he => hs e (by simp [he])) (show s.length = 2 * n by omega)]

theorem hexDecode_append {s t : Str} (hs : IsHexDigits s) {n : ℕ} (hlen : s.length = 2 * n) :
    hexDecode (s ++ t) = hexDecode s ++ hexDecode t := by
  induction n generalizing s with
  | zero => rw [List.eq_nil_of_length_eq_zero hlen]; rfl
  | succ n ih =>
    match s with
    | c :: d :: s =>
      obtain ⟨x, hx⟩ := Option.isSome_iff_exists.mp (hs c (by simp))
      obtain ⟨y, hy⟩ := Option.isSome_iff_exists.mp (hs d (by simp))
      simp only [List.length_cons] at hlen
      simp [hexDecode, hx, hy,
        ih (fun e he => hs e (by simp [he])) (show s.length = 2 * n by omega)]

/-- How far the digits of a string reach. -/
theorem le_length_hexDecode_iff {s : Str} {n : ℕ} :
    n ≤ (hexDecode s).length ↔ 2 * n ≤ s.length ∧ IsHexDigits (s.take (2 * n)) := by
  induction n generalizing s with
  | zero => simp [IsHexDigits]
  | succ n ih =>
    match s with
    | [] => simp [hexDecode]
    | [c] =>
      rw [show hexDecode [c] = [] from rfl, List.length_nil, List.length_singleton]
      exact iff_of_false (by omega) fun h => absurd h.1 (by omega)
    | c :: d :: s =>
      have htake : (c :: d :: s).take (2 * (n + 1)) = c :: d :: s.take (2 * n) := rfl
      have hlen : 2 * (n + 1) ≤ (c :: d :: s).length ↔ 2 * n ≤ s.length := by
        simp only [List.length_cons]
        omega
      have hdigits : IsHexDigits (c :: d :: s.take (2 * n)) ↔
          ((hexValue c).isSome ∧ (hexValue d).isSome) ∧ IsHexDigits (s.take (2 * n)) := by
        simp [IsHexDigits, and_assoc]
      rw [htake, hlen, hdigits, hexDecode]
      cases hx : hexValue c with
      | none => simp
      | some x =>
        cases hy : hexValue d with
        | none => simp
        | some y => simp [ih]

theorem isHexDigits_hexStr (bytes : List Byte) : IsHexDigits (hexStr bytes) := by
  intro c hc
  obtain ⟨n, hn, rfl⟩ := exists_of_mem_hexStr hc
  simp [hn]

end Decode
end Aion.Text
