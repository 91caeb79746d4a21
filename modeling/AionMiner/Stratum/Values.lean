import AionMiner.Text.Hex

/-! The values `JSON.parse` makes of a line, and what becomes of them where the handlers use them as
strings, arrays or objects. An exception is `none`. -/

namespace Aion.Stratum
open Text

def literal (s : String) : Str := s.toList.map unit

def decimal (n : ℕ) : Str := (Nat.toDigits 10 n).map unit

/-- A number is given by its text, and an object has each key once. -/
inductive Json where
  | null
  | bool (b : Bool)
  | num (text : Str)
  | str (s : Str)
  | arr (items : List Json)
  | obj (fields : List (Str × Json))

/-- `none` is `undefined`. -/
abbrev Value := Option Json

namespace Json

def truthy : Json → Bool
  | null => false
  | bool b => b
  | num text => text != literal "0"
  | str s => s != []
  | arr _ | obj _ => true

def field (name : Str) : Json → Value
  | obj fields => fields.lookup name
  | _ => none

def index (i : ℕ) : Json → Value
  | arr items => items[i]?
  | str s => s[i]?.map fun c => str [c]
  | obj fields => fields.lookup (decimal i)
  | _ => none

/-- `value.length === n`. -/
def sized (n : ℕ) : Json → Bool
  | str s => s.length == n
  | arr items => items.length == n
  | obj fields =>
    match fields.lookup (literal "length") with
    | some (num text) => text == decimal n
    | _ => false
  | _ => false

def join : List Str → Str
  | [] => []
  | [t] => t
  | t :: ts => t ++ unit ',' :: join ts

mutual

/-- The conversion to a string. The methods that do it are inherited: an own property `toString`
hides its one, and is no function. -/
def text : Json → Option Str
  | null => some (literal "null")
  | bool b => some (if b then literal "true" else literal "false")
  | num text => some text
  | str s => some s
  | arr items => (texts items).map join
  | obj fields => if (fields.lookup (literal "toString")).isSome then none else some (literal "[object Object]")

def texts : List Json → Option (List Str)
  | [] => some []
  | null :: items => (texts items).map ([] :: ·)
  | item :: items => item.text.bind fun t => (texts items).map (t :: ·)

end

end Json

namespace Value

def text : Value → Option Str
  | none => some (literal "undefined")
  | some j => j.text

def joined : Value → Option Str
  | none | some .null => some []
  | some j => j.text

/-- Properties of `undefined` and `null` cannot be read. -/
def nullish : Value → Bool
  | none | some .null => true
  | _ => false

def member {α : Type} (f : Json → α) (v : Value) : Option α :=
  match v with
  | none | some .null => none
  | some j => some (f j)

end Value

section Decimal

theorem toNat_unit_digit {c : Char} (hc : c.isDigit = true) :
    (unit c).toNat = c.toNat ∧ 48 ≤ c.toNat ∧ c.toNat ≤ 57 := by
  have hge : '0'.toNat ≤ c.toNat := (Bool.and_eq_true_iff.mp hc).1 |> of_decide_eq_true
  have hle : c.toNat ≤ '9'.toNat := (Bool.and_eq_true_iff.mp hc).2 |> of_decide_eq_true
  refine ⟨?_, hge, hle⟩
  rw [unit, BitVec.toNat_ofNat]
  exact Nat.mod_eq_of_lt (hle.trans_lt (by decide))

theorem unit_digit {c : Char} (hc : c.isDigit = true) : Char.ofNat (unit c).toNat = c := by
  rw [(toNat_unit_digit hc).1, Char.ofNat_toNat]

theorem decimal_digits (n : ℕ) :
    (decimal n).map (fun u => Char.ofNat u.toNat) = Nat.toDigits 10 n := by
  unfold decimal
  rw [List.map_map]
  exact (List.map_congr_left fun c hc =>
    unit_digit (Nat.isDigit_of_mem_toDigits (b := 10) (by decide) (by decide) hc)).trans
    (List.map_id _)

theorem decimal_inj {m n : ℕ} (h : decimal m = decimal n) : m = n := by
  have hdigits := congrArg (List.map fun u => Char.ofNat u.toNat) h
  rw [decimal_digits, decimal_digits] at hdigits
  rw [← Nat.ofDigitChars_ten_toDigits (n := m), hdigits, Nat.ofDigitChars_ten_toDigits]

end Decimal
end Aion.Stratum
