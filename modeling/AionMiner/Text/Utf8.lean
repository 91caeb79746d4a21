import AionMiner.Text.Hex

/-! UTF-8 decoded to code units, with U+FFFD in the place of what is not well formed, and what a
scan that only knows ASCII sees of it. -/

namespace Aion.Text.Utf8
open Bits

section Code

/-- Between characters, or inside one: `left` bytes follow the next one, which lies between `low`
and `high`. -/
inductive State where
  | start
  | tail (left low high codePoint : ℕ)

def replacement : CodeUnit := 0xFFFD

def utf16 (codePoint : ℕ) : Str :=
  if codePoint < 0x10000 then [BitVec.ofNat 16 codePoint]
  else [BitVec.ofNat 16 (0xD800 + (codePoint - 0x10000) / 0x400 % 0x400),
    BitVec.ofNat 16 (0xDC00 + codePoint % 0x400)]

def first (b : ℕ) : State × Str :=
  if b < 0x80 then (.start, [BitVec.ofNat 16 b])
  else if 0xC2 ≤ b ∧ b ≤ 0xDF then (.tail 0 0x80 0xBF (b % 32), [])
  else if b = 0xE0 then (.tail 1 0xA0 0xBF 0, [])
  else if b = 0xED then (.tail 1 0x80 0x9F 13, [])
  else if 0xE1 ≤ b ∧ b ≤ 0xEF then (.tail 1 0x80 0xBF (b % 16), [])
  else if b = 0xF0 then (.tail 2 0x90 0xBF 0, [])
  else if b = 0xF4 then (.tail 2 0x80 0x8F 4, [])
  else if 0xF1 ≤ b ∧ b ≤ 0xF3 then (.tail 2 0x80 0xBF (b % 8), [])
  else (.start, [replacement])

def next (codePoint : ℕ) : ℕ → State × Str
  | 0 => (.start, utf16 codePoint)
  | left + 1 => (.tail left 0x80 0xBF codePoint, [])

def step : State → Byte → State × Str
  | .start, b => first b.toNat
  | .tail left low high codePoint, b =>
    if low ≤ b.toNat ∧ b.toNat ≤ high then next (64 * codePoint + b.toNat % 64) left
    else
      -- the character breaks off, and this byte starts another one
      ((first b.toNat).1, replacement :: (first b.toNat).2)

def run : State → List Byte → State × Str
  | st, [] => (st, [])
  | st, b :: bytes => ((run (step st b).1 bytes).1, (step st b).2 ++ (run (step st b).1 bytes).2)

def finish : State → Str
  | .start => []
  | .tail _ _ _ _ => [replacement]

/-- `toString('utf8')` of a buffer. -/
def decode (bytes : List Byte) : Str := (run .start bytes).2 ++ finish (run .start bytes).1

end Code

section Ascii

/-- A code unit as a scan for ASCII sees it. -/
def ascii (c : CodeUnit) : Option CodeUnit := if c.toNat < 128 then some c else none

def asciiByte (b : Byte) : Option CodeUnit :=
  if b.toNat < 128 then some (BitVec.ofNat 16 b.toNat) else none

theorem ascii_ofNat {n : ℕ} (h : n < 128) :
    ascii (BitVec.ofNat 16 n) = some (BitVec.ofNat 16 n) := by
  have hn : (BitVec.ofNat 16 n).toNat = n := by
    rw [BitVec.toNat_ofNat]
    omega
  rw [ascii, hn, if_pos h]

theorem ascii_eq_none {n : ℕ} (h : 128 ≤ n) (hn : n < 65536) :
    ascii (BitVec.ofNat 16 n) = none := by
  have hunit : (BitVec.ofNat 16 n).toNat = n := by
    rw [BitVec.toNat_ofNat]
    omega
  rw [ascii, hunit, if_neg (by omega)]

@[simp] theorem ascii_replacement : ascii replacement = none := rfl

def State.Wide : State → Prop
  | .start => True
  | .tail left low high codePoint =>
    128 ≤ low ∧ high ≤ 191 ∧ (left = 0 → 2 ≤ codePoint) ∧ (left ≠ 0 → 1 ≤ codePoint ∨ 144 ≤ low)

variable {σ : Type*} {f : σ → Option CodeUnit → σ}

theorem ascii_utf16 {codePoint : ℕ} (h : 128 ≤ codePoint) :
    (utf16 codePoint).map ascii = [none] ∨ (utf16 codePoint).map ascii = [none, none] := by
  rw [utf16]
  split_ifs with hlt
  · rw [List.map_singleton, ascii_eq_none h hlt]
    exact Or.inl rfl
  · rw [List.map_cons, List.map_singleton, ascii_eq_none (by omega) (by omega),
      ascii_eq_none (by omega) (by omega)]
    exact Or.inr rfl

/-- What the scan has seen of a state: the character under way counts. -/
def owed (f : σ → Option CodeUnit → σ) (s : σ) : State → σ
  | .start => s
  | .tail _ _ _ _ => f s none

theorem start_wide : State.start.Wide := trivial

theorem first_wide (b : ℕ) : (first b).1.Wide := by
  rw [first]
  split_ifs
  all_goals
    first
    | exact start_wide
    | exact ⟨by omega, by omega, by omega, by omega⟩

theorem scan_first (s : σ) (b : Byte) :
    owed f (((first b.toNat).2.map ascii).foldl f s) (first b.toNat).1 = f s (asciiByte b) := by
  rw [asciiByte]
  by_cases hb : b.toNat < 128
  · rw [if_pos hb, first, if_pos hb, ← ascii_ofNat hb]
    rfl
  · rw [if_neg hb, first, if_neg hb]
    split_ifs
    all_goals rfl

theorem step_wide {st : State} (h : st.Wide) (b : Byte) : (step st b).1.Wide := by
  cases st with
  | start => exact first_wide b.toNat
  | tail left low high codePoint =>
    obtain ⟨hlow, hhigh, hlast, hmore⟩ := h
    rw [step]
    split_ifs with hrange
    · cases left with
      | zero => trivial
      | succ left =>
        have hnext := hmore (Nat.succ_ne_zero left)
        exact ⟨by omega, by omega, by omega, by omega⟩
    · exact first_wide b.toNat

variable (hagain : ∀ s, f (f s none) none = f s none)
include hagain

/-- The scan has seen as much of a byte as of what it puts out or owes. -/
theorem scan_step {st : State} (h : st.Wide) (s : σ) (b : Byte) :
    owed f (((step st b).2.map ascii).foldl f s) (step st b).1 = f (owed f s st) (asciiByte b) := by
  cases st with
  | start => exact scan_first s b
  | tail left low high codePoint =>
    obtain ⟨hlow, hhigh, hlast, hmore⟩ := h
    rw [step]
    split_ifs with hrange
    · have hbyte : asciiByte b = none := if_neg (by omega)
      rw [hbyte, owed, hagain]
      cases left with
      | zero =>
        have hcode : 128 ≤ 64 * codePoint + b.toNat % 64 := by
          have := hlast rfl
          omega
        rw [next]
        rcases ascii_utf16 hcode with hone | htwo
        · rw [hone]
          rfl
        · rw [htwo]
          exact hagain s
      | succ left => rfl
    · exact scan_first (f s none) b

theorem scan_run {st : State} (h : st.Wide) (s : σ) (bytes : List Byte) :
    owed f (((run st bytes).2.map ascii).foldl f s) (run st bytes).1 =
      (bytes.map asciiByte).foldl f (owed f s st) := by
  induction bytes generalizing st s with
  | nil => rfl
  | cons b bytes ih =>
    rw [run, List.map_append, List.foldl_append, ih (step_wide h b), scan_step hagain h]
    rfl

/-- A scan that knows ASCII only, and not how many other characters come in a row, sees of a decoded
text what it sees of the bytes. -/
theorem scan_decode (s : σ) (bytes : List Byte) :
    ((decode bytes).map ascii).foldl f s = (bytes.map asciiByte).foldl f s := by
  have hrun := scan_run hagain start_wide s bytes
  rw [owed] at hrun
  rw [← hrun, decode, List.map_append, List.foldl_append]
  cases (run .start bytes).1 with
  | start => rfl
  | tail left low high codePoint => rfl

theorem scan_chunks (s : σ) (chunks : List (List Byte)) :
    ((chunks.flatMap decode).map ascii).foldl f s = (chunks.flatten.map asciiByte).foldl f s := by
  induction chunks generalizing s with
  | nil => rfl
  | cons chunk chunks ih =>
    rw [List.flatMap_cons, List.map_append, List.foldl_append, scan_decode hagain, ih,
      List.flatten_cons, List.map_append, List.foldl_append]

end Ascii

section Append

theorem run_append (st : State) (xs ys : List Byte) :
    run st (xs ++ ys) = ((run (run st xs).1 ys).1, (run st xs).2 ++ (run (run st xs).1 ys).2) := by
  induction xs generalizing st with
  | nil => rfl
  | cons b xs ih => rw [List.cons_append, run, ih, run, List.append_assoc]

/-- Behind an ASCII byte the decoder starts anew. -/
theorem step_ascii (st : State) (h : st.Wide) {b : Byte} (hb : b.toNat < 128) :
    step st b = (.start, finish st ++ [BitVec.ofNat 16 b.toNat]) := by
  cases st with
  | start => exact if_pos hb
  | tail left low high codePoint =>
    rw [step, if_neg (by have := h.1; omega), first, if_pos hb]
    rfl

theorem run_wide {st : State} (h : st.Wide) (bytes : List Byte) : (run st bytes).1.Wide := by
  induction bytes generalizing st with
  | nil => exact h
  | cons b bytes ih => exact ih (step_wide h b)

theorem decode_ascii (xs : List Byte) {b : Byte} (hb : b.toNat < 128) (ys : List Byte) :
    decode (xs ++ b :: ys) = decode xs ++ BitVec.ofNat 16 b.toNat :: decode ys := by
  have hstep := step_ascii _ (run_wide start_wide xs) hb
  rw [decode, run_append, run, hstep, decode, decode]
  simp only [List.append_assoc, List.cons_append, List.nil_append]

end Append
end Aion.Text.Utf8
