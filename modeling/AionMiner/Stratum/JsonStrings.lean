import AionMiner.Stratum.JsonText
import Mathlib.Data.List.TakeWhile

/-! What `JSON.parse` does with text that is put together from strings and numbers. -/

namespace Aion.Stratum.JsonText
open Text

section Strings
variable {number : Str → Str}

/-- A string that JSON writes as it stands. -/
def Plain (s : Str) : Prop := ∀ c ∈ s, c ≠ unit '"' ∧ c ≠ unit '\\' ∧ 32 ≤ c.toNat

instance (s : Str) : Decidable (Plain s) := List.decidableBAll _ _

/-- A line break is none of the characters of such a string. -/
theorem Plain.newline_not_mem {s : Str} (hs : Plain s) : unit '\n' ∉ s := by
  intro hmem
  exact absurd (hs _ hmem).2.2 (by decide)

theorem run_plain {s : Str} (hs : Plain s) (read : Str) (p : Parser) :
    (Machine.mk (.str read) p).run number s = some ⟨.str (read ++ s), p⟩ := by
  induction s generalizing read with
  | nil => rw [List.append_nil]; rfl
  | cons c s ih =>
    obtain ⟨hquote, hbackslash, hcontrol⟩ := hs c List.mem_cons_self
    have hstep : (Machine.mk (.str read) p).step number c = some ⟨.str (read ++ [c]), p⟩ := by
      rw [step_mk, Lexer.step, if_neg hquote, if_neg hbackslash, if_neg (Nat.not_lt.mpr hcontrol)]
      rfl
    rw [run_cons, hstep, Option.bind_some, ih fun d hd => hs d (List.mem_cons_of_mem _ hd),
      List.append_assoc]
    rfl

end Strings

section Numbers
variable {number : Str → Str}

theorem isDigit_unit {c : Char} (hc : c.isDigit = true) : isDigit (unit c) = true := by
  obtain ⟨heq, hge, hle⟩ := toNat_unit_digit hc
  rw [isDigit, heq, decide_eq_true hge, decide_eq_true hle]
  rfl

theorem isDigit_of_mem_decimal {n : ℕ} {c : CodeUnit} (hc : c ∈ decimal n) : isDigit c = true := by
  obtain ⟨d, hd, rfl⟩ := List.mem_map.mp hc
  exact isDigit_unit (Nat.isDigit_of_mem_toDigits (by decide) (by decide) hd)

theorem decimal_ne_nil (n : ℕ) : decimal n ≠ [] := by
  intro h
  exact Nat.toDigits_ne_nil (List.map_eq_nil_iff.mp h)

/-- Only zero is written with a zero in front. -/
theorem head_decimal {n : ℕ} (hn : 0 < n) : (decimal n).head? ≠ some (unit '0') := by
  induction n using Nat.strong_induction_on with
  | h n ih =>
    rcases Nat.lt_or_ge n 10 with hlt | hge
    · have hdigit : ∀ n < 10, 0 < n → ([n.digitChar].map unit).head? ≠ some (unit '0') := by decide
      rw [decimal, Nat.toDigits_of_lt_base hlt]
      exact hdigit n hlt hn
    · have hdiv : 0 < n / 10 := Nat.div_pos hge (by decide)
      have hfront := ih (n / 10) (Nat.div_lt_self hn (by decide)) hdiv
      obtain ⟨c, s, hcons⟩ := List.exists_cons_of_ne_nil (decimal_ne_nil (n / 10))
      rw [hcons, List.head?_cons] at hfront
      rw [decimal] at hcons
      rwa [decimal, Nat.toDigits_of_base_le (by decide) hge, List.map_append, hcons, List.cons_append,
        List.head?_cons]

theorem isNumber_decimal (n : ℕ) : isNumber (decimal n) = true := by
  rcases Nat.eq_zero_or_pos n with rfl | hn
  · rfl
  obtain ⟨c, s, hcons⟩ := List.exists_cons_of_ne_nil (decimal_ne_nil n)
  have hdigits : ∀ d ∈ c :: s, isDigit d = true := fun d hd => isDigit_of_mem_decimal (hcons ▸ hd)
  have hhead := head_decimal hn
  rw [hcons, List.head?_cons] at hhead
  have hc : isDigit c = true := hdigits c List.mem_cons_self
  have hminus : ¬(c :: s).head? = some (unit '-') := by
    intro h
    rw [Option.some.inj h] at hc
    cases hc
  have hrest : (c :: s).dropWhile isDigit = [] := List.dropWhile_eq_nil_iff.mpr hdigits
  have hinteger : integer (c :: s) = some [] := by
    rw [integer, List.head?_cons, if_neg hhead, digits, List.head?_cons, Option.map_some, Option.getD_some,
      if_pos hc, hrest]
  rw [isNumber, hcons, if_neg hminus, hinteger]
  rfl

theorem decimal_ne {n : ℕ} {s : Str} {c : CodeUnit} (hc : c ∈ s) (hdigit : isDigit c = false) :
    decimal n ≠ s := by
  rintro rfl
  rw [isDigit_of_mem_decimal hc] at hdigit
  cases hdigit

theorem atom_decimal (n : ℕ) : atom number (decimal n) = some (.num (number (decimal n))) := by
  have htrue : decimal n ≠ literal "true" := decimal_ne (c := unit 't') (by decide) rfl
  have hfalse : decimal n ≠ literal "false" := decimal_ne (c := unit 'f') (by decide) rfl
  have hnull : decimal n ≠ literal "null" := decimal_ne (c := unit 'n') (by decide) rfl
  rw [atom, if_neg htrue, if_neg hfalse, if_neg hnull, if_pos (isNumber_decimal n)]

theorem isWord_of_isDigit {c : CodeUnit} (hc : isDigit c = true) : isWord c = true := by
  rw [isWord, hc, Bool.true_or, Bool.true_or, Bool.true_or]

theorem run_word {s : Str} (hs : ∀ c ∈ s, isWord c = true) (read : Str) (p : Parser) :
    (Machine.mk (.word read) p).run number s = some ⟨.word (read ++ s), p⟩ := by
  induction s generalizing read with
  | nil => rw [List.append_nil]; rfl
  | cons c s ih =>
    have hstep : (Machine.mk (.word read) p).step number c = some ⟨.word (read ++ [c]), p⟩ := by
      rw [step_mk, Lexer.step, if_pos (hs c List.mem_cons_self)]
      rfl
    rw [run_cons, hstep, Option.bind_some, ih fun d hd => hs d (List.mem_cons_of_mem _ hd),
      List.append_assoc]
    rfl

/-- A word ends at the first character that belongs to none. -/
theorem run_word_end {read : Str} {j : Json} (hj : atom number read = some j) (p : Parser) {c : CodeUnit}
    (hc : isWord c = false) (after : Str) :
    (Machine.mk (.word read) p).run number (c :: after) =
      (p.step (.atom j)).bind fun p => (Machine.mk .start p).run number (c :: after) := by
  rw [run_cons, step_mk, Lexer.step, hc, if_neg Bool.false_ne_true, hj, Option.bind_some]
  cases hbegin : begin c with
  | none =>
    cases p.step (.atom j) with
    | none => rfl
    | some q => rw [Option.bind_some, run_cons, step_mk, Lexer.step, hbegin]; rfl
  | some next =>
    rw [Option.map_some, Option.bind_some, List.foldlM_cons]
    cases p.step (.atom j) with
    | none => rfl
    | some q => rw [Option.bind_some, run_cons, step_mk, Lexer.step, hbegin]; rfl

/-- A number between two characters that belong to none. -/
theorem run_decimal (n : ℕ) (p : Parser) {c : CodeUnit} (hc : isWord c = false) (after : Str) :
    (Machine.mk .start p).run number (decimal n ++ c :: after) =
      (p.step (.atom (.num (number (decimal n))))).bind fun p => (Machine.mk .start p).run number (c :: after) := by
  have hatom : atom number (decimal n) = some (.num (number (decimal n))) := atom_decimal n
  obtain ⟨d, s, hcons⟩ := List.exists_cons_of_ne_nil (decimal_ne_nil n)
  have hdigits : ∀ d' ∈ d :: s, isDigit d' = true := fun d' hd => isDigit_of_mem_decimal (hcons ▸ hd)
  have hbegin : begin d = some (.word [d], []) := by
    have hd := hdigits d List.mem_cons_self
    have hwhite : ¬isWhitespace d = true := by
      intro h
      rcases white_cases h with rfl | rfl | rfl | rfl
      all_goals cases hd
    have hquote : d ≠ unit '"' := by
      rintro rfl
      cases hd
    rw [begin, if_neg hwhite, if_neg hquote, if_pos (isWord_of_isDigit hd)]
  have hstep : (Machine.mk .start p).step number d = some ⟨.word [d], p⟩ := by
    rw [step_mk, Lexer.step, hbegin]
    rfl
  rw [hcons] at hatom ⊢
  rw [List.cons_append, run_cons, hstep, Option.bind_some, run_append,
    run_word fun e he => isWord_of_isDigit (hdigits e (List.mem_cons_of_mem _ he)), Option.bind_some]
  exact run_word_end hatom p hc after

end Numbers

end Aion.Stratum.JsonText
