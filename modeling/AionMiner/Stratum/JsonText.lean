import AionMiner.Stratum.Values

/-! `JSON.parse`, one code unit a step: a lexer puts out tokens, and a machine with a stack of open
arrays and objects takes them. -/

namespace Aion.Stratum.JsonText
open Text

section Tokens

inductive Token where
  | openObject | closeObject | openArray | closeArray | colon | comma
  | str (s : Str)
  | atom (j : Json)

/-- Between tokens, or in a string, behind a backslash in one, behind `\u` and `digits` hex digits
in one, or in a number or a word. -/
inductive Lexer where
  | start
  | str (read : Str)
  | escape (read : Str)
  | hex (read : Str) (value digits : ℕ)
  | word (read : Str)

def isWhitespace (c : CodeUnit) : Bool := c.toNat ∈ [0x09, 0x0a, 0x0d, 0x20]

def isDigit (c : CodeUnit) : Bool := decide (48 ≤ c.toNat) && decide (c.toNat ≤ 57)

/-- The characters of numbers and words. -/
def isWord (c : CodeUnit) : Bool :=
  isDigit c || (decide (65 ≤ c.toNat) && decide (c.toNat ≤ 90)) ||
    (decide (97 ≤ c.toNat) && decide (c.toNat ≤ 122)) || c.toNat ∈ [0x2b, 0x2d, 0x2e]

/-- What follows the digits `s` starts with. -/
def digits (s : Str) : Option Str :=
  if (s.head?.map isDigit).getD false then some (s.dropWhile isDigit) else none

def integer (s : Str) : Option Str := if s.head? = some (unit '0') then some s.tail else digits s

def fraction (s : Str) : Option Str := if s.head? = some (unit '.') then digits s.tail else some s

def exponent (s : Str) : Option Str :=
  if s.head? = some (unit 'e') ∨ s.head? = some (unit 'E') then
    digits
      (if s.tail.head? = some (unit '+') ∨ s.tail.head? = some (unit '-') then s.tail.tail
        else s.tail)
  else some s

def isNumber (s : Str) : Bool :=
  (((integer (if s.head? = some (unit '-') then s.tail else s)).bind fraction).bind exponent) ==
    some []

def punctuation (c : CodeUnit) : Option Token :=
  if c = unit '\x7b' then some .openObject
  else if c = unit '\x7d' then some .closeObject
  else if c = unit '[' then some .openArray
  else if c = unit ']' then some .closeArray
  else if c = unit ':' then some .colon
  else if c = unit ',' then some .comma
  else none

/-- The character a backslash and `c` stand for. -/
def escaped (c : CodeUnit) : Option CodeUnit :=
  if c = unit '"' ∨ c = unit '\\' ∨ c = unit '/' then some c
  else if c = unit 'b' then some 8
  else if c = unit 'f' then some 12
  else if c = unit 'n' then some 10
  else if c = unit 'r' then some 13
  else if c = unit 't' then some 9
  else none

/-- `number` is how a number is written back. -/
def atom (number : Str → Str) (read : Str) : Option Json :=
  if read = literal "true" then some (.bool true)
  else if read = literal "false" then some (.bool false)
  else if read = literal "null" then some .null
  else if isNumber read then some (.num (number read))
  else none

/-- The first character of a token. -/
def begin (c : CodeUnit) : Option (Lexer × List Token) :=
  if isWhitespace c then some (.start, [])
  else if c = unit '"' then some (.str [], [])
  else if isWord c then some (.word [c], [])
  else (punctuation c).map fun t => (.start, [t])

def Lexer.step (number : Str → Str) : Lexer → CodeUnit → Option (Lexer × List Token)
  | .start, c => begin c
  | .str read, c =>
    if c = unit '"' then some (.start, [.str read])
    else if c = unit '\\' then some (.escape read, [])
    else if c.toNat < 32 then none
    else some (.str (read ++ [c]), [])
  | .escape read, c =>
    if c = unit 'u' then some (.hex read 0 0, [])
    else (escaped c).map fun e => (.str (read ++ [e]), [])
  | .hex read value digits, c =>
    (hexValue c).map fun d =>
      if digits = 3 then (.str (read ++ [BitVec.ofNat 16 (16 * value + d)]), [])
      else (.hex read (16 * value + d) (digits + 1), [])
  | .word read, c =>
    if isWord c then some (.word (read ++ [c]), [])
    else (atom number read).bind fun j => (begin c).map fun next => (next.1, .atom j :: next.2)

end Tokens

section Parser

/-- An open array, or an open object with the last key read. -/
inductive Frame where
  | arr (items : List Json)
  | obj (fields : List (Str × Json)) (key : Str)

/-- What may come next. -/
inductive Place where
  | value | firstValue | key | firstKey | colon | after
  | done (j : Json)

abbrev Parser := Place × List Frame

/-- A later value of a key takes the place of an earlier one. -/
def setField (fields : List (Str × Json)) (key : Str) (j : Json) : List (Str × Json) :=
  if (fields.lookup key).isSome then fields.map fun f => if f.1 = key then (key, j) else f
  else fields ++ [(key, j)]

def complete (j : Json) : List Frame → Parser
  | [] => (.done j, [])
  | .arr items :: stack => (.after, .arr (items ++ [j]) :: stack)
  | .obj fields key :: stack => (.after, .obj (setField fields key j) key :: stack)

def Place.takesValue : Place → Bool
  | .value | .firstValue => true
  | _ => false

def Place.takesKey : Place → Bool
  | .key | .firstKey => true
  | _ => false

def Parser.step : Parser → Token → Option Parser
  | (place, stack), .openObject =>
    if place.takesValue then some (.firstKey, .obj [] [] :: stack) else none
  | (place, stack), .openArray =>
    if place.takesValue then some (.firstValue, .arr [] :: stack) else none
  | (place, stack), .atom j => if place.takesValue then some (complete j stack) else none
  | (place, stack), .str s =>
    match stack with
    | .obj fields key :: rest =>
      if place.takesKey then some (.colon, .obj fields s :: rest)
      else if place.takesValue then some (complete (.str s) (.obj fields key :: rest))
      else none
    | stack => if place.takesValue then some (complete (.str s) stack) else none
  | (.colon, stack), .colon => some (.value, stack)
  | (.after, .arr items :: stack), .comma => some (.value, .arr items :: stack)
  | (.after, .obj fields key :: stack), .comma => some (.key, .obj fields key :: stack)
  | (.after, .arr items :: stack), .closeArray => some (complete (.arr items) stack)
  | (.firstValue, .arr items :: stack), .closeArray => some (complete (.arr items) stack)
  | (.after, .obj fields _ :: stack), .closeObject => some (complete (.obj fields) stack)
  | (.firstKey, .obj fields _ :: stack), .closeObject => some (complete (.obj fields) stack)
  | _, _ => none

def Parser.result : Parser → Option Json
  | (.done j, _) => some j
  | _ => none

end Parser

section Machine

structure Machine where
  lexer : Lexer
  parser : Parser

variable (number : Str → Str)

def Machine.start : Machine := ⟨.start, .value, []⟩

def Machine.step (m : Machine) (c : CodeUnit) : Option Machine :=
  (m.lexer.step number c).bind fun next =>
    (next.2.foldlM Parser.step m.parser).map fun p => ⟨next.1, p⟩

def Machine.run (m : Machine) (text : Str) : Option Machine := text.foldlM (Machine.step number) m

/-- The value, when the text ends here. -/
def Machine.result (m : Machine) : Option Json :=
  match m.lexer with
  | .start => m.parser.result
  | .word read => (atom number read).bind fun j => (m.parser.step (.atom j)).bind Parser.result
  | _ => none

/-- `JSON.parse`; `none` is a `SyntaxError`. -/
def parse (text : Str) : Option Json := (Machine.start.run number text).bind (Machine.result number)

end Machine

section Whitespace
variable {number : Str → Str}

@[simp] theorem step_mk (lexer : Lexer) (p : Parser) (c : CodeUnit) :
    (Machine.mk lexer p).step number c =
      (lexer.step number c).bind fun next =>
        (next.2.foldlM Parser.step p).map fun p => ⟨next.1, p⟩ := rfl

@[simp] theorem result_start (p : Parser) : (Machine.mk .start p).result number = p.result := rfl

@[simp] theorem result_word (read : Str) (p : Parser) :
    (Machine.mk (.word read) p).result number =
      (atom number read).bind fun j => (p.step (.atom j)).bind Parser.result := rfl

theorem white_cases {c : CodeUnit} (hc : isWhitespace c = true) :
    c = 9 ∨ c = 10 ∨ c = 13 ∨ c = 32 := by
  have hmem := of_decide_eq_true hc
  simp only [List.mem_cons, List.not_mem_nil, or_false] at hmem
  rcases hmem with h | h | h | h
  · exact Or.inl (BitVec.eq_of_toNat_eq h)
  · exact Or.inr (Or.inl (BitVec.eq_of_toNat_eq h))
  · exact Or.inr (Or.inr (Or.inl (BitVec.eq_of_toNat_eq h)))
  · exact Or.inr (Or.inr (Or.inr (BitVec.eq_of_toNat_eq h)))

theorem begin_white {c : CodeUnit} (hc : isWhitespace c = true) :
    begin c = some (.start, []) := if_pos hc

theorem step_word_white (read : Str) {c : CodeUnit} (hc : isWhitespace c = true) :
    (Lexer.word read).step number c = (atom number read).map fun j => (.start, [.atom j]) := by
  have hword : ¬isWord c = true := by
    rcases white_cases hc with rfl | rfl | rfl | rfl
    all_goals decide
  rw [Lexer.step, if_neg hword, begin_white hc]
  cases atom number read with
  | none => rfl
  | some j => rfl

theorem step_white_result (m : Machine) {c : CodeUnit} (hc : isWhitespace c = true) :
    (m.step number c).bind (Machine.result number) = m.result number := by
  obtain ⟨lexer, p⟩ := m
  cases lexer with
  | start =>
    rw [step_mk, Lexer.step, begin_white hc]
    rfl
  | word read =>
    rw [step_mk, step_word_white read hc, result_word]
    cases atom number read with
    | none => rfl
    | some j =>
      simp only [Option.map_some, Option.bind_some, List.foldlM_cons, List.foldlM_nil,
        Option.bind_eq_bind]
      cases p.step (.atom j) with
      | none => rfl
      | some q => rfl
  | str read | escape read | hex read value digits =>
    rcases white_cases hc with rfl | rfl | rfl | rfl
    all_goals rfl

/-- A newline ends whatever stands before it, or the text. -/
theorem step_newline {m m' : Machine} (h : m.step number (unit '\n') = some m') :
    m'.lexer = .start := by
  obtain ⟨lexer, p⟩ := m
  have hnewline : isWhitespace (unit '\n') = true := rfl
  cases lexer with
  | start =>
    cases h
    rfl
  | word read =>
    rw [step_mk, step_word_white read hnewline, Option.bind_map, Option.bind_eq_some_iff] at h
    obtain ⟨j, -, h⟩ := h
    obtain ⟨q, -, rfl⟩ := Option.map_eq_some_iff.mp h
    rfl
  | str read | escape read | hex read value digits => cases h

@[simp] theorem parser_step_done (j : Json) (stack : List Frame) (t : Token) :
    Parser.step (.done j, stack) t = none := by
  cases t with
  | str s => rcases stack with _ | ⟨_ | _, _⟩ <;> rfl
  | _ => rfl

theorem run_cons (m : Machine) (c : CodeUnit) (s : Str) :
    m.run number (c :: s) = (m.step number c).bind fun m => m.run number s := List.foldlM_cons

/-- A step that puts out no token and does not come out between tokens. -/
def Inside (next : Lexer × List Token) : Prop := next.1 ≠ .start ∧ next.2 = []

theorem begin_inside {c : CodeUnit} (hc : isWhitespace c = false) {next : Lexer × List Token}
    (h : begin c = some next) : Inside next ∨ next.2 ≠ [] := by
  rw [begin, hc, if_neg Bool.false_ne_true] at h
  split_ifs at h with hquote hword
  · cases h
    exact Or.inl ⟨Lexer.noConfusion, rfl⟩
  · cases h
    exact Or.inl ⟨Lexer.noConfusion, rfl⟩
  · obtain ⟨t, -, rfl⟩ := Option.map_eq_some_iff.mp h
    exact Or.inr (List.cons_ne_nil t [])

theorem step_inside {lexer : Lexer} (hlexer : lexer ≠ .start) {c : CodeUnit}
    {next : Lexer × List Token} (h : lexer.step number c = some next) :
    Inside next ∨ next.2 ≠ [] := by
  cases lexer with
  | start => exact absurd rfl hlexer
  | str read =>
    rw [Lexer.step] at h
    split_ifs at h
    · cases h
      exact Or.inr (List.cons_ne_nil _ _)
    · cases h
      exact Or.inl ⟨Lexer.noConfusion, rfl⟩
    · cases h
      exact Or.inl ⟨Lexer.noConfusion, rfl⟩
  | escape read =>
    rw [Lexer.step] at h
    split_ifs at h
    · cases h
      exact Or.inl ⟨Lexer.noConfusion, rfl⟩
    · obtain ⟨e, -, rfl⟩ := Option.map_eq_some_iff.mp h
      exact Or.inl ⟨Lexer.noConfusion, rfl⟩
  | hex read value digits =>
    obtain ⟨d, -, rfl⟩ := Option.map_eq_some_iff.mp h
    split_ifs
    · exact Or.inl ⟨Lexer.noConfusion, rfl⟩
    · exact Or.inl ⟨Lexer.noConfusion, rfl⟩
  | word read =>
    rw [Lexer.step] at h
    split_ifs at h
    · cases h
      exact Or.inl ⟨Lexer.noConfusion, rfl⟩
    · obtain ⟨j, -, h⟩ := Option.bind_eq_some_iff.mp h
      obtain ⟨begun, -, rfl⟩ := Option.map_eq_some_iff.mp h
      exact Or.inr (List.cons_ne_nil _ _)

theorem foldlM_done (j : Json) (stack : List Frame) {tokens : List Token} (h : tokens ≠ []) :
    tokens.foldlM Parser.step (.done j, stack) = none := by
  cases tokens with
  | nil => exact absurd rfl h
  | cons t tokens =>
    rw [List.foldlM_cons, parser_step_done]
    rfl

/-- No token goes behind a value, so the text does not end in one. -/
theorem run_late {lexer : Lexer} (h : lexer ≠ .start) (j : Json) (stack : List Frame) (s : Str) :
    ((Machine.mk lexer (.done j, stack)).run number s).bind (Machine.result number) = none := by
  induction s generalizing lexer with
  | nil =>
    rw [Machine.run, List.foldlM_nil, Option.pure_def, Option.bind_some]
    cases lexer with
    | start => exact absurd rfl h
    | word read =>
      exact Option.bind_eq_none_iff.mpr fun k _ => by rw [parser_step_done, Option.bind_none]
    | _ => rfl
  | cons c s ih =>
    rw [run_cons, step_mk]
    cases hnext : lexer.step number c with
    | none => rfl
    | some next =>
      rw [Option.bind_some]
      rcases step_inside h hnext with ⟨hlexer, htokens⟩ | htokens
      · rw [htokens]
        exact ih hlexer
      · rw [foldlM_done j stack htokens]
        rfl

theorem run_done (j : Json) (stack : List Frame) (s : Str) :
    ((Machine.mk .start (.done j, stack)).run number s).bind (Machine.result number) =
      if s.all isWhitespace then some j else none := by
  induction s with
  | nil => rfl
  | cons c s ih =>
    rw [run_cons, step_mk, Lexer.step, List.all_cons]
    cases hc : isWhitespace c with
    | true =>
      rw [begin_white hc, Bool.true_and]
      exact ih
    | false =>
      rw [Bool.false_and, if_neg Bool.false_ne_true]
      cases hnext : begin c with
      | none => rfl
      | some next =>
        rw [Option.bind_some]
        rcases begin_inside hc hnext with ⟨hlexer, htokens⟩ | htokens
        · rw [htokens]
          exact run_late hlexer j stack s
        · rw [foldlM_done j stack htokens]
          rfl

theorem run_append (m : Machine) (s t : Str) :
    m.run number (s ++ t) = (m.run number s).bind fun m => m.run number t := List.foldlM_append

theorem parse_append_white (s : Str) {c : CodeUnit} (hc : isWhitespace c = true) :
    parse number (s ++ [c]) = parse number s := by
  rw [parse, run_append, parse]
  cases Machine.start.run number s with
  | none => rfl
  | some m =>
    rw [Option.bind_some, Option.bind_some, ← step_white_result m hc, run_cons]
    cases m.step number c with
    | none => rfl
    | some m' => rfl

/-- Behind a line that is a whole text only whitespace may follow. -/
theorem parse_line {line : Str} {j : Json} (h : parse number line = some j) (s : Str) :
    parse number (line ++ unit '\n' :: s) = if s.all isWhitespace then some j else none := by
  obtain ⟨m, hrun, hresult⟩ := Option.bind_eq_some_iff.mp h
  rw [← step_white_result m (c := unit '\n') rfl] at hresult
  obtain ⟨⟨lexer, place, stack⟩, hstep, hresult⟩ := Option.bind_eq_some_iff.mp hresult
  cases step_newline hstep
  rw [result_start] at hresult
  cases place with
  | done k =>
    cases hresult
    rw [parse, run_append, hrun, Option.bind_some, run_cons, hstep, Option.bind_some]
    exact run_done j stack s
  | _ => cases hresult

theorem run_white (p : Parser) {s : Str} (hs : s.all isWhitespace = true) :
    (Machine.mk .start p).run number s = some ⟨.start, p⟩ := by
  induction s with
  | nil => rfl
  | cons c s ih =>
    rw [List.all_cons, Bool.and_eq_true] at hs
    rw [run_cons, step_mk, Lexer.step, begin_white hs.1]
    exact ih hs.2

theorem parse_white {s : Str} (hs : s.all isWhitespace = true) : parse number s = none := by
  rw [parse, Machine.start, run_white _ hs]
  rfl

end Whitespace

end Aion.Stratum.JsonText
