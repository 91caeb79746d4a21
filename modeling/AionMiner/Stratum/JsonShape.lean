import AionMiner.Stratum.JsonText
import AionMiner.Text.Utf8

/-! Whether a text is JSON does not depend on what is in its strings, so that the same bytes are or
are not JSON however they are cut before they are decoded. -/

namespace Aion.Stratum.JsonText
open Text Text.Utf8 Bits

section Forget

def Lexer.forget : Lexer → Lexer
  | .start => .start
  | .str _ => .str []
  | .escape _ => .escape []
  | .hex _ _ digits => .hex [] 0 digits
  | .word read => .word read

def Token.forget : Token → Token
  | .str _ => .str []
  | .atom _ => .atom .null
  | t => t

def Frame.forget : Frame → Frame
  | .arr _ => .arr []
  | .obj _ _ => .obj [] []

def Place.forget : Place → Place
  | .done _ => .done .null
  | place => place

def Parser.forget (p : Parser) : Parser := (p.1.forget, p.2.map Frame.forget)

def Machine.forget (m : Machine) : Machine := ⟨m.lexer.forget, m.parser.forget⟩

@[simp] theorem forget_arr (items : List Json) : (Frame.arr items).forget = .arr [] := rfl

@[simp] theorem forget_obj (fields : List (Str × Json)) (key : Str) :
    (Frame.obj fields key).forget = .obj [] [] := rfl

@[simp] theorem frame_forget_forget (frame : Frame) : frame.forget.forget = frame.forget := by
  cases frame with
  | arr items => rfl
  | obj fields key => rfl

theorem stack_forget (stack : List Frame) :
    (stack.map Frame.forget).map Frame.forget = stack.map Frame.forget := by
  rw [List.map_map]
  exact List.map_congr_left fun frame _ => frame_forget_forget frame

theorem complete_forget (j k : Json) (stack : List Frame) :
    (complete k (stack.map Frame.forget)).forget = (complete j stack).forget := by
  cases stack with
  | nil => rfl
  | cons frame stack =>
    cases frame with
    | arr items | obj fields key =>
      exact congrArg (fun s => (Place.after, Frame.forget _ :: s)) (stack_forget stack)

/-- Which tokens the machine takes does not depend on what the strings, numbers and words are. -/
theorem parser_step_forget (p : Parser) (t : Token) :
    (Parser.step p.forget t.forget).map Parser.forget = (Parser.step p t).map Parser.forget := by
  rcases p with ⟨place, _ | ⟨_ | _, stack⟩⟩
  all_goals cases t
  all_goals cases place
  all_goals
    first
    | rfl
    | exact congrArg some (complete_forget _ _ _)
    | simp [Parser.step, Parser.forget, Token.forget, Place.forget, Place.takesValue,
        Place.takesKey, complete]

theorem forget_forget (p : Parser) : p.forget.forget = p.forget := by
  rw [Parser.forget, Parser.forget, stack_forget]
  cases p.1 with
  | _ => rfl

end Forget

section Steps
variable {number : Str → Str}

/-- Two steps that may fail and agree as far as it matters, one after the other. -/
theorem map_bind_congr {α β γ δ : Type} {g : α → γ} {k : β → δ} {x x' : Option α}
    {f f' : α → Option β} (hx : x.map g = x'.map g)
    (hf : ∀ a a', g a = g a' → (f a).map k = (f' a').map k) :
    (x.bind f).map k = (x'.bind f').map k := by
  cases x with
  | none =>
    rw [Option.map_none, eq_comm, Option.map_eq_none_iff] at hx
    rw [hx]
    rfl
  | some a =>
    rw [Option.map_some, eq_comm, Option.map_eq_some_iff] at hx
    obtain ⟨a', rfl, ha⟩ := hx
    exact hf a a' ha.symm

theorem parser_step_congr {p p' : Parser} {t t' : Token} (hp : p.forget = p'.forget)
    (ht : t.forget = t'.forget) :
    (Parser.step p t).map Parser.forget = (Parser.step p' t').map Parser.forget := by
  rw [← parser_step_forget p, hp, ht, parser_step_forget]

theorem run_tokens_congr {p p' : Parser} (hp : p.forget = p'.forget) {tokens tokens' : List Token}
    (h : tokens.map Token.forget = tokens'.map Token.forget) :
    (tokens.foldlM Parser.step p).map Parser.forget =
      (tokens'.foldlM Parser.step p').map Parser.forget := by
  induction tokens generalizing p p' tokens' with
  | nil =>
    rw [List.map_nil, eq_comm, List.map_eq_nil_iff] at h
    rw [h]
    exact congrArg some hp
  | cons t tokens ih =>
    rcases tokens' with _ | ⟨t', tokens'⟩
    · cases h
    · obtain ⟨ht, htokens⟩ := List.cons.inj h
      rw [List.foldlM_cons, List.foldlM_cons]
      exact map_bind_congr (parser_step_congr hp ht) fun q q' hq => ih hq htokens

def forgetNext (next : Lexer × List Token) : Lexer × List Token :=
  (next.1.forget, next.2.map Token.forget)

theorem lexer_step_forget (lexer : Lexer) (c : CodeUnit) :
    (lexer.forget.step number c).map forgetNext = (lexer.step number c).map forgetNext := by
  cases lexer with
  | start => rfl
  | str read =>
    rw [Lexer.forget, Lexer.step, Lexer.step]
    split_ifs
    all_goals rfl
  | escape read =>
    rw [Lexer.forget, Lexer.step, Lexer.step]
    split_ifs
    · rfl
    · rw [Option.map_map, Option.map_map]
      rfl
  | hex read value digits =>
    rw [Lexer.forget, Lexer.step, Lexer.step, Option.map_map, Option.map_map]
    refine congrArg (fun f => (hexValue c).map f) (funext fun d => ?_)
    by_cases hdigits : digits = 3
    · simp [hdigits, forgetNext, Lexer.forget]
    · simp [hdigits, forgetNext, Lexer.forget]
  | word read => rfl

theorem ne_unit {c : CodeUnit} (hc : 128 ≤ c.toNat) {a : Char} (ha : (unit a).toNat < 128) :
    c ≠ unit a := by
  rintro rfl
  omega

theorem not_word_wide {c : CodeUnit} (hc : 128 ≤ c.toNat) : ¬isWord c = true := by
  simp only [isWord, isDigit, Bool.or_eq_true, Bool.and_eq_true, decide_eq_true_eq, List.mem_cons,
    List.not_mem_nil, or_false]
  omega

theorem begin_wide {c : CodeUnit} (hc : 128 ≤ c.toNat) : begin c = none := by
  have hwhite : ¬isWhitespace c = true := by
    simp only [isWhitespace, decide_eq_true_eq, List.mem_cons, List.not_mem_nil, or_false]
    omega
  have hpunctuation : punctuation c = none := by
    rw [punctuation, if_neg (ne_unit hc (by decide)), if_neg (ne_unit hc (by decide)),
      if_neg (ne_unit hc (by decide)), if_neg (ne_unit hc (by decide)),
      if_neg (ne_unit hc (by decide)), if_neg (ne_unit hc (by decide))]
  rw [begin, if_neg hwhite, if_neg (ne_unit hc (by decide)), if_neg (not_word_wide hc),
    hpunctuation]
  rfl

theorem escaped_wide {c : CodeUnit} (hc : 128 ≤ c.toNat) : escaped c = none := by
  have hself : ¬(c = unit '"' ∨ c = unit '\\' ∨ c = unit '/') := by
    rintro (h | h | h)
    all_goals exact ne_unit hc (by decide) h
  rw [escaped, if_neg hself, if_neg (ne_unit hc (by decide)), if_neg (ne_unit hc (by decide)),
    if_neg (ne_unit hc (by decide)), if_neg (ne_unit hc (by decide)),
    if_neg (ne_unit hc (by decide))]

/-- Beyond ASCII a text goes on in a string only. -/
theorem lexer_step_wide (lexer : Lexer) {c : CodeUnit} (hc : 128 ≤ c.toNat) :
    (lexer.step number c).map forgetNext =
      match lexer with
      | .str _ => some (.str [], [])
      | _ => none := by
  cases lexer with
  | start =>
    rw [Lexer.step, begin_wide hc]
    rfl
  | str read =>
    rw [Lexer.step, if_neg (ne_unit hc (by decide)), if_neg (ne_unit hc (by decide)),
      if_neg (by omega)]
    rfl
  | escape read =>
    rw [Lexer.step, if_neg (ne_unit hc (by decide)), escaped_wide hc]
    rfl
  | hex read value digits =>
    rw [Lexer.step, hexValue, if_neg (by omega), if_neg (by omega), if_neg (by omega)]
    rfl
  | word read =>
    rw [Lexer.step, if_neg (not_word_wide hc), begin_wide hc]
    cases atom number read with
    | _ => rfl

theorem lexer_forget_forget (lexer : Lexer) : lexer.forget.forget = lexer.forget := by
  cases lexer with
  | _ => rfl

theorem machine_forget_forget (m : Machine) : m.forget.forget = m.forget := by
  rw [Machine.forget, Machine.forget, lexer_forget_forget, forget_forget]

theorem ascii_cases {c c' : CodeUnit} (h : ascii c = ascii c') :
    c = c' ∨ 128 ≤ c.toNat ∧ 128 ≤ c'.toNat := by
  rw [ascii, ascii] at h
  split_ifs at h with hc hc'
  · exact Or.inl (Option.some.inj h)
  · exact Or.inr ⟨Nat.le_of_not_lt hc, Nat.le_of_not_lt ‹_›⟩

theorem lexer_step_congr {lexer lexer' : Lexer} (hlexer : lexer.forget = lexer'.forget)
    {c c' : CodeUnit} (hc : ascii c = ascii c') :
    (lexer.step number c).map forgetNext = (lexer'.step number c').map forgetNext := by
  rw [← lexer_step_forget lexer, hlexer, ← lexer_step_forget lexer']
  rcases ascii_cases hc with rfl | ⟨hwide, hwide'⟩
  · rfl
  · rw [lexer_step_wide _ hwide, lexer_step_wide _ hwide']

theorem step_congr {m m' : Machine} (hm : m.forget = m'.forget) {c c' : CodeUnit}
    (hc : ascii c = ascii c') :
    (m.step number c).map Machine.forget = (m'.step number c').map Machine.forget := by
  obtain ⟨lexer, p⟩ := m
  obtain ⟨lexer', p'⟩ := m'
  have hlexer : lexer.forget = lexer'.forget := congrArg Machine.lexer hm
  have hparser : p.forget = p'.forget := congrArg Machine.parser hm
  rw [step_mk, step_mk]
  apply map_bind_congr (lexer_step_congr hlexer hc)
  intro next next' hforget
  obtain ⟨hfirst, htokens⟩ := Prod.ext_iff.mp hforget
  have hrun :=
    congrArg (Option.map (Machine.mk next.1.forget)) (run_tokens_congr hparser htokens)
  have hlast : Machine.forget ∘ Machine.mk next'.1 = Machine.mk next.1.forget ∘ Parser.forget := by
    funext q
    exact congrArg (Machine.mk · q.forget) hfirst.symm
  rw [Option.map_map, Option.map_map] at hrun ⊢
  rw [hlast]
  exact hrun

end Steps

section Texts
variable {number : Str → Str}

/-- A step as far as it matters for whether there is a value: all that is not ASCII is the same to
it. -/
def look (number : Str → Str) (s : Option Machine) (c : Option CodeUnit) : Option Machine :=
  s.bind fun m => (m.step number (c.getD replacement)).map Machine.forget

theorem run_look (m : Machine) (text : Str) :
    (m.run number text).map Machine.forget =
      (text.map ascii).foldl (look number) (some m.forget) := by
  have hnone (cs : List (Option CodeUnit)) : cs.foldl (look number) none = none := by
    induction cs with
    | nil => rfl
    | cons c cs ih => exact ih
  induction text generalizing m with
  | nil => rfl
  | cons c text ih =>
    have hascii : ascii ((ascii c).getD replacement) = ascii c := by
      by_cases hc : c.toNat < 128
      · have hself : ascii c = some c := if_pos hc
        rw [hself, Option.getD_some, hself]
      · have hwide : ascii c = none := if_neg hc
        rw [hwide]
        rfl
    have hlook : look number (some m.forget) (ascii c) = (m.step number c).map Machine.forget :=
      step_congr (machine_forget_forget m) hascii
    rw [run_cons, List.map_cons, List.foldl_cons, hlook]
    cases m.step number c with
    | none => exact (hnone _).symm
    | some m' => exact ih m'

theorem look_none (lexer : Lexer) (p : Parser) :
    look number (some ⟨lexer, p⟩) none =
      match lexer with
      | .str _ => some ⟨.str [], p.forget⟩
      | _ => none := by
  cases lexer with
  | word read =>
    have hstep : (Lexer.word read).step number replacement = none := by
      rw [Lexer.step, if_neg (not_word_wide (by decide)), begin_wide (by decide)]
      cases atom number read with
      | _ => rfl
    rw [look, Option.bind_some, Option.getD_none, step_mk, hstep]
    rfl
  | _ => rfl

theorem look_again (s : Option Machine) :
    look number (look number s none) none = look number s none := by
  cases s with
  | none => rfl
  | some m =>
    obtain ⟨lexer, p⟩ := m
    rw [look_none]
    cases lexer with
    | str read => exact (look_none (.str []) p.forget).trans (by rw [forget_forget])
    | _ => rfl

theorem isSome_result_forget (m : Machine) :
    (m.forget.result number).isSome = (m.result number).isSome := by
  have hresult (p : Parser) : p.forget.result.isSome = p.result.isSome := by
    obtain ⟨place, stack⟩ := p
    cases place with
    | _ => rfl
  have hbind (o : Option Parser) :
      ((o.map Parser.forget).bind Parser.result).isSome = (o.bind Parser.result).isSome := by
    cases o with
    | none => rfl
    | some p => exact hresult p
  obtain ⟨lexer, p⟩ := m
  cases lexer with
  | start => exact hresult p
  | word read =>
    change Option.isSome (Machine.result number ⟨.word read, p.forget⟩) = _
    rw [result_word, result_word]
    cases atom number read with
    | none => rfl
    | some j =>
      have hstep : (Parser.step p.forget (.atom j)).map Parser.forget =
          (Parser.step p (.atom j)).map Parser.forget :=
        parser_step_congr (forget_forget p) rfl
      rw [Option.bind_some, Option.bind_some, ← hbind, hstep, hbind]
  | _ => rfl

/-- Whether a text has a value shows in how it looks. -/
theorem isSome_parse (text : Str) :
    (parse number text).isSome =
      (((text.map ascii).foldl (look number) (some .start)).bind
        (Machine.result number)).isSome := by
  have hrun : (Machine.start.run number text).map Machine.forget = _ := run_look .start text
  change _ = (text.map ascii).foldl (look number) (some .start) at hrun
  rw [← hrun, parse]
  cases Machine.start.run number text with
  | none => rfl
  | some m => exact (isSome_result_forget m).symm

/-- Bytes that are decoded in pieces have a value if and only if they have one when they are decoded
as a whole. -/
theorem isSome_parse_decode (chunks : List (List Byte)) :
    (parse number (chunks.flatMap decode)).isSome =
      (parse number (decode chunks.flatten)).isSome := by
  rw [isSome_parse, isSome_parse, scan_chunks look_again, scan_decode look_again]

end Texts
end Aion.Stratum.JsonText
