import AionMiner.Stratum.Values
import AionMiner.Text.Replace

/-! `performHttpRequest` of `daemon.js`: what becomes of the reply to one request. -/

namespace Aion.Daemon
open Text Stratum

section Code

structure Answer where
  error : Value
  result : Json
  data : Option Str

def nan : Str := literal ":-nan"

def nanComma : Str := literal ":-nan,"

/-- `data.replace(/:-nan,/g, ":0")`. -/
def replaceNan (data : Str) : Str := replaceAll nanComma (literal ":0") data

/-- `parseJson` within a number of calls of itself: `none` when it has not returned by then, and otherwise what it
calls back with, if it does. `parse` is `JSON.parse`, which throws where it is `none`. -/
def parseJson (parse : Str → Option Json) (statusCode : ℕ) : ℕ → Str → Option (Option Answer)
  | 0, _ => none
  | calls + 1, data =>
    if statusCode = 401 then some none
    else
      match parse data with
      | some dataJson =>
        some <|
          if dataJson.truthy then
            some { error := dataJson.field (literal "error"), result := dataJson, data := some data }
          else none
      | none => if nan <:+: data then parseJson parse statusCode calls (replaceNan data) else some none

inductive Outcome where
  | error (code message : Str)
  | response (statusCode : ℕ) (data : Str)

def performHttpRequest (parse : Str → Option Json) (calls : ℕ) : Outcome → Option (Option Answer)
  | .error code message =>
    let type := if code = literal "ECONNREFUSED" then literal "offline" else literal "request error"
    some (some
      { error := some (.obj [(literal "type", .str type), (literal "message", .str message)])
        result := .null
        data := none })
  | .response statusCode data => parseJson parse statusCode calls data

end Code

section Replacing

theorem replaceNan_replaceNan (data : Str) : replaceNan (replaceNan data) = replaceNan data :=
  replaceAll_replaceAll (x := unit ':') (y := unit '-') (z := unit '0') (by decide) (by decide) (by decide) data

/-- What is left are the occurrences of `:-nan` without a comma. -/
theorem nan_replaceNan_iff (data : Str) :
    nan <:+: replaceNan data ↔ ∃ t, t <:+ data ∧ nan <+: t ∧ ¬nanComma <+: t :=
  infix_replaceAll_iff (x := unit ':') (y := unit '-') (z := unit '0') (q := literal "nan") (by decide)
    (by decide) (by decide)
    (by decide) data

end Replacing

section Calls
variable (parse : Str → Option Json) {statusCode : ℕ} {data : Str}

/-- The callback is called with what has a truth value. -/
def answerTo (dataJson : Json) (data : Str) : Option Answer :=
  if dataJson.truthy then
    some { error := dataJson.field (literal "error"), result := dataJson, data := some data }
  else none

variable {parse}

theorem parseJson_unauthorized (calls : ℕ) :
    parseJson parse 401 (calls + 1) data = some none := if_pos rfl

theorem parseJson_parsed (hstatus : statusCode ≠ 401) {dataJson : Json}
    (hparse : parse data = some dataJson) (calls : ℕ) :
    parseJson parse statusCode (calls + 1) data = some (answerTo dataJson data) := by
  rw [parseJson, if_neg hstatus, hparse]
  rfl

theorem parseJson_failed (hstatus : statusCode ≠ 401) (hparse : parse data = none)
    (hnan : ¬nan <:+: data) (calls : ℕ) :
    parseJson parse statusCode (calls + 1) data = some none := by
  rw [parseJson, if_neg hstatus, hparse]
  exact if_neg hnan

theorem parseJson_again (hstatus : statusCode ≠ 401) (hparse : parse data = none)
    (hnan : nan <:+: data) (calls : ℕ) :
    parseJson parse statusCode (calls + 1) data = parseJson parse statusCode calls (replaceNan data) := by
  rw [parseJson, if_neg hstatus, hparse]
  exact if_pos hnan

theorem parseJson_stuck (hstatus : statusCode ≠ 401) (hparse : parse data = none)
    (hnan : nan <:+: data) (hsame : replaceNan data = data) (calls : ℕ) :
    parseJson parse statusCode calls data = none := by
  induction calls with
  | zero => rfl
  | succ calls ih => rw [parseJson_again hstatus hparse hnan, hsame, ih]

theorem parseJson_succ {calls : ℕ} {answer : Option Answer}
    (h : parseJson parse statusCode calls data = some answer) :
    parseJson parse statusCode (calls + 1) data = some answer := by
  induction calls generalizing data with
  | zero => cases h
  | succ calls ih =>
    by_cases hstatus : statusCode = 401
    · subst hstatus
      rw [parseJson_unauthorized] at h ⊢
      exact h
    cases hparse : parse data with
    | some dataJson =>
      rw [parseJson_parsed hstatus hparse] at h ⊢
      exact h
    | none =>
      by_cases hnan : nan <:+: data
      · rw [parseJson_again hstatus hparse hnan] at h ⊢
        exact ih h
      · rw [parseJson_failed hstatus hparse hnan] at h ⊢
        exact h

/-- How the calls go on: at most one replacement is of use. -/
theorem parseJson_cases (parse : Str → Option Json) (statusCode : ℕ) (data : Str) :
    (statusCode = 401 ∧ ∀ calls, parseJson parse statusCode (calls + 1) data = some none) ∨
    (statusCode ≠ 401 ∧ ∃ dataJson, parse data = some dataJson ∧
      ∀ calls, parseJson parse statusCode (calls + 1) data = some (answerTo dataJson data)) ∨
    (statusCode ≠ 401 ∧ parse data = none ∧ ¬nan <:+: data ∧
      ∀ calls, parseJson parse statusCode (calls + 1) data = some none) ∨
    (statusCode ≠ 401 ∧ parse data = none ∧ nan <:+: data ∧ ∃ dataJson, parse (replaceNan data) = some dataJson ∧
      ∀ calls, parseJson parse statusCode (calls + 2) data = some (answerTo dataJson (replaceNan data))) ∨
    (statusCode ≠ 401 ∧ parse data = none ∧ nan <:+: data ∧ parse (replaceNan data) = none ∧
      ¬nan <:+: replaceNan data ∧
      ∀ calls, parseJson parse statusCode (calls + 2) data = some none) ∨
    (statusCode ≠ 401 ∧ parse data = none ∧ nan <:+: data ∧ parse (replaceNan data) = none ∧
      nan <:+: replaceNan data ∧
      ∀ calls, parseJson parse statusCode calls data = none) := by
  by_cases hstatus : statusCode = 401
  · subst hstatus
    exact .inl ⟨rfl, parseJson_unauthorized⟩
  refine .inr ?_
  cases hparse : parse data with
  | some dataJson => exact .inl ⟨hstatus, dataJson, rfl, parseJson_parsed hstatus hparse⟩
  | none =>
    refine .inr ?_
    by_cases hnan : nan <:+: data
    swap
    · exact .inl ⟨hstatus, rfl, hnan, parseJson_failed hstatus hparse hnan⟩
    refine .inr ?_
    have hagain := parseJson_again hstatus hparse hnan
    cases hparse' : parse (replaceNan data) with
    | some dataJson =>
      refine .inl ⟨hstatus, rfl, hnan, dataJson, rfl, fun calls => ?_⟩
      rw [hagain, parseJson_parsed hstatus hparse']
    | none =>
      refine .inr ?_
      by_cases hnan' : nan <:+: replaceNan data
      · refine .inr ⟨hstatus, rfl, hnan, rfl, hnan', fun calls => ?_⟩
        cases calls with
        | zero => rfl
        | succ calls =>
          rw [hagain, parseJson_stuck hstatus hparse' hnan' (replaceNan_replaceNan data)]
      · refine .inl ⟨hstatus, rfl, hnan, rfl, hnan', fun calls => ?_⟩
        rw [hagain, parseJson_failed hstatus hparse' hnan']

/-- `parseJson` returns, unless it meets a `:-nan` that is not followed by a comma, in data that are
JSON neither before nor after the replacement. -/
theorem parseJson_returns_iff (parse : Str → Option Json) (statusCode : ℕ) (data : Str) :
    (∃ calls answer, parseJson parse statusCode calls data = some answer) ↔
      statusCode = 401 ∨ (parse data).isSome = true ∨ (parse (replaceNan data)).isSome = true ∨
        ∀ t, t <:+ data → nan <+: t → nanComma <+: t := by
  have hloose : (∀ t, t <:+ data → nan <+: t → nanComma <+: t) ↔ ¬nan <:+: replaceNan data := by
    rw [nan_replaceNan_iff]
    push Not
    rfl
  rw [hloose]
  obtain ⟨hstatus, h⟩ | ⟨-, dataJson, hparse, h⟩ | ⟨-, -, hnan, h⟩ | ⟨-, -, -, dataJson, hparse, h⟩ |
    ⟨-, -, -, -, hnan, h⟩ | ⟨hstatus, hparse, -, hparse', hnan, h⟩ :=
    parseJson_cases parse statusCode data
  · exact iff_of_true ⟨1, _, h 0⟩ (.inl hstatus)
  · exact iff_of_true ⟨1, _, h 0⟩ (.inr (.inl (by rw [hparse]; rfl)))
  · refine iff_of_true ⟨1, _, h 0⟩ (.inr (.inr (.inr ?_)))
    rw [nan_replaceNan_iff]
    rintro ⟨t, ht, hbegins, -⟩
    exact hnan (hbegins.isInfix.trans ht.isInfix)
  · exact iff_of_true ⟨2, _, h 0⟩ (.inr (.inr (.inl (by rw [hparse]; rfl))))
  · exact iff_of_true ⟨2, _, h 0⟩ (.inr (.inr (.inr hnan)))
  · apply iff_of_false
    · rintro ⟨calls, answer, hcalls⟩
      rw [h] at hcalls
      cases hcalls
    · rw [hparse, hparse']
      rintro (h | h | h | h)
      · exact hstatus h
      · cases h
      · cases h
      · exact h hnan

/-- `{"result":-nan}` is never JSON, and stays as it is. -/
theorem nan_at_end :
    ¬∃ calls answer, parseJson (fun _ => none) 200 calls (literal "\x7b\"result\":-nan\x7d") = some answer := by
  have hsame : replaceNan (literal "\x7b\"result\":-nan\x7d") =
      literal "\x7b\"result\":-nan\x7d" := by decide
  rintro ⟨calls, answer, h⟩
  rw [parseJson_stuck (by decide) rfl (by decide) hsame] at h
  cases h

end Calls
end Aion.Daemon
