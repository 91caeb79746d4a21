import AionMiner.Daemon.Rpc
import Mathlib.Data.Rat.Lemmas
import Mathlib.Algebra.Order.Ring.Rat

/-! `batchCmd` of `daemon.js`: its callback sorts the reply of the first daemon. -/

namespace Aion.Daemon
open Text Stratum

section Code

/-- What comes with JavaScript: `JSON.parse`, the numbers of what is no whole number of up to 15
digits (`none` is `NaN`), and the order in which `sort` leaves elements that it cannot compare. -/
structure Runtime where
  parse : Str → Option Json
  toNumber : Value → Option ℚ
  unsorted : List Json → List Json

def decimalNumber (text : Str) : ℕ := Nat.ofDigitChars 10 (text.map fun u => Char.ofNat u.toNat) 0

def isDecimal (text : Str) : Bool := text.length ≤ 15 && text.all fun u => 48 ≤ u.toNat && u.toNat ≤ 57

namespace Runtime
variable (rt : Runtime)

def idNumber (item : Json) : Option ℚ :=
  match item.field (literal "id") with
  | some (.num text) => if isDecimal text then some (decimalNumber text) else rt.toNumber (some (.num text))
  | id => rt.toNumber id

/-- `a.id` cannot be read of `null`, and an `id` without a text is no number either. -/
def comparable (item : Json) : Bool := !Value.nullish item && (Value.text (item.field (literal "id"))).isSome

def sort (result : List Json) : Option (List Json) :=
  if result.length < 2 then some result
  else if !result.all comparable then none
  else if result.all fun item => (rt.idNumber item).isSome then
    some (result.mergeSort fun a b => decide ((rt.idNumber a).getD 0 ≤ (rt.idNumber b).getD 0))
  else some (rt.unsorted result)

end Runtime

inductive Batch where
  | throws
  | calls (error : Value) (result : List Json)

/-- `batchCmd`, with what comes of the request to the first daemon if there is one; `none` when it
never calls back. -/
def batchCmd (rt : Runtime) (calls : ℕ) : Option Outcome → Option Batch
  | none => some .throws
  | some outcome =>
    match performHttpRequest rt.parse calls outcome with
    | some (some answer) =>
      match answer.result with
      | .arr result => (rt.sort result).elim (some .throws) fun sorted => some (.calls answer.error sorted)
      | _ => some .throws
    | _ => none

end Code

section Sorting
variable (rt : Runtime)

theorem decimalNumber_decimal (n : ℕ) : decimalNumber (decimal n) = n := by
  rw [decimalNumber, decimal_digits]
  exact Nat.ofDigitChars_ten_toDigits

theorem isDecimal_decimal {n : ℕ} (hn : n < 10 ^ 15) : isDecimal (decimal n) = true := by
  rw [isDecimal, Bool.and_eq_true, decide_eq_true_eq, List.all_eq_true]
  constructor
  · rw [decimal, List.length_map]
    exact (Nat.length_toDigits_le_iff (by decide) (by decide)).mpr hn
  · intro u hu
    obtain ⟨c, hc, rfl⟩ := List.mem_map.mp hu
    obtain ⟨hunit, hge, hle⟩ := toNat_unit_digit (Nat.isDigit_of_mem_toDigits (b := 10) (by decide) (by decide) hc)
    rw [hunit, Bool.and_eq_true, decide_eq_true_eq, decide_eq_true_eq]
    exact ⟨hge, hle⟩

/-- The replies in the order of the requests: their numbers count up from `baseId`. -/
def InOrder (baseId : ℕ) (replies : List Json) : Prop :=
  baseId + replies.length ≤ 10 ^ 15 ∧
    ∀ i (h : i < replies.length), replies[i].field (literal "id") = some (.num (decimal (baseId + i)))

variable {rt}

theorem idNumber_of_inOrder {baseId : ℕ} {replies : List Json} (h : InOrder baseId replies) {i : ℕ}
    (hi : i < replies.length) : rt.idNumber replies[i] = some ((baseId + i : ℕ) : ℚ) := by
  have hlt : baseId + i < 10 ^ 15 := by have := h.1; omega
  rw [Runtime.idNumber, h.2 i hi]
  dsimp only
  rw [if_pos (isDecimal_decimal hlt), decimalNumber_decimal]

/-- Replies that come in any order are put into that of the requests. -/
theorem mergeSort_of_inOrder {baseId : ℕ} {items replies : List Json} (h : InOrder baseId replies)
    (hperm : items.Perm replies) :
    (items.mergeSort fun a b => decide ((rt.idNumber a).getD 0 ≤ (rt.idNumber b).getD 0)) = replies := by
  have hsorted : (items.mergeSort fun a b => decide ((rt.idNumber a).getD 0 ≤ (rt.idNumber b).getD 0)).Pairwise
      fun a b => (rt.idNumber a).getD 0 ≤ (rt.idNumber b).getD 0 := by
    have htrans : ∀ a b c, decide ((rt.idNumber a).getD 0 ≤ (rt.idNumber b).getD 0) = true →
        decide ((rt.idNumber b).getD 0 ≤ (rt.idNumber c).getD 0) = true →
        decide ((rt.idNumber a).getD 0 ≤ (rt.idNumber c).getD 0) = true := by
      simpa only [decide_eq_true_eq] using fun a b c => le_trans
    have htotal : ∀ a b, (decide ((rt.idNumber a).getD 0 ≤ (rt.idNumber b).getD 0) ||
        decide ((rt.idNumber b).getD 0 ≤ (rt.idNumber a).getD 0)) = true := by
      simpa only [Bool.or_eq_true, decide_eq_true_eq] using fun a b => le_total _ _
    have hpairs := List.pairwise_mergeSort htrans htotal items
    simpa only [decide_eq_true_eq] using hpairs
  have hordered : replies.Pairwise fun a b => (rt.idNumber a).getD 0 ≤ (rt.idNumber b).getD 0 := by
    rw [List.pairwise_iff_getElem]
    intro i j hi hj hij
    rw [idNumber_of_inOrder h hi, idNumber_of_inOrder h hj, Option.getD_some, Option.getD_some,
      Nat.cast_le]
    omega
  have hall :=
    (List.mergeSort_perm items fun a b => decide ((rt.idNumber a).getD 0 ≤ (rt.idNumber b).getD 0)).trans hperm
  refine List.Perm.eq_of_pairwise (fun a b ha hb hab hba => ?_) hsorted hordered hall
  obtain ⟨i, hi, rfl⟩ := List.getElem_of_mem (hall.subset ha)
  obtain ⟨j, hj, rfl⟩ := List.getElem_of_mem hb
  rw [idNumber_of_inOrder h hi, idNumber_of_inOrder h hj, Option.getD_some, Option.getD_some,
    Nat.cast_le] at hab hba
  have hij : i = j := by omega
  subst hij
  rfl

theorem sort_isSome (result : List Json) :
    (rt.sort result).isSome = true ↔
      result.length < 2 ∨ ∀ item ∈ result, Runtime.comparable item = true := by
  unfold Runtime.sort
  split_ifs with hshort hthrows hnumbers
  · exact iff_of_true rfl (.inl hshort)
  · refine iff_of_false Bool.false_ne_true ?_
    rintro (h | h)
    · exact hshort h
    · rw [Bool.not_eq_true', List.all_eq_false] at hthrows
      obtain ⟨item, hitem, hbad⟩ := hthrows
      exact hbad (h item hitem)
  · rw [Bool.not_eq_true', Bool.not_eq_false, List.all_eq_true] at hthrows
    exact iff_of_true rfl (.inr hthrows)
  · rw [Bool.not_eq_true', Bool.not_eq_false, List.all_eq_true] at hthrows
    exact iff_of_true rfl (.inr hthrows)

theorem sort_inOrder {baseId : ℕ} {items sorted replies : List Json} (h : InOrder baseId replies)
    (hperm : items.Perm replies) (hsort : rt.sort items = some sorted) : sorted = replies := by
  unfold Runtime.sort at hsort
  split_ifs at hsort with hshort hthrows hnumbers
  · cases hsort
    cases replies with
    | nil => exact List.perm_nil.mp hperm
    | cons reply replies =>
      have hlen := hperm.length_eq
      rw [List.length_cons] at hlen
      have hnil : replies = [] := List.length_eq_zero_iff.mp (by omega)
      subst hnil
      exact List.perm_singleton.mp hperm
  · cases hsort
    exact mergeSort_of_inOrder h hperm
  · refine absurd ?_ hnumbers
    rw [List.all_eq_true]
    intro item hitem
    obtain ⟨i, hi, rfl⟩ := List.getElem_of_mem (hperm.subset hitem)
    rw [idNumber_of_inOrder h hi]
    rfl

end Sorting

section Once
variable (rt : Runtime) (first : Option Outcome)

/-- `batchCmd` calls back once, with the replies in the order of the requests if the daemon has sent
them in any order. -/
def BatchOnce : Prop :=
  ∃ calls error result, batchCmd rt calls first = some (.calls error result) ∧
    ∀ statusCode data items, first = some (.response statusCode data) →
      Parsed rt.parse statusCode data (.arr items) →
      ∀ baseId replies, InOrder baseId replies → items.Perm replies → result = replies

/-- There is a daemon and it replies with an array that can be sorted. -/
def ArrayReply : Prop :=
  ∃ statusCode data items, first = some (.response statusCode data) ∧ Parsed rt.parse statusCode data (.arr items) ∧
    (items.length < 2 ∨ ∀ item ∈ items, Runtime.comparable item = true)

variable {rt first}

theorem Parsed.unique {statusCode : ℕ} {data : Str} {j j' : Json}
    (h : Parsed rt.parse statusCode data j) (h' : Parsed rt.parse statusCode data j') : j = j' := by
  obtain ⟨-, hparse | ⟨hnone, -, hparse⟩⟩ := h <;> obtain ⟨-, hparse' | ⟨hnone', -, hparse'⟩⟩ := h'
  · exact Option.some_inj.mp (hparse.symm.trans hparse')
  · cases hparse.symm.trans hnone'
  · cases hnone.symm.trans hparse'
  · exact Option.some_inj.mp (hparse.symm.trans hparse')

theorem batchOnce_iff : BatchOnce rt first ↔ ArrayReply rt first := by
  constructor
  · rintro ⟨calls, error, result, hbatch, -⟩
    unfold batchCmd at hbatch
    split at hbatch
    · cases hbatch
    · next outcome =>
      split at hbatch
      · next answer hanswer =>
        split at hbatch
        · next items hitems =>
          have hsort : (rt.sort items).isSome = true := by
            cases hsort : rt.sort items with
            | none =>
              rw [hsort] at hbatch
              cases hbatch
            | some sorted => rfl
          cases outcome with
          | error code message =>
            cases hanswer
            cases hitems
          | response statusCode data =>
            obtain ⟨hparsed, -⟩ := parsed_of_answer hanswer
            rw [hitems] at hparsed
            exact ⟨statusCode, data, items, rfl, hparsed, (sort_isSome items).mp hsort⟩
        · cases hbatch
      · cases hbatch
  · rintro ⟨statusCode, data, items, rfl, hparsed, hsorts⟩
    obtain ⟨answer, hanswer, hresult⟩ := answer_of_parsed hparsed rfl
    obtain ⟨sorted, hsort⟩ : ∃ sorted, rt.sort items = some sorted :=
      Option.isSome_iff_exists.mp ((sort_isSome items).mpr hsorts)
    refine ⟨2, answer.error, sorted, ?_, ?_⟩
    · rw [batchCmd, performHttpRequest, hanswer]
      dsimp only
      rw [hresult]
      dsimp only
      rw [hsort]
      rfl
    · intro statusCode' data' items' hfirst hparsed' baseId replies hinOrder hperm
      cases hfirst
      cases hparsed.unique hparsed'
      exact sort_inOrder hinOrder hperm hsort

end Once

section Callbacks

/-- Each of the three ways to call a daemon calls back as it should if and only if the requests do: the two of
`cmd` if
every request is answered, and `batchCmd` if the first is answered with an array. -/
theorem callbacks_iff (rt : Runtime) (cmd : Cmd) (hlast : cmd.Documented) (outcomes : List (ℕ × Outcome))
    (houtcomes : (outcomes.map Prod.fst).Perm (List.range cmd.count)) (first : Option Outcome) :
    ({ cmd with streamResults := false }.CallsOnce rt.parse outcomes ↔
      ∀ outcome ∈ outcomes, Answered rt.parse outcome.2) ∧
    ({ cmd with streamResults := true }.CallsForEach rt.parse outcomes ↔
      ∀ outcome ∈ outcomes, Answered rt.parse outcome.2) ∧
    (BatchOnce rt first ↔ ArrayReply rt first) :=
  ⟨callsOnce_iff hlast rfl houtcomes, callsForEach_iff rfl houtcomes, batchOnce_iff⟩

def mute : Runtime where
  parse _ := none
  toNumber _ := none
  unsorted := id

def cmdFor (count : ℕ) : Cmd where
  last count k := k == count
  count := count
  streamResults := false
  returnRawData := false

theorem documented_cmdFor (count : ℕ) : (cmdFor count).Documented := fun _ _ => beq_iff_eq

def refused : Outcome := .error (literal "ECONNREFUSED") (literal "connect ECONNREFUSED")

theorem callbacks_refused :
    ({ cmdFor 2 with streamResults := false }.CallsOnce mute.parse [(1, refused), (0, refused)] ↔
      ∀ outcome ∈ [(1, refused), (0, refused)], Answered mute.parse outcome.2) ∧
    ({ cmdFor 2 with streamResults := true }.CallsForEach mute.parse [(1, refused), (0, refused)] ↔
      ∀ outcome ∈ [(1, refused), (0, refused)], Answered mute.parse outcome.2) ∧
    (BatchOnce mute (some refused) ↔ ArrayReply mute (some refused)) :=
  callbacks_iff mute (cmdFor 2) (documented_cmdFor 2) [(1, refused), (0, refused)] (List.Perm.swap 0 1 [])
    (some refused)

/-- Nobody is told of a wrong password, and a refused connection makes `batchCmd` throw. -/
theorem callbacks_missing :
    ¬(cmdFor 1).CallsOnce mute.parse [(0, .response 401 [])] ∧ ¬BatchOnce mute (some refused) := by
  constructor
  · rw [callsOnce_iff (documented_cmdFor 1) rfl (List.Perm.refl _)]
    intro h
    obtain ⟨dataJson, ⟨hstatus, -⟩, -⟩ := h (0, .response 401 []) (List.mem_singleton_self _)
    exact hstatus rfl
  · rw [batchOnce_iff]
    rintro ⟨statusCode, data, items, hfirst, -⟩
    cases hfirst

end Callbacks
end Aion.Daemon
