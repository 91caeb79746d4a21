import AionMiner.Daemon.Reply
import Mathlib.Data.List.Nodup

/-! `cmd` and `batchCmd` of `daemon.js`: how often they call back, whatever becomes of their requests. -/

namespace Aion.Daemon
open Text Stratum

section Code

/-- What `cmd` passes on of one daemon, which is given by its index; `data` only if it is asked for. -/
structure Returned where
  error : Value
  response : Value
  index : ℕ
  data : Option Str

inductive Call where
  | one (returnObj : Returned)
  | all (results : List Returned)

structure Run where
  results : List Returned
  finished : List ℕ
  calls : List Call

/-- The way `cmd` is called, for `count` daemons. `last count k` tells whether `async.each` ends
when the `k`th of them has called back. -/
structure Cmd where
  last : ℕ → ℕ → Bool
  count : ℕ
  streamResults : Bool
  returnRawData : Bool

namespace Cmd
variable (cmd : Cmd)

def each (run : Run) : Run :=
  if cmd.last cmd.count run.finished.length && !cmd.streamResults then
    { run with calls := run.calls ++ [.all run.results] }
  else run

def start : Run := cmd.each { results := [], finished := [], calls := [] }

def returnObj (reply : ℕ × Answer) : Returned where
  error := reply.2.error
  response := reply.2.result.field (literal "result")
  index := reply.1
  data := if cmd.returnRawData then reply.2.data else none

def itemFinished (run : Run) (reply : ℕ × Answer) : Run :=
  if reply.1 ∈ run.finished then run
  else
    let returnObj := cmd.returnObj reply
    let run :=
      if cmd.streamResults then { run with calls := run.calls ++ [.one returnObj] }
      else { run with results := run.results ++ [returnObj] }
    cmd.each { run with finished := run.finished ++ [reply.1] }

end Cmd

/-- The answers that the requests lead to, in the order in which they end; one that `parseJson`
never returns from is the last. -/
def replies (parse : Str → Option Json) (calls : ℕ) : List (ℕ × Outcome) → List (ℕ × Answer)
  | [] => []
  | (index, outcome) :: outcomes =>
    match performHttpRequest parse calls outcome with
    | none => []
    | some none => replies parse calls outcomes
    | some (some answer) => (index, answer) :: replies parse calls outcomes

def Cmd.run (cmd : Cmd) (parse : Str → Option Json) (calls : ℕ) (outcomes : List (ℕ × Outcome)) : List Call :=
  ((replies parse calls outcomes).foldl cmd.itemFinished cmd.start).calls

end Code

section Answers
variable (parse : Str → Option Json)

def Parsed (statusCode : ℕ) (data : Str) (dataJson : Json) : Prop :=
  statusCode ≠ 401 ∧ (parse data = some dataJson ∨
    parse data = none ∧ nan <:+: data ∧ parse (replaceNan data) = some dataJson)

/-- The request calls back: it fails, or the reply is JSON with a truth value. -/
def Answered : Outcome → Prop
  | .error _ _ => True
  | .response statusCode data => ∃ dataJson, Parsed parse statusCode data dataJson ∧ dataJson.truthy = true

variable {parse}

theorem answerTo_eq_some {dataJson : Json} {data : Str} {answer : Answer}
    (h : answerTo dataJson data = some answer) :
    dataJson.truthy = true ∧ answer.result = dataJson := by
  unfold answerTo at h
  split_ifs at h with htruthy
  cases h
  exact ⟨htruthy, rfl⟩

theorem answerTo_truthy {dataJson : Json} (h : dataJson.truthy = true) (data : Str) :
    answerTo dataJson data = some ⟨dataJson.field (literal "error"), dataJson, some data⟩ :=
    if_pos h

theorem parsed_of_answer {calls statusCode : ℕ} {data : Str} {answer : Answer}
    (h : parseJson parse statusCode calls data = some (some answer)) :
    Parsed parse statusCode data answer.result ∧ answer.result.truthy = true := by
  have hlater := parseJson_succ (parseJson_succ h)
  obtain ⟨-, hcase⟩ | ⟨hstatus, dataJson, hparse, hcase⟩ | ⟨-, -, -, hcase⟩ |
    ⟨hstatus, hparse, hnan, dataJson, hparse', hcase⟩ | ⟨-, -, -, -, -, hcase⟩ | ⟨-, -, -, -, -, hcase⟩ :=
    parseJson_cases parse statusCode data
  · rw [hcase] at hlater
    cases hlater
  · rw [hcase] at hlater
    obtain ⟨htruthy, hresult⟩ := answerTo_eq_some (Option.some_inj.mp hlater)
    rw [hresult]
    exact ⟨⟨hstatus, .inl hparse⟩, htruthy⟩
  · rw [hcase] at hlater
    cases hlater
  · rw [hcase] at hlater
    obtain ⟨htruthy, hresult⟩ := answerTo_eq_some (Option.some_inj.mp hlater)
    rw [hresult]
    exact ⟨⟨hstatus, .inr ⟨hparse, hnan, hparse'⟩⟩, htruthy⟩
  · rw [hcase] at hlater
    cases hlater
  · rw [hcase] at hlater
    cases hlater

theorem answer_of_parsed {statusCode : ℕ} {data : Str} {dataJson : Json}
    (hparsed : Parsed parse statusCode data dataJson) (htruthy : dataJson.truthy = true) :
    ∃ answer, parseJson parse statusCode 2 data = some (some answer) ∧
    answer.result = dataJson := by
  obtain ⟨hstatus, hparse | ⟨hparse, hnan, hparse'⟩⟩ := hparsed
  · rw [parseJson_parsed hstatus hparse, answerTo_truthy htruthy]
    exact ⟨_, rfl, rfl⟩
  · rw [parseJson_again hstatus hparse hnan, parseJson_parsed hstatus hparse',
      answerTo_truthy htruthy]
    exact ⟨_, rfl, rfl⟩

theorem answered_of_answer {calls : ℕ} {outcome : Outcome} {answer : Answer}
    (h : performHttpRequest parse calls outcome = some (some answer)) : Answered parse outcome := by
  cases outcome with
  | error code message => trivial
  | response statusCode data => exact ⟨answer.result, parsed_of_answer h⟩

theorem answer_of_answered {outcome : Outcome} (h : Answered parse outcome) :
    ∃ answer, performHttpRequest parse 2 outcome = some (some answer) := by
  cases outcome with
  | error code message => exact ⟨_, rfl⟩
  | response statusCode data =>
    obtain ⟨dataJson, hparsed, htruthy⟩ := h
    obtain ⟨answer, hanswer, -⟩ := answer_of_parsed hparsed htruthy
    exact ⟨answer, hanswer⟩

end Answers

section Replies
variable {parse : Str → Option Json} {calls : ℕ}

theorem replies_sublist (outcomes : List (ℕ × Outcome)) :
    ((replies parse calls outcomes).map Prod.fst).Sublist (outcomes.map Prod.fst) := by
  induction outcomes with
  | nil => exact List.Sublist.refl _
  | cons outcome outcomes ih =>
    unfold replies
    split
    · exact List.nil_sublist _
    · exact ih.cons _
    · exact ih.cons_cons _

/-- Every request is answered if every answer gets through. -/
theorem answered_of_length {outcomes : List (ℕ × Outcome)}
    (h : (replies parse calls outcomes).length = outcomes.length) :
    ∀ outcome ∈ outcomes, Answered parse outcome.2 := by
  induction outcomes with
  | nil => exact fun _ hmem => absurd hmem List.not_mem_nil
  | cons outcome outcomes ih =>
    have hle : ((replies parse calls outcomes).map Prod.fst).length ≤ _ :=
      (replies_sublist outcomes).length_le
    rw [List.length_map, List.length_map] at hle
    unfold replies at h
    split at h
    · cases h
    · rw [List.length_cons] at h
      omega
    · next answer hanswer =>
      intro o ho
      rcases List.mem_cons.mp ho with rfl | ho
      · exact answered_of_answer hanswer
      · exact ih (Nat.succ_injective h) o ho

theorem replies_of_answered {outcomes : List (ℕ × Outcome)}
    (h : ∀ outcome ∈ outcomes, Answered parse outcome.2) :
    (replies parse 2 outcomes).map Prod.fst = outcomes.map Prod.fst := by
  induction outcomes with
  | nil => rfl
  | cons outcome outcomes ih =>
    obtain ⟨answer, hanswer⟩ := answer_of_answered (h outcome List.mem_cons_self)
    have htail := ih fun o ho => h o (List.mem_cons_of_mem _ ho)
    rw [replies, hanswer]
    exact congrArg (outcome.1 :: ·) htail

end Replies

section Runs
variable {cmd : Cmd}

theorem nodup_append_singleton {l : List ℕ} {a : ℕ} : (l ++ [a]).Nodup ↔ a ∉ l ∧ l.Nodup := by
  rw [← List.concat_eq_append]
  exact List.nodup_concat l a

/-- `async.each` ends when the last of the daemons has called back, at once if there are none. -/
def Cmd.Documented (cmd : Cmd) : Prop := ∀ k ≤ cmd.count, cmd.last cmd.count k = true ↔ k = cmd.count

theorem each_stream (hstream : cmd.streamResults = true) (run : Run) : cmd.each run = run := by
  rw [Cmd.each, hstream, Bool.not_true, Bool.and_false]
  rfl

theorem each_collect (hlast : cmd.Documented) (hstream : cmd.streamResults = false) {run : Run}
    (hlen : run.finished.length ≤ cmd.count) :
    cmd.each run =
      if run.finished.length = cmd.count then { run with calls := run.calls ++ [.all run.results] } else run := by
  rw [Cmd.each, hstream, Bool.not_false, Bool.and_true]
  exact if_congr (hlast _ hlen) rfl rfl

/-- A `cmd` that streams has called back once for each reply. -/
theorem run_stream (hstream : cmd.streamResults = true) {replies : List (ℕ × Answer)}
    (hnodup : (replies.map Prod.fst).Nodup) :
    replies.foldl cmd.itemFinished cmd.start =
      { results := []
        finished := replies.map Prod.fst
        calls := replies.map fun reply => .one (cmd.returnObj reply) } := by
  induction replies using List.reverseRecOn with
  | nil => exact each_stream hstream _
  | append_singleton replies reply ih =>
    rw [List.map_append, List.map_cons, List.map_nil, nodup_append_singleton] at hnodup
    rw [List.foldl_append, List.foldl_cons, List.foldl_nil, ih hnodup.2, Cmd.itemFinished,
      if_neg hnodup.1]
    dsimp only
    rw [if_pos hstream, each_stream hstream, List.map_append, List.map_append]
    rfl

/-- One that does not stream has collected the replies, and calls back with the last. -/
theorem run_collect (hlast : cmd.Documented) (hstream : cmd.streamResults = false)
    {replies : List (ℕ × Answer)} (hnodup : (replies.map Prod.fst).Nodup)
    (hlen : replies.length ≤ cmd.count) : replies.foldl cmd.itemFinished cmd.start =
      { results := replies.map cmd.returnObj
        finished := replies.map Prod.fst
        calls := if replies.length = cmd.count then [.all (replies.map cmd.returnObj)] else [] } := by
  induction replies using List.reverseRecOn with
  | nil =>
    rw [List.foldl_nil, Cmd.start, each_collect hlast hstream (Nat.zero_le _)]
    simp only [List.length_nil, List.map_nil, List.nil_append]
    split_ifs <;> rfl
  | append_singleton replies reply ih =>
    rw [List.map_append, List.map_cons, List.map_nil, nodup_append_singleton] at hnodup
    rw [List.length_append, List.length_singleton] at hlen
    rw [List.foldl_append, List.foldl_cons, List.foldl_nil, ih hnodup.2 (by omega),
      Cmd.itemFinished, if_neg hnodup.1]
    dsimp only
    rw [if_neg (by rw [hstream]; exact Bool.false_ne_true), if_neg (by omega),
      each_collect hlast hstream
        (by simp only [List.length_append, List.length_map, List.length_singleton]; exact hlen)]
    simp only [List.length_append, List.length_map, List.length_singleton, List.map_append,
      List.map_cons, List.map_nil]
    split_ifs <;> rfl

end Runs

section Once
variable (cmd : Cmd) (parse : Str → Option Json) (outcomes : List (ℕ × Outcome))

def Cmd.CallsOnce : Prop :=
  ∃ calls results, cmd.run parse calls outcomes = [.all results] ∧
    (results.map Returned.index).Perm (List.range cmd.count)

def Cmd.CallsForEach : Prop :=
  ∃ (calls : ℕ) (results : List Returned), cmd.run parse calls outcomes = results.map Call.one ∧
    (results.map Returned.index).Perm (List.range cmd.count)

variable {cmd parse outcomes}

theorem map_index (replies : List (ℕ × Answer)) :
    (replies.map cmd.returnObj).map Returned.index = replies.map Prod.fst := by
  rw [List.map_map]
  rfl

theorem length_of_perm {results : List Returned} {replies : List (ℕ × Answer)}
    (h : results = replies.map cmd.returnObj)
    (hperm : (results.map Returned.index).Perm (List.range cmd.count)) :
    replies.length = cmd.count := by
  have hlen := hperm.length_eq
  rwa [h, List.length_map, List.length_map, List.length_range] at hlen

theorem replies_nodup (houtcomes : (outcomes.map Prod.fst).Perm (List.range cmd.count)) (calls : ℕ) :
    ((replies parse calls outcomes).map Prod.fst).Nodup ∧ (replies parse calls outcomes).length ≤ cmd.count := by
  have hsub : ((replies parse calls outcomes).map Prod.fst).Sublist _ := replies_sublist outcomes
  have hlen := hsub.length_le
  rw [List.length_map, houtcomes.length_eq, List.length_range] at hlen
  exact ⟨(houtcomes.nodup_iff.mpr List.nodup_range).sublist hsub, hlen⟩

theorem answered_of_count (houtcomes : (outcomes.map Prod.fst).Perm (List.range cmd.count))
    {calls : ℕ} (h : (replies parse calls outcomes).length = cmd.count) :
    ∀ outcome ∈ outcomes, Answered parse outcome.2 := by
  have hlen := houtcomes.length_eq
  rw [List.length_map, List.length_range] at hlen
  exact answered_of_length (h.trans hlen.symm)

theorem replies_perm (houtcomes : (outcomes.map Prod.fst).Perm (List.range cmd.count))
    (h : ∀ outcome ∈ outcomes, Answered parse outcome.2) :
    ((replies parse 2 outcomes).map Prod.fst).Perm (List.range cmd.count) := by
  rw [replies_of_answered h]
  exact houtcomes

/-- `cmd` calls back once if and only if every request does. -/
theorem callsOnce_iff (hlast : cmd.Documented) (hstream : cmd.streamResults = false)
    (houtcomes : (outcomes.map Prod.fst).Perm (List.range cmd.count)) :
    cmd.CallsOnce parse outcomes ↔ ∀ outcome ∈ outcomes, Answered parse outcome.2 := by
  have hcalls : ∀ calls, cmd.run parse calls outcomes =
      if (replies parse calls outcomes).length = cmd.count then
        [.all ((replies parse calls outcomes).map cmd.returnObj)]
      else [] := by
    intro calls
    obtain ⟨hnodup, hlen⟩ : ((replies parse calls outcomes).map Prod.fst).Nodup ∧ _ :=
      replies_nodup houtcomes calls
    rw [Cmd.run, run_collect hlast hstream hnodup hlen]
  constructor
  · rintro ⟨calls, results, hrun, -⟩
    rw [hcalls] at hrun
    split_ifs at hrun with hall
    exact answered_of_count houtcomes hall
  · intro h
    have hperm := replies_perm houtcomes h
    have hall := hperm.length_eq
    rw [List.length_map, List.length_range] at hall
    refine ⟨2, _, (hcalls 2).trans (if_pos hall), ?_⟩
    rw [map_index]
    exact hperm

/-- The same holds where it streams. -/
theorem callsForEach_iff (hstream : cmd.streamResults = true)
    (houtcomes : (outcomes.map Prod.fst).Perm (List.range cmd.count)) :
    cmd.CallsForEach parse outcomes ↔ ∀ outcome ∈ outcomes, Answered parse outcome.2 := by
  have hcalls : ∀ calls, cmd.run parse calls outcomes =
      ((replies parse calls outcomes).map cmd.returnObj).map Call.one := by
    intro calls
    rw [Cmd.run, run_stream hstream (replies_nodup houtcomes calls).1, List.map_map]
    rfl
  have hinj : Function.Injective Call.one := fun _ _ h => Call.one.inj h
  constructor
  · rintro ⟨calls, results, hrun, hperm⟩
    rw [hcalls] at hrun
    exact answered_of_count houtcomes (length_of_perm (List.map_injective_iff.mpr hinj hrun.symm) hperm)
  · intro h
    refine ⟨2, _, hcalls 2, ?_⟩
    rw [map_index]
    exact replies_perm houtcomes h

end Once
end Aion.Daemon
