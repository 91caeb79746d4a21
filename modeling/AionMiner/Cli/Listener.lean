import AionMiner.Stratum.Framing
import AionMiner.Stratum.JsonShape

/-! The data events of a connection to the command port: `cliListener.js`. -/

namespace Aion.Cli
open Text Text.Utf8 Stratum Stratum.JsonText Bits

section Code

/-- The arguments of the event `command`, without the function that answers. -/
structure Command where
  command : Value
  params : Value
  options : Value

/-- A connection with the commands that have been emitted; an exception that has left the handler
ends the process. -/
structure Connection where
  data : Str
  emitted : List Command
  escaped : Bool

variable (number : Str → Str)

/-- `JSON.parse(data)` and the three properties; either throws. -/
def message (data : Str) : Option Command :=
  (parse number data).bind fun message =>
    match message with
    | .null => none
    | message =>
      some ⟨message.field (literal "command"), message.field (literal "params"),
        message.field (literal "options")⟩

variable (returns : List Command → Bool)

/-- A data event. `returns` says whether the listeners of the last command emitted return. The `try`
has been left when the event comes. -/
def Connection.onData (c : Connection) (d : List Byte) : Connection :=
  if c.escaped then c
  else
    let data := c.data ++ decode d
    if data.getLast? = some newline then
      match message number data with
      | none => ⟨data, c.emitted, true⟩
      | some command => ⟨data, c.emitted ++ [command], !returns (c.emitted ++ [command])⟩
    else ⟨data, c.emitted, false⟩

def start (chunks : List (List Byte)) : Connection :=
  chunks.foldl (Connection.onData number returns) ⟨[], [], false⟩

end Code

section Law
variable (number : Str → Str) (returns : List Command → Bool)

/-- The stream is these commands, each with a newline behind it. -/
def Sent (commands : List (List Byte)) (stream : List Byte) : Prop :=
  stream = commands.flatMap (· ++ [10]) ∧ ∀ c ∈ commands, (message number (decode c)).isSome

/-- No exception leaves the handler, and of commands each is emitted, one after another. -/
def Reads (chunks : List (List Byte)) : Prop :=
  (start number returns chunks).escaped = false ∧
    ∀ commands, Sent number commands chunks.flatten →
      (start number returns chunks).emitted.map some =
        commands.map fun c => message number (decode c)

/-- What has come in all, at each data event that leaves a newline at the end of it. -/
def complete (data : Str) : List (List Byte) → List Str
  | [] => []
  | d :: chunks =>
    if (data ++ decode d).getLast? = some newline then
      (data ++ decode d) :: complete (data ++ decode d) chunks
    else complete (data ++ decode d) chunks

end Law

section Run
variable {number : Str → Str} {returns : List Command → Bool}

theorem foldl_escaped {c : Connection} (h : c.escaped = true) (chunks : List (List Byte)) :
    chunks.foldl (Connection.onData number returns) c = c := by
  induction chunks with
  | nil => rfl
  | cons d chunks ih =>
    have hc : c.onData number returns d = c := if_pos h
    rw [List.foldl_cons, hc, ih]

theorem onData_within {c : Connection} (hc : c.escaped = false) {d : List Byte}
    (h : (c.data ++ decode d).getLast? ≠ some newline) :
    c.onData number returns d = ⟨c.data ++ decode d, c.emitted, false⟩ := by
  rw [Connection.onData, hc, if_neg Bool.false_ne_true]
  exact if_neg h

theorem onData_newline {c : Connection} (hc : c.escaped = false) {d : List Byte}
    (h : (c.data ++ decode d).getLast? = some newline) :
    c.onData number returns d =
      match message number (c.data ++ decode d) with
      | none => ⟨c.data ++ decode d, c.emitted, true⟩
      | some command =>
        ⟨c.data ++ decode d, c.emitted ++ [command], !returns (c.emitted ++ [command])⟩ := by
  rw [Connection.onData, hc, if_neg Bool.false_ne_true]
  exact if_pos h

/-- The listeners return, whatever they have heard of these. -/
def Returns (returns : List Command → Bool) (commands : List (Option Command)) : Prop :=
  ∀ heard, heard ≠ [] → heard.map some <+: commands → returns heard = true

theorem returns_cons {command : Command} {commands : List (Option Command)} :
    Returns returns (some command :: commands) ↔
      returns [command] = true ∧ Returns (fun heard => returns (command :: heard)) commands := by
  constructor
  · intro h
    refine ⟨h [command] (List.cons_ne_nil _ _) (List.cons_prefix_cons.mpr ⟨rfl, List.nil_prefix⟩),
      ?_⟩
    intro heard _ hheard
    exact h (command :: heard) (List.cons_ne_nil _ _) (List.cons_prefix_cons.mpr ⟨rfl, hheard⟩)
  · rintro ⟨hfirst, hrest⟩ heard hne hheard
    rcases heard with _ | ⟨c, heard⟩
    · exact absurd rfl hne
    · obtain ⟨hc, htail⟩ := List.cons_prefix_cons.mp hheard
      cases hc
      rcases heard with _ | ⟨c', heard⟩
      · exact hfirst
      · exact hrest _ (List.cons_ne_nil _ _) htail

theorem escaped_foldl {c : Connection} (hc : c.escaped = false) (chunks : List (List Byte)) :
    (chunks.foldl (Connection.onData number returns) c).escaped = false ↔
      (∀ data ∈ complete c.data chunks, (message number data).isSome) ∧
        Returns (fun heard => returns (c.emitted ++ heard))
          ((complete c.data chunks).map (message number)) := by
  induction chunks generalizing c with
  | nil =>
    refine iff_of_true hc ⟨fun data h => absurd h List.not_mem_nil, fun heard hne h => ?_⟩
    exact absurd (List.map_eq_nil_iff.mp (List.prefix_nil.mp h)) hne
  | cons d chunks ih =>
    rw [List.foldl_cons, complete]
    by_cases h : (c.data ++ decode d).getLast? = some newline
    · rw [onData_newline hc h, if_pos h, List.forall_mem_cons, List.map_cons]
      cases hmessage : message number (c.data ++ decode d) with
      | none =>
        rw [foldl_escaped rfl]
        exact iff_of_false Bool.noConfusion fun hall => Bool.noConfusion hall.1.1
      | some command =>
        rw [returns_cons]
        dsimp only
        cases hreturns : returns (c.emitted ++ [command]) with
        | false =>
          rw [Bool.not_false, foldl_escaped rfl]
          exact iff_of_false Bool.noConfusion fun hall => Bool.noConfusion hall.2.1
        | true =>
          have hrest := ih (c := ⟨c.data ++ decode d, c.emitted ++ [command], false⟩) rfl
          simp only [List.append_assoc, List.singleton_append] at hrest
          exact hrest.trans (and_congr (and_iff_right rfl).symm (and_iff_right rfl).symm)
    · rw [onData_within hc h, if_neg h]
      exact ih rfl

theorem emitted_foldl {c : Connection} (hc : c.escaped = false) {chunks : List (List Byte)}
    (hrun : (chunks.foldl (Connection.onData number returns) c).escaped = false) :
    (chunks.foldl (Connection.onData number returns) c).emitted.map some =
      c.emitted.map some ++ (complete c.data chunks).map (message number) := by
  induction chunks generalizing c with
  | nil => exact (List.append_nil _).symm
  | cons d chunks ih =>
    rw [List.foldl_cons] at hrun ⊢
    rw [complete]
    by_cases h : (c.data ++ decode d).getLast? = some newline
    · rw [onData_newline hc h] at hrun ⊢
      rw [if_pos h, List.map_cons]
      cases hmessage : message number (c.data ++ decode d) with
      | none =>
        rw [hmessage, foldl_escaped rfl] at hrun
        exact Bool.noConfusion hrun
      | some command =>
        rw [hmessage] at hrun
        dsimp only at hrun ⊢
        cases hreturns : returns (c.emitted ++ [command]) with
        | false =>
          rw [hreturns, foldl_escaped rfl] at hrun
          exact Bool.noConfusion hrun
        | true =>
          rw [hreturns] at hrun
          rw [Bool.not_true] at hrun ⊢
          rw [ih rfl hrun, List.map_append, List.append_assoc]
          rfl
    · rw [onData_within hc h] at hrun ⊢
      rw [if_neg h]
      exact ih rfl hrun

end Run

section Streams
variable {number : Str → Str} {returns : List Command → Bool}

theorem decode_newline (xs ys : List Byte) :
    decode (xs ++ 10 :: ys) = decode xs ++ newline :: decode ys :=
  decode_ascii xs (by decide) ys

/-- A stream that ends in a newline leaves all of it at some event. -/
theorem mem_complete (data : Str) {chunks : List (List Byte)} {stream : List Byte}
    (h : chunks.flatten = stream ++ [10]) :
    data ++ chunks.flatMap decode ∈ complete data chunks := by
  induction chunks generalizing data stream with
  | nil => exact absurd h.symm (List.append_ne_nil_of_right_ne_nil _ (List.cons_ne_nil _ _))
  | cons d chunks ih =>
    rw [List.flatten_cons] at h
    rw [List.flatMap_cons, complete, ← List.append_assoc]
    rcases List.eq_nil_or_concat chunks.flatten with hnil | ⟨before, last, hlast⟩
    · have hdecode : chunks.flatMap decode = [] := by
        rw [List.flatMap_eq_nil_iff]
        intro chunk hchunk
        rw [List.flatten_eq_nil_iff.mp hnil chunk hchunk]
        rfl
      have hnewline : (data ++ decode d).getLast? = some newline := by
        rw [hnil, List.append_nil] at h
        rw [h, decode_newline, ← List.append_assoc]
        exact List.getLast?_concat
      rw [if_pos hnewline, hdecode, List.append_nil]
      exact List.mem_cons_self
    · rw [List.concat_eq_append] at hlast
      rw [hlast, ← List.append_assoc] at h
      obtain ⟨-, hten⟩ := List.append_inj' h rfl
      rw [hten] at hlast
      split_ifs
      · exact List.mem_cons_of_mem _ (ih _ hlast)
      · exact ih _ hlast

theorem sent_ends {commands : List (List Byte)} {stream : List Byte}
    (h : Sent number commands stream) (hne : commands ≠ []) :
    ∃ before, stream = before ++ [10] := by
  rcases List.eq_nil_or_concat commands with hnil | ⟨before, last, hlast⟩
  · exact absurd hnil hne
  · rw [h.1, hlast, List.concat_eq_append, List.flatMap_append, List.flatMap_singleton,
      ← List.append_assoc]
    exact ⟨_, rfl⟩

theorem isSome_parse_of_message {data : Str} (h : (message number data).isSome) :
    (parse number data).isSome := by
  rw [message] at h
  cases hparse : parse number data with
  | none =>
    rw [hparse] at h
    exact h
  | some j => rfl

/-- Two commands on a stream are no JSON text together. -/
theorem parse_two {c₁ c₂ : List Byte} (h₁ : (message number (decode c₁)).isSome)
    (h₂ : (message number (decode c₂)).isSome) (rest : List Byte) :
    parse number (decode (c₁ ++ 10 :: (c₂ ++ 10 :: rest))) = none := by
  obtain ⟨j, hj⟩ := Option.isSome_iff_exists.mp (isSome_parse_of_message h₁)
  rw [decode_newline, newline, parse_line hj]
  apply if_neg
  intro hall
  rw [decode_newline, List.all_append, Bool.and_eq_true] at hall
  have hnone := isSome_parse_of_message h₂
  rw [parse_white hall.1] at hnone
  exact Bool.noConfusion hnone

theorem message_newline (c : List Byte) :
    message number (decode (c ++ [10])) = message number (decode c) := by
  rw [decode_newline, message, message]
  exact congrArg (Option.bind · _) (parse_append_white (decode c) rfl)

end Streams

section Commands

/-- Where no event throws, the commands of a stream are emitted if and only if there is at most one,
which comes with one event and is the same in the pieces as in the whole. -/
theorem emits_iff {number : Str → Str} {chunks commands : List (List Byte)}
    (hsent : Sent number commands chunks.flatten)
    (hmessages : ∀ data ∈ complete [] chunks, (message number data).isSome) :
    (complete [] chunks).map (message number) = commands.map (fun c => message number (decode c)) ↔
      commands.length ≤ 1 ∧ (complete [] chunks).length ≤ 1 ∧
        ∀ data ∈ complete [] chunks,
          message number data = message number (decode chunks.flatten) := by
  rcases commands with _ | ⟨c, _ | ⟨c₂, rest⟩⟩
  · have hstream : chunks.flatten = [] := hsent.1
    rw [List.map_nil, List.map_eq_nil_iff, hstream]
    constructor
    · intro hnil
      rw [hnil]
      exact ⟨Nat.zero_le 1, Nat.zero_le 1, fun data hdata => absurd hdata List.not_mem_nil⟩
    · rintro ⟨-, -, hsame⟩
      rw [List.eq_nil_iff_forall_not_mem]
      intro data hdata
      have hnone := hmessages data hdata
      rw [hsame data hdata] at hnone
      exact Bool.noConfusion hnone
  · have hstream : chunks.flatten = c ++ [10] := hsent.1.trans (List.flatMap_singleton _ _)
    rw [List.map_singleton, hstream, message_newline]
    constructor
    · intro hmap
      have hlength := congrArg List.length hmap
      rw [List.length_map] at hlength
      refine ⟨le_rfl, hlength.le, fun data hdata => ?_⟩
      have hmem := List.mem_map_of_mem (f := message number) hdata
      rw [hmap] at hmem
      exact List.mem_singleton.mp hmem
    · rintro ⟨-, hevents, hsame⟩
      have hmem := mem_complete [] hstream
      obtain ⟨data, hdata⟩ :=
        List.length_eq_one_iff.mp (le_antisymm hevents (List.length_pos_of_mem hmem))
      rw [hdata, List.map_singleton, hsame data (hdata ▸ List.mem_singleton_self data)]
  · -- the event at the end of the stream would have thrown
    exfalso
    obtain ⟨stream, hstream⟩ := sent_ends hsent (List.cons_ne_nil _ _)
    have hwhole := isSome_parse_of_message (hmessages _ (mem_complete [] hstream))
    rw [List.nil_append, isSome_parse_decode, hsent.1, List.flatMap_cons, List.flatMap_cons,
      List.append_assoc, List.append_assoc] at hwhole
    have hnone := parse_two (hsent.2 c List.mem_cons_self)
      (hsent.2 c₂ (List.mem_cons_of_mem _ List.mem_cons_self)) (rest.flatMap (· ++ [10]))
    rw [← Option.not_isSome_iff_eq_none] at hnone
    exact hnone hwhole

/-- The listener reads a stream if and only if all of it so far is one JSON text, and not `null`, at
each event that leaves a newline at its end, the listeners of the event `command` return, and a
stream of commands is a single one, with one such event and with the same command in the pieces as
in the whole of it. -/
theorem reads_iff (number : Str → Str) (returns : List Command → Bool) (chunks : List (List Byte)) :
    Reads number returns chunks ↔
      (∀ data ∈ complete [] chunks, (message number data).isSome) ∧
        Returns returns ((complete [] chunks).map (message number)) ∧
        ∀ commands, Sent number commands chunks.flatten →
          commands.length ≤ 1 ∧ (complete [] chunks).length ≤ 1 ∧
            ∀ data ∈ complete [] chunks,
              message number data = message number (decode chunks.flatten) := by
  have hescaped : (start number returns chunks).escaped = false ↔ _ := escaped_foldl rfl chunks
  have hemitted (hrun : (start number returns chunks).escaped = false) :
      (start number returns chunks).emitted.map some = (complete [] chunks).map (message number) :=
    emitted_foldl rfl hrun
  constructor
  · rintro ⟨hrun, hcommands⟩
    obtain ⟨hmessages, hreturns⟩ := hescaped.mp hrun
    refine ⟨hmessages, hreturns, fun commands hsent => ?_⟩
    rw [← emits_iff hsent hmessages, ← hemitted hrun]
    exact hcommands commands hsent
  · rintro ⟨hmessages, hreturns, hcommands⟩
    have hrun := hescaped.mpr ⟨hmessages, hreturns⟩
    refine ⟨hrun, fun commands hsent => ?_⟩
    rw [hemitted hrun, emits_iff hsent hmessages]
    exact hcommands commands hsent

/-- Two commands in two events: at the second one the text of both is parsed. -/
theorem two_commands :
    Sent id [[123, 125], [123, 125]] [[123, 125, 10], [123, 125, 10]].flatten ∧
      ¬Reads id (fun _ => true) [[123, 125, 10], [123, 125, 10]] := by
  refine ⟨⟨rfl, ?_⟩, fun h => Bool.noConfusion h.1⟩
  intro c hc
  rcases List.mem_cons.mp hc with rfl | hc
  · rfl
  · cases List.mem_singleton.mp hc
    rfl

end Commands
end Aion.Cli
