import AionMiner.Network.World
import AionMiner.Stratum.Chunks
import AionMiner.Stratum.Credit
import AionMiner.Stratum.JsonStrings

/-! The lines a miner writes to the pool, and what the pool reads in them. -/

namespace Aion.Network
open Bits Equihash Text Pool Miner Stratum Stratum.JsonText

section Code

def userAgent : Str := literal "nheqminer/0.2.1"

/-- What `StratumClient` writes to its socket, first and in answer to the pool's replies, and for a
share. -/
inductive Request where
  | subscribe (host port : Str)
  | authorize (user pass : Str)
  | extranonceSubscribe
  | submit (id : ℕ) (params : SubmitParams)

/-- The line, but for the newline that ends it. -/
def Request.line : Request → Str
  | .subscribe host port =>
    literal "\x7b\"id\":1,\"method\":\"mining.subscribe\",\"params\":[\"" ++ userAgent ++ literal "\", null,\"" ++
      host ++ literal "\",\"" ++ port ++ literal "\"]\x7d"
  | .authorize user pass =>
    literal "\x7b\"id\":2,\"method\":\"mining.authorize\",\"params\":[\"" ++ user ++ literal "\",\"" ++ pass ++
      literal "\"]\x7d"
  | .extranonceSubscribe => literal "\x7b\"id\":3,\"method\":\"mining.extranonce.subscribe\",\"params\":[]\x7d"
  | .submit id params =>
    literal "\x7b\"id\":" ++ decimal id ++ literal ",\"method\":\"mining.submit\",\"params\":[\"" ++ params.name ++
      literal "\",\"" ++ params.jobId ++ literal "\",\"" ++ params.nTime ++ literal "\",\"" ++
        params.extraNonce2 ++ literal "\",\"" ++ params.soln ++ literal "\"]\x7d"

def stream (requests : List Request) : Str := requests.flatMap fun r => r.line ++ [newline]

end Code

section Reading
variable (number : Str → Str)

def object (id method : Str) (params : List Json) : Json :=
  .obj [(literal "id", .num (number id)), (literal "method", .str method), (literal "params", .arr params)]

/-- The message a line stands for. -/
def Request.message : Request → Json
  | .subscribe host port =>
    object number (decimal 1) (literal "mining.subscribe") [.str userAgent, .null, .str host, .str port]
  | .authorize user pass => object number (decimal 2) (literal "mining.authorize") [.str user, .str pass]
  | .extranonceSubscribe => object number (decimal 3) (literal "mining.extranonce.subscribe") []
  | .submit id params =>
    object number (decimal id) (literal "mining.submit")
      [.str params.name, .str params.jobId, .str params.nTime, .str params.extraNonce2, .str params.soln]

/-- The strings of the request contain no quotation mark, no backslash and no control character. -/
def Request.Plain : Request → Prop
  | .subscribe host port => JsonText.Plain host ∧ JsonText.Plain port
  | .authorize user pass => JsonText.Plain user ∧ JsonText.Plain pass
  | .extranonceSubscribe => True
  | .submit _ params => JsonText.Plain params.name ∧ JsonText.Plain params.jobId ∧ JsonText.Plain params.nTime ∧
      JsonText.Plain params.extraNonce2 ∧ JsonText.Plain params.soln

/-- Behind the parameters `items` that have been read, before the closing quotation mark of the next. -/
def inParams (id method : Str) (items : List Json) (read : Str) : Machine :=
  ⟨.str read, (if items = [] then .firstValue else .value), [.arr items,
    .obj [(literal "id", .num (number id)), (literal "method", .str method)] (literal "params")]⟩

section Parts
variable {number} {id method : Str} {items : List Json} {m : Machine} {before s t : Str}

theorem run_first (h : m.run number before = some (inParams number id method items [])) (ht : JsonText.Plain t) :
    m.run number (before ++ t) = some (inParams number id method items t) := by
  rw [run_append, h, Option.bind_some, inParams, run_plain ht, inParams, List.nil_append]

theorem run_next (h : m.run number before = some (inParams number id method items s)) (ht : JsonText.Plain t) :
    m.run number (before ++ literal "\",\"" ++ t) = some (inParams number id method (items ++ [.str s]) t) := by
  refine run_first ?_ ht
  rw [run_append, h, Option.bind_some]
  cases items with
  | nil => rfl
  | cons item items => rfl

theorem run_null (h : m.run number before = some (inParams number id method items s)) :
    m.run number (before ++ literal "\", null,\"") =
      some (inParams number id method (items ++ [.str s] ++ [.null]) []) := by
  rw [run_append, h, Option.bind_some]
  cases items with
  | nil => rfl
  | cons item items => rfl

theorem parse_last (h : Machine.start.run number before = some (inParams number id method items s)) :
    parse number (before ++ literal "\"]\x7d") = some (object number id method (items ++ [.str s])) := by
  rw [parse, run_append, h, Option.bind_some]
  cases items with
  | nil => rfl
  | cons item items => rfl

end Parts

theorem run_submit (id : ℕ) :
    Machine.start.run number (literal "\x7b\"id\":" ++ decimal id ++
        literal ",\"method\":\"mining.submit\",\"params\":[\"") =
      some (inParams number (decimal id) (literal "mining.submit") [] []) := by
  have hfront : Machine.start.run number (literal "\x7b\"id\":") =
      some ⟨.start, .value, [.obj [] (literal "id")]⟩ := rfl
  rw [List.append_assoc, run_append, hfront, Option.bind_some]
  refine (run_decimal id _ rfl _).trans ?_
  rfl

/-- The pool reads each line as the message it stands for. -/
theorem parse_line {r : Request} (hr : r.Plain) : parse number r.line = some (r.message number) := by
  cases r with
  | subscribe host port =>
    have hagent : JsonText.Plain userAgent := by decide
    have hfront : Machine.start.run number (literal "\x7b\"id\":1,\"method\":\"mining.subscribe\",\"params\":[\"") =
        some (inParams number (decimal 1) (literal "mining.subscribe") [] []) := rfl
    exact parse_last (run_next (run_first (run_null (run_first hfront hagent)) hr.1) hr.2)
  | authorize user pass =>
    have hfront : Machine.start.run number (literal "\x7b\"id\":2,\"method\":\"mining.authorize\",\"params\":[\"") =
        some (inParams number (decimal 2) (literal "mining.authorize") [] []) := rfl
    exact parse_last (run_next (run_first hfront hr.1) hr.2)
  | extranonceSubscribe => rfl
  | submit id params =>
    obtain ⟨hname, hjobId, hnTime, hextraNonce2, hsoln⟩ := hr
    have hfront := run_first (run_submit number id) hname
    exact parse_last (run_next (run_next (run_next (run_next hfront hjobId) hnTime) hextraNonce2) hsoln)

end Reading

section Framing
variable {number : Str → Str} {handleMessage : List Json → Json → Outcome}

theorem newline_not_mem_decimal (n : ℕ) : newline ∉ decimal n := by
  intro hmem
  cases isDigit_of_mem_decimal hmem

theorem newline_not_mem_line {r : Request} (hr : r.Plain) : newline ∉ r.line := by
  cases r with
  | subscribe host port =>
    simp only [Request.line, List.mem_append, not_or]
    exact ⟨⟨⟨⟨⟨⟨by decide, by decide⟩, by decide⟩, hr.1.newline_not_mem⟩, by decide⟩,
      hr.2.newline_not_mem⟩, by decide⟩
  | authorize user pass =>
    simp only [Request.line, List.mem_append, not_or]
    exact ⟨⟨⟨⟨by decide, hr.1.newline_not_mem⟩, by decide⟩, hr.2.newline_not_mem⟩, by decide⟩
  | extranonceSubscribe => decide
  | submit id params =>
    obtain ⟨hname, hjobId, hnTime, hextraNonce2, hsoln⟩ := hr
    simp only [Request.line, List.mem_append, not_or]
    refine ⟨⟨⟨⟨⟨⟨⟨⟨⟨⟨⟨⟨?_, newline_not_mem_decimal id⟩, ?_⟩, hname.newline_not_mem⟩, ?_⟩,
      hjobId.newline_not_mem⟩, ?_⟩,
      hnTime.newline_not_mem⟩, ?_⟩, hextraNonce2.newline_not_mem⟩, ?_⟩, hsoln.newline_not_mem⟩, ?_⟩ <;> decide

theorem line_ne_nil (r : Request) : r.line ≠ [] := by
  cases r <;> exact List.cons_ne_nil _ _

theorem lines_cons {l : Str} (hl : newline ∉ l) (text : Str) :
    lines (l ++ newline :: text) = l :: lines text ∧ incomplete (l ++ newline :: text) = incomplete text := by
  have hne := List.splitOn_ne_nil newline text
  rw [lines, incomplete, List.splitOn_append_cons_self_of_not_mem hl, List.dropLast_cons_of_ne_nil hne, lines,
    incomplete, List.getLast?_cons_of_ne_nil hne]
  exact ⟨rfl, rfl⟩

/-- Of lines that are cut off somewhere, those that are whole are the complete ones. -/
theorem lines_of_prefix {ls : List Str} (hls : ∀ l ∈ ls, newline ∉ l) {text : Str}
    (htext : text <+: ls.flatMap fun l => l ++ [newline]) :
    ∃ k ≤ ls.length, lines text = ls.take k ∧
      text = ((ls.take k).flatMap fun l => l ++ [newline]) ++ incomplete text ∧ newline ∉ incomplete text := by
  induction ls generalizing text with
  | nil =>
    rw [List.prefix_nil.mp htext]
    exact ⟨0, Nat.le_refl 0, rfl, rfl, List.not_mem_nil⟩
  | cons l ls ih =>
    obtain ⟨hl, hls⟩ := List.forall_mem_cons.mp hls
    rw [List.flatMap_cons] at htext
    by_cases hwhole : l ++ [newline] <+: text
    · obtain ⟨rest, rfl⟩ := hwhole
      obtain ⟨k, hk, hlines, hrest, hopen⟩ := ih hls ((List.prefix_append_right_inj _).mp htext)
      obtain ⟨hcons, hincomplete⟩ := lines_cons hl rest
      rw [List.append_assoc, List.singleton_append, hcons, hincomplete]
      refine ⟨k + 1, Nat.succ_le_succ hk, ?_, ?_, hopen⟩
      · rw [hlines, List.take_succ_cons]
      · rw [List.take_succ_cons, List.flatMap_cons, List.append_assoc, ← hrest, List.append_assoc,
          List.singleton_append]
    · -- The first line has not come to its end
      have hfirst : text <+: l ++ [newline] :=
        (List.prefix_or_prefix_of_prefix htext (List.prefix_append _ _)).resolve_right hwhole
      have hinside : text <+: l := by
        rcases List.prefix_concat_iff.mp hfirst with heq | h
        · exact absurd (heq ▸ List.prefix_refl _) hwhole
        · exact h
      have hopen : newline ∉ text := fun hmem => hl (hinside.subset hmem)
      obtain ⟨hlines, hincomplete⟩ := lines_of_not_mem hopen
      rw [hlines, hincomplete]
      exact ⟨0, Nat.zero_le _, rfl, rfl, hopen⟩

theorem messages_map {number : Str → Str} {rs : List Request} (hrs : ∀ r ∈ rs, r.Plain) :
    messages (parse number) (rs.map Request.line) = rs.map (Request.message number) := by
  induction rs with
  | nil => rfl
  | cons r rs ih =>
    obtain ⟨hr, hrs⟩ := List.forall_mem_cons.mp hrs
    rw [List.map_cons, messages, parse_line number hr, List.map_cons]
    exact congrArg (Request.message number r :: ·) (ih hrs)

theorem stream_eq (rs : List Request) : stream rs = (rs.map Request.line).flatMap fun l => l ++ [newline] := by
  rw [stream, List.flatMap_map]

/-- However the text a miner writes is cut, at every moment the pool has handled the messages of the
lines that have come in whole, and keeps the rest. -/
theorem requests_read (number : Str → Str) (handleMessage : List Json → Json → Outcome) {rs : List Request}
    (hrs : ∀ r ∈ rs, r.Plain) {chunks : List Str} (hcut : chunks.flatten <+: stream rs) (hfits : Fits chunks)
    (hquiet : Quiet handleMessage (rs.map (Request.message number))) :
    ∃ k ≤ rs.length, ∃ dataBuffer, newline ∉ dataBuffer ∧
      chunks.flatten = stream (rs.take k) ++ dataBuffer ∧
      setupSocket (parse number) handleMessage chunks =
        (dataBuffer, ⟨(rs.take k).map (Request.message number), .listening⟩) := by
  have hnewline : ∀ l ∈ rs.map Request.line, newline ∉ l := by
    intro l hl
    obtain ⟨r, hr, rfl⟩ := List.mem_map.mp hl
    exact newline_not_mem_line (hrs r hr)
  rw [stream_eq] at hcut
  obtain ⟨k, hk, hlines, htext, hopen⟩ := lines_of_prefix hnewline hcut
  rw [List.length_map] at hk
  rw [← List.map_take] at hlines htext
  have hplain : ∀ r ∈ rs.take k, r.Plain := fun r hr => hrs r (List.mem_of_mem_take hr)
  have hcomplete : complete chunks.flatten = (rs.take k).map Request.line := by
    rw [Stratum.complete, hlines]
    refine List.filter_eq_self.mpr fun l hl => ?_
    obtain ⟨r, -, rfl⟩ := List.mem_map.mp hl
    exact decide_eq_true (line_ne_nil r)
  have hmessages : messagesOf (parse number) chunks = (rs.take k).map (Request.message number) := by
    rw [messagesOf, hcomplete, messages_map hplain]
  have hrun : (setupSocket (parse number) handleMessage chunks).2 =
      ⟨(rs.take k).map (Request.message number), .listening⟩ := by
    rw [← hmessages]
    refine run_quiet hfits (fun l hl => ?_) (fun j hj => ?_) ?_
    · rw [hcomplete] at hl
      obtain ⟨r, hr, rfl⟩ := List.mem_map.mp hl
      rw [parse_line number (hplain r hr)]
      rfl
    · rw [hmessages] at hj
      obtain ⟨r, -, rfl⟩ := List.mem_map.mp hj
      cases r <;> rfl
    · rw [hmessages, List.map_take]
      exact hquiet.mono (List.take_prefix _ _)
  refine ⟨k, hk, incomplete chunks.flatten, hopen, ?_, Prod.ext (dataBuffer_eq hfits (by rw [hrun])) hrun⟩
  rw [stream_eq, ← htext]

def greeting : List Request := [.authorize (literal "a") [], .extranonceSubscribe]

def pieces : List Str := [(stream greeting).take 40, ((stream greeting).drop 40).take 50]

/-- The second request is cut off. -/
theorem requests_read_greeting : ∃ k ≤ greeting.length, ∃ dataBuffer, newline ∉ dataBuffer ∧
    pieces.flatten = stream (greeting.take k) ++ dataBuffer ∧
    setupSocket (parse id) (fun _ _ => .returns) pieces =
      (dataBuffer, ⟨(greeting.take k).map (Request.message id), .listening⟩) := by
  have hplain : ∀ r ∈ greeting, r.Plain := by
    intro r hr
    rcases List.mem_cons.mp hr with rfl | hr
    · exact ⟨by decide, by decide⟩
    · cases List.mem_singleton.mp hr
      trivial
  exact requests_read id (fun _ _ => .returns) hplain (by decide +kernel) (by decide +kernel) fun _ _ _ => rfl

end Framing

end Aion.Network
