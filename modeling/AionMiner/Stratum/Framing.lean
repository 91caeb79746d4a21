import AionMiner.Stratum.Values

/-! The data events of a connection: `setupSocket` of `stratum.js` without the proxy protocol. -/

namespace Aion.Stratum
open Text

def newline : CodeUnit := unit '\n'

def isHighSurrogate (c : CodeUnit) : Bool := 0xD800 ≤ c.toNat && c.toNat < 0xDC00

def isLowSurrogate (c : CodeUnit) : Bool := 0xDC00 ≤ c.toNat && c.toNat < 0xE000

def unitLength (c : CodeUnit) : ℕ := if c.toNat < 0x80 then 1 else if c.toNat < 0x800 then 2 else 3

/-- `Buffer.byteLength(s, 'utf8')`. A surrogate on its own takes the three bytes of U+FFFD. -/
def byteLength : Str → ℕ
  | [] => 0
  | [c] => unitLength c
  | c :: d :: s =>
    if isHighSurrogate c && isLowSurrogate d then 4 + byteLength s else unitLength c + byteLength (d :: s)

/-- What a call of `handleMessage` does to the socket; an exception ends the process. -/
inductive Outcome where
  | returns
  | destroys
  | throws

inductive Status where
  | listening
  | destroyed
  | ended
deriving DecidableEq

/-- A socket and the messages that have been passed to `handleMessage`. -/
structure Socket where
  handled : List Json
  status : Status

section Code
variable (parse : Str → Option Json) (handleMessage : List Json → Json → Outcome)

def Socket.handle (s : Socket) (messageJson : Json) : Socket where
  handled := s.handled ++ [messageJson]
  status :=
    match handleMessage s.handled messageJson with
    | .returns => s.status
    | .destroys => .destroyed
    | .throws => .ended

/-- The callback of `forEach`. `parse` is `JSON.parse`. -/
def Socket.message (s : Socket) (message : Str) : Socket :=
  if message = [] then s
  else
    match parse message with
    | none => { s with status := .destroyed }
    | some messageJson => if messageJson.truthy then s.handle handleMessage messageJson else s

def Socket.forEach : Socket → List Str → Socket
  | s, [] => s
  | s, message :: messages =>
    -- an exception has left the loop
    if s.status = .ended then s else (s.message parse handleMessage message).forEach messages

/-- A data event, and `dataBuffer` after it. -/
def Socket.data (dataBuffer : Str) (s : Socket) (d : Str) : Str × Socket :=
  if s.status ≠ .listening then (dataBuffer, s)
  else
    let dataBuffer := dataBuffer ++ d
    if 10240 < byteLength dataBuffer then ([], { s with status := .destroyed })
    else if newline ∈ dataBuffer then
      let messages := dataBuffer.splitOn newline
      if dataBuffer.getLast? = some newline then ([], s.forEach parse handleMessage messages)
      else (messages.getLast?.getD [], s.forEach parse handleMessage messages.dropLast)
    else (dataBuffer, s)

def setupSocket (chunks : List Str) : Str × Socket :=
  chunks.foldl (fun st d => st.2.data parse handleMessage st.1 d) ([], ⟨[], .listening⟩)

end Code

section Lines

def lines (s : Str) : List Str := (s.splitOn newline).dropLast

def incomplete (s : Str) : Str := (s.splitOn newline).getLast?.getD []

def complete (s : Str) : List Str := (lines s).filter (· ≠ [])

theorem lines_concat_incomplete (s : Str) : lines s ++ [incomplete s] = s.splitOn newline := by
  have hne := List.splitOn_ne_nil newline s
  unfold lines incomplete
  rw [List.getLast?_eq_some_getLast hne, Option.getD_some]
  exact List.dropLast_concat_getLast hne

theorem splitOn_append (s t : Str) :
    (s ++ t).splitOn newline = lines s ++ (incomplete s ++ t).splitOn newline := by
  -- A text goes on where its last line is open
  induction s with
  | nil => rfl
  | cons c s ih =>
    have hs := lines_concat_incomplete s
    have hcs := lines_concat_incomplete (c :: s)
    rw [List.splitOn_cons_eq_if_modifyHead, ← hs] at hcs
    rw [List.cons_append, List.splitOn_cons_eq_if_modifyHead, ih]
    split_ifs with hc
    · -- the newline ends an empty line
      rw [if_pos hc, ← List.cons_append] at hcs
      obtain ⟨hlines, hlast⟩ := List.append_inj' hcs rfl
      rw [hlines, List.singleton_inj.mp hlast]
      rfl
    · rw [if_neg hc] at hcs
      cases hl : lines s with
      | nil =>
        rw [hl] at hcs
        obtain ⟨hlines, hlast⟩ : lines (c :: s) = [] ∧ [incomplete (c :: s)] = [c :: incomplete s] :=
          List.append_inj' hcs rfl
        rw [hlines, List.singleton_inj.mp hlast]
        simp only [List.nil_append, List.cons_append, List.splitOn_cons_eq_if_modifyHead, if_neg hc]
      | cons l ls =>
        rw [hl] at hcs
        obtain ⟨hlines, hlast⟩ : lines (c :: s) = (c :: l) :: ls ∧ [incomplete (c :: s)] = [incomplete s] :=
          List.append_inj' hcs rfl
        rw [hlines, List.singleton_inj.mp hlast]
        rfl

theorem lines_append (s t : Str) :
    lines (s ++ t) = lines s ++ lines (incomplete s ++ t) ∧
    incomplete (s ++ t) = incomplete (incomplete s ++ t) := by
  have h := splitOn_append s t
  rw [← lines_concat_incomplete (s ++ t), ← lines_concat_incomplete (incomplete s ++ t),
    ← List.append_assoc] at h
  obtain ⟨hlines, hlast⟩ := List.append_inj' h rfl
  exact ⟨hlines, List.singleton_inj.mp hlast⟩

theorem complete_append (s t : Str) :
    complete (s ++ t) = complete s ++ complete (incomplete s ++ t) := by
  unfold complete
  rw [(lines_append s t).1, List.filter_append]

theorem lines_of_not_mem {s : Str} (h : newline ∉ s) : lines s = [] ∧ incomplete s = s := by
  unfold lines incomplete
  rw [List.splitOn_eq_singleton h]
  exact ⟨rfl, rfl⟩

theorem incomplete_concat_newline (s : Str) : incomplete (s ++ [newline]) = [] := by
  unfold incomplete
  rw [List.splitOn_append_cons_self, List.splitOn_nil, List.getLast?_concat]
  rfl

end Lines

section Messages
variable {parse : Str → Option Json}

def messages (parse : Str → Option Json) : List Str → List Json
  | [] => []
  | line :: lines =>
    match parse line with
    | none => []
    | some messageJson => messageJson :: messages parse lines

theorem messages_append {xs : List Str} (h : ∀ l ∈ xs, (parse l).isSome) (ys : List Str) :
    messages parse (xs ++ ys) = messages parse xs ++ messages parse ys := by
  induction xs with
  | nil => rfl
  | cons l xs ih =>
    obtain ⟨j, hj⟩ := Option.isSome_iff_exists.mp (h l List.mem_cons_self)
    rw [List.cons_append, messages, messages, hj, ih fun l hl => h l (List.mem_cons_of_mem _ hl),
      List.cons_append]

theorem messages_append_of_not {xs : List Str} (h : ¬∀ l ∈ xs, (parse l).isSome) (ys : List Str) :
    messages parse (xs ++ ys) = messages parse xs := by
  induction xs with
  | nil => exact absurd (fun _ hl => absurd hl List.not_mem_nil) h
  | cons l xs ih =>
    rw [List.cons_append, messages, messages]
    cases hl : parse l with
    | none => rfl
    | some j =>
      have hxs : ¬∀ l ∈ xs, (parse l).isSome :=
        fun hxs => h (List.forall_mem_cons.mpr ⟨by rw [hl]; rfl, hxs⟩)
      exact congrArg (j :: ·) (ih hxs)

theorem messages_prefix (xs ys : List Str) : messages parse xs <+: messages parse (xs ++ ys) := by
  by_cases h : ∀ l ∈ xs, (parse l).isSome
  · rw [messages_append h]
    apply List.prefix_append
  · have hsame := messages_append_of_not h ys
    exact ⟨[], (List.append_nil _).trans hsame.symm⟩

theorem exists_malformed {ls : List Str} (h : ¬∀ l ∈ ls, (parse l).isSome) :
    ∃ before line after, ls = before ++ line :: after ∧ (∀ l ∈ before, (parse l).isSome) ∧
    parse line = none := by
  induction ls with
  | nil => exact absurd (fun _ hl => absurd hl List.not_mem_nil) h
  | cons l ls ih =>
    cases hl : parse l with
    | none => exact ⟨[], l, ls, rfl, fun _ hl => absurd hl List.not_mem_nil, hl⟩
    | some j =>
      have hls : ¬∀ l ∈ ls, (parse l).isSome :=
        fun hls => h (List.forall_mem_cons.mpr ⟨by rw [hl]; rfl, hls⟩)
      obtain ⟨before, line, after, rfl, hbefore, hline⟩ := ih hls
      exact ⟨l :: before, line, after, rfl,
        List.forall_mem_cons.mpr ⟨by rw [hl]; rfl, hbefore⟩, hline⟩

end Messages

section Handling
variable {parse : Str → Option Json} {handleMessage : List Json → Json → Outcome} {s : Socket}

/-- Each of some messages, handled after those before it, leaves the connection as it is. -/
def Quiet (handleMessage : List Json → Json → Outcome) (msgs : List Json) : Prop :=
  ∀ m j, m ++ [j] <+: msgs → handleMessage m j = .returns

theorem Quiet.mono {m msgs : List Json} (h : Quiet handleMessage msgs) (hm : m <+: msgs) :
    Quiet handleMessage m :=
  fun n j hn => h n j (hn.trans hm)

/-- What holds of a socket whose buffer has never been flooded. -/
structure Socket.Sound (handleMessage : List Json → Json → Outcome) (s : Socket) : Prop where
  truthy : ∀ j ∈ s.handled, j.truthy = true
  quiet : s.status = .listening → Quiet handleMessage s.handled
  unthrown : ∀ m j, m ++ [j] <+: s.handled → m ++ [j] ≠ s.handled → handleMessage m j ≠ .throws
  ended : s.status = .ended ↔ ∃ m j, s.handled = m ++ [j] ∧ handleMessage m j = .throws

theorem Socket.Sound.init : Socket.Sound handleMessage ⟨[], .listening⟩ where
  truthy j hj := absurd hj List.not_mem_nil
  quiet _ m j hm := absurd (List.prefix_nil.mp hm) (List.append_ne_nil_of_right_ne_nil _ (List.cons_ne_nil _ _))
  unthrown m j hm := absurd (List.prefix_nil.mp hm) (List.append_ne_nil_of_right_ne_nil _ (List.cons_ne_nil _ _))
  ended := by simp

theorem Socket.Sound.destroy (h : s.Sound handleMessage) (hs : s.status ≠ .ended) :
    ({ s with status := .destroyed } : Socket).Sound handleMessage where
  truthy := h.truthy
  quiet hd := by cases hd
  unthrown := h.unthrown
  ended := iff_of_false (fun hd => by cases hd) fun hthrown => hs (h.ended.mpr hthrown)

theorem handle_status (handleMessage : List Json → Json → Outcome) (s : Socket) (j : Json) :
    ((s.handle handleMessage j).status = .ended ↔
      handleMessage s.handled j = .throws ∨ handleMessage s.handled j = .returns ∧ s.status = .ended) ∧
    ((s.handle handleMessage j).status = .listening ↔
      handleMessage s.handled j = .returns ∧ s.status = .listening) := by
  unfold Socket.handle
  cases handleMessage s.handled j <;> simp

theorem Socket.Sound.handle (h : s.Sound handleMessage) (hs : s.status ≠ .ended) {j : Json}
    (hj : j.truthy = true) : (s.handle handleMessage j).Sound handleMessage := by
  obtain ⟨hended, hlistening⟩ := handle_status handleMessage s j
  refine ⟨?_, fun hl => ?_, fun m k hm hne => ?_, ?_⟩
  · intro k hk
    obtain hk | hk := List.mem_append.mp hk
    · exact h.truthy k hk
    · rwa [List.mem_singleton.mp hk]
  · obtain ⟨hreturns, hl⟩ := hlistening.mp hl
    intro m k hm
    obtain hm | hm := List.prefix_concat_iff.mp hm
    · obtain ⟨rfl, hk⟩ := List.append_inj' hm rfl
      rwa [List.singleton_inj.mp hk]
    · exact h.quiet hl m k hm
  · obtain hm | hm := List.prefix_concat_iff.mp hm
    · exact absurd hm hne
    · by_cases heq : m ++ [k] = s.handled
      · exact fun hthrows => hs (h.ended.mpr ⟨m, k, heq.symm, hthrows⟩)
      · exact h.unthrown m k hm heq
  · rw [hended]
    constructor
    · rintro (hthrows | ⟨-, hs'⟩)
      · exact ⟨_, _, rfl, hthrows⟩
      · exact absurd hs' hs
    · rintro ⟨m, k, hm, hthrows⟩
      obtain ⟨hhandled, hk⟩ : s.handled = m ∧ [j] = [k] := List.append_inj' hm rfl
      rw [hhandled, List.singleton_inj.mp hk]
      exact .inl hthrows

theorem message_malformed {line : Str} (hne : line ≠ []) (h : parse line = none) :
    s.message parse handleMessage line = { s with status := .destroyed } := by
  rw [Socket.message, if_neg hne, h]

theorem message_parsed {line : Str} {j : Json} (hne : line ≠ []) (h : parse line = some j) :
    s.message parse handleMessage line = if j.truthy then s.handle handleMessage j else s := by
  rw [Socket.message, if_neg hne, h]

theorem Socket.Sound.message (h : s.Sound handleMessage) (hs : s.status ≠ .ended) (line : Str) :
    (s.message parse handleMessage line).Sound handleMessage := by
  by_cases hne : line = []
  · rwa [Socket.message, if_pos hne]
  cases hline : parse line with
  | none =>
    rw [message_malformed hne hline]
    exact h.destroy hs
  | some j =>
    rw [message_parsed hne hline]
    split_ifs with hj
    · exact h.handle hs hj
    · exact h

theorem Socket.Sound.forEach (h : s.Sound handleMessage) (ls : List Str) :
    (s.forEach parse handleMessage ls).Sound handleMessage := by
  induction ls generalizing s with
  | nil => exact h
  | cons l ls ih =>
    unfold Socket.forEach
    split_ifs with hs
    · exact h
    · exact ih (h.message hs l)

theorem forEach_ended (hs : s.status = .ended) (ls : List Str) :
    s.forEach parse handleMessage ls = s := by
  cases ls with
  | nil => rfl
  | cons l ls => rw [Socket.forEach, if_pos hs]

theorem forEach_cons (hs : s.status ≠ .ended) (l : Str) (ls : List Str) :
    s.forEach parse handleMessage (l :: ls) = (s.message parse handleMessage l).forEach parse handleMessage ls := by
  rw [Socket.forEach, if_neg hs]

theorem forEach_append (s : Socket) (xs ys : List Str) :
    s.forEach parse handleMessage (xs ++ ys) =
      (s.forEach parse handleMessage xs).forEach parse handleMessage ys := by
  induction xs generalizing s with
  | nil => rfl
  | cons l xs ih =>
    by_cases hs : s.status = .ended
    · rw [forEach_ended hs, forEach_ended hs, forEach_ended hs]
    · rw [List.cons_append, forEach_cons hs, forEach_cons hs, ih]

theorem forEach_filter (s : Socket) (ls : List Str) :
    s.forEach parse handleMessage (ls.filter (· ≠ [])) = s.forEach parse handleMessage ls := by
  -- The lines that are empty are skipped
  induction ls generalizing s with
  | nil => rfl
  | cons l ls ih =>
    by_cases hs : s.status = .ended
    · rw [forEach_ended hs, forEach_ended hs]
    · by_cases hl : l = []
      · rw [List.filter_cons_of_neg (by simpa using hl), ih, forEach_cons hs, Socket.message,
          if_pos hl]
      · rw [List.filter_cons_of_pos (by simpa using hl), forEach_cons hs, forEach_cons hs, ih]

theorem handled_message (s : Socket) (line : Str) :
    s.handled <+: (s.message parse handleMessage line).handled := by
  unfold Socket.message
  split_ifs
  · apply List.prefix_refl
  · cases parse line with
    | none => apply List.prefix_refl
    | some j =>
      dsimp only
      split_ifs
      · apply List.prefix_append
      · apply List.prefix_refl

theorem handled_forEach (s : Socket) (ls : List Str) :
    s.handled <+: (s.forEach parse handleMessage ls).handled := by
  induction ls generalizing s with
  | nil => exact List.prefix_refl _
  | cons l ls ih =>
    unfold Socket.forEach
    split_ifs
    · apply List.prefix_refl
    · exact (handled_message s l).trans (ih _)

/-- Lines of JSON are handled in order, unless an exception ends the process. -/
theorem forEach_parsed {ls : List Str} (hne : ∀ l ∈ ls, l ≠ [])
    (hparse : ∀ l ∈ ls, (parse l).isSome) (htruthy : ∀ j ∈ messages parse ls, j.truthy = true) :
    (s.forEach parse handleMessage ls).handled = s.handled ++ messages parse ls ∨
      (s.forEach parse handleMessage ls).handled <+: s.handled ++ messages parse ls ∧
        (s.forEach parse handleMessage ls).status = .ended := by
  induction ls generalizing s with
  | nil => exact .inl (List.append_nil _).symm
  | cons l ls ih =>
    by_cases hs : s.status = .ended
    · rw [forEach_ended hs]
      exact .inr ⟨List.prefix_append .., hs⟩
    obtain ⟨hl, hls⟩ := List.forall_mem_cons.mp hne
    obtain ⟨hlp, hlsp⟩ := List.forall_mem_cons.mp hparse
    obtain ⟨j, hj⟩ := Option.isSome_iff_exists.mp hlp
    have hmessages : messages parse (l :: ls) = j :: messages parse ls := by rw [messages, hj]
    rw [hmessages] at htruthy ⊢
    obtain ⟨hjt, hlst⟩ := List.forall_mem_cons.mp htruthy
    rw [forEach_cons hs, message_parsed hl hj, if_pos hjt, List.append_cons]
    exact ih hls hlsp hlst

theorem forEach_quiet {ls : List Str} (hne : ∀ l ∈ ls, l ≠ []) (hparse : ∀ l ∈ ls, (parse l).isSome)
    (htruthy : ∀ j ∈ messages parse ls, j.truthy = true) (hs : s.status ≠ .ended)
    (hquiet : Quiet handleMessage (s.handled ++ messages parse ls)) :
    s.forEach parse handleMessage ls = ⟨s.handled ++ messages parse ls, s.status⟩ := by
  induction ls generalizing s with
  | nil =>
    rw [Socket.forEach, messages, List.append_nil]
  | cons l ls ih =>
    obtain ⟨hl, hls⟩ := List.forall_mem_cons.mp hne
    obtain ⟨hlp, hlsp⟩ := List.forall_mem_cons.mp hparse
    obtain ⟨j, hj⟩ := Option.isSome_iff_exists.mp hlp
    have hmessages : messages parse (l :: ls) = j :: messages parse ls := by rw [messages, hj]
    rw [hmessages] at htruthy hquiet ⊢
    obtain ⟨hjt, hlst⟩ := List.forall_mem_cons.mp htruthy
    rw [List.append_cons] at hquiet ⊢
    have hreturns : handleMessage s.handled j = .returns :=
      hquiet s.handled j (List.prefix_append ..)
    have hhandle : s.handle handleMessage j = ⟨s.handled ++ [j], s.status⟩ := by rw [Socket.handle, hreturns]
    rw [forEach_cons hs, message_parsed hl hj, if_pos hjt, hhandle]
    exact ih hls hlsp hlst hs hquiet

/-- Nothing is handled if and only if each line is either not JSON or falsy. -/
theorem forEach_handled_iff {ls : List Str} (hne : ∀ l ∈ ls, l ≠ []) (hs : s.status ≠ .ended) :
    (s.forEach parse handleMessage ls).handled = s.handled ↔
      ∀ l ∈ ls, ∀ j, parse l = some j → j.truthy = false := by
  induction ls generalizing s with
  | nil => exact iff_of_true rfl fun _ hl => absurd hl List.not_mem_nil
  | cons l ls ih =>
    obtain ⟨hl, hls⟩ := List.forall_mem_cons.mp hne
    rw [forEach_cons hs, List.forall_mem_cons]
    cases hj : parse l with
    | none =>
      rw [message_malformed hl hj]
      have hdestroyed : ({ s with status := .destroyed } : Socket).status ≠ .ended :=
        Status.noConfusion
      rw [show s.handled = ({ s with status := .destroyed } : Socket).handled from rfl,
        ih hls hdestroyed]
      exact ⟨fun h => ⟨fun _ hk => absurd hk (Option.some_ne_none _).symm, h⟩, fun h => h.2⟩
    | some j =>
      rw [message_parsed hl hj]
      split_ifs with hjt
      · -- the value is handled
        refine iff_of_false (fun heq => ?_) fun h => ?_
        · have hgrows : (s.handle handleMessage j).handled <+:
              ((s.handle handleMessage j).forEach parse handleMessage ls).handled :=
              handled_forEach _ ls
          have hlen := hgrows.length_le
          rw [heq, Socket.handle, List.length_append, List.length_singleton] at hlen
          exact absurd hlen (Nat.not_succ_le_self _)
        · rw [h.1 j rfl] at hjt
          cases hjt
      · rw [ih hls hs]
        refine ⟨fun h => ⟨fun k hk => ?_, h⟩, fun h => h.2⟩
        rw [← Option.some_inj.mp hk]
        exact Bool.eq_false_iff.mpr hjt

/-- A socket that still listens has not met a line that is not JSON. -/
theorem forEach_listening {ls : List Str} (hne : ∀ l ∈ ls, l ≠ [])
    (h : (s.forEach parse handleMessage ls).status = .listening) :
    s.status = .listening ∧ ∀ l ∈ ls, (parse l).isSome := by
  induction ls generalizing s with
  | nil => exact ⟨h, fun _ hl => absurd hl List.not_mem_nil⟩
  | cons l ls ih =>
    by_cases hs : s.status = .ended
    · rw [forEach_ended hs, hs] at h
      cases h
    obtain ⟨hl, hls⟩ := List.forall_mem_cons.mp hne
    rw [forEach_cons hs] at h
    obtain ⟨hmessage, hparse⟩ := ih hls h
    rw [List.forall_mem_cons]
    cases hj : parse l with
    | none =>
      rw [message_malformed hl hj] at hmessage
      cases hmessage
    | some j =>
      rw [message_parsed hl hj] at hmessage
      refine ⟨?_, rfl, hparse⟩
      split_ifs at hmessage with hjt
      · exact ((handle_status handleMessage s j).2.mp hmessage).2
      · exact hmessage

end Handling
end Aion.Stratum
