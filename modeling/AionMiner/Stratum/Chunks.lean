import AionMiner.Stratum.Framing

/-! A stream may be cut into data events in many ways. -/

namespace Aion.Stratum
open Text

/-- No data event makes the buffer exceed the limit. -/
def Fits (chunks : List Str) : Prop :=
  ∀ i (h : i < chunks.length), byteLength (incomplete (chunks.take i).flatten ++ chunks[i]) ≤ 10240

instance (chunks : List Str) : Decidable (Fits chunks) := Nat.decidableBallLT _ _

section Run
variable {parse : Str → Option Json} {handleMessage : List Json → Json → Outcome}

theorem ne_nil_of_mem_complete {s l : Str} (h : l ∈ complete s) : l ≠ [] := by
  simpa using (List.mem_filter.mp h).2

/-- A data event handles the lines it completes, and keeps the rest. -/
theorem data_eq {s : Socket} {dataBuffer d : Str} (hs : s.status = .listening)
    (hfits : byteLength (dataBuffer ++ d) ≤ 10240) :
    s.data parse handleMessage dataBuffer d =
      (incomplete (dataBuffer ++ d), s.forEach parse handleMessage (complete (dataBuffer ++ d))) := by
  unfold Socket.data
  rw [if_neg (not_not.mpr hs)]
  dsimp only
  rw [if_neg (Nat.not_lt.mpr hfits)]
  unfold complete
  rw [forEach_filter]
  generalize dataBuffer ++ d = buffer
  split_ifs with hmem hlast
  · -- `split` gives an empty last line, which is skipped
    obtain ⟨init, rfl⟩ := List.getLast?_eq_some_iff.mp hlast
    rw [← lines_concat_incomplete, incomplete_concat_newline, forEach_append]
    refine Prod.ext rfl ?_
    simp only [Socket.forEach, Socket.message, if_true, ite_self]
  · rfl
  · obtain ⟨hlines, hincomplete⟩ := lines_of_not_mem hmem
    rw [hlines, hincomplete, Socket.forEach]

theorem Fits.concat {chunks : List Str} {d : Str} (h : Fits (chunks ++ [d])) :
    Fits chunks ∧ byteLength (incomplete chunks.flatten ++ d) ≤ 10240 := by
  constructor
  · intro i hi
    have hfits := h i (by rw [List.length_append]; exact Nat.lt_add_right _ hi)
    rwa [List.take_append_of_le_length hi.le, List.getElem_append_left hi] at hfits
  · have hfits := h chunks.length (by rw [List.length_append]; exact Nat.lt_succ_self _)
    rwa [List.take_left, List.getElem_concat_length rfl] at hfits

theorem setupSocket_concat (chunks : List Str) (d : Str) :
    setupSocket parse handleMessage (chunks ++ [d]) =
      (setupSocket parse handleMessage chunks).2.data parse handleMessage
        (setupSocket parse handleMessage chunks).1 d := by
  unfold setupSocket
  rw [List.foldl_append]
  rfl

theorem dataBuffer_eq {chunks : List Str} (h : Fits chunks)
    (hs : (setupSocket parse handleMessage chunks).2.status = .listening) :
    (setupSocket parse handleMessage chunks).1 = incomplete chunks.flatten := by
  induction chunks using List.reverseRecOn with
  | nil => rfl
  | append_singleton chunks d ih =>
    obtain ⟨hfits, hd⟩ := h.concat
    rw [setupSocket_concat] at hs ⊢
    by_cases hprev : (setupSocket parse handleMessage chunks).2.status = .listening
    · have hbuffer := ih hfits hprev
      rw [hbuffer, data_eq hprev hd, List.flatten_append, List.flatten_singleton]
      exact (lines_append ..).2.symm
    · rw [Socket.data, if_pos hprev] at hs
      exact absurd hs hprev

def completed (chunks : List Str) (d : Str) : List Str := complete (incomplete chunks.flatten ++ d)

theorem complete_concat (chunks : List Str) (d : Str) :
    complete (chunks ++ [d]).flatten = complete chunks.flatten ++ completed chunks d := by
  rw [List.flatten_append, List.flatten_singleton]
  apply complete_append

theorem socket_concat {chunks : List Str} {d : Str} (h : Fits (chunks ++ [d])) :
    (setupSocket parse handleMessage (chunks ++ [d])).2 =
      if (setupSocket parse handleMessage chunks).2.status = .listening then
        (setupSocket parse handleMessage chunks).2.forEach parse handleMessage (completed chunks d)
      else (setupSocket parse handleMessage chunks).2 := by
  obtain ⟨hfits, hd⟩ := h.concat
  rw [setupSocket_concat]
  split_ifs with hs
  · rw [dataBuffer_eq hfits hs, data_eq hs hd]
    rfl
  · rw [Socket.data, if_pos hs]

theorem sound_run {chunks : List Str} (h : Fits chunks) :
    (setupSocket parse handleMessage chunks).2.Sound handleMessage := by
  induction chunks using List.reverseRecOn with
  | nil => exact Socket.Sound.init
  | append_singleton chunks d ih =>
    rw [socket_concat h]
    split_ifs
    · exact (ih h.concat.1).forEach _
    · exact ih h.concat.1

/-- The messages of the lines that some data events complete. -/
def messagesOf (parse : Str → Option Json) (chunks : List Str) : List Json :=
  messages parse (complete chunks.flatten)

theorem messagesOf_append (past later : List Str) :
    messagesOf parse past <+: messagesOf parse (past ++ later) := by
  unfold messagesOf
  rw [List.flatten_append, complete_append]
  apply messages_prefix

theorem messagesOf_of_not {past : List Str} (h : ¬∀ l ∈ complete past.flatten, (parse l).isSome)
    (later : List Str) : messagesOf parse (past ++ later) = messagesOf parse past := by
  unfold messagesOf
  rw [List.flatten_append, complete_append]
  exact messages_append_of_not h _

theorem messagesOf_concat {chunks : List Str} (h : ∀ l ∈ complete chunks.flatten, (parse l).isSome) (d : Str) :
    messagesOf parse (chunks ++ [d]) = messagesOf parse chunks ++ messages parse (completed chunks d) := by
  unfold messagesOf
  rw [complete_concat]
  exact messages_append h _

theorem messagesOf_append_cons (past later : List Str) (d : Str) :
    messagesOf parse (past ++ [d]) <+: messagesOf parse (past ++ d :: later) := by
  rw [show past ++ d :: later = past ++ [d] ++ later from List.append_cons ..]
  apply messagesOf_append

theorem messagesOf_malformed {past before after : List Str} {d line : Str}
    (hsplit : completed past d = before ++ line :: after)
    (hparse : ∀ l ∈ complete past.flatten ++ before, (parse l).isSome) (hline : parse line = none)
    (later : List Str) :
    messagesOf parse (past ++ d :: later) = messagesOf parse past ++ messages parse before := by
  -- A line that is not JSON is the last that counts
  obtain ⟨hpast, hbefore⟩ := List.forall_mem_append.mp hparse
  rw [show past ++ d :: later = past ++ [d] ++ later from List.append_cons .., messagesOf_of_not,
    messagesOf_concat hpast, hsplit, messages_append hbefore, messages, hline, List.append_nil]
  intro hall
  rw [complete_concat, hsplit] at hall
  have hsome := hall line (List.mem_append_right _ (List.mem_append_right _ List.mem_cons_self))
  rw [hline] at hsome
  cases hsome

/-- A socket that listens has handled JSON only. -/
theorem parsed_of_listening {chunks : List Str} (h : Fits chunks)
    (hs : (setupSocket parse handleMessage chunks).2.status = .listening) :
    ∀ l ∈ complete chunks.flatten, (parse l).isSome := by
  induction chunks using List.reverseRecOn with
  | nil => exact fun _ hl => absurd hl List.not_mem_nil
  | append_singleton chunks d ih =>
    rw [socket_concat h] at hs
    split_ifs at hs with hprev
    · obtain ⟨-, hd⟩ := forEach_listening (fun _ hl => ne_nil_of_mem_complete hl) hs
      rw [complete_concat]
      exact List.forall_mem_append.mpr ⟨ih h.concat.1 hprev, hd⟩
    · exact absurd hs hprev

theorem run_quiet {chunks : List Str} (h : Fits chunks)
    (hparse : ∀ l ∈ complete chunks.flatten, (parse l).isSome)
    (htruthy : ∀ j ∈ messagesOf parse chunks, j.truthy = true)
    (hquiet : Quiet handleMessage (messagesOf parse chunks)) :
    (setupSocket parse handleMessage chunks).2 = ⟨messagesOf parse chunks, .listening⟩ := by
  -- Quiet messages are handled however they are cut
  induction chunks using List.reverseRecOn with
  | nil => rfl
  | append_singleton chunks d ih =>
    rw [complete_concat, List.forall_mem_append] at hparse
    obtain ⟨hpast, hd⟩ := hparse
    rw [messagesOf_concat hpast] at htruthy hquiet ⊢
    obtain ⟨htpast, htd⟩ := List.forall_mem_append.mp htruthy
    have hprev := ih h.concat.1 hpast htpast (hquiet.mono (List.prefix_append ..))
    rw [socket_concat h, hprev, if_pos rfl]
    exact forEach_quiet (fun _ hl => ne_nil_of_mem_complete hl) hd htd Status.noConfusion hquiet

/-- What a socket has handled are the messages before the first line that is not JSON. -/
def Framed (parse : Str → Option Json) (handleMessage : List Json → Json → Outcome) (chunks : List Str) : Prop :=
  (setupSocket parse handleMessage chunks).2.handled = messagesOf parse chunks

/-- When it has: these messages are truthy, only the last of them may throw, none destroys the
socket in a data event before that of the last, and after a line that is not JSON its data event
brings no truthy value, unless the connection is gone before. -/
structure Separate (parse : Str → Option Json) (handleMessage : List Json → Json → Outcome) (chunks : List Str) :
    Prop where
  truthy : ∀ j ∈ messagesOf parse chunks, j.truthy = true
  unthrown : ∀ m j, m ++ [j] <+: messagesOf parse chunks → m ++ [j] ≠ messagesOf parse chunks →
    handleMessage m j ≠ .throws
  listening : ∀ past later, chunks = past ++ later → messagesOf parse past ≠ messagesOf parse chunks →
    Quiet handleMessage (messagesOf parse past)
  alone : ∀ past d later before line after, chunks = past ++ d :: later →
    completed past d = before ++ line :: after →
    (∀ l ∈ complete past.flatten ++ before, (parse l).isSome) → parse line = none →
    Quiet handleMessage (messagesOf parse past) →
    (∀ m j, m ++ [j] <+: messagesOf parse chunks → handleMessage m j ≠ .throws) →
    ∀ l ∈ after, ∀ j, parse l = some j → j.truthy = false

theorem fits_of_append {past later : List Str} (h : Fits (past ++ later)) : Fits past := by
  induction later using List.reverseRecOn with
  | nil => rwa [List.append_nil] at h
  | append_singleton later d ih =>
    rw [← List.append_assoc] at h
    exact ih h.concat.1

/-- Of the messages that are waited for only the last one may throw, so that lines of JSON are all handled. -/
theorem Separate.handled_lines {chunks ls : List Str} {s : Socket}
    (hsep : Separate parse handleMessage chunks) (hsound : s.Sound handleMessage)
    (hne : ∀ l ∈ ls, l ≠ []) (hparse : ∀ l ∈ ls, (parse l).isSome)
    (hpre : s.handled ++ messages parse ls <+: messagesOf parse chunks) :
    (s.forEach parse handleMessage ls).handled = s.handled ++ messages parse ls := by
  have htruthy : ∀ j ∈ messages parse ls, j.truthy = true := by
    intro j hj
    apply hsep.truthy
    exact hpre.subset (List.mem_append_right _ hj)
  obtain hall | ⟨hsome, hended⟩ := forEach_parsed hne hparse htruthy
  · exact hall
  · obtain ⟨m, j, hm, hthrows⟩ := (hsound.forEach ls).ended.mp hended
    have hlast : m ++ [j] = messagesOf parse chunks := by
      by_contra hne
      exact hsep.unthrown m j (hm ▸ hsome.trans hpre) hne hthrows
    rw [hm, hlast] at hsome ⊢
    exact List.IsPrefix.eq_of_length_le hsome hpre.length_le

/-- The messages of a data event that the connection waits for are handled, and no others. -/
theorem handled_event {chunks past later : List Str} {d : Str} (hsep : Separate parse handleMessage chunks)
    (hchunks : chunks = past ++ d :: later) (hfits : Fits chunks)
    (hs : (setupSocket parse handleMessage past).2.status = .listening)
    (hpast : (setupSocket parse handleMessage past).2.handled = messagesOf parse past) :
    ((setupSocket parse handleMessage past).2.forEach parse handleMessage (completed past d)).handled =
      messagesOf parse (past ++ [d]) := by
  have hpre : messagesOf parse (past ++ [d]) <+: messagesOf parse chunks := by
    rw [hchunks]
    apply messagesOf_append_cons
  have hfp : Fits past := fits_of_append (hchunks ▸ hfits)
  have hsound : (setupSocket parse handleMessage past).2.Sound handleMessage := sound_run hfp
  have hparse := parsed_of_listening hfp hs
  have hne : ∀ l ∈ completed past d, l ≠ [] := fun _ hl => ne_nil_of_mem_complete hl
  rw [messagesOf_concat hparse, ← hpast] at hpre ⊢
  by_cases hd : ∀ l ∈ completed past d, (parse l).isSome
  · exact hsep.handled_lines hsound hne hd hpre
  obtain ⟨before, line, after, hsplit, hbefore, hline⟩ := exists_malformed hd
  have hmessages : messages parse before = messages parse (completed past d) := by
    rw [hsplit, messages_append hbefore, messages, hline, List.append_nil]
  rw [hsplit] at hne
  obtain ⟨hnebefore, hne⟩ := List.forall_mem_append.mp hne
  rw [← hmessages] at hpre ⊢
  have hgood := hsep.handled_lines hsound hnebefore hbefore hpre
  rw [hsplit, forEach_append]
  by_cases hended : ((setupSocket parse handleMessage past).2.forEach parse handleMessage before).status = .ended
  · rw [forEach_ended hended, hgood]
  · rw [← hgood, forEach_handled_iff hne hended, List.forall_mem_cons]
    refine ⟨fun j hj => absurd (hline.symm.trans hj) (Option.some_ne_none j).symm, ?_⟩
    apply hsep.alone past d later before line after hchunks hsplit
      (List.forall_mem_append.mpr ⟨hparse, hbefore⟩) hline
    · rw [← hpast]
      exact hsound.quiet hs
    · -- the last message has not thrown
      intro m j hm hthrows
      have hlast : messagesOf parse chunks =
          ((setupSocket parse handleMessage past).2.forEach parse handleMessage before).handled := by
        rw [hchunks,
          messagesOf_malformed hsplit (List.forall_mem_append.mpr ⟨hparse, hbefore⟩) hline,
          hgood, hpast]
      by_cases heq : m ++ [j] = messagesOf parse chunks
      · exact hended ((hsound.forEach before).ended.mpr ⟨m, j, (heq.trans hlast).symm, hthrows⟩)
      · exact hsep.unthrown m j hm heq hthrows

theorem framed_of_separate {chunks : List Str} (hfits : Fits chunks)
    (hsep : Separate parse handleMessage chunks) : Framed parse handleMessage chunks := by
  have key : ∀ past later, chunks = past ++ later → Framed parse handleMessage past := by
    intro past
    induction past using List.reverseRecOn with
    | nil => exact fun _ _ => rfl
    | append_singleton past d ih =>
      intro later hchunks
      rw [← List.append_cons] at hchunks
      have hpast : Framed parse handleMessage past := ih (d :: later) hchunks
      have hfd : Fits (past ++ [d]) := by
        rw [hchunks, List.append_cons] at hfits
        exact fits_of_append hfits
      unfold Framed
      rw [socket_concat hfd]
      split_ifs with hs
      · exact handled_event hsep hchunks hfits hs hpast
      rw [hpast]
      by_cases hparse : ∀ l ∈ complete past.flatten, (parse l).isSome
      swap
      · exact (messagesOf_of_not hparse [d]).symm
      -- the connection has gone, so there is no message left
      have hpre : messagesOf parse past <+: messagesOf parse chunks :=
        hchunks ▸ messagesOf_append past (d :: later)
      have hall : messagesOf parse past = messagesOf parse chunks := by
        by_contra hne
        have hquiet := hsep.listening past (d :: later) hchunks hne
        have hrun := run_quiet hfd.concat.1 hparse (fun j hj => hsep.truthy j (hpre.subset hj)) hquiet
        exact hs (congrArg Socket.status hrun)
      have hnext : messagesOf parse (past ++ [d]) <+: messagesOf parse chunks := by
        rw [hchunks]
        apply messagesOf_append_cons
      rw [← hall] at hnext
      exact List.IsPrefix.eq_of_length_le (messagesOf_append past [d]) hnext.length_le
  exact key chunks [] (List.append_nil _).symm

theorem socket_of_gone {past later : List Str} (hfits : Fits (past ++ later))
    (hs : (setupSocket parse handleMessage past).2.status ≠ .listening) :
    (setupSocket parse handleMessage (past ++ later)).2 =
      (setupSocket parse handleMessage past).2 := by
  induction later using List.reverseRecOn with
  | nil => rw [List.append_nil]
  | append_singleton later d ih =>
    rw [← List.append_assoc] at hfits ⊢
    have hprev := ih hfits.concat.1
    rw [socket_concat hfits, hprev, if_neg hs]

theorem handled_prefix {past later : List Str} (hfits : Fits (past ++ later)) :
    (setupSocket parse handleMessage past).2.handled <+:
      (setupSocket parse handleMessage (past ++ later)).2.handled := by
  induction later using List.reverseRecOn with
  | nil =>
    simp only [List.append_nil]
    apply List.prefix_refl
  | append_singleton later d ih =>
    rw [← List.append_assoc] at hfits ⊢
    rw [socket_concat hfits]
    split_ifs
    · exact (ih hfits.concat.1).trans (handled_forEach ..)
    · exact ih hfits.concat.1

/-- While every line is JSON, a socket handles at most the messages that have come, and all if it
still listens. -/
theorem handled_parsed {chunks : List Str} (h : Fits chunks)
    (hparse : ∀ l ∈ complete chunks.flatten, (parse l).isSome)
    (htruthy : ∀ j ∈ messagesOf parse chunks, j.truthy = true) :
    (setupSocket parse handleMessage chunks).2.handled <+: messagesOf parse chunks ∧
      ((setupSocket parse handleMessage chunks).2.status = .listening →
        (setupSocket parse handleMessage chunks).2.handled = messagesOf parse chunks) := by
  induction chunks using List.reverseRecOn with
  | nil => exact ⟨List.prefix_refl _, fun _ => rfl⟩
  | append_singleton chunks d ih =>
    rw [complete_concat, List.forall_mem_append] at hparse
    obtain ⟨hpast, hd⟩ := hparse
    rw [messagesOf_concat hpast] at htruthy ⊢
    obtain ⟨htpast, htd⟩ := List.forall_mem_append.mp htruthy
    obtain ⟨hsome, hall⟩ := ih h.concat.1 hpast htpast
    rw [socket_concat h]
    split_ifs with hs
    · rw [← hall hs]
      have hne : ∀ l ∈ completed chunks d, l ≠ [] := fun _ hl => ne_nil_of_mem_complete hl
      obtain heq | ⟨hpre, hended⟩ := forEach_parsed hne hd htd
      · exact ⟨heq ▸ List.prefix_refl _, fun _ => heq⟩
      · exact ⟨hpre, fun hl => absurd (hended.symm.trans hl) Status.noConfusion⟩
    · exact ⟨hsome.trans (List.prefix_append ..), fun hl => absurd hl hs⟩

theorem truthy_of_framed {chunks : List Str} (hfits : Fits chunks)
    (h : Framed parse handleMessage chunks) : ∀ j ∈ messagesOf parse chunks, j.truthy = true := by
  rw [← h]
  exact (sound_run hfits).truthy

theorem quiet_of_framed {past later : List Str} (hfits : Fits (past ++ later))
    (h : Framed parse handleMessage (past ++ later))
    (hne : messagesOf parse past ≠ messagesOf parse (past ++ later)) :
    Quiet handleMessage (messagesOf parse past) := by
  have htruthy := truthy_of_framed hfits h
  unfold Framed at h
  have hparse : ∀ l ∈ complete past.flatten, (parse l).isSome := by
    by_contra hnot
    exact hne (messagesOf_of_not hnot later).symm
  have hpre : messagesOf parse past <+: messagesOf parse (past ++ later) := messagesOf_append ..
  obtain ⟨hsome, hall⟩ : (setupSocket parse handleMessage past).2.handled <+: messagesOf parse past ∧ _ :=
    handled_parsed (fits_of_append hfits) hparse fun j hj => htruthy j (hpre.subset hj)
  by_cases hs : (setupSocket parse handleMessage past).2.status = .listening
  · rw [← hall hs]
    exact (sound_run (fits_of_append hfits)).quiet hs
  · -- it would have handled messages that have not come yet
    rw [← socket_of_gone hfits hs, h] at hsome
    exact absurd (List.IsPrefix.eq_of_length_le hpre hsome.length_le) hne

theorem falsy_of_framed {past later before after : List Str} {d line : Str} (hfits : Fits (past ++ d :: later))
    (h : Framed parse handleMessage (past ++ d :: later)) (hsplit : completed past d = before ++ line :: after)
    (hparse : ∀ l ∈ complete past.flatten ++ before, (parse l).isSome) (hline : parse line = none)
    (hquiet : Quiet handleMessage (messagesOf parse past))
    (hunthrown : ∀ m j, m ++ [j] <+: messagesOf parse (past ++ d :: later) → handleMessage m j ≠ .throws) :
    ∀ l ∈ after, ∀ j, parse l = some j → j.truthy = false := by
  have htruthy := truthy_of_framed hfits h
  unfold Framed at h
  obtain ⟨hpast, hbefore⟩ := List.forall_mem_append.mp hparse
  have hmessages := messagesOf_malformed hsplit hparse hline later
  rw [hmessages] at h htruthy hunthrown
  obtain ⟨htpast, htbefore⟩ := List.forall_mem_append.mp htruthy
  have hfd : Fits (past ++ [d]) := by
    rw [List.append_cons] at hfits
    exact fits_of_append hfits
  have hne : ∀ l ∈ completed past d, l ≠ [] := fun _ hl => ne_nil_of_mem_complete hl
  rw [hsplit] at hne
  obtain ⟨hneb, hnea⟩ := List.forall_mem_append.mp hne
  have hrun : (setupSocket parse handleMessage past).2 = ⟨messagesOf parse past, .listening⟩ :=
    run_quiet hfd.concat.1 hpast htpast hquiet
  -- the lines before are all handled
  obtain ⟨s, hs⟩ : ∃ s, s = (⟨messagesOf parse past, .listening⟩ : Socket).forEach parse handleMessage before :=
    ⟨_, rfl⟩
  have hss : s.Sound handleMessage := by
    rw [hs, ← hrun]
    exact (sound_run hfd.concat.1).forEach before
  have hgood : s.handled = messagesOf parse past ++ messages parse before ∨
      s.handled <+: messagesOf parse past ++ messages parse before ∧ s.status = .ended := by
    rw [hs]
    exact forEach_parsed hneb hbefore htbefore
  have hsome : s.handled <+: messagesOf parse past ++ messages parse before := by
    obtain heq | ⟨hpre, -⟩ := hgood
    · exact heq ▸ List.prefix_refl _
    · exact hpre
  have hended : s.status ≠ .ended := by
    intro hended
    obtain ⟨m, j, hm, hthrows⟩ := hss.ended.mp hended
    exact hunthrown m j (hm ▸ hsome) hthrows
  have heq : s.handled = messagesOf parse past ++ messages parse before :=
    hgood.resolve_right fun hr => hended hr.2
  -- and nothing after them
  have hd : (setupSocket parse handleMessage (past ++ [d])).2 =
      s.forEach parse handleMessage (line :: after) := by
    rw [socket_concat hfd, hrun, if_pos rfl, hsplit, forEach_append, ← hs]
  have hafter : (s.forEach parse handleMessage (line :: after)).handled = s.handled := by
    have hle : (s.forEach parse handleMessage (line :: after)).handled <+: s.handled := by
      have hcons : past ++ d :: later = past ++ [d] ++ later := List.append_cons ..
      rw [hcons] at hfits h
      rw [← hd, heq, ← h]
      exact handled_prefix hfits
    exact (List.IsPrefix.eq_of_length_le (handled_forEach ..) hle.length_le).symm
  exact (List.forall_mem_cons.mp ((forEach_handled_iff hnea hended).mp hafter)).2

theorem separate_of_framed {chunks : List Str} (hfits : Fits chunks)
    (h : Framed parse handleMessage chunks) : Separate parse handleMessage chunks where
  truthy := truthy_of_framed hfits h
  unthrown := by
    rw [← h]
    exact (sound_run hfits).unthrown
  listening := by
    rintro past later rfl hne
    exact quiet_of_framed hfits h hne
  alone := by
    rintro past d later before line after rfl hsplit hparse hline hquiet hunthrown
    exact falsy_of_framed hfits h hsplit hparse hline hquiet hunthrown

theorem framed_iff {chunks : List Str} (hfits : Fits chunks) :
    Framed parse handleMessage chunks ↔ Separate parse handleMessage chunks :=
  ⟨separate_of_framed hfits, framed_of_separate hfits⟩

end Run

/-- Of two ways to cut a stream, both have its messages handled if and only if both keep them
separate. What `handleMessage` does may differ between the two. -/
theorem framing_iff (parse : Str → Option Json) (handleMessage₁ handleMessage₂ : List Json → Json → Outcome)
    {stream : Str} {chunks₁ chunks₂ : List Str} (hcut₁ : chunks₁.flatten = stream) (hcut₂ : chunks₂.flatten = stream)
    (hfits₁ : Fits chunks₁) (hfits₂ : Fits chunks₂) :
    ((setupSocket parse handleMessage₁ chunks₁).2.handled = messages parse (complete stream) ∧
      (setupSocket parse handleMessage₂ chunks₂).2.handled = messages parse (complete stream)) ↔
      Separate parse handleMessage₁ chunks₁ ∧ Separate parse handleMessage₂ chunks₂ := by
  rw [← framed_iff hfits₁, ← framed_iff hfits₂]
  unfold Framed messagesOf
  rw [hcut₁, hcut₂]

section Malformed

/-- `JSON.parse` on the two lines `x` and `{}`. -/
def parseObject (s : Str) : Option Json := if s = literal "{}" then some (.obj []) else none

def malformed : Str := literal "x\n"

def emptyObject : Str := literal "{}\n"

theorem framing_apart :
    ((setupSocket parseObject (fun _ _ => .returns) [malformed, emptyObject]).2.handled =
        messages parseObject (complete (malformed ++ emptyObject)) ∧
      (setupSocket parseObject (fun _ _ => .returns) [malformed ++ emptyObject]).2.handled =
        messages parseObject (complete (malformed ++ emptyObject))) ↔
      Separate parseObject (fun _ _ => .returns) [malformed, emptyObject] ∧
        Separate parseObject (fun _ _ => .returns) [malformed ++ emptyObject] :=
  framing_iff parseObject _ _ rfl rfl (by decide) (by decide)

/-- The object is handled if it comes with the malformed line, and only then. -/
theorem framing_differs :
    Fits [malformed, emptyObject] ∧ Fits [malformed ++ emptyObject] ∧
      messages parseObject (complete (malformed ++ emptyObject)) = [] ∧
      (setupSocket parseObject (fun _ _ => .returns) [malformed, emptyObject]).2.handled = [] ∧
      (setupSocket parseObject (fun _ _ => .returns) [malformed ++ emptyObject]).2.handled = [.obj []] := by
  refine ⟨by decide, by decide, rfl, rfl, rfl⟩

end Malformed
end Aion.Stratum
