import AionMiner.Peer.Resync

/-! Bytes before the first message: the scan for the magic number looks at 24 bytes, and loses what
the event that completes them brought beyond. -/

namespace Aion.Peer
open Text Text.Utf8 Bits

section Scan
variable {magic : List Byte}

theorem leNat_take_eq_iff (hmagic : magic.length = 4) {xs : List Byte} (hlen : 4 ≤ xs.length) :
    leNat (xs.take 4) = leNat magic ↔ magic <+: xs := by
  rw [List.prefix_iff_eq_take, hmagic]
  constructor
  · intro h
    apply leNat_inj _ h.symm
    rw [hmagic, List.length_take, Nat.min_eq_left hlen]
  · intro h
    rw [← h]

theorem scan_short (magicInt : ℕ) {header : List Byte} (h : header.length < 4) :
    scan magicInt header = none := by
  rcases header with _ | ⟨b, header⟩
  · rfl
  · rw [scan]
    exact if_pos h

theorem scan_magic (hmagic : magic.length = 4) {header : List Byte} (h : magic <+: header) :
    scan (leNat magic) header = some header := by
  have hlen : 4 ≤ header.length := hmagic ▸ h.length_le
  rcases header with _ | ⟨b, header⟩
  · exact absurd hlen (Nat.not_succ_le_zero 3)
  · rw [scan, if_neg (Nat.not_lt.mpr hlen)]
    exact if_pos ((leNat_take_eq_iff hmagic hlen).mpr h)

theorem scan_drop (hmagic : magic.length = 4) {header : List Byte} {n : ℕ}
    (h : ∀ j < n, ¬magic <+: header.drop j) :
    scan (leNat magic) header = scan (leNat magic) (header.drop n) := by
  induction n generalizing header with
  | zero => rfl
  | succ n ih =>
    rcases header with _ | ⟨b, header⟩
    · rfl
    · rw [List.drop_succ_cons]
      by_cases hlen : (b :: header).length < 4
      · rw [scan_short _ hlen, scan_short]
        rw [List.length_cons] at hlen
        rw [List.length_drop]
        omega
      · have hne := (leNat_take_eq_iff hmagic (Nat.not_lt.mp hlen)).not.mpr (h 0 (Nat.succ_pos n))
        rw [scan, if_neg hlen, if_neg hne]
        exact ih fun j hj => h (j + 1) (Nat.succ_lt_succ hj)

end Scan

section Events
variable (magicInt : ℕ) (sha256d : List Byte → List Byte)

/-- The event that completes the first `n` bytes. -/
theorem exists_completing {chunks : List (List Byte)} {n : ℕ} (hn : 0 < n)
    (h : n ≤ chunks.flatten.length) : ∃ before d after, chunks = before ++ d :: after ∧
    before.flatten.length < n ∧
      n ≤ (before.flatten ++ d).length := by
  induction chunks generalizing n with
  | nil => exact absurd h (Nat.not_le.mpr hn)
  | cons d chunks ih =>
    rw [List.flatten_cons, List.length_append] at h
    by_cases hd : n ≤ d.length
    · exact ⟨[], d, chunks, rfl, hn, hd⟩
    · obtain ⟨before, d', after, rfl, hlt, hle⟩ := ih (n := n - d.length) (by omega) (by omega)
      refine ⟨d :: before, d', after, rfl, ?_, ?_⟩
      · rw [List.flatten_cons, List.length_append]
        omega
      · rw [List.flatten_cons, List.append_assoc, List.length_append]
        omega

theorem exists_take_iff {before after : List (List Byte)} {d : List Byte} {n : ℕ}
    (hbefore : before.flatten.length < n) (hd : n ≤ (before.flatten ++ d).length) :
    (∃ k, ((before ++ d :: after).take k).flatten.length = n) ↔
      (before.flatten ++ d).length = n := by
  constructor
  · rintro ⟨k, hk⟩
    rcases Nat.lt_or_ge before.length k with hlt | hle
    · obtain ⟨i, rfl⟩ := Nat.exists_eq_add_of_lt hlt
      rw [Nat.add_assoc, List.take_length_add_append, List.take_succ_cons, List.flatten_append,
        List.flatten_cons, ← List.append_assoc, List.length_append] at hk
      omega
    · rw [List.take_append_of_le_length hle] at hk
      have hsplit := congrArg (fun l => l.flatten.length) (List.take_append_drop k before)
      simp only [List.flatten_append, List.length_append] at hsplit
      omega
  · intro h
    refine ⟨before.length + 1, ?_⟩
    rw [List.take_length_add_append, List.take_succ_cons, List.take_zero, List.flatten_append,
      List.flatten_cons, List.flatten_nil, List.append_nil]
    exact h

theorem foldl_onData_wait {chunks : List (List Byte)} {buff : List Byte}
    (h : (buff ++ chunks.flatten).length < 24) (c : Client) :
    chunks.foldl (onData magicInt sha256d) (some ⟨.header, buff, c⟩) =
      some ⟨.header, buff ++ chunks.flatten, c⟩ := by
  induction chunks generalizing buff with
  | nil => rw [List.foldl_nil, List.flatten_nil, List.append_nil]
  | cons d chunks ih =>
    rw [List.flatten_cons, ← List.append_assoc] at h ⊢
    have hd : (buff ++ d).length < 24 := by
      rw [List.length_append] at h
      exact Nat.lt_of_le_of_lt (Nat.le_add_right _ _) h
    rw [List.foldl_cons, ← ih h]
    exact congrArg (chunks.foldl (onData magicInt sha256d)) (advance_header_wait hd c)

end Events

section Bytes
variable {magicInt : ℕ} {sha256d : List Byte → List Byte}

def callBytes (c : Client) : ℕ := ((calls c).map fun call => 24 + call.2.length).sum

/-- The bytes that the calls were made for, and those that are held. -/
def State.bytes (s : State) : ℕ :=
  callBytes s.client + s.buff.length + (match s.reading with | .header => 0 | .payload _ _ _ => 24)

theorem callBytes_error (c : Client) (text : Str) :
    callBytes (c.emit (.error text)) = callBytes c := by
  rw [callBytes, calls_emit]
  exact congrArg (fun l => (List.map _ l).sum) (List.append_nil (calls c))

theorem callBytes_handleMessage {c c' : Client} {msgCommand : Str} {payload : List Byte}
    (h : c.handleMessage msgCommand payload = some c') :
    callBytes c' = callBytes c + (24 + payload.length) := by
  rw [callBytes, calls_handleMessage h, List.map_append, List.sum_append]
  rfl

/-- Bytes are lost and never made up. -/
theorem advance_bytes {reading : Reading} {buff : List Byte} {c : Client} {s : State}
    (h : advance magicInt sha256d reading buff c = some s) :
    s.bytes ≤ (State.mk reading buff c).bytes := by
  induction reading, buff, c using advance.induct magicInt sha256d with
  | case1 buff c hlen =>
    rw [advance_header_wait hlen] at h
    cases h
    exact le_rfl
  | case2 buff c hlen hmagic ih =>
    rw [advance_header_magic (Nat.not_lt.mp hlen) hmagic] at h
    apply (ih h).trans
    simp only [State.bytes, List.length_drop]
    omega
  | case3 buff c hlen hmagic hscan =>
    rw [advance_header_scan (Nat.not_lt.mp hlen) hmagic, hscan] at h
    cases h
  | case4 buff c hlen hmagic header hscan _ =>
    rw [advance_header_scan (Nat.not_lt.mp hlen) hmagic, hscan] at h
    cases h
    have hle := length_scan_le hscan
    rw [List.length_take] at hle
    simp only [State.bytes, callBytes_error]
    omega
  | case5 buff c msgCommand msgLength msgChecksum hlen =>
    rw [advance_payload_wait hlen] at h
    cases h
    exact le_rfl
  | case6 buff c msgCommand msgLength msgChecksum hlen hread =>
    rw [advance_payload (Nat.not_lt.mp hlen), hread] at h
    cases h
  | case7 buff c msgCommand msgLength hlen checksum hread hhandle =>
    rw [advance_payload_checksum (Nat.not_lt.mp hlen) hread, hhandle] at h
    cases h
  | case8 buff c msgCommand msgLength hlen checksum hread c' hhandle ih =>
    rw [advance_payload_checksum (Nat.not_lt.mp hlen) hread, hhandle] at h
    apply (ih h).trans
    simp only [State.bytes, callBytes_handleMessage hhandle, List.length_drop, List.length_take]
    omega
  | case9 buff c msgCommand msgLength msgChecksum hlen checksum hread hne _ =>
    rw [advance_payload (Nat.not_lt.mp hlen), hread, Option.bind_some, if_neg hne] at h
    cases h
    simp only [State.bytes, callBytes_error, List.length_nil]
    omega

theorem foldl_onData_bytes {chunks : List (List Byte)} {s s' : State}
    (h : chunks.foldl (onData magicInt sha256d) (some s) = some s') :
    s'.bytes ≤ s.bytes + chunks.flatten.length := by
  induction chunks generalizing s with
  | nil =>
    cases h
    exact Nat.le_add_right _ _
  | cons d chunks ih =>
    rw [List.foldl_cons] at h
    cases hs : onData magicInt sha256d (some s) d with
    | none =>
      rw [hs, foldl_onData_none] at h
      cases h
    | some s₁ =>
      rw [hs] at h
      have hrest := ih h
      have hstep := advance_bytes (s := s₁) hs
      have hadd : (State.mk s.reading (s.buff ++ d) s.client).bytes = s.bytes + d.length := by
        simp only [State.bytes, List.length_append]
        omega
      rw [List.flatten_cons, List.length_append]
      omega

theorem sum_bytes {magic : List Byte} (hmagic : magic.length = 4)
    (messages : List (Message sha256d)) :
    ((messages.map Message.call).map fun call => 24 + call.2.length).sum =
      (stream magic messages).length := by
  rw [stream, List.length_flatMap, List.map_map]
  apply congrArg
  exact List.map_congr_left fun m _ => (length_bytes hmagic m).symm

/-- The calls for some messages are made of no fewer bytes than the messages have. -/
theorem length_stream_le {magic : List Byte} (hmagic : magic.length = 4)
    {messages : List (Message sha256d)} {chunks : List (List Byte)} {s s' : State}
    (h : chunks.foldl (onData magicInt sha256d) (some s) = some s')
    (hcalls : calls s'.client = messages.map Message.call) :
    (stream magic messages).length ≤ s.bytes + chunks.flatten.length := by
  have hsum := sum_bytes hmagic messages
  rw [← hcalls] at hsum
  change callBytes s'.client = _ at hsum
  rw [← hsum]
  refine le_trans ?_ (foldl_onData_bytes h)
  rw [State.bytes, Nat.add_assoc]
  exact Nat.le_add_right _ _

end Bytes

section Resync
variable {sha256d : List Byte → List Byte} {magic garbage : List Byte}
  {messages : List (Message sha256d)} {chunks : List (List Byte)}

/-- The magic number starts nowhere before the first message. -/
def Clean (magic garbage : List Byte) (messages : List (Message sha256d)) : Prop :=
  ∀ j < garbage.length, ¬magic <+: (garbage ++ stream magic messages).drop j

theorem magic_prefix_stream (h : stream magic messages ≠ []) : magic <+: stream magic messages := by
  rcases messages with _ | ⟨m, messages⟩
  · exact absurd rfl h
  · rw [stream, List.flatMap_cons, Message.bytes]
    simp only [List.append_assoc]
    exact List.prefix_append _ _

/-- Where no end of the magic number is its beginning, the bytes before the messages are without
it. -/
theorem clean_of_not_infix (hborder : ∀ k < magic.length, 0 < k → ¬magic.drop k <+: magic)
    (h : ¬magic <:+: garbage) : Clean magic garbage messages := by
  intro j hj hstart
  rw [List.drop_append_of_le_length (Nat.le_of_lt hj)] at hstart
  obtain ⟨after, hafter⟩ := hstart
  have hdrop : 0 < (garbage.drop j).length := by
    rw [List.length_drop]
    omega
  rcases List.append_eq_append_iff.mp hafter with ⟨more, hmore, -⟩ | ⟨last, hlast, hstream⟩
  · have hinfix := (List.drop_suffix j garbage).isInfix
    rw [hmore] at hinfix
    exact h ((List.prefix_append magic more).isInfix.trans hinfix)
  · by_cases hnil : last = []
    · rw [hnil, List.append_nil] at hlast
      exact h (hlast ▸ (List.drop_suffix j garbage).isInfix)
    · have hpos := List.length_pos_iff.mpr hnil
      have hmagic : magic <+: stream magic messages := by
        apply magic_prefix_stream
        rw [hstream]
        exact List.append_ne_nil_of_left_ne_nil hnil after
      have hlength := congrArg List.length hlast
      rw [List.length_append] at hlength
      have hend : magic.drop (garbage.drop j).length = last :=
        (congrArg (List.drop _) hlast).trans List.drop_left
      apply hborder (garbage.drop j).length (by omega) hdrop
      rw [hend]
      exact List.prefix_of_prefix_length_le ⟨after, hstream.symm⟩ hmagic (by omega)

/-- Nothing is thrown, and `HandleMessage` is called for the messages. -/
def Resynchronizes (magic : List Byte) (messages : List (Message sha256d))
    (chunks : List (List Byte)) : Prop :=
  ∃ s, setupMessageParser (leNat magic) sha256d chunks = some s ∧ calls s.client =
    messages.map Message.call

theorem setupMessageParser_eq (magicInt : ℕ) (sha256d : List Byte → List Byte)
    (chunks : List (List Byte)) : setupMessageParser magicInt sha256d chunks =
      chunks.foldl (onData magicInt sha256d) (some ⟨.header, [], ⟨[], false⟩⟩) := by
  have hempty : ([] : List Byte).length < 24 := Nat.succ_pos 23
  rw [setupMessageParser, advance_header_wait hempty]

theorem inSync_iff (hmagic : magic.length = 4) {s : State}
    (h : InSync magic messages chunks.flatten s) (hcalls : calls s.client = []) :
    (∃ s', chunks.foldl (onData (leNat magic) sha256d) (some s) = some s' ∧
      calls s'.client = messages.map Message.call) ↔ ∀ m ∈ messages, m.Whole := by
  have hreads := reads_chunks hmagic h
  cases hs : chunks.foldl (onData (leNat magic) sha256d) (some s) with
  | none =>
    rw [hs] at hreads
    obtain ⟨m, hm, hbad⟩ := hreads
    refine iff_of_false ?_ fun hall => hbad (hall m hm)
    rintro ⟨s', hs', -⟩
    cases hs'
  | some s' =>
    rw [hs] at hreads
    obtain ⟨done, rest, rfl, hdone, hcalls', hsync⟩ := hreads
    rw [inSync_end hmagic hsync, List.append_nil]
    rw [hcalls, List.nil_append] at hcalls'
    exact iff_of_true ⟨s', rfl, hcalls'⟩ hdone

/-- The event that completes the first 24 bytes, with other bytes before the messages. -/
theorem onData_garbage (hmagic : magic.length = 4) (hclean : Clean magic garbage messages)
    (hne : garbage ≠ []) {buff d future : List Byte}
    (hall : buff ++ d ++ future = garbage ++ stream magic messages) (hlen : 24 ≤ (buff ++ d).length)
    (c : Client) : onData (leNat magic) sha256d (some ⟨.header, buff, c⟩) d =
      if garbage.length ≤ 20 then
        some ⟨.header, (stream magic messages).take (24 - garbage.length),
          c.emit (.error (Stratum.literal "bad magic number from peer"))⟩
      else none := by
  have htake : (buff ++ d).take 24 = (garbage ++ stream magic messages).take 24 := by
    rw [← hall, List.take_append_of_le_length hlen]
  have hprefix : ∀ j < garbage.length, ¬magic <+: ((buff ++ d).take 24).drop j := by
    intro j hj hstart
    rw [htake, List.drop_take] at hstart
    exact hclean j hj (hstart.trans (List.take_prefix _ _))
  have hfirst : leNat ((buff ++ d).take 4) ≠ leNat magic := by
    have hzero := hprefix 0 (List.length_pos_iff.mpr hne)
    rw [List.drop_zero, ← leNat_take_eq_iff hmagic (by rw [List.length_take]; omega),
      List.take_take] at hzero
    exact hzero
  refine (advance_header_scan hlen hfirst c).trans ?_
  split_ifs with hshort
  · have hstart : magic <+: (stream magic messages).take (24 - garbage.length) := by
      rw [List.prefix_take_iff, hmagic]
      refine ⟨magic_prefix_stream fun hnil => ?_, by omega⟩
      have hlength := congrArg List.length hall
      rw [List.length_append, hnil, List.append_nil] at hlength
      omega
    rw [scan_drop hmagic hprefix, htake, List.drop_take, List.drop_left, scan_magic hmagic hstart]
    rfl
  · rw [scan_drop hmagic (n := 21) fun j hj => hprefix j (by omega), scan_short]
    · rfl
    · rw [List.length_drop, List.length_take]
      omega

/-- With other bytes before them, the messages are read if the first 24 bytes hold the start of one,
or are missing, and an event ends with them. -/
theorem resynchronizes_garbage (hmagic : magic.length = 4) (hclean : Clean magic garbage messages)
    (hne : garbage ≠ []) (hall : chunks.flatten = garbage ++ stream magic messages)
    (hlen : 24 ≤ chunks.flatten.length) : Resynchronizes magic messages chunks ↔
      (garbage.length ≤ 20 ∧ ∃ k, (chunks.take k).flatten.length = 24) ∧
      ∀ m ∈ messages, m.Whole := by
  obtain ⟨before, d, after, rfl, hbefore, hd⟩ := exists_completing (Nat.succ_pos 23) hlen
  have hcut : before.flatten ++ d ++ after.flatten = garbage ++ stream magic messages := by
    rw [← hall, List.flatten_append, List.flatten_cons, List.append_assoc]
  have hstep := onData_garbage hmagic hclean hne hcut hd ⟨[], false⟩
  rw [Resynchronizes, setupMessageParser_eq, List.foldl_append, List.foldl_cons,
    foldl_onData_wait _ _ (by rw [List.nil_append]; exact hbefore), List.nil_append, hstep,
    exists_take_iff hbefore hd]
  by_cases hshort : garbage.length ≤ 20
  · rw [if_pos hshort, and_iff_right hshort]
    by_cases hexact : (before.flatten ++ d).length = 24
    · rw [and_iff_right hexact]
      apply inSync_iff hmagic _ rfl
      obtain ⟨more, hmore, hstream⟩ := split_front hcut (by omega)
      have hlength : 24 = garbage.length + more.length := by
        rw [← hexact, hmore, List.length_append]
      have hpos := List.length_pos_iff.mpr hne
      have htake : (stream magic messages).take (24 - garbage.length) = more := by
        rw [← hstream]
        exact List.take_left' (by omega)
      refine ⟨?_, ?_⟩
      · dsimp only
        rw [htake]
        omega
      · dsimp only
        rw [htake]
        exact hstream
    · refine iff_of_false ?_ fun h => hexact h.1
      rintro ⟨s, hs, hcalls⟩
      -- the calls would be made of more bytes than are left
      have hbytes := length_stream_le hmagic hs hcalls
      have hlength : (before.flatten ++ d).length + after.flatten.length =
          garbage.length + (stream magic messages).length := by
        rw [← List.length_append, hcut, List.length_append]
      have hstart : callBytes
          (Client.emit ⟨[], false⟩ (.error (Stratum.literal "bad magic number from peer"))) = 0 :=
        callBytes_error _ _
      simp only [State.bytes, hstart, List.length_take] at hbytes
      omega
  · rw [if_neg hshort, foldl_onData_none]
    refine iff_of_false ?_ fun h => hshort h.1.1
    rintro ⟨s, hs, -⟩
    cases hs

/-- The parser resynchronizes where no byte comes before the messages, or fewer than 24 bytes come
in all, or a message starts within 21 bytes and an event ends with the first 24; and no inventory
may be cut short. -/
theorem resynchronizes_iff (hmagic : magic.length = 4) (hclean : Clean magic garbage messages)
    (hall : chunks.flatten = garbage ++ stream magic messages) :
    Resynchronizes magic messages chunks ↔
      (garbage = [] ∨ chunks.flatten.length < 24 ∨
          garbage.length ≤ 20 ∧ ∃ k, (chunks.take k).flatten.length = 24) ∧
        ∀ m ∈ messages, m.Whole := by
  by_cases hne : garbage = []
  · rw [and_iff_right (Or.inl hne), Resynchronizes, setupMessageParser_eq]
    rw [hne, List.nil_append] at hall
    exact inSync_iff hmagic ⟨Nat.succ_pos 23, (List.nil_append _).trans hall⟩ rfl
  · rw [or_iff_right hne]
    by_cases hlen : chunks.flatten.length < 24
    · have hnil : messages = [] := by
        rcases messages with _ | ⟨m, messages⟩
        · rfl
        · rw [hall, stream, List.flatMap_cons, List.length_append, List.length_append,
            length_bytes hmagic] at hlen
          omega
      rw [Resynchronizes, setupMessageParser_eq,
        foldl_onData_wait _ _ (by rw [List.nil_append]; exact hlen)]
      rw [hnil]
      refine iff_of_true ⟨_, rfl, rfl⟩ ⟨Or.inl hlen, fun m hm => absurd hm List.not_mem_nil⟩
    · rw [or_iff_right hlen]
      exact resynchronizes_garbage hmagic hclean hne hall (Nat.not_lt.mp hlen)

end Resync

section Verack

def peerMagic : List Byte := [0xf9, 0xbe, 0xb4, 0xd9]

/-- The first bytes of the double SHA-256 of nothing. -/
def emptySha256d (_ : List Byte) : List Byte := [0x5d, 0xf6, 0xe0, 0xe2, 0x76, 0x13, 0x59, 0xd3]

/-- The message `verack`, whose payload is empty. -/
def verackMessage : Message emptySha256d where
  command := [0x76, 0x65, 0x72, 0x61, 0x63, 0x6b, 0, 0, 0, 0, 0, 0]
  length := [0, 0, 0, 0]
  checksum := [0x5d, 0xf6, 0xe0, 0xe2]
  payload := []
  length_command := rfl
  length_length := rfl
  leNat_length := by decide
  length_checksum := rfl
  take_sha256d := rfl

theorem clean_verack : Clean peerMagic [0] [verackMessage] := by
  apply clean_of_not_infix
  · decide
  · decide

theorem whole_verack : verackMessage.Whole :=
  fun h => absurd h (show decode verackMessage.command ≠ command "inv" by decide)

/-- A byte in front of the message, and 24 bytes and one byte in the events. -/
theorem resynchronizes_verack :
    Resynchronizes peerMagic [verackMessage]
      [(0 :: stream peerMagic [verackMessage]).take 24,
        (0 :: stream peerMagic [verackMessage]).drop 24] :=
  (resynchronizes_iff rfl clean_verack rfl).mpr
    ⟨Or.inr (Or.inr ⟨by decide, 1, rfl⟩), fun m hm => List.mem_singleton.mp hm ▸ whole_verack⟩

/-- The same bytes in one event. -/
theorem one_event :
    Clean peerMagic [0] [verackMessage] ∧
      ¬Resynchronizes peerMagic [verackMessage] [0 :: stream peerMagic [verackMessage]] := by
  refine ⟨clean_verack, fun h => ?_⟩
  have hmagic : peerMagic.length = 4 := rfl
  obtain ⟨⟨-, k, hk⟩, -⟩ :=
    (resynchronizes_garbage hmagic clean_verack (List.cons_ne_nil _ _) rfl (by decide)).mp h
  rcases k with _ | k
  · cases hk
  · rw [List.take_succ_cons, List.take_nil] at hk
    cases hk

end Verack
end Aion.Peer
