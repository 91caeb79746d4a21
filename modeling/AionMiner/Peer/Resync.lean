import AionMiner.Peer.Parser

/-! What the parser makes of well-formed messages, and of bytes before them. -/

namespace Aion.Peer
open Text Text.Utf8 Bits

section Steps
variable {magicInt : ℕ} {sha256d : List Byte → List Byte}

theorem advance_header_wait {buff : List Byte} (h : buff.length < 24) (c : Client) :
    advance magicInt sha256d .header buff c = some ⟨.header, buff, c⟩ := by
  rw [advance]
  exact if_pos h

theorem advance_header_magic {buff : List Byte} (h : 24 ≤ buff.length)
    (hmagic : leNat (buff.take 4) = magicInt) (c : Client) :
    advance magicInt sha256d .header buff c =
      advance magicInt sha256d
        (.payload (decode ((buff.drop 4).take 12)) (leNat ((buff.drop 16).take 4))
          (leNat ((buff.drop 20).take 4)))
        (buff.drop 24) c := by
  rw [advance]
  exact (if_neg (by omega)).trans (if_pos hmagic)

theorem advance_header_scan {buff : List Byte} (h : 24 ≤ buff.length)
    (hmagic : leNat (buff.take 4) ≠ magicInt) (c : Client) :
    advance magicInt sha256d .header buff c =
      (scan magicInt (buff.take 24)).map fun header =>
        ⟨.header, header, c.emit (.error (Stratum.literal "bad magic number from peer"))⟩ := by
  rw [advance]
  refine (if_neg (by omega)).trans ((if_neg hmagic).trans ?_)
  split
  · rename_i hscan
    rw [hscan]
    rfl
  · rename_i header hscan
    have hlt := length_scan hscan (by rw [List.take_take]; exact hmagic)
    rw [List.length_take] at hlt
    rw [hscan, advance_header_wait (by omega)]
    rfl

theorem advance_payload_wait {msgCommand : Str} {msgLength msgChecksum : ℕ} {buff : List Byte}
    (h : buff.length < msgLength) (c : Client) :
    advance magicInt sha256d (.payload msgCommand msgLength msgChecksum) buff c =
      some ⟨.payload msgCommand msgLength msgChecksum, buff, c⟩ := by
  rw [advance]
  exact if_pos h

theorem advance_payload {msgCommand : Str} {msgLength msgChecksum : ℕ} {buff : List Byte}
    (h : msgLength ≤ buff.length) (c : Client) :
    advance magicInt sha256d (.payload msgCommand msgLength msgChecksum) buff c =
      (readUInt32LE (sha256d (buff.take msgLength))).bind fun checksum =>
        if checksum = msgChecksum then
          (c.handleMessage msgCommand (buff.take msgLength)).bind fun c =>
            advance magicInt sha256d .header (buff.drop msgLength) c
        else some
          ⟨.header, [], c.emit (.error (Stratum.literal "bad payload - failed checksum"))⟩ := by
  have hempty : ([] : List Byte).length < 24 := Nat.succ_pos 23
  rw [advance]
  refine (if_neg (Nat.not_lt.mpr h)).trans ?_
  cases readUInt32LE (sha256d (buff.take msgLength)) with
  | none => rfl
  | some checksum =>
    dsimp only [Option.bind_some]
    split_ifs
    · cases c.handleMessage msgCommand (buff.take msgLength) with
      | none => rfl
      | some c => rfl
    · exact advance_header_wait hempty _

theorem advance_payload_checksum {msgCommand : Str} {msgLength msgChecksum : ℕ} {buff : List Byte}
    (h : msgLength ≤ buff.length)
    (hchecksum : readUInt32LE (sha256d (buff.take msgLength)) = some msgChecksum) (c : Client) :
    advance magicInt sha256d (.payload msgCommand msgLength msgChecksum) buff c =
      (c.handleMessage msgCommand (buff.take msgLength)).bind fun c =>
        advance magicInt sha256d .header (buff.drop msgLength) c := by
  rw [advance_payload h, hchecksum]
  exact if_pos rfl

end Steps

section Sync
variable {sha256d : List Byte → List Byte} {magic : List Byte}

def stream (magic : List Byte) (messages : List (Message sha256d)) : List Byte :=
  messages.flatMap (Message.bytes magic)

def Message.Whole (m : Message sha256d) : Prop := Peer.Whole (decode m.command) m.payload

/-- The parser is where a message starts or inside one, and what it has of the stream and what is to
come are the messages left. -/
def InSync (magic : List Byte) (rest : List (Message sha256d)) (future : List Byte)
    (s : State) : Prop :=
  match s.reading with
  | .header => s.buff.length < 24 ∧ s.buff ++ future = stream magic rest
  | .payload msgCommand msgLength msgChecksum =>
    s.buff.length < msgLength ∧ ∃ m rest', rest = m :: rest' ∧ msgCommand = decode m.command ∧
      msgLength = m.payload.length ∧ msgChecksum = leNat m.checksum ∧
      s.buff ++ future = m.payload ++ stream magic rest'

/-- Messages are handled up to one that throws, or up to one that is not all there. -/
def Reads (magic : List Byte) (rest : List (Message sha256d)) (future : List Byte) (c : Client) :
    Option State → Prop
  | none => ∃ m ∈ rest, ¬m.Whole
  | some s =>
    ∃ done rest', rest = done ++ rest' ∧ (∀ m ∈ done, m.Whole) ∧
      calls s.client = calls c ++ done.map Message.call ∧ InSync magic rest' future s

theorem reads_waiting {rest : List (Message sha256d)} {future : List Byte} {s : State}
    (h : InSync magic rest future s) : Reads magic rest future s.client (some s) :=
  ⟨[], rest, rfl, fun _ hm => absurd hm List.not_mem_nil, (List.append_nil _).symm, h⟩

/-- A message is handled in front of the others. -/
theorem reads_cons {m : Message sha256d} {rest : List (Message sha256d)} {future : List Byte}
    {c c' : Client} {result : Option State} (hwhole : m.Whole)
    (hcalls : calls c' = calls c ++ [m.call]) (h : Reads magic rest future c' result) :
    Reads magic (m :: rest) future c result := by
  cases result with
  | none =>
    obtain ⟨m', hm', hbad⟩ := h
    exact ⟨m', List.mem_cons_of_mem m hm', hbad⟩
  | some s =>
    obtain ⟨done, rest', rfl, hdone, hs, hsync⟩ := h
    refine ⟨m :: done, rest', rfl, List.forall_mem_cons.mpr ⟨hwhole, hdone⟩, ?_, hsync⟩
    rw [hs, hcalls, List.append_assoc]
    rfl

theorem readUInt32LE_sha256d (m : Message sha256d) :
    readUInt32LE (sha256d m.payload) = some (leNat m.checksum) := by
  have hlen : 4 ≤ (sha256d m.payload).length := by
    have htake := congrArg List.length m.take_sha256d
    rw [List.length_take, m.length_checksum] at htake
    omega
  rw [readUInt32LE_of_le hlen, m.take_sha256d]

theorem split_front {xs ys front rest : List Byte} (h : xs ++ ys = front ++ rest)
    (hlen : front.length ≤ xs.length) : ∃ more, xs = front ++ more ∧ more ++ ys = rest := by
  rcases List.append_eq_append_iff.mp h with ⟨more, hfront, hys⟩ | ⟨more, hxs, hrest⟩
  · rw [hfront, List.length_append] at hlen
    have hnil : more = [] := List.length_eq_zero_iff.mp (by omega)
    rw [hnil] at hfront hys
    exact ⟨[], by rw [hfront, List.append_nil, List.append_nil], hys⟩
  · exact ⟨more, hxs, hrest.symm⟩

theorem reads_payload {m : Message sha256d} {rest : List (Message sha256d)} {future : List Byte}
    (hrest : ∀ buff c, buff ++ future = stream magic rest →
      Reads magic rest future c (advance (leNat magic) sha256d .header buff c))
    {buff : List Byte} (h : buff ++ future = m.payload ++ stream magic rest) (c : Client) :
    Reads magic (m :: rest) future c
      (advance (leNat magic) sha256d
        (.payload (decode m.command) m.payload.length (leNat m.checksum)) buff c) := by
  by_cases hlen : buff.length < m.payload.length
  · rw [advance_payload_wait hlen]
    exact reads_waiting ⟨hlen, m, rest, rfl, rfl, rfl, rfl, h⟩
  · obtain ⟨more, rfl, hmore⟩ := split_front h (by omega)
    have hchecksum : readUInt32LE (sha256d ((m.payload ++ more).take m.payload.length)) =
        some (leNat m.checksum) := by
      rw [List.take_left, readUInt32LE_sha256d]
    rw [advance_payload_checksum (by omega) hchecksum, List.take_left, List.drop_left]
    cases hhandle : c.handleMessage (decode m.command) m.payload with
    | none =>
      refine ⟨m, List.mem_cons_self, fun hwhole => ?_⟩
      have hsome := (isSome_handleMessage c (decode m.command) m.payload).mpr hwhole
      rw [hhandle] at hsome
      exact Bool.false_ne_true hsome
    | some c' =>
      have hwhole : m.Whole := (isSome_handleMessage c _ _).mp (by rw [hhandle]; rfl)
      exact reads_cons hwhole (calls_handleMessage hhandle) (hrest more c' hmore)

theorem Message.length_header (hmagic : magic.length = 4) (m : Message sha256d) :
    (magic ++ m.command ++ m.length ++ m.checksum).length = 24 := by
  rw [List.length_append, List.length_append, List.length_append, hmagic, m.length_command,
    m.length_length, m.length_checksum]

/-- The fields of a header are where the parser looks for them. -/
theorem advance_message (hmagic : magic.length = 4) (m : Message sha256d) (more : List Byte)
    (c : Client) :
    advance (leNat magic) sha256d .header (magic ++ m.command ++ m.length ++ m.checksum ++ more) c =
      advance (leNat magic) sha256d
        (.payload (decode m.command) m.payload.length (leNat m.checksum)) more c := by
  have htake : (magic ++ m.command ++ m.length ++ m.checksum ++ more).take 4 = magic := by
    simp only [List.append_assoc]
    exact List.take_left' hmagic
  have hcommand : ((magic ++ m.command ++ m.length ++ m.checksum ++ more).drop 4).take 12 =
      m.command := by
    simp only [List.append_assoc]
    rw [List.drop_left' hmagic, List.take_left' m.length_command]
  have hlength : ((magic ++ m.command ++ m.length ++ m.checksum ++ more).drop 16).take 4 =
      m.length := by
    rw [List.append_assoc, List.append_assoc (magic ++ m.command), List.drop_left'
      (by rw [List.length_append, hmagic, m.length_command]), List.take_left' m.length_length]
  have hchecksum : ((magic ++ m.command ++ m.length ++ m.checksum ++ more).drop 20).take 4 =
      m.checksum := by
    rw [List.append_assoc, List.drop_left' (by
      rw [List.length_append, List.length_append, hmagic, m.length_command, m.length_length]),
      List.take_left' m.length_checksum]
  have hlen : 24 ≤ (magic ++ m.command ++ m.length ++ m.checksum ++ more).length := by
    rw [List.length_append, m.length_header hmagic]
    exact Nat.le_add_right 24 more.length
  rw [advance_header_magic hlen (by rw [htake]), hcommand, hlength, hchecksum, m.leNat_length,
    List.drop_left' (m.length_header hmagic)]

theorem reads_header (hmagic : magic.length = 4) {rest : List (Message sha256d)}
    {future : List Byte} (buff : List Byte) (c : Client) (h : buff ++ future = stream magic rest) :
    Reads magic rest future c (advance (leNat magic) sha256d .header buff c) := by
  induction rest generalizing buff c with
  | nil =>
    obtain ⟨rfl, rfl⟩ := List.append_eq_nil_iff.mp h
    have hempty : ([] : List Byte).length < 24 := Nat.succ_pos 23
    rw [advance_header_wait hempty]
    exact reads_waiting ⟨hempty, rfl⟩
  | cons m rest ih =>
    by_cases hlen : buff.length < 24
    · rw [advance_header_wait hlen]
      exact reads_waiting ⟨hlen, h⟩
    · rw [stream, List.flatMap_cons, Message.bytes, List.append_assoc] at h
      obtain ⟨more, rfl, hmore⟩ := split_front h (by
        rw [m.length_header hmagic]
        exact Nat.not_lt.mp hlen)
      rw [advance_message hmagic]
      exact reads_payload ih hmore c

/-- The messages handled by one event come in front of those that the next events handle. -/
theorem reads_append {done rest : List (Message sha256d)} {future : List Byte} {c c' : Client}
    {result : Option State} (hdone : ∀ m ∈ done, m.Whole)
    (hcalls : calls c' = calls c ++ done.map Message.call) (h : Reads magic rest future c' result) :
    Reads magic (done ++ rest) future c result := by
  cases result with
  | none =>
    obtain ⟨m, hm, hbad⟩ := h
    exact ⟨m, List.mem_append_right done hm, hbad⟩
  | some s =>
    obtain ⟨more, rest', rfl, hmore, hs, hsync⟩ := h
    refine ⟨done ++ more, rest', (List.append_assoc done more rest').symm, ?_, ?_, hsync⟩
    · exact List.forall_mem_append.mpr ⟨hdone, hmore⟩
    · rw [hs, hcalls, List.map_append, List.append_assoc]

theorem reads_onData (hmagic : magic.length = 4) {rest : List (Message sha256d)}
    {d future : List Byte} {s : State} (h : InSync magic rest (d ++ future) s) :
    Reads magic rest future s.client (onData (leNat magic) sha256d (some s) d) := by
  rcases s with ⟨_ | ⟨msgCommand, msgLength, msgChecksum⟩, buff, c⟩
  · apply reads_header hmagic
    rw [List.append_assoc]
    exact h.2
  · obtain ⟨-, m, rest, rfl, rfl, rfl, rfl, hbuff⟩ := h
    apply reads_payload (fun buff c => reads_header hmagic buff c)
    rw [List.append_assoc]
    exact hbuff

theorem foldl_onData_none (magicInt : ℕ) (sha256d : List Byte → List Byte)
    (chunks : List (List Byte)) : chunks.foldl (onData magicInt sha256d) none = none := by
  induction chunks with
  | nil => rfl
  | cons d chunks ih => exact ih

theorem reads_chunks (hmagic : magic.length = 4) {rest : List (Message sha256d)}
    {chunks : List (List Byte)} {s : State} (h : InSync magic rest chunks.flatten s) :
    Reads magic rest [] s.client (chunks.foldl (onData (leNat magic) sha256d) (some s)) := by
  induction chunks generalizing rest s with
  | nil => exact reads_waiting h
  | cons d chunks ih =>
    have hstep := reads_onData hmagic h
    rw [List.foldl_cons]
    cases hs : onData (leNat magic) sha256d (some s) d with
    | none =>
      rw [hs] at hstep
      rw [foldl_onData_none]
      exact hstep
    | some s' =>
      rw [hs] at hstep
      obtain ⟨done, rest', rfl, hdone, hcalls, hsync⟩ := hstep
      exact reads_append hdone hcalls (ih hsync)

theorem length_bytes (hmagic : magic.length = 4) (m : Message sha256d) :
    (m.bytes magic).length = 24 + m.payload.length := by
  rw [Message.bytes, List.length_append, m.length_header hmagic]

/-- When the stream ends, no message is left. -/
theorem inSync_end (hmagic : magic.length = 4) {rest : List (Message sha256d)} {s : State}
    (h : InSync magic rest [] s) : rest = [] := by
  rcases s with ⟨_ | ⟨msgCommand, msgLength, msgChecksum⟩, buff, c⟩
  · obtain ⟨hlt, hbuff⟩ := h
    rcases rest with _ | ⟨m, rest⟩
    · rfl
    · have hlen : (buff ++ []).length = (stream magic (m :: rest)).length :=
        congrArg List.length hbuff
      rw [List.append_nil, stream, List.flatMap_cons, List.length_append,
        length_bytes hmagic] at hlen
      have hshort : buff.length < 24 := hlt
      omega
  · obtain ⟨hlt, m, rest, rfl, rfl, rfl, rfl, hbuff⟩ := h
    have hlen : (buff ++ []).length = (m.payload ++ stream magic rest).length :=
      congrArg List.length hbuff
    rw [List.append_nil, List.length_append] at hlen
    have hshort : buff.length < m.payload.length := hlt
    omega

end Sync
end Aion.Peer
