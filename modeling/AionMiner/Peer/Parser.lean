import AionMiner.Bits.Little
import AionMiner.Stratum.Values
import AionMiner.Text.Utf8

/-! The messages of a peer: `SetupMessageParser` and `HandleMessage` of `peer.js`. -/

namespace Aion.Peer
open Text Text.Utf8 Bits
open Stratum (literal)

section Code

/-- Reading beyond the end of a buffer throws. -/
def readUInt32LE (buff : List Byte) : Option ℕ :=
  if 4 ≤ buff.length then some (leNat (buff.take 4)) else none

def readUInt16LE (buff : List Byte) : Option ℕ :=
  if 2 ≤ buff.length then some (leNat (buff.take 2)) else none

inductive Event where
  | peerMessage (command : Str) (payload : List Byte)
  | blockFound (block : Str)
  | connected
  | error (text : Str)

structure Client where
  emitted : List Event
  verack : Bool

def Client.emit (c : Client) (e : Event) : Client := { c with emitted := c.emitted ++ [e] }

def command (s : String) : Str := literal s ++ List.replicate (12 - s.length) 0

def Client.inventory (c : Client) : ℕ → List Byte → Option Client
  | 0, _ => some c
  | count + 1, payload =>
    (readUInt32LE payload).bind fun code =>
      (if code = 2 then c.emit (.blockFound (hexStr ((payload.drop 4).take 32))) else c).inventory
        count (payload.drop 36)

def Client.handleInv (c : Client) (payload : List Byte) : Option Client :=
  match payload with
  | [] => none
  | count :: payload =>
    if 0xfd ≤ count.toNat then
      (readUInt16LE payload).bind fun count => c.inventory count (payload.drop 2)
    else c.inventory count.toNat payload

def Client.handleMessage (c : Client) (msgCommand : Str) (payload : List Byte) : Option Client :=
  let c := c.emit (.peerMessage msgCommand payload)
  if msgCommand = command "inv" then c.handleInv payload
  else if msgCommand = command "verack" then
    some (if c.verack then c else { c.emit .connected with verack := true })
  else some c

/-- What is being read: 24 bytes, or so many bytes of a payload. -/
inductive Reading where
  | header
  | payload (msgCommand : Str) (msgLength msgChecksum : ℕ)

/-- A parser that waits for data. -/
structure State where
  reading : Reading
  buff : List Byte
  client : Client

/-- The scan of a header for the magic number. -/
def scan (magicInt : ℕ) : List Byte → Option (List Byte)
  | [] => none
  | b :: header =>
    if (b :: header).length < 4 then none
    else if leNat ((b :: header).take 4) = magicInt then some (b :: header)
    else scan magicInt header

theorem length_scan_le {magicInt : ℕ} {header rest : List Byte}
    (h : scan magicInt header = some rest) : rest.length ≤ header.length := by
  induction header with
  | nil => cases h
  | cons b header ih =>
    rw [scan] at h
    split_ifs at h
    · cases h
      exact le_rfl
    · exact (ih h).trans (Nat.le_succ _)

theorem length_scan {magicInt : ℕ} {header rest : List Byte} (h : scan magicInt header = some rest)
    (hne : leNat (header.take 4) ≠ magicInt) : rest.length < header.length := by
  rcases header with _ | ⟨b, header⟩
  · cases h
  · rw [scan, if_neg hne] at h
    split_ifs at h
    exact Nat.lt_succ_of_le (length_scan_le h)

variable (magicInt : ℕ) (sha256d : List Byte → List Byte)

/-- `readFlowingBytes` with its callbacks, until data is missing. -/
def advance (reading : Reading) (buff : List Byte) (c : Client) : Option State :=
  match reading with
  | .header =>
    if buff.length < 24 then some ⟨.header, buff, c⟩
    else if leNat (buff.take 4) = magicInt then
      advance
        (.payload (decode ((buff.drop 4).take 12)) (leNat ((buff.drop 16).take 4))
          (leNat ((buff.drop 20).take 4)))
        (buff.drop 24) c
    else
      match _hscan : scan magicInt (buff.take 24) with
      | none => none
      -- the bytes behind the header are lost
      | some header =>
        advance .header header (c.emit (.error (literal "bad magic number from peer")))
  | .payload msgCommand msgLength msgChecksum =>
    if buff.length < msgLength then some ⟨.payload msgCommand msgLength msgChecksum, buff, c⟩
    else
      match readUInt32LE (sha256d (buff.take msgLength)) with
      | none => none
      | some checksum =>
        if checksum = msgChecksum then
          match c.handleMessage msgCommand (buff.take msgLength) with
          | none => none
          | some c => advance .header (buff.drop msgLength) c
        else advance .header [] (c.emit (.error (literal "bad payload - failed checksum")))
termination_by 2 * buff.length + (match reading with | .header => 0 | .payload _ _ _ => 1)
decreasing_by
  · simp only [List.length_drop]
    omega
  · have hlt := length_scan _hscan (by rw [List.take_take]; assumption)
    rw [List.length_take] at hlt
    omega
  · simp only [List.length_drop]
    omega
  · simp only [List.length_nil]
    omega

def onData (s : Option State) (d : List Byte) : Option State :=
  s.bind fun s => advance magicInt sha256d s.reading (s.buff ++ d) s.client

def setupMessageParser (chunks : List (List Byte)) : Option State :=
  chunks.foldl (onData magicInt sha256d) (advance magicInt sha256d .header [] ⟨[], false⟩)

end Code

section Messages

/-- A well-formed message behind its magic number. -/
structure Message (sha256d : List Byte → List Byte) where
  command : List Byte
  length : List Byte
  checksum : List Byte
  payload : List Byte
  length_command : command.length = 12
  length_length : length.length = 4
  leNat_length : leNat length = payload.length
  length_checksum : checksum.length = 4
  take_sha256d : (sha256d payload).take 4 = checksum

variable {sha256d : List Byte → List Byte}

def Message.bytes (magic : List Byte) (m : Message sha256d) : List Byte :=
  magic ++ m.command ++ m.length ++ m.checksum ++ m.payload

def Message.call (m : Message sha256d) : Str × List Byte := (decode m.command, m.payload)

def calls (c : Client) : List (Str × List Byte) :=
  c.emitted.filterMap fun e =>
    match e with
    | .peerMessage msgCommand payload => some (msgCommand, payload)
    | _ => none

/-- Where a payload holds `count` entries of an inventory, the hash of the last one may be cut. -/
def Entries (count : ℕ) (payload : List Byte) : Prop := ∀ i < count, 36 * i + 4 ≤ payload.length

def Inventory : List Byte → Prop
  | [] => False
  | count :: payload =>
    if 0xfd ≤ count.toNat then
      2 ≤ payload.length ∧ Entries (leNat (payload.take 2)) (payload.drop 2)
    else Entries count.toNat payload

/-- An inventory is whole. -/
def Whole (msgCommand : Str) (payload : List Byte) : Prop :=
  msgCommand = command "inv" → Inventory payload

@[simp] theorem calls_emit (c : Client) (e : Event) :
    calls (c.emit e) = calls c ++ calls ⟨[e], false⟩ :=
  List.filterMap_append

theorem readUInt32LE_of_le {buff : List Byte} (h : 4 ≤ buff.length) :
    readUInt32LE buff = some (leNat (buff.take 4)) := if_pos h

theorem readUInt32LE_of_lt {buff : List Byte} (h : buff.length < 4) : readUInt32LE buff = none :=
  if_neg (by omega)

theorem isSome_inventory (c : Client) (count : ℕ) (payload : List Byte) :
    (c.inventory count payload).isSome = true ↔ Entries count payload := by
  induction count generalizing c payload with
  | zero => exact iff_of_true rfl fun i hi => absurd hi (Nat.not_lt_zero i)
  | succ count ih =>
    rw [Client.inventory]
    by_cases hlen : 4 ≤ payload.length
    · rw [readUInt32LE_of_le hlen, Option.bind_some, ih, Entries, Entries, List.length_drop]
      constructor
      · rintro hrest (_ | i) hi
        · omega
        · have := hrest i (by omega)
          omega
      · intro hall i hi
        have := hall (i + 1) (by omega)
        omega
    · rw [readUInt32LE_of_lt (by omega), Option.bind_none]
      refine iff_of_false Bool.false_ne_true fun hall => hlen ?_
      have := hall 0 (Nat.succ_pos count)
      omega

theorem calls_inventory {c c' : Client} {count : ℕ} {payload : List Byte}
    (h : c.inventory count payload = some c') : calls c' = calls c := by
  induction count generalizing c payload with
  | zero =>
    cases h
    rfl
  | succ count ih =>
    obtain ⟨code, -, h⟩ := Option.bind_eq_some_iff.mp h
    rw [ih h]
    split_ifs
    · rw [calls_emit]
      exact List.append_nil _
    · rfl

theorem isSome_handleInv (c : Client) (payload : List Byte) :
    (c.handleInv payload).isSome = true ↔ Inventory payload := by
  rcases payload with _ | ⟨count, payload⟩
  · exact iff_of_false Bool.false_ne_true id
  · rw [Client.handleInv, Inventory]
    split_ifs with hcount
    · rw [readUInt16LE]
      split_ifs with hlen
      · rw [Option.bind_some, isSome_inventory, and_iff_right hlen]
      · exact iff_of_false Bool.false_ne_true fun h => hlen h.1
    · exact isSome_inventory c count.toNat payload

theorem calls_handleInv {c c' : Client} {payload : List Byte} (h : c.handleInv payload = some c') :
    calls c' = calls c := by
  rcases payload with _ | ⟨count, payload⟩
  · cases h
  · rw [Client.handleInv] at h
    split_ifs at h
    · obtain ⟨count, -, h⟩ := Option.bind_eq_some_iff.mp h
      exact calls_inventory h
    · exact calls_inventory h

theorem isSome_handleMessage (c : Client) (msgCommand : Str) (payload : List Byte) :
    (c.handleMessage msgCommand payload).isSome = true ↔ Whole msgCommand payload := by
  rw [Client.handleMessage, Whole]
  dsimp only
  split_ifs with hinv hverack
  · rw [isSome_handleInv]
    exact ⟨fun h _ => h, fun h => h hinv⟩
  · exact iff_of_true rfl fun h => absurd h hinv
  · exact iff_of_true rfl fun h => absurd h hinv
  · exact iff_of_true rfl fun h => absurd h hinv

theorem calls_handleMessage {c c' : Client} {msgCommand : Str} {payload : List Byte}
    (h : c.handleMessage msgCommand payload = some c') :
    calls c' = calls c ++ [(msgCommand, payload)] := by
  have hemit :
      calls (c.emit (.peerMessage msgCommand payload)) = calls c ++ [(msgCommand, payload)] :=
    calls_emit _ _
  rw [← hemit]
  rw [Client.handleMessage] at h
  dsimp only at h
  split_ifs at h
  · exact calls_handleInv h
  · cases h
    rfl
  · cases h
    exact (calls_emit _ _).trans (List.append_nil _)
  · cases h
    rfl

end Messages
end Aion.Peer
