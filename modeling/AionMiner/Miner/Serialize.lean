import AionMiner.Machine.Readers
import AionMiner.Miner.Submit
import AionMiner.Miner.Target

/-! The byte format of headers: each has one form, and nothing else is read. -/

namespace Aion.Miner
open Bits Equihash Machine

section Code

/-- A stream that is never longer than its reading position can count. -/
structure CDataStream where
  vch : List Byte
  nReadPos : ℕ
  inside : nReadPos ≤ vch.length

/-- What was read to its end is thrown away. -/
def CDataStream.read (ss : CDataStream) (nSize : ℕ) : Option (List Byte × CDataStream) :=
  let nReadPosNext := (ss.nReadPos + nSize) % 2 ^ 32
  let pch := (ss.vch.drop ss.nReadPos).take nSize
  if h : nReadPosNext ≥ ss.vch.length then
    if nReadPosNext > ss.vch.length then none else some (pch, ⟨[], 0, le_rfl⟩)
  else some (pch, ⟨ss.vch, nReadPosNext, Nat.le_of_not_ge h⟩)

def CDataStream.rest (ss : CDataStream) : List Byte := ss.vch.drop ss.nReadPos

section Stream
variable {σ : Type} (read : σ → ℕ → Option (List Byte × σ))

def serReaddata (width : ℕ) (s : σ) : Option (ℕ × σ) := do
  let (obj, s) ← read s width
  pure (leNat obj, s)

/-- A size in `width` bytes that is not below `least`. -/
def serReadsize (width least : ℕ) (s : σ) : Option (ℕ × σ) := do
  let (nSizeRet, s) ← serReaddata read width s
  if nSizeRet < least then none else pure (nSizeRet, s)

def nSizeRet (chSize : ℕ) (s : σ) : Option (ℕ × σ) :=
  if chSize < 253 then some (chSize, s)
  else if chSize = 253 then serReadsize read 2 253 s
  else if chSize = 254 then serReadsize read 4 0x10000 s
  else serReadsize read 8 0x100000000 s

def readCompactSizeFrom (s : σ) : Option (ℕ × σ) := do
  let (chSize, s) ← serReaddata read 1 s
  let (nSizeRet, s) ← nSizeRet read chSize s
  if nSizeRet > 0x02000000 then none else pure (nSizeRet, s)

/-- The loop that reads a vector of bytes, at most five million at a time. -/
def readBlocks (nSize i : ℕ) (v : List Byte) (s : σ) : Option (List Byte × σ) :=
  if i < nSize then
    let blk := min (nSize - i) (1 + 4999999)
    (read s blk).bind fun (bytes, s) => readBlocks nSize (i + blk) (v ++ bytes) s
  else some (v, s)
termination_by nSize - i

def unserializeImpl (s : σ) : Option (List Byte × σ) := do
  let (nSize, s) ← readCompactSizeFrom read s
  readBlocks read nSize 0 [] s

end Stream

/-- Numbers of 256 bits are read by themselves, from the same stream. -/
def unserializeUint256 {σ : Type} (read : σ → ℕ → Option (List Byte × σ)) (s : σ) : Option (Uint256 × σ) := do
  let (data, s) ← read s 32
  if h : data.length = 32 then pure (⟨data, h⟩, s) else none

def ABlockHeader.serializationOp {σ : Type} (read : σ → ℕ → Option (List Byte × σ)) (s : σ) :
    Option (ABlockHeader × σ) := do
  let (headerHash, s) ← unserializeUint256 read s
  let (nNonce, s) ← unserializeUint256 read s
  let (nSolution, s) ← unserializeImpl read s
  pure ({ headerHash := headerHash, nNonce := nNonce, nSolution := nSolution }, s)

def ABlockHeader.serialize (h : ABlockHeader) : List Byte :=
  h.headerHash.data ++ Miner.serialize h.nNonce h.nSolution

end Code

section Bytes

theorem readBytes_iff {n : ℕ} {ss bytes rest : List Byte} :
    readBytes n ss = some (bytes, rest) ↔ bytes.length = n ∧ ss = bytes ++ rest := by
  unfold readBytes
  constructor
  · intro h
    split_ifs at h with hle
    obtain ⟨rfl, rfl⟩ := Prod.mk.inj (Option.some.inj h)
    exact ⟨List.length_take_of_le hle, (List.take_append_drop n ss).symm⟩
  · rintro ⟨rfl, rfl⟩
    rw [if_pos (by rw [List.length_append]; exact Nat.le_add_right _ _), List.take_left, List.drop_left]

theorem readUint256_iff {ss rest : List Byte} {x : Uint256} :
    readUint256 ss = some (x, rest) ↔ ss = x.data ++ rest := by
  constructor
  · intro h
    unfold readUint256 at h
    split_ifs at h with hle
    obtain ⟨rfl, rfl⟩ := Prod.mk.inj (Option.some.inj h)
    exact (List.take_append_drop 32 ss).symm
  · rintro rfl
    exact readUint256_append x rest

/-- A stream that is the list of what is left in it. -/
def bytesOf (ss : List Byte) (n : ℕ) : Option (List Byte × List Byte) := readBytes n ss

/-- Blocks are read as if in one. -/
theorem readBlocks_eq {nSize i : ℕ} (hi : i ≤ nSize) (v ss : List Byte) :
    readBlocks bytesOf nSize i v ss = (readBytes (nSize - i) ss).map fun (bytes, rest) => (v ++ bytes, rest) := by
  induction hn : nSize - i using Nat.strong_induction_on generalizing i v ss with
  | h n ih =>
    rw [readBlocks]
    split_ifs with hlt
    swap
    · rw [show n = 0 by omega, readBytes, if_pos (Nat.zero_le _), Option.map_some, List.take_zero, List.drop_zero]
      dsimp only
      rw [List.append_nil]
    dsimp only
    generalize hblk : min (nSize - i) (1 + 4999999) = blk
    have hpos : 0 < blk := by omega
    unfold bytesOf readBytes
    by_cases hfirst : blk ≤ ss.length
    · have hnext : n - blk < n := by omega
      rw [if_pos hfirst, Option.bind_some]
      refine (ih (n - blk) hnext (by omega) _ _ (by omega)).trans ?_
      rw [readBytes, List.length_drop]
      by_cases hall : n ≤ ss.length
      · rw [if_pos (by omega), if_pos hall, Option.map_some, Option.map_some, List.drop_drop]
        dsimp only
        obtain ⟨m, rfl⟩ : ∃ m, n = blk + m := Nat.exists_eq_add_of_le (by omega)
        rw [Nat.add_sub_cancel_left, List.append_assoc, List.take_add]
      · rw [if_neg (by omega), if_neg hall]
        rfl
    · rw [if_neg hfirst, if_neg (by omega)]
      rfl

theorem length_leBytes (width n : ℕ) : (leBytes width n).length = width := by
  rw [leBytes, List.length_map, List.length_range]

theorem leNat_leBytes (width n : ℕ) : leNat (leBytes width n) = n % 256 ^ width := by
  induction width generalizing n with
  | zero => exact (Nat.mod_one n).symm
  | succ width ih =>
    have hcons : leBytes (width + 1) n = BitVec.ofNat 8 n :: leBytes width (n / 256) := by
      rw [leBytes, List.range_succ_eq_map, List.map_cons, List.map_map, leBytes]
      congr 1
      refine List.map_congr_left fun i _ => ?_
      rw [Function.comp_apply, Nat.shiftRight_eq_div_pow, Nat.shiftRight_eq_div_pow, Nat.mul_succ, Nat.add_comm,
        Nat.pow_add, ← Nat.div_div_eq_div_mul]
    have hpow : 256 ^ (width + 1) = 256 * 256 ^ width := Nat.pow_succ'
    rw [hcons, leNat_cons, ih, BitVec.toNat_ofNat, hpow, Nat.mod_mul]
    rfl

theorem leBytes_leNat {bytes : List Byte} {width : ℕ} (hlen : bytes.length = width) :
    leBytes width (leNat bytes) = bytes := by
  refine leNat_inj ((length_leBytes _ _).trans hlen.symm) ?_
  rw [leNat_leBytes, Nat.mod_eq_of_lt]
  have hlt := leNat_lt bytes
  rwa [hlen, Nat.pow_mul] at hlt

theorem readSize_iff {width least n : ℕ} {ss rest : List Byte} :
    readSize width least ss = some (n, rest) ↔ least ≤ n ∧ n < 256 ^ width ∧ ss = leBytes width n ++ rest := by
  unfold readSize
  constructor
  · intro h
    obtain ⟨⟨size, rest'⟩, hread, hsize⟩ := Option.bind_eq_some_iff.mp h
    obtain ⟨hlen, rfl⟩ := readBytes_iff.mp hread
    dsimp only at hsize
    split_ifs at hsize with hleast
    obtain ⟨rfl, rfl⟩ := Prod.mk.inj (Option.some.inj hsize)
    have hlt := leNat_lt size
    rw [hlen, Nat.pow_mul] at hlt
    rw [beNat_reverse] at hleast ⊢
    exact ⟨hleast, hlt, by rw [leBytes_leNat hlen]⟩
  · rintro ⟨hleast, hlt, rfl⟩
    rw [readBytes_iff.mpr ⟨length_leBytes width n, rfl⟩, Option.bind_some]
    dsimp only
    rw [beNat_reverse, leNat_leBytes, Nat.mod_eq_of_lt hlt, if_pos hleast]

end Bytes

section Sizes

theorem leBytes_one (n : ℕ) : leBytes 1 n = [BitVec.ofNat 8 n] := rfl

/-- A size has one form, and nothing else is read. -/
theorem readCompactSize_iff {ss rest : List Byte} {n : ℕ} :
    readCompactSize ss = some (n, rest) ↔ n ≤ 0x02000000 ∧ ss = writeCompactSize n ++ rest := by
  constructor
  · intro h
    cases ss with
    | nil => cases h
    | cons chSize ss =>
      obtain ⟨hread, hle⟩ := Option.filter_eq_some_iff.mp h
      refine ⟨of_decide_eq_true hle, ?_⟩
      have hbyte := chSize.isLt
      unfold writeCompactSize
      split_ifs at hread with hone htwo hfour
      · obtain ⟨rfl, rfl⟩ := Prod.mk.inj (Option.some.inj hread)
        rw [if_pos hone, leBytes_one, BitVec.ofNat_toNat, BitVec.setWidth_eq]
        rfl
      · obtain ⟨hleast, hlt, rfl⟩ := readSize_iff.mp hread
        rw [if_neg (by omega), if_pos (by omega), htwo]
        rfl
      · obtain ⟨hleast, hlt, rfl⟩ := readSize_iff.mp hread
        rw [if_neg (by omega), if_neg (by omega), if_pos (by omega), hfour]
        rfl
      · obtain ⟨hleast, hlt, rfl⟩ := readSize_iff.mp hread
        have hlast : chSize = 255 := by
          apply BitVec.eq_of_toNat_eq
          have htwo' : chSize.toNat ≠ 253 := fun heq => htwo (BitVec.eq_of_toNat_eq heq)
          have hfour' : chSize.toNat ≠ 254 := fun heq => hfour (BitVec.eq_of_toNat_eq heq)
          have heq : chSize.toNat = 255 := by omega
          exact heq
        rw [if_neg (by omega), if_neg (by omega), if_neg (by omega), hlast]
        rfl
  · rintro ⟨hle, rfl⟩
    unfold writeCompactSize
    split_ifs with hone htwo hfour
    · have htoNat : (BitVec.ofNat 8 n).toNat = n := by
        rw [BitVec.toNat_ofNat, Nat.mod_eq_of_lt (by omega)]
      rw [leBytes_one, List.singleton_append, readCompactSize, htoNat, if_pos hone, Option.filter_some,
        if_pos (decide_eq_true hle)]
    · have hread : readSize 2 253 (leBytes 2 n ++ rest) = some (n, rest) :=
        readSize_iff.mpr ⟨by omega, by omega, rfl⟩
      rw [List.cons_append, readCompactSize, if_neg (by decide), if_pos rfl, hread, Option.filter_some,
        if_pos (decide_eq_true hle)]
    · have hread : readSize 4 0x10000 (leBytes 4 n ++ rest) = some (n, rest) :=
        readSize_iff.mpr ⟨by omega, by omega, rfl⟩
      rw [List.cons_append, readCompactSize, if_neg (by decide), if_neg (by decide), if_pos rfl, hread,
        Option.filter_some, if_pos (decide_eq_true hle)]
    · omega

end Sizes

section Plain

theorem serReaddata_bytesOf (width : ℕ) (ss : List Byte) :
    serReaddata bytesOf width ss = (readBytes width ss).map fun (obj, ss) => (leNat obj, ss) := by
  unfold serReaddata bytesOf
  cases readBytes width ss with
  | none => rfl
  | some p => rfl

theorem serReadsize_bytesOf (width least : ℕ) (ss : List Byte) :
    serReadsize bytesOf width least ss = readSize width least ss := by
  unfold serReadsize readSize
  rw [serReaddata_bytesOf]
  cases readBytes width ss with
  | none => rfl
  | some p =>
    simp only [Option.map_some, Option.bind_eq_bind, Option.bind_some, beNat_reverse]
    split_ifs <;> first | rfl | omega

/-- A check behind a reader. -/
theorem bind_limit (size : Option (ℕ × List Byte)) :
    (size.bind fun p => if p.1 > 0x02000000 then none else some (p.1, p.2)) =
      size.filter fun p => p.1 ≤ 0x02000000 := by
  cases size with
  | none => rfl
  | some p =>
    rw [Option.bind_some, Option.filter_some]
    by_cases hp : p.1 ≤ 0x02000000
    · rw [if_neg (Nat.not_lt.mpr hp), if_pos (decide_eq_true hp)]
    · rw [if_pos (Nat.lt_of_not_le hp), if_neg (by rw [decide_eq_true_iff]; exact hp)]

theorem readCompactSizeFrom_bytesOf (ss : List Byte) : readCompactSizeFrom bytesOf ss = readCompactSize ss := by
  unfold readCompactSizeFrom
  rw [serReaddata_bytesOf]
  cases ss with
  | nil => rfl
  | cons chSize ss =>
    have hone : readBytes 1 (chSize :: ss) = some ([chSize], ss) := readBytes_iff.mpr ⟨rfl, rfl⟩
    have hvalue : leNat [chSize] = chSize.toNat := by rw [leNat_cons, leNat_nil, Nat.mul_zero, Nat.add_zero]
    have hbyte (n : ℕ) (hn : n < 256) : chSize.toNat = n ↔ chSize = BitVec.ofNat 8 n := by
      rw [← BitVec.toNat_inj, BitVec.toNat_ofNat, Nat.mod_eq_of_lt hn]
    rw [hone, readCompactSize, ← bind_limit]
    simp only [Option.map_some, Option.bind_eq_bind, Option.bind_some, hvalue, nSizeRet, serReadsize_bytesOf,
      hbyte 253 (by decide), hbyte 254 (by decide)]
    rfl

theorem unserializeUint256_bytesOf (ss : List Byte) : unserializeUint256 bytesOf ss = readUint256 ss := by
  unfold unserializeUint256 bytesOf readBytes readUint256
  by_cases hlen : 32 ≤ ss.length
  · rw [if_pos hlen, dif_pos hlen, Option.bind_eq_bind, Option.bind_some]
    exact dif_pos (List.length_take_of_le hlen)
  · rw [if_neg hlen, dif_neg hlen]
    rfl

theorem unserializeImpl_bytesOf (ss : List Byte) :
    unserializeImpl bytesOf ss = (readCompactSize ss).bind fun (nSize, ss) => readBytes nSize ss := by
  unfold unserializeImpl
  rw [readCompactSizeFrom_bytesOf]
  refine congrArg (Option.bind _) (funext fun (nSize, ss) => ?_)
  exact (readBlocks_eq (Nat.zero_le nSize) [] ss).trans (congrFun Option.map_id _)

theorem unserialize_bytesOf (ss : List Byte) :
    ABlockHeader.unserialize ss = (ABlockHeader.serializationOp bytesOf ss).map Prod.fst := by
  unfold ABlockHeader.unserialize ABlockHeader.serializationOp
  simp only [unserializeUint256_bytesOf, unserializeImpl_bytesOf, Option.bind_eq_bind, Option.map_bind,
    Option.bind_assoc,
    Function.comp_def]
  rfl

theorem serializationOp_bytesOf {ss rest : List Byte} {h : ABlockHeader} :
    ABlockHeader.serializationOp bytesOf ss = some (h, rest) ↔
      h.nSolution.length ≤ 0x02000000 ∧ ss = h.serialize ++ rest := by
  obtain ⟨headerHash, nNonce, nSolution⟩ := h
  unfold ABlockHeader.serializationOp ABlockHeader.serialize serialize
  simp only [unserializeUint256_bytesOf, unserializeImpl_bytesOf, Option.bind_eq_bind, Option.bind_eq_some_iff]
  constructor
  · rintro ⟨⟨hash, ss₁⟩, hhash, ⟨nonce, ss₂⟩, hnonce, ⟨bytes, ss₃⟩, ⟨⟨nSize, ss₄⟩, hsize, hbytes⟩, heq⟩
    cases heq
    obtain ⟨hle, rfl⟩ := readCompactSize_iff.mp hsize
    obtain ⟨rfl, rfl⟩ := readBytes_iff.mp hbytes
    dsimp only at hnonce ⊢
    rw [readUint256_iff.mp hhash, readUint256_iff.mp hnonce]
    exact ⟨hle, by simp only [List.append_assoc]⟩
  · rintro ⟨hle, rfl⟩
    rw [List.append_assoc, List.append_assoc, List.append_assoc]
    exact ⟨_, readUint256_iff.mpr rfl, _, readUint256_iff.mpr rfl,
      _, ⟨_, readCompactSize_iff.mpr ⟨hle, rfl⟩, readBytes_iff.mpr ⟨rfl, rfl⟩⟩, rfl⟩

end Plain

section Agreement
variable {σ τ : Type} {view : σ → τ} {inv : σ → Prop} {read : σ → ℕ → Option (List Byte × σ)}
  {read' : τ → ℕ → Option (List Byte × τ)}

-- No reader asks for more than five million bytes.
variable (hread : ∀ s n, inv s → n ≤ 5000000 → Agree view inv (read s n) (read' (view s) n))
include hread

theorem agree_serReaddata {width : ℕ} (hwidth : width ≤ 5000000) {s : σ} (hs : inv s) :
    Agree view inv (serReaddata read width s) (serReaddata read' width (view s)) :=
  (hread s width hs hwidth).bind fun obj _ hs => .some hs (leNat obj)

theorem agree_serReadsize {width : ℕ} (hwidth : width ≤ 5000000) (least : ℕ) {s : σ} (hs : inv s) :
    Agree view inv (serReadsize read width least s) (serReadsize read' width least (view s)) := by
  refine (agree_serReaddata hread hwidth hs).bind fun nSizeRet s hs => ?_
  exact .ite .none (.some hs nSizeRet)

theorem agree_readCompactSize {s : σ} (hs : inv s) :
    Agree view inv (readCompactSizeFrom read s) (readCompactSizeFrom read' (view s)) := by
  refine (agree_serReaddata hread (by decide) hs).bind fun chSize s hs => ?_
  refine Agree.bind ?_ fun nSizeRet s hs => ?_
  · refine .ite (.some hs chSize) (.ite ?_ (.ite ?_ ?_))
    all_goals exact agree_serReadsize hread (by decide) _ hs
  · exact .ite .none (.some hs nSizeRet)

theorem agree_readBlocks (nSize i : ℕ) (v : List Byte) {s : σ} (hs : inv s) :
    Agree view inv (readBlocks read nSize i v s) (readBlocks read' nSize i v (view s)) := by
  induction hn : nSize - i using Nat.strong_induction_on generalizing i v s with
  | h n ih =>
    rw [readBlocks, readBlocks]
    by_cases hlt : i < nSize
    · rw [if_pos hlt, if_pos hlt]
      refine (hread s _ hs (by omega)).bind fun bytes s hs => ?_
      exact ih _ (by omega) _ _ hs rfl
    · rw [if_neg hlt, if_neg hlt]
      exact .some hs v

theorem agree_unserializeUint256 {s : σ} (hs : inv s) :
    Agree view inv (unserializeUint256 read s) (unserializeUint256 read' (view s)) := by
  refine (hread s 32 hs (by decide)).bind fun data s hs => ?_
  by_cases hlen : data.length = 32
  · simp only [dif_pos hlen]
    exact .some hs _
  · simp only [dif_neg hlen]
    exact .none

theorem agree_serializationOp {s : σ} (hs : inv s) :
    Agree view inv (ABlockHeader.serializationOp read s) (ABlockHeader.serializationOp read' (view s)) := by
  refine (agree_unserializeUint256 hread hs).bind fun headerHash s hs => ?_
  refine (agree_unserializeUint256 hread hs).bind fun nNonce s hs => ?_
  refine Agree.bind ?_ fun nSolution s hs => .some hs _
  exact (agree_readCompactSize hread hs).bind fun nSize s hs => agree_readBlocks hread nSize 0 [] hs

end Agreement

section Headers

/-- While the position does not wrap around, what is read is what is left of the stream. -/
theorem CDataStream.agree_read (ss : CDataStream) {nSize : ℕ} (hss : ss.vch.length + 5000000 < 2 ^ 32)
    (hn : nSize ≤ 5000000) :
    Agree CDataStream.rest (fun ss => ss.vch.length + 5000000 < 2 ^ 32) (ss.read nSize) (bytesOf ss.rest nSize) := by
  obtain ⟨vch, nReadPos, inside⟩ := ss
  dsimp only at hss
  have hpos : (nReadPos + nSize) % 2 ^ 32 = nReadPos + nSize := Nat.mod_eq_of_lt (by omega)
  have hleft : (vch.drop nReadPos).length = vch.length - nReadPos := List.length_drop
  unfold CDataStream.read CDataStream.rest bytesOf readBytes
  simp only [hpos, hleft]
  rcases Nat.lt_trichotomy (nReadPos + nSize) vch.length with hlt | heq | hgt
  · rw [dif_neg (Nat.not_le.mpr hlt), if_pos (by omega), List.drop_drop]
    exact Agree.some (s := CDataStream.mk vch (nReadPos + nSize) hlt.le) hss _
  · rw [dif_pos heq.ge, if_neg (Nat.lt_irrefl _ <| heq ▸ ·), if_pos (by omega), List.drop_drop, heq,
      List.drop_length]
    exact Agree.some (s := CDataStream.mk [] 0 le_rfl) (by decide) _
  · rw [dif_pos hgt.le, if_pos hgt, if_neg (by omega)]
    exact .none

/-- The headers that a stream holds: each is read back whatever follows it, and nothing that is not
the form of a header is read as one. -/
theorem headers_of_stream (ss : CDataStream) (hss : ss.vch.length + 5000000 < 2 ^ 32) :
    ABlockHeader.unserialize ss.rest = (ABlockHeader.serializationOp CDataStream.read ss).map Prod.fst ∧
      ∀ h rest, (ABlockHeader.serializationOp CDataStream.read ss).map (fun p => (p.1, p.2.rest)) = some (h, rest) ↔
        h.nSolution.length ≤ 0x02000000 ∧ ss.rest = h.serialize ++ rest := by
  have hagree := (agree_serializationOp (fun ss _ => CDataStream.agree_read ss) hss).1
  constructor
  · rw [unserialize_bytesOf, ← hagree, Option.map_map]
    rfl
  · intro h rest
    rw [hagree]
    exact serializationOp_bytesOf

theorem headers_of_stream_zeros :
    (ABlockHeader.serializationOp CDataStream.read
        ⟨7 :: List.replicate 64 0 ++ [2, 1, 255, 9], 1, by decide⟩).map (fun p => (p.1, p.2.rest)) =
      some (⟨⟨List.replicate 32 0, rfl⟩, ⟨List.replicate 32 0, rfl⟩, [1, 255]⟩, [9]) :=
  ((headers_of_stream _ (by decide)).2 _ _).mpr ⟨by decide, rfl⟩

end Headers

end Aion.Miner
