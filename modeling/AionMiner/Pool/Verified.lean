import AionMiner.Pool.Duplicates

/-! The bytes of a share that the native verifier is given, and those whose hash is held against the target. -/

namespace Aion.Pool
open Bits Equihash Solver Text

section Code

/-- `serializeHeader` writes into a `new Buffer(64)`, which comes with any content. -/
def BlockTemplate.serializeHeaderIn (fresh : List Byte) (job : BlockTemplate) (nonce : Str) : List Byte :=
  let header := writeHex fresh job.rpcData.headerHash 0 32
  writeHex header nonce 32 32

structure HashDigestCall where
  job : BlockTemplate
  header : List Byte
  solution : List Byte

/-- `processShare` as far as its call of `hashDigest`. -/
def JobManager.hashDigestCall (host : Host) (fresh : List Byte) (s : JobManager) (sh : Share) :
    Option HashDigestCall :=
  match s.validJobs sh.jobId with
  | none => none
  | some ref =>
    let job := s.jobs ref
    if job.jobId ≠ sh.jobId then none
    else if sh.nTime.length ≠ 16 then none
    else if sh.nonce.length ≠ 64 then none
    else if sh.soln.length ≠ 2822 then none
    else if !isHexString host.unicodeLower sh.extraNonce2 then none
    else
      match job.registerSubmit (toLowerCase host.unicodeLower sh.extraNonce1)
        (toLowerCase host.unicodeLower sh.extraNonce2) sh.nTime sh.nonce with
      | (false, _) => none
      | (true, job) => some ⟨job, job.serializeHeaderIn fresh sh.nonce, hexDecode (sh.soln.drop 6)⟩

end Code

section Calls
variable {host : Host} {fresh : List Byte} {s : JobManager} {sh : Share} {call : HashDigestCall}

theorem hashDigestCall_eq_some : s.hashDigestCall host fresh sh = some call ↔
    ∃ ref, s.lookup sh = some ref ∧ sh.formatError host = none ∧
    sh.key host ∉ (s.jobs ref).submits ∧
      call = ⟨{ s.jobs ref with submits := (s.jobs ref).submits ++ [sh.key host] },
        (s.jobs ref).serializeHeaderIn fresh sh.nonce, hexDecode (sh.soln.drop 6)⟩ := by
  unfold JobManager.hashDigestCall JobManager.lookup
  cases hvalid : s.validJobs sh.jobId with
  | none => simp
  | some ref =>
    dsimp only
    by_cases hid : (s.jobs ref).jobId = sh.jobId
    swap
    · simp [hid]
    have hlookup : (some ref).filter (fun ref => (s.jobs ref).jobId = sh.jobId) = some ref := by simp [hid]
    rw [if_neg (not_not.mpr hid), hlookup]
    simp only [Option.some_inj, exists_eq_left']
    by_cases hseen : sh.key host ∈ (s.jobs ref).submits
    · rw [show (s.jobs ref).registerSubmit _ _ _ _ = (false, s.jobs ref) from if_pos hseen]
      simp [hseen]
    · rw [show (s.jobs ref).registerSubmit _ _ _ _ = (true, _) from if_neg hseen]
      unfold Share.formatError
      split_ifs
      · simp
      · simp
      · simp
      · simp
      · rw [Option.some_inj, eq_comm]
        exact ⟨fun h => ⟨rfl, hseen, h⟩, fun h => h.2.2⟩

/-- The answer is the verifier's and the target's. -/
theorem result_of_call (hcall : s.hashDigestCall host (List.replicate 64 0) sh = some call) :
    (s.processShare host sh).2.1.result = true ↔ host.hashDigest call.header call.solution = true ∧
      call.job.overTarget host (host.blake2 (call.job.serializeHeaderTarget sh.nonce sh.soln)) = false := by
  obtain ⟨ref, href, hformat, hnew, rfl⟩ := hashDigestCall_eq_some.mp hcall
  have hanswer : (s.answer host sh).response.result = true ↔ _ := s.answer_accepted
  rw [JobManager.answer] at hanswer
  simp only [href, Option.some_inj] at hanswer
  rw [hanswer]
  constructor
  · rintro ⟨_, rfl, -, -, hmeets⟩
    exact hmeets
  · intro hmeets
    exact ⟨ref, rfl, hformat, hnew, hmeets⟩

theorem result_of_no_call (hcall : s.hashDigestCall host fresh sh = none) :
    (s.processShare host sh).2.1.result = false := by
  rw [← Bool.not_eq_true]
  intro hresult
  obtain ⟨ref, href, hformat, hnew, -⟩ := JobManager.answer_accepted.mp hresult
  rw [hashDigestCall_eq_some.mpr ⟨ref, href, hformat, hnew, rfl⟩] at hcall
  cases hcall

end Calls

section Layout

/-- A write that fills a gap, and drops what is longer. -/
theorem writeHex_fill (xs ys zs : List Byte) {s : Str} (hlen : ys.length ≤ (hexDecode s).length) :
    writeHex (xs ++ ys ++ zs) s xs.length ys.length = xs ++ (hexDecode s).take ys.length ++ zs := by
  have hmin : min ys.length ((xs ++ ys ++ zs).length - xs.length) = ys.length := by
    apply Nat.min_eq_left
    simp only [List.length_append]
    omega
  simp only [writeHex]
  rw [hmin, List.length_take, Nat.min_eq_left hlen]
  simp [List.append_assoc, List.drop_append]

variable {headerHash nonce : Str}

/-- The header hash and the nonce, written one after the other in front of a buffer. -/
theorem writeHex_header {xs ys zs : List Byte} (hx : xs.length = 32) (hy : ys.length = 32)
    (hhash : 32 ≤ (hexDecode headerHash).length) (hnonce : (hexDecode nonce).length = 32) :
    writeHex (writeHex (xs ++ ys ++ zs) headerHash 0 32) nonce 32 32 =
      (hexDecode headerHash).take 32 ++ hexDecode nonce ++ zs := by
  have hfirst := writeHex_fill [] xs (ys ++ zs) (hx.trans_le hhash)
  have hfront : ((hexDecode headerHash).take 32).length = 32 := List.length_take_of_le hhash
  have hsecond := writeHex_fill ((hexDecode headerHash).take 32) ys zs (hy.trans_le hnonce.ge)
  rw [hx, List.nil_append, List.nil_append, ← List.append_assoc, List.length_nil] at hfirst
  rw [hfront, hy, List.take_of_length_le hnonce.le] at hsecond
  rw [hfirst, ← List.append_assoc, hsecond]

end Layout

section Complete

/-- The verifier is given the header hash and the nonce, and as many bytes of a solution as it
reads; they are the bytes that are hashed for the target. -/
structure HashDigestCall.Complete (call : HashDigestCall) (sh : Share) : Prop where
  header : call.header = (hexDecode call.job.rpcData.headerHash).take 32 ++ hexDecode sh.nonce
  headerHash_bytes : 32 ≤ (hexDecode call.job.rpcData.headerHash).length
  nonce_bytes : (hexDecode sh.nonce).length = 32
  solution_bytes : call.solution.length = 1408
  same_header : call.header = (call.job.serializeHeaderTarget sh.nonce sh.soln).take 64
  same_solution : call.solution = (call.job.serializeHeaderTarget sh.nonce sh.soln).drop 64

variable {host : Host} {fresh : List Byte} {s : JobManager} {sh : Share} {call : HashDigestCall}

/-- The verifier then judges the bytes of the target check, whatever lies behind them in memory. -/
theorem hashDigest_of_complete (hcomplete : call.Complete sh) : host.hashDigest call.header call.solution =
    verifyEH host.H ((call.job.serializeHeaderTarget sh.nonce sh.soln).take 64)
      ((call.job.serializeHeaderTarget sh.nonce sh.soln).drop 64) := by
  rw [← hcomplete.same_header, ← hcomplete.same_solution, Host.hashDigest, verifyEH, verifyEH,
    List.take_append_of_le_length hcomplete.solution_bytes.ge]

theorem serializeHeaderIn_eq {job : BlockTemplate} (hfresh : fresh.length = 64)
    (hhash : 32 ≤ (hexDecode job.rpcData.headerHash).length) (hnonce : (hexDecode sh.nonce).length = 32) :
    job.serializeHeaderIn fresh sh.nonce = (hexDecode job.rpcData.headerHash).take 32 ++ hexDecode sh.nonce := by
  have hsplit : fresh = fresh.take 32 ++ fresh.drop 32 ++ [] := by rw [List.append_nil, List.take_append_drop]
  rw [BlockTemplate.serializeHeaderIn, hsplit,
    writeHex_header (by simp [hfresh]) (by simp [hfresh]) hhash hnonce, List.append_nil]

theorem serializeHeaderTarget_bytes {job : BlockTemplate} (hhash : 32 ≤ (hexDecode job.rpcData.headerHash).length)
    (hnonce : (hexDecode sh.nonce).length = 32) (hsoln : (hexDecode (sh.soln.drop 6)).length = 1408) :
    job.serializeHeaderTarget sh.nonce sh.soln =
      (hexDecode job.rpcData.headerHash).take 32 ++ hexDecode sh.nonce ++ hexDecode (sh.soln.drop 6) := by
  have hzeros : List.replicate 1472 (0 : Byte) =
      List.replicate 32 0 ++ List.replicate 32 0 ++ List.replicate 1408 0 := by
    rw [← List.replicate_add, ← List.replicate_add]
  have hlen : ((hexDecode job.rpcData.headerHash).take 32 ++ hexDecode sh.nonce).length = 64 := by
    rw [List.length_append, List.length_take_of_le hhash, hnonce]
  have hthird := writeHex_append ((hexDecode job.rpcData.headerHash).take 32 ++ hexDecode sh.nonce)
    (List.replicate 1408 0) [] (sh.soln.drop 6) (hsoln.trans (List.length_replicate ..).symm)
  rw [hlen, List.length_replicate, List.append_nil, List.append_nil] at hthird
  rw [BlockTemplate.serializeHeaderTarget, hzeros,
    writeHex_header List.length_replicate List.length_replicate hhash hnonce, hthird]

/-- The buffers are right if and only if all of nonce and solution is hex, as the header hash is. -/
theorem complete_iff (hfresh : fresh.length = 64) (hcall : s.hashDigestCall host fresh sh = some call) :
    call.Complete sh ↔ IsHexDigits sh.nonce ∧ IsHexDigits (sh.soln.drop 6) ∧
      64 ≤ call.job.rpcData.headerHash.length ∧ IsHexDigits (call.job.rpcData.headerHash.take 64) := by
  obtain ⟨ref, href, hformat, hnew, rfl⟩ := hashDigestCall_eq_some.mp hcall
  obtain ⟨-, hnonceLen, hsolnLen, -⟩ := Share.formatError_eq_none.mp hformat
  have hdropLen : (sh.soln.drop 6).length = 2 * 1408 := by rw [List.length_drop, hsolnLen]
  have hhash : 32 ≤ (hexDecode (s.jobs ref).rpcData.headerHash).length ↔
      64 ≤ (s.jobs ref).rpcData.headerHash.length ∧
      IsHexDigits ((s.jobs ref).rpcData.headerHash.take 64) :=
    le_length_hexDecode_iff
  constructor
  · intro hcomplete
    have hnonce := (le_length_hexDecode_iff (n := 32)).mp hcomplete.nonce_bytes.ge
    have hsoln := (le_length_hexDecode_iff (n := 1408)).mp hcomplete.solution_bytes.ge
    rw [List.take_of_length_le hnonceLen.le] at hnonce
    rw [List.take_of_length_le hdropLen.le] at hsoln
    exact ⟨hnonce.2, hsoln.2, hhash.mp hcomplete.headerHash_bytes⟩
  · rintro ⟨hnonceHex, hsolnHex, hhashHex⟩
    have hbytes := hhash.mpr hhashHex
    have hnonce : (hexDecode sh.nonce).length = 32 := length_hexDecode hnonceHex hnonceLen
    have hsoln : (hexDecode (sh.soln.drop 6)).length = 1408 := length_hexDecode hsolnHex hdropLen
    have hheader := serializeHeaderIn_eq hfresh hbytes hnonce
    have htarget := serializeHeaderTarget_bytes hbytes hnonce hsoln
    have hlen : ((hexDecode (s.jobs ref).rpcData.headerHash).take 32 ++ hexDecode sh.nonce).length = 64 := by
      rw [List.length_append, List.length_take_of_le hbytes, hnonce]
    constructor
    · exact hheader
    · exact hbytes
    · exact hnonce
    · exact hsoln
    · change (s.jobs ref).serializeHeaderIn fresh sh.nonce =
          ((s.jobs ref).serializeHeaderTarget sh.nonce sh.soln).take 64
      rw [hheader, htarget, List.take_left' hlen]
    · change hexDecode (sh.soln.drop 6) = ((s.jobs ref).serializeHeaderTarget sh.nonce sh.soln).drop 64
      rw [htarget, List.drop_left' hlen]

def solved : Share := shareOf earlier (run 9 0)
def garbled : Share := { solved with soln := List.replicate 2822 (unit 'g') }

def openCall (sh : Share) : HashDigestCall where
  job := { openJob with submits := openJob.submits ++ [sh.key plantedHost] }
  header := openJob.serializeHeaderIn (List.replicate 64 0) sh.nonce
  solution := hexDecode (sh.soln.drop 6)

theorem hashDigestCall_solved :
    opened.hashDigestCall plantedHost (List.replicate 64 0) solved = some (openCall solved) :=
  hashDigestCall_eq_some.mpr
    ⟨0, lookup_opened earlier (run 9 0), formatError_shareOf length_earlier (length_run 9 0), List.not_mem_nil, rfl⟩

theorem hashDigestCall_garbled :
    opened.hashDigestCall plantedHost (List.replicate 64 0) garbled = some (openCall garbled) := by
  have hformat := Share.formatError_eq_none.mp (formatError_shareOf length_earlier (length_run 9 0))
  refine hashDigestCall_eq_some.mpr ⟨0, lookup_opened earlier (run 9 0), ?_, List.not_mem_nil, rfl⟩
  exact Share.formatError_eq_none.mpr ⟨hformat.1, hformat.2.1, List.length_replicate ..,
    hformat.2.2.2⟩

theorem complete_iff_solved : (openCall solved).Complete solved ↔
    IsHexDigits solved.nonce ∧ IsHexDigits (solved.soln.drop 6) ∧
      64 ≤ (openCall solved).job.rpcData.headerHash.length ∧
      IsHexDigits ((openCall solved).job.rpcData.headerHash.take 64) :=
  complete_iff (List.length_replicate ..) hashDigestCall_solved

/-- The verifier is called with an empty buffer for a solution. -/
theorem incomplete_garbled :
    ∃ call, opened.hashDigestCall plantedHost (List.replicate 64 0) garbled = some call ∧
      ¬call.Complete garbled := by
  refine ⟨openCall garbled, hashDigestCall_garbled, fun hcomplete => ?_⟩
  have hempty : (openCall garbled).solution = [] := by
    rw [openCall, garbled, List.drop_replicate]
    rfl
  have hlen := hcomplete.solution_bytes
  rw [hempty] at hlen
  cases hlen

end Complete
end Aion.Pool
