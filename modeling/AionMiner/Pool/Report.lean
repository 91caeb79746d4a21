import AionMiner.Pool.Duplicates
import AionMiner.Stratum.Client

/-! What `pool.js` reports of a share that the job manager has judged, when the daemons have answered. -/

namespace Aion.Pool
open Bits Equihash Solver Text Stratum

section Code

structure Reply where
  error : Value
  response : Value

/-- The arguments of `emit('share', ...)`; of `isValidBlock` only the truth counts. -/
structure Report where
  isValidShare : Bool
  isValidBlock : Bool
  shareData : ShareEvent

def truthy (v : Value) : Bool := v.any Json.truthy

def ShareEvent.error : ShareEvent → Option String
  | .rejected _ _ _ error => some error
  | .accepted .. => none

def ShareEvent.nonce : ShareEvent → Str
  | .rejected .. => []
  | .accepted _ _ _ _ _ _ _ _ nonce _ => nonce

def ShareEvent.solution : ShareEvent → Str
  | .rejected .. => []
  | .accepted _ _ _ _ _ _ _ _ _ solution => solution

def ShareEvent.headerHash : ShareEvent → Value
  | .rejected .. => none
  | .accepted _ _ _ _ _ _ headerHash _ _ _ => some (.str headerHash)

/-- `SubmitBlock`: the results come in the order of the answers. -/
def submitBlock (callback : List Report) : List Reply → List Report
  | [] => callback
  | result :: results =>
    if truthy result.error then []
    else if result.response.is "rejected" then []
    else submitBlock callback results

/-- `a === b`, where `b` is undefined or a string. -/
def identical (a b : Value) : Bool :=
  match a, b with
  | none, none => true
  | some (.str s), some (.str t) => s == t
  | _, _ => false

/-- `CheckBlockAccepted`. Without a result an exception escapes. -/
def checkBlockAccepted (headerHash : Value) (callback : Bool → List Report) : List Reply → List Report
  | [] => []
  | result :: _ =>
    callback <|
      match result.response with
      | none => false
      | some response => response.truthy && identical (response.field (literal "headerHash")) headerHash

/-- The `share` listener on the job manager, with the answers to `submitblock` and
`getHeaderByBlockNumber`. -/
def onShare (shareData : ShareEvent) (submitted headers : List Reply) : List Report :=
  let isValidShare := shareData.error.all (· == "")
  let isValidBlock := shareData.nonce != [] && shareData.solution != []
  let emitShare := fun isValidBlock : Bool => [Report.mk isValidShare isValidBlock shareData]
  if !isValidBlock then emitShare isValidBlock
  else submitBlock (checkBlockAccepted shareData.headerHash emitShare headers) submitted

end Code

section Once
variable (host : Host) (s : JobManager) (sh : Share)

def Reply.fails (r : Reply) : Bool := truthy r.error || r.response.is "rejected"

theorem submitBlock_eq (callback : List Report) (results : List Reply) :
    submitBlock callback results = if results.any Reply.fails then [] else callback := by
  induction results with
  | nil => rfl
  | cons r results ih =>
    rw [submitBlock, ih, List.any_cons, Reply.fails]
    cases truthy r.error <;> cases r.response.is "rejected" <;> rfl

theorem formatError_text {code : ℕ} {text : String} (h : sh.formatError host = some (code, text)) :
    text ≠ "" := by
  unfold Share.formatError at h
  split_ifs at h <;> cases h <;> decide

/-- The event of a share: an error with its text, or the nonce and the solution. -/
theorem processShare_event :
    (∃ code text, (s.processShare host sh).2.1 = ⟨some (code, text), false, none⟩ ∧ text ≠ "" ∧
      (s.processShare host sh).2.2 = .rejected sh.jobId sh.ipAddress sh.workerName text) ∨
    ((s.processShare host sh).2.1.error = none ∧ sh.nonce ≠ [] ∧
      (s.processShare host sh).2.2.error = none ∧ (s.processShare host sh).2.2.nonce = sh.nonce ∧
      (s.processShare host sh).2.2.solution = hexStr (hexDecode (sh.soln.drop 6))) := by
  obtain ⟨-, hp⟩ | ⟨ref, code, text, -, hformat, hp⟩ | ⟨ref, -, -, -, hp⟩ | ⟨ref, -, hformat, -, hp⟩ :=
    s.processShare_cases host sh
  · exact .inl ⟨21, "job not found", by rw [hp]; rfl, by decide, by rw [hp]; rfl⟩
  · exact .inl ⟨code, text, by rw [hp]; rfl, formatError_text host sh hformat, by rw [hp]; rfl⟩
  · exact .inl ⟨22, "duplicate share", by rw [hp]; rfl, by decide, by rw [hp]; rfl⟩
  · have hnonce : sh.nonce ≠ [] := by
      rintro hnil
      have hlen := (Share.formatError_eq_none.mp hformat).2.1
      rw [hnil] at hlen
      cases hlen
    rw [hp]
    unfold JobManager.judge
    dsimp only
    split_ifs
    · exact .inl ⟨20, "invalid solution", rfl, by decide, rfl⟩
    · exact .inl ⟨20, "Header hash larger than target", rfl, by decide, rfl⟩
    · exact .inr ⟨rfl, hnonce, rfl, rfl, rfl⟩

theorem onShare_plain {e : ShareEvent} (h : e.nonce = [] ∨ e.solution = [])
    (submitted headers : List Reply) :
    onShare e submitted headers = [⟨e.error.all (· == ""), false, e⟩] := by
  have hblock : (e.nonce != [] && e.solution != []) = false := by
    obtain h | h := h
    · rw [h, bne_self_eq_false, Bool.false_and]
    · rw [h, bne_self_eq_false, Bool.and_false]
  unfold onShare
  rw [hblock]
  rfl

theorem onShare_block {e : ShareEvent} (hnonce : e.nonce ≠ []) (hsolution : e.solution ≠ [])
    (submitted headers : List Reply) :
    onShare e submitted headers =
      if submitted.any Reply.fails then []
      else checkBlockAccepted e.headerHash
        (fun isValidBlock => [⟨e.error.all (· == ""), isValidBlock, e⟩]) headers := by
  have hblock : (e.nonce != [] && e.solution != []) = true :=
    Bool.and_eq_true_iff.mpr ⟨bne_iff_ne.mpr hnonce, bne_iff_ne.mpr hsolution⟩
  unfold onShare
  rw [hblock, ← submitBlock_eq]
  rfl

def ReportedOnce (submitted headers : List Reply) : Prop :=
  ∃ isValidBlock, onShare (s.processShare host sh).2.2 submitted headers =
    [⟨(s.processShare host sh).2.1.error.isNone, isValidBlock, (s.processShare host sh).2.2⟩]

/-- It is if it is no block, or if no daemon reports an error or a rejection. -/
theorem reported_once_iff (submitted headers : List Reply) :
    ReportedOnce host s sh submitted headers ↔
      (s.processShare host sh).2.1.error.isSome = true ∨ hexDecode (sh.soln.drop 6) = [] ∨
        (∀ r ∈ submitted, truthy r.error = false ∧ r.response.is "rejected" = false) ∧ headers ≠ [] := by
  have hfails : (∀ r ∈ submitted, truthy r.error = false ∧ r.response.is "rejected" = false) ↔
      submitted.any Reply.fails = false := by
    simp only [List.any_eq_false, Reply.fails, Bool.or_eq_true, not_or, Bool.not_eq_true]
  unfold ReportedOnce
  obtain ⟨code, text, hresponse, htext, hevent⟩ | ⟨herror, hnonce, hnone, hn, hsolution⟩ :=
    processShare_event host s sh
  · -- a share with an error is reported at once
    rw [hresponse, hevent, onShare_plain (.inl rfl)]
    refine iff_of_true ⟨false, ?_⟩ (.inl rfl)
    rw [ShareEvent.error, Option.all_some, beq_eq_false_iff_ne.mpr htext, Option.isNone_some]
  rw [herror, hfails]
  by_cases hdecoded : hexDecode (sh.soln.drop 6) = []
  · rw [onShare_plain (.inr (by rw [hsolution, hdecoded, hexStr_nil])), hnone]
    exact iff_of_true ⟨false, rfl⟩ (.inr (.inl hdecoded))
  have hsoln : (s.processShare host sh).2.2.solution ≠ [] := by
    rw [hsolution]
    intro hnil
    have hlen := congrArg List.length hnil
    rw [length_hexStr] at hlen
    exact hdecoded (List.length_eq_zero_iff.mp ((Nat.mul_eq_zero.mp hlen).resolve_left (by decide)))
  rw [onShare_block (hn ▸ hnonce) hsoln, hnone]
  cases submitted.any Reply.fails with
  | true => simp [hdecoded]
  | false =>
    cases headers with
    | nil => simp [hdecoded, checkBlockAccepted]
    | cons r headers => simp [hdecoded, checkBlockAccepted]

end Once

section Unreported

def offline : Reply where
  error := some (.obj [(literal "type", .str (literal "offline"))])
  response := none

theorem share_unreported :
    ((opened.processShare plantedHost (shareOf earlier (run 9 0))).2.1.error.isNone = true) ∧
      onShare (opened.processShare plantedHost (shareOf earlier (run 9 0))).2.2 [⟨none, some (.bool true)⟩, offline]
        [⟨none, some (.obj [(literal "headerHash", .str openTemplate.headerHash)])⟩] = [] := by
  have hlen : (run 9 0).length = 512 := length_run 9 0
  have hresult := (Answer.mem_accepted (accepted_opened length_earlier)).1
  obtain ⟨code, text, hresponse, -⟩ | ⟨herror, hnonce, -, hn, hsolution⟩ :=
    processShare_event plantedHost opened (shareOf earlier (run 9 0))
  · rw [JobManager.answer, hresponse] at hresult
    cases hresult
  refine ⟨by rw [herror]; rfl, ?_⟩
  have hsoln : (opened.processShare plantedHost (shareOf earlier (run 9 0))).2.2.solution ≠ [] := by
    rw [hsolution, hexDecode_shareOf]
    intro hnil
    have hlength := congrArg List.length hnil
    rw [length_hexStr, length_getMinimalFromIndices hlen] at hlength
    cases hlength
  rw [onShare_block (hn ▸ hnonce) hsoln]
  exact if_pos (by decide)

end Unreported
end Aion.Pool
