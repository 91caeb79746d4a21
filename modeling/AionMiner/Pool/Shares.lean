import AionMiner.Pool.JobManager

/-! Runs of the job manager: the answer to a share depends on the share, on its job, and on whether
a share with the same key has come before. -/

namespace Aion.Pool
open Bits Equihash Text

namespace Share
variable (host : Host) (sh : Share)

def key : Str :=
  toLowerCase host.unicodeLower sh.extraNonce1 ++ toLowerCase host.unicodeLower sh.extraNonce2 ++
    sh.nTime ++ sh.nonce

/-- The first of the four format checks that fails. -/
def formatError : Option (ℕ × String) :=
  if sh.nTime.length ≠ 16 then some (20, "incorrect size of ntime")
  else if sh.nonce.length ≠ 64 then some (20, "incorrect size of nonce")
  else if sh.soln.length ≠ 2822 then some (20, "incorrect size of solution")
  else if !isHexString host.unicodeLower sh.extraNonce2 then some (20, "invalid hex in extraNonce2")
  else none

theorem formatError_eq_none {host : Host} {sh : Share} : sh.formatError host = none ↔
    sh.nTime.length = 16 ∧ sh.nonce.length = 64 ∧ sh.soln.length = 2822 ∧
      isHexString host.unicodeLower sh.extraNonce2 = true := by
  unfold formatError
  split_ifs <;> simp_all

theorem formatError_code {host : Host} {sh : Share} {code : ℕ} {text : String}
    (h : sh.formatError host = some (code, text)) : code = 20 := by
  unfold formatError at h
  split_ifs at h <;> cases h <;> rfl

/-- The 32 bytes the nonce stands for, and the 1408 bytes of the solution. -/
def nonceBytes : List Byte := writeHex (List.replicate 32 0) sh.nonce 0 32
def solutionBytes : List Byte := writeHex (List.replicate 1408 0) (sh.soln.drop 6) 0 1408

/-- The solution is valid, and meets the target. -/
def Meets (job : BlockTemplate) : Prop :=
  host.hashDigest (job.serializeHeader sh.nonce) (hexDecode (sh.soln.drop 6)) = true ∧
    job.overTarget host (host.blake2 (job.serializeHeaderTarget sh.nonce sh.soln)) = false

end Share

inductive Call where
  | processTemplate (rpcData : RpcData)
  | processShare (sh : Share)

/-- A share, the job its number meant when it came, and what it was answered. -/
structure Answer where
  ref : Option ℕ
  job : BlockTemplate
  share : Share
  response : Response

def duplicate : Response := ⟨some (22, "duplicate share"), false, none⟩

namespace JobManager

def lookup (s : JobManager) (sh : Share) : Option ℕ :=
  (s.validJobs sh.jobId).filter fun ref => (s.jobs ref).jobId = sh.jobId

def answer (host : Host) (s : JobManager) (sh : Share) : Answer :=
  ⟨s.lookup sh, s.jobs ((s.lookup sh).getD 0), sh, (s.processShare host sh).2.1⟩

@[simp] theorem answer_share (host : Host) (s : JobManager) (sh : Share) :
    (s.answer host sh).share = sh := rfl

def answers (host : Host) : JobManager → List Call → List Answer
  | _, [] => []
  | s, .processTemplate rpcData :: calls => answers host (s.processTemplate host rpcData).1 calls
  | s, .processShare sh :: calls => s.answer host sh :: answers host (s.processShare host sh).1 calls

end JobManager

namespace Answer
variable (host : Host)

/-- The share passes the format checks, so that it is looked up and remembered. -/
def Formed (a : Answer) : Prop := a.share.formatError host = none

instance (a : Answer) : Decidable (a.Formed host) := inferInstanceAs (Decidable (_ = _))

/-- Nothing but a duplicate answer keeps the share from being accepted. -/
def Good (a : Answer) : Prop := a.ref.isSome ∧ a.Formed host ∧ a.share.Meets host a.job

def SameKey (a b : Answer) : Prop := a.ref = b.ref ∧ a.share.key host = b.share.key host

instance (a b : Answer) : Decidable (a.SameKey host b) := inferInstanceAs (Decidable (_ ∧ _))

def SameNonce (a b : Answer) : Prop := a.share.nonceBytes = b.share.nonceBytes
def SameSolution (a b : Answer) : Prop := a.share.solutionBytes = b.share.solutionBytes

def accepted (a : Answer) : Option (ℕ × List Byte × List Byte) :=
  if a.response.result then a.ref.map fun ref => (ref, a.share.nonceBytes, a.share.solutionBytes) else none

def registrant (b : Answer) (past : List Answer) : Option Answer :=
  past.find? fun a => a.Formed host ∧ a.SameKey host b

theorem registrant_isSome {past : List Answer} {b : Answer} :
    (b.registrant host past).isSome ↔ ∃ a ∈ past, a.Formed host ∧ a.SameKey host b := by
  simp [registrant]

end Answer

section Step
variable {host : Host} {s : JobManager} {sh : Share}

namespace JobManager

def register (host : Host) (s : JobManager) (ref : ℕ) (sh : Share) : JobManager :=
  { s with jobs := Function.update s.jobs ref { s.jobs ref with submits := (s.jobs ref).submits ++ [sh.key host] } }

def judge (host : Host) (s : JobManager) (job : BlockTemplate) (sh : Share) : JobManager × Response × ShareEvent :=
  let headerBuffer := job.serializeHeader sh.nonce
  let solution := hexDecode (sh.soln.drop 6)
  let completeHeaderHash := host.blake2 (job.serializeHeaderTarget sh.nonce sh.soln)
  if host.hashDigest headerBuffer solution ≠ true then s.shareError sh 20 "invalid solution"
  else if job.overTarget host completeHeaderHash then s.shareError sh 20 "Header hash larger than target"
  else
    (s,
      { error := none
        result := true
        blockHash := some (hexStr (host.blake2 (headerBuffer ++ solution)).reverse) },
      .accepted sh.jobId sh.ipAddress sh.port sh.workerName job.rpcData.height (hexStr completeHeaderHash)
        job.rpcData.headerHash sh.nTime sh.nonce (hexStr solution))

theorem judge_state (job : BlockTemplate) : (s.judge host job sh).1 = s := by
  simp only [judge, shareError]
  split_ifs <;> rfl

theorem judge_result (job : BlockTemplate) :
    (s.judge host job sh).2.1.result = true ↔ sh.Meets host job := by
  simp only [judge, shareError, Share.Meets]
  split_ifs <;> simp_all

theorem judge_ne_duplicate (job : BlockTemplate) : (s.judge host job sh).2.1 ≠ duplicate := by
  simp only [judge, shareError, duplicate]
  split_ifs <;> simp

theorem processShare_known {ref : ℕ} (hvalid : s.validJobs sh.jobId = some ref)
    (hid : (s.jobs ref).jobId = sh.jobId) : s.processShare host sh =
      match sh.formatError host with
      | some e => s.shareError sh e.1 e.2
      | none =>
        if sh.key host ∈ (s.jobs ref).submits then s.shareError sh 22 "duplicate share"
        else (s.register host ref sh).judge host (s.jobs ref) sh := by
  -- The format checks, then the registration, then the hashes
  simp only [processShare, hvalid]
  rw [if_neg (not_not.mpr hid)]
  by_cases hseen : sh.key host ∈ (s.jobs ref).submits
  · rw [if_pos hseen, show (s.jobs ref).registerSubmit _ _ _ _ = (false, s.jobs ref) from if_pos hseen]
    unfold Share.formatError
    split_ifs <;> rfl
  · rw [if_neg hseen, show (s.jobs ref).registerSubmit _ _ _ _ = (true, _) from if_neg hseen]
    unfold Share.formatError
    split_ifs <;> rfl

theorem processShare_cases (host : Host) (s : JobManager) (sh : Share) :
    (s.lookup sh = none ∧ s.processShare host sh = s.shareError sh 21 "job not found") ∨
    (∃ ref code text, s.lookup sh = some ref ∧ sh.formatError host = some (code, text) ∧
      s.processShare host sh = s.shareError sh code text) ∨
    (∃ ref, s.lookup sh = some ref ∧ sh.formatError host = none ∧ sh.key host ∈ (s.jobs ref).submits ∧
      s.processShare host sh = s.shareError sh 22 "duplicate share") ∨
    (∃ ref, s.lookup sh = some ref ∧ sh.formatError host = none ∧ sh.key host ∉ (s.jobs ref).submits ∧
      s.processShare host sh = (s.register host ref sh).judge host (s.jobs ref) sh) := by
  unfold lookup
  cases hvalid : s.validJobs sh.jobId with
  | none => exact .inl ⟨rfl, by simp [processShare, hvalid]⟩
  | some ref =>
    by_cases hid : (s.jobs ref).jobId = sh.jobId
    · rw [Option.filter_some, if_pos (by simpa using hid), processShare_known hvalid hid]
      cases hformat : sh.formatError host with
      | some e => exact .inr (.inl ⟨ref, e.1, e.2, rfl, rfl, rfl⟩)
      | none =>
        by_cases hseen : sh.key host ∈ (s.jobs ref).submits
        · exact .inr (.inr (.inl ⟨ref, rfl, rfl, hseen, by simp [hseen]⟩))
        · exact .inr (.inr (.inr ⟨ref, rfl, rfl, hseen, by simp [hseen]⟩))
    · exact .inl ⟨by simp [hid], by simp [processShare, hvalid, hid]⟩

theorem answer_accepted : (s.answer host sh).response.result = true ↔
    ∃ ref, s.lookup sh = some ref ∧ sh.formatError host = none ∧
    sh.key host ∉ (s.jobs ref).submits ∧
      sh.Meets host (s.jobs ref) := by
  unfold answer
  obtain ⟨href, hp⟩ | ⟨ref, code, text, href, hformat, hp⟩ | ⟨ref, href, hformat, hseen, hp⟩ |
    ⟨ref, href, hformat, hseen, hp⟩ := s.processShare_cases host sh
  · simp [hp, href, shareError]
  · simp [hp, hformat, shareError]
  · simp [hp, href, hseen, shareError]
  · simp [hp, href, hformat, hseen, judge_result]

theorem answer_duplicate : (s.answer host sh).response = duplicate ↔
    ∃ ref, s.lookup sh = some ref ∧ sh.formatError host = none ∧
    sh.key host ∈ (s.jobs ref).submits := by
  unfold answer
  obtain ⟨href, hp⟩ | ⟨ref, code, text, href, hformat, hp⟩ | ⟨ref, href, hformat, hseen, hp⟩ |
    ⟨ref, href, hformat, hseen, hp⟩ := s.processShare_cases host sh
  · simp [hp, href, shareError, duplicate]
  · simp [hp, hformat, shareError, duplicate, Share.formatError_code hformat]
  · simp [hp, href, hformat, hseen, shareError, duplicate]
  · simp [hp, href, hseen, judge_ne_duplicate]

/-- A share changes what its job remembers, and nothing else. -/
theorem processShare_frame (host : Host) (s : JobManager) (sh : Share) :
    (s.processShare host sh).1.validJobs = s.validJobs ∧ (s.processShare host sh).1.created = s.created ∧
    (∀ ref, ∃ submits, (s.processShare host sh).1.jobs ref = { s.jobs ref with submits := submits }) ∧
    ∀ ref k, k ∈ ((s.processShare host sh).1.jobs ref).submits ↔
      k ∈ (s.jobs ref).submits ∨ s.lookup sh = some ref ∧ sh.formatError host = none ∧ sh.key host = k := by
  obtain ⟨href, hp⟩ | ⟨ref, code, text, href, hformat, hp⟩ | ⟨ref, href, hformat, hseen, hp⟩ |
    ⟨ref, href, hformat, hseen, hp⟩ := s.processShare_cases host sh
  · rw [hp]
    exact ⟨rfl, rfl, fun r => ⟨_, rfl⟩, by simp [href, shareError]⟩
  · rw [hp]
    exact ⟨rfl, rfl, fun r => ⟨_, rfl⟩, by simp [hformat, shareError]⟩
  · rw [hp]
    refine ⟨rfl, rfl, fun r => ⟨_, rfl⟩, fun r k => ⟨.inl, Or.rec id ?_⟩⟩
    rintro ⟨hr, -, rfl⟩
    cases href.symm.trans hr
    exact hseen
  · rw [hp, judge_state]
    refine ⟨rfl, rfl, fun r => ?_, fun r k => ?_⟩
    · by_cases hr : r = ref
      · exact ⟨(s.jobs ref).submits ++ [sh.key host], by simp [hr, register]⟩
      · exact ⟨(s.jobs r).submits, by simp [register, hr]⟩
    · by_cases hr : r = ref
      · simp [register, hr, href, hformat, eq_comm]
      · simp [register, hr, href, Ne.symm hr]

theorem lookup_valid {ref : ℕ} (h : s.lookup sh = some ref) : s.validJobs sh.jobId = some ref :=
  (Option.filter_eq_some_iff.mp h).1

theorem lookup_processShare (host : Host) (s : JobManager) (sh sh' : Share) :
    (s.processShare host sh).1.lookup sh' = s.lookup sh' := by
  obtain ⟨hvalid, -, hjobs, -⟩ := processShare_frame host s sh
  unfold lookup
  rw [hvalid]
  congr 1
  funext ref
  obtain ⟨submits, hjob⟩ := hjobs ref
  rw [hjob]

theorem processTemplate_cases (host : Host) (s : JobManager) (rpcData : RpcData) :
    (∃ c, (s.processTemplate host rpcData).1 = { s with jobCounter := c } ∧
      (s.processTemplate host rpcData).2.2 = []) ∨
    (∃ c job, blockTemplate host c.cur rpcData = some job ∧
      (s.processTemplate host rpcData).1 =
        { s with
          jobCounter := c
          jobs := Function.update s.jobs s.created job
          created := s.created + 1
          currentJob := some s.created
          validJobs := Function.update s.validJobs job.jobId (some s.created) } ∧
      (s.processTemplate host rpcData).2.2 = [.newBlock job]) := by
  unfold processTemplate
  split_ifs with hnew
  · exact .inl ⟨s.jobCounter, rfl, rfl⟩
  · dsimp only
    split
    · exact .inl ⟨_, rfl, rfl⟩
    · next job hjob => exact .inr ⟨_, job, hjob, rfl, rfl⟩

end JobManager
end Step

section Invariant
variable {host : Host} {s : JobManager} {past : List Answer}

structure Tracks (host : Host) (s : JobManager) (past : List Answer) : Prop where
  valid : ∀ id ref, s.validJobs id = some ref → ref < s.created
  known : ∀ a ∈ past, ∀ ref, a.ref = some ref → ref < s.created
  submits : ∀ ref < s.created, ∀ k, k ∈ (s.jobs ref).submits ↔
    ∃ a ∈ past, a.ref = some ref ∧ a.Formed host ∧ a.share.key host = k

/-- What the answer to a share says of the shares before it. -/
structure Judged (host : Host) (past : List Answer) (b : Answer) : Prop where
  accepted : b.response.result = true ↔ b.Good host ∧ b.registrant host past = none
  duplicate : b.response = duplicate ↔ b.ref.isSome ∧ b.Formed host ∧ (b.registrant host past).isSome

theorem tracks_init : Tracks host .init [] where
  valid _ _ h := by cases h
  known _ h := by cases h
  submits _ h := absurd h (Nat.not_lt_zero _)

theorem Tracks.processTemplate (h : Tracks host s past) (rpcData : RpcData) :
    Tracks host (s.processTemplate host rpcData).1 past := by
  obtain ⟨c, hs, -⟩ | ⟨c, job, hjob, hs, -⟩ := s.processTemplate_cases host rpcData
  · rw [hs]
    exact ⟨h.valid, h.known, h.submits⟩
  · rw [hs]
    refine ⟨fun id ref hid => ?_, fun a ha ref href => Nat.lt_succ_of_lt (h.known a ha ref href),
      fun ref href k => ?_⟩
    · dsimp only at hid ⊢
      by_cases heq : id = job.jobId
      · rw [heq, Function.update_self, Option.some_inj] at hid
        exact hid ▸ Nat.lt_succ_self _
      · rw [Function.update_of_ne heq] at hid
        exact Nat.lt_succ_of_lt (h.valid id ref hid)
    · dsimp only at href ⊢
      rcases Nat.lt_succ_iff_lt_or_eq.mp href with hlt | rfl
      · rw [Function.update_of_ne hlt.ne]
        exact h.submits ref hlt k
      · rw [Function.update_self, (blockTemplate_some hjob).2.2.1]
        refine iff_of_false List.not_mem_nil ?_
        rintro ⟨a, ha, href', -⟩
        exact absurd (h.known a ha _ href') (Nat.lt_irrefl _)

theorem Tracks.registrant_isSome (h : Tracks host s past) {sh : Share} {ref : ℕ}
    (href : s.lookup sh = some ref) :
    ((s.answer host sh).registrant host past).isSome ↔ sh.key host ∈ (s.jobs ref).submits := by
  -- A key is remembered when a share has registered it
  rw [Answer.registrant_isSome, h.submits ref (h.valid _ _ (JobManager.lookup_valid href))]
  simp only [Answer.SameKey, JobManager.answer, href]
  grind

theorem Tracks.processShare (h : Tracks host s past) (sh : Share) :
    Tracks host (s.processShare host sh).1 (past ++ [s.answer host sh]) := by
  -- A share extends the history
  obtain ⟨hvalid, hcreated, -, hsubmits⟩ := JobManager.processShare_frame host s sh
  refine ⟨fun id ref hid => ?_, fun a ha ref href => ?_, fun ref hlt k => ?_⟩
  · rw [hvalid] at hid
    exact hcreated ▸ h.valid id ref hid
  · rw [hcreated]
    rcases List.mem_append.mp ha with ha | ha
    · exact h.known a ha ref href
    · rw [List.mem_singleton.mp ha] at href
      exact h.valid _ _ (JobManager.lookup_valid href)
  · rw [hcreated] at hlt
    rw [hsubmits ref k, h.submits ref hlt k]
    simp [or_and_right, exists_or, JobManager.answer, Answer.Formed]

theorem Tracks.judged (h : Tracks host s past) (sh : Share) :
    Judged host past (s.answer host sh) := by
  -- The answer to the share tells whether its key was registered
  constructor
  · rw [JobManager.answer_accepted]
    cases href : s.lookup sh with
    | none => simp [Answer.Good, JobManager.answer, href]
    | some ref =>
      have hreg := h.registrant_isSome href
      rw [← Option.not_isSome_iff_eq_none (o := (s.answer host sh).registrant host past), hreg]
      simp [Answer.Good, Answer.Formed, JobManager.answer, href]
      tauto
  · rw [JobManager.answer_duplicate]
    cases href : s.lookup sh with
    | none => simp [JobManager.answer, href]
    | some ref =>
      rw [h.registrant_isSome href]
      simp [Answer.Formed, JobManager.answer, href]

/-- In a run every answer is judged by the answers before it. -/
theorem judged_of_answers {calls : List Call} {pre post : List Answer} {b : Answer}
    (h : Tracks host s past) (hrun : s.answers host calls = pre ++ b :: post) :
    Judged host (past ++ pre) b := by
  induction calls generalizing s past pre with
  | nil => simp [JobManager.answers] at hrun
  | cons call calls ih =>
    cases call with
    | processTemplate rpcData => exact ih (h.processTemplate rpcData) hrun
    | processShare sh =>
      rw [JobManager.answers] at hrun
      rcases pre with _ | ⟨a, pre⟩
      · rw [List.nil_append, List.cons.injEq] at hrun
        rw [List.append_nil, ← hrun.1]
        exact h.judged sh
      · rw [List.cons_append, List.cons.injEq] at hrun
        rw [← hrun.1, List.append_cons]
        exact ih (h.processShare sh) hrun.2

end Invariant
end Aion.Pool
