import AionMiner.Pool.Duplicates

/-! Which block the accepted shares are for. `validJobs` keeps the jobs of every block so far, until
the job counter comes round to their numbers again. -/

namespace Aion.Pool
open Text Wagner Solver

namespace JobManager

def run (host : Host) : JobManager → List Call → JobManager
  | s, [] => s
  | s, .processTemplate rpcData :: calls => run host (s.processTemplate host rpcData).1 calls
  | s, .processShare sh :: calls => run host (s.processShare host sh).1 calls

end JobManager

def Event.template : Event → Option BlockTemplate
  | .newBlock job => some job
  | .share _ => none

def JobManager.announced (host : Host) : JobManager → List Call → List BlockTemplate
  | _, [] => []
  | s, .processTemplate rpcData :: calls =>
    (s.processTemplate host rpcData).2.2.filterMap Event.template ++
      announced host (s.processTemplate host rpcData).1 calls
  | s, .processShare sh :: calls => announced host (s.processShare host sh).1 calls

/-- The last of some templates that has a job number. -/
def lastNamed (templates : List BlockTemplate) (jobId : Str) : Option BlockTemplate :=
  templates.reverse.find? fun job => job.jobId = jobId

theorem lastNamed_concat (templates : List BlockTemplate) (job : BlockTemplate) (jobId : Str) :
    lastNamed (templates ++ [job]) jobId = if job.jobId = jobId then some job else lastNamed templates jobId := by
  unfold lastNamed
  rw [List.reverse_append, List.reverse_singleton, List.singleton_append, List.find?_cons]
  split_ifs with h <;> simp [h]

theorem jobId_of_lastNamed {templates : List BlockTemplate} {job : BlockTemplate} {jobId : Str}
    (h : lastNamed templates jobId = some job) : job.jobId = jobId := by
  simpa using List.find?_some h

section Invariant
variable {host : Host} {s : JobManager} {templates : List BlockTemplate}

/-- The current job is the last one announced, and a number stands for the last job announced with it. -/
structure Follows (s : JobManager) (templates : List BlockTemplate) : Prop where
  current : s.currentJob.map (fun ref => (s.jobs ref).rpcData) = templates.getLast?.map (·.rpcData)
  named : ∀ id, (s.validJobs id).map (fun ref => { s.jobs ref with submits := [] }) = lastNamed templates id
  bound : ∀ ref, s.currentJob = some ref ∨ (∃ id, s.validJobs id = some ref) → ref < s.created

theorem follows_init : Follows .init [] where
  current := rfl
  named _ := rfl
  bound := by
    rintro ref (h | ⟨id, h⟩) <;> cases h

theorem Follows.processTemplate (h : Follows s templates) (rpcData : RpcData) :
    Follows (s.processTemplate host rpcData).1
      (templates ++ (s.processTemplate host rpcData).2.2.filterMap Event.template) := by
  obtain ⟨c, hs, hevents⟩ | ⟨c, job, hjob, hs, hevents⟩ := s.processTemplate_cases host rpcData
  · rw [hs, hevents, List.filterMap_nil, List.append_nil]
    exact ⟨h.current, h.named, h.bound⟩
  · rw [hs, hevents]
    change Follows _ (templates ++ [job])
    refine ⟨?_, fun id => ?_, fun ref href => ?_⟩
    · simp
    · rw [lastNamed_concat]
      dsimp only
      split_ifs with hid
      · rw [← hid, Function.update_self, Option.map_some, Function.update_self,
          ← (blockTemplate_some hjob).2.2.1]
      · rw [Function.update_of_ne (Ne.symm hid), ← h.named id]
        cases hvalid : s.validJobs id with
        | none => rfl
        | some ref =>
          have hne : ref ≠ s.created := (h.bound ref (.inr ⟨id, hvalid⟩)).ne
          rw [Option.map_some, Option.map_some, Function.update_of_ne hne]
    · rcases href with href | ⟨id, hid⟩
      · cases href
        exact Nat.lt_succ_self _
      · dsimp only at hid
        by_cases heq : id = job.jobId
        · rw [heq, Function.update_self, Option.some_inj] at hid
          exact hid ▸ Nat.lt_succ_self _
        · rw [Function.update_of_ne heq] at hid
          exact Nat.lt_succ_of_lt (h.bound ref (.inr ⟨id, hid⟩))

theorem currentJob_processShare (host : Host) (s : JobManager) (sh : Share) :
    (s.processShare host sh).1.currentJob = s.currentJob := by
  obtain ⟨-, hp⟩ | ⟨ref, code, text, -, -, hp⟩ | ⟨ref, -, -, -, hp⟩ | ⟨ref, -, -, -, hp⟩ :=
    s.processShare_cases host sh
  · rw [hp, JobManager.shareError]
  · rw [hp, JobManager.shareError]
  · rw [hp, JobManager.shareError]
  · rw [hp, JobManager.judge_state, JobManager.register]

theorem Follows.processShare (h : Follows s templates) (sh : Share) :
    Follows (s.processShare host sh).1 templates := by
  obtain ⟨hvalid, hcreated, hjobs, -⟩ := JobManager.processShare_frame host s sh
  have hcurrent := currentJob_processShare host s sh
  refine ⟨?_, fun id => ?_, ?_⟩
  · rw [hcurrent, ← h.current]
    congr 1
    funext ref
    obtain ⟨submits, hjob⟩ := hjobs ref
    rw [hjob]
  · rw [hvalid, ← h.named id]
    congr 1
    funext ref
    obtain ⟨submits, hjob⟩ := hjobs ref
    rw [hjob]
  · rw [hcurrent, hvalid, hcreated]
    exact h.bound

theorem follows_run (h : Follows s templates) (calls : List Call) :
    Follows (s.run host calls) (templates ++ s.announced host calls) := by
  induction calls generalizing s templates with
  | nil =>
    rw [JobManager.announced, List.append_nil]
    exact h
  | cons call calls ih =>
    cases call with
    | processTemplate rpcData =>
      have hstep : Follows (s.processTemplate host rpcData).1 _ := h.processTemplate rpcData
      have hrun := ih hstep
      rwa [List.append_assoc] at hrun
    | processShare sh => exact ih (h.processShare sh)

theorem tracks_run {past : List Answer} (h : Tracks host s past) (calls : List Call) :
    Tracks host (s.run host calls) (past ++ s.answers host calls) := by
  induction calls generalizing s past with
  | nil =>
    rw [JobManager.answers, List.append_nil]
    exact h
  | cons call calls ih =>
    cases call with
    | processTemplate rpcData => exact ih (h.processTemplate rpcData)
    | processShare sh =>
      rw [JobManager.answers, List.append_cons]
      exact ih (h.processShare sh)

theorem Follows.lookup (h : Follows s templates) (sh : Share) :
    (s.lookup sh).map (fun ref => { s.jobs ref with submits := [] }) =
      lastNamed templates sh.jobId := by
  -- A share is looked up among the jobs announced
  have hnamed := h.named sh.jobId
  unfold JobManager.lookup
  cases hvalid : s.validJobs sh.jobId with
  | none => rw [← hnamed, hvalid, Option.filter_none]
  | some ref =>
    rw [hvalid, Option.map_some] at hnamed
    have hid : { s.jobs ref with submits := [] }.jobId = sh.jobId := jobId_of_lastNamed hnamed.symm
    rw [← hnamed, Option.filter_some, if_pos (decide_eq_true hid), Option.map_some]

end Invariant

section Blocks
variable {host : Host} {calls : List Call}

/-- Every share that is accepted is for a job on the same block as the current one. -/
def OnCurrentBlock (host : Host) (calls : List Call) : Prop :=
  ∀ pre sh post, calls = pre ++ .processShare sh :: post →
    ((JobManager.init.run host pre).answer host sh).response.result = true →
      ∃ cur, (JobManager.init.run host pre).currentJob = some cur ∧
        ((JobManager.init.run host pre).answer host sh).job.rpcData.previousblockhash =
          ((JobManager.init.run host pre).jobs cur).rpcData.previousblockhash

/-- Every share that passes the format checks, is the first with its key for its job, is valid and
meets the target carries the number of a job announced for the same block as the last one. -/
def NamesCurrent (host : Host) (calls : List Call) : Prop :=
  ∀ pre sh post, calls = pre ++ .processShare sh :: post →
    ∀ job ∈ lastNamed (JobManager.init.announced host pre) sh.jobId, sh.formatError host = none →
      ((JobManager.init.run host pre).answer host sh).registrant host (JobManager.init.answers host pre) = none →
        sh.Meets host job →
          ∀ last ∈ (JobManager.init.announced host pre).getLast?,
            job.rpcData.previousblockhash = last.rpcData.previousblockhash

theorem follows_init_run (host : Host) (calls : List Call) :
    Follows (JobManager.init.run host calls) (JobManager.init.announced host calls) :=
  follows_run follows_init calls

theorem tracks_init_run (host : Host) (calls : List Call) :
    Tracks host (JobManager.init.run host calls) (JobManager.init.answers host calls) :=
  tracks_run tracks_init calls

/-- The share is accepted when its job has been announced, and is the right one. -/
theorem accepted_iff (pre : List Call) (sh : Share) :
    ((JobManager.init.run host pre).answer host sh).response.result = true ↔
      ∃ job ∈ lastNamed (JobManager.init.announced host pre) sh.jobId, sh.formatError host = none ∧
        ((JobManager.init.run host pre).answer host sh).registrant host (JobManager.init.answers host pre) = none ∧
          sh.Meets host job := by
  have hfollows := (follows_init_run host pre).lookup sh
  have hjudged := ((tracks_init_run host pre).judged sh).accepted
  rw [hjudged, ← hfollows]
  constructor
  · rintro ⟨⟨href, hformed, hmeets⟩, hfresh⟩
    obtain ⟨ref, href⟩ := Option.isSome_iff_exists.mp href
    have hlookup : (JobManager.init.run host pre).lookup sh = some ref := href
    rw [JobManager.answer, hlookup] at hmeets
    rw [hlookup]
    exact ⟨_, rfl, hformed, hfresh, hmeets⟩
  · rintro ⟨job, hjob, hformed, hfresh, hmeets⟩
    obtain ⟨ref, hlookup, rfl⟩ := Option.map_eq_some_iff.mp hjob
    refine ⟨⟨?_, hformed, ?_⟩, hfresh⟩
    · rw [JobManager.answer, hlookup]
      rfl
    · rw [JobManager.answer, hlookup]
      exact hmeets

theorem answer_rpcData {pre : List Call} {sh : Share} {job : BlockTemplate}
    (hjob : job ∈ lastNamed (JobManager.init.announced host pre) sh.jobId) :
    ((JobManager.init.run host pre).answer host sh).job.rpcData = job.rpcData := by
  rw [← (follows_init_run host pre).lookup sh] at hjob
  obtain ⟨ref, hlookup, rfl⟩ := Option.map_eq_some_iff.mp hjob
  rw [JobManager.answer, hlookup]
  rfl

/-- A run accepts for the current block alone exactly when no share for an older one is good. -/
theorem on_current_block_iff (host : Host) (calls : List Call) :
    OnCurrentBlock host calls ↔ NamesCurrent host calls := by
  refine forall₄_congr fun pre sh post _ => ?_
  have hcurrent := (follows_init_run host pre).current
  rw [accepted_iff]
  constructor
  · intro h job hjob hformed hfresh hmeets last hlast
    obtain ⟨cur, hcur, hblock⟩ := h ⟨job, hjob, hformed, hfresh, hmeets⟩
    rw [hcur, Option.mem_def.mp hlast, Option.map_some, Option.map_some,
      Option.some_inj] at hcurrent
    rw [← hcurrent, ← hblock, answer_rpcData hjob]
  · rintro h ⟨job, hjob, hformed, hfresh, hmeets⟩
    have hne : JobManager.init.announced host pre ≠ [] := by
      intro hnil
      rw [hnil] at hjob
      cases hjob
    have hlast := List.getLast?_eq_some_getLast hne
    rw [hlast, Option.map_some] at hcurrent
    obtain ⟨cur, hcur, hdata⟩ := Option.map_eq_some_iff.mp hcurrent
    refine ⟨cur, hcur, ?_⟩
    rw [answer_rpcData hjob, hdata]
    exact h job hjob hformed hfresh hmeets _ hlast

def nextTemplate : RpcData := { openTemplate with previousblockhash := hexStr (List.replicate 32 1) }

def nextJob : BlockTemplate := { openJob with rpcData := nextTemplate, jobId := [unit '2'] }

def moved : JobManager :=
  { opened with
    jobCounter := ⟨2⟩
    jobs := Function.update opened.jobs 1 nextJob
    created := 2
    currentJob := some 1
    validJobs := Function.update opened.validJobs [unit '2'] (some 1) }

theorem processTemplate_opened : (opened.processTemplate plantedHost nextTemplate).1 = moved := by
  have hlen : ¬(hexDecode nextTemplate.previousblockhash).length < 32 := by
    simp [nextTemplate, -List.reduceReplicate]
  have hne : openTemplate.previousblockhash ≠ nextTemplate.previousblockhash := by decide
  have hcur : opened.jobCounter.next.cur = [unit '2'] := rfl
  have hsome : nextTemplate.target ≠ [] := List.cons_ne_nil _ _
  have hjob : blockTemplate plantedHost [unit '2'] nextTemplate = some nextJob := blockTemplate_eq hsome rfl hlen
  have hnew : opened.isNewBlock nextTemplate = true := by
    unfold JobManager.isNewBlock
    exact Bool.and_eq_true_iff.mpr ⟨bne_iff_ne.mpr hne, rfl⟩
  simp only [JobManager.processTemplate, hcur, hjob, hnew]
  rfl

/-- After a block change the job before it still counts. -/
theorem accepts_stale :
    ¬OnCurrentBlock plantedHost
      [.processTemplate openTemplate, .processTemplate nextTemplate, .processShare (shareOf earlier (run 9 0))] := by
  intro h
  have hrun : JobManager.init.run plantedHost
      [.processTemplate openTemplate, .processTemplate nextTemplate] = moved := by
    rw [JobManager.run, processTemplate_init, JobManager.run, processTemplate_opened,
      JobManager.run]
  have hlookup : moved.lookup (shareOf earlier (run 9 0)) = some 0 := by
    have hvalid : moved.validJobs [unit '1'] = some 0 := by decide
    unfold JobManager.lookup
    rw [show (shareOf earlier (run 9 0)).jobId = [unit '1'] from rfl, hvalid]
    rfl
  have hmeets : (shareOf earlier (run 9 0)).Meets plantedHost (moved.jobs 0) := meets_planted
  obtain ⟨cur, hcur, hblock⟩ := h [.processTemplate openTemplate, .processTemplate nextTemplate] _ [] rfl (by
    rw [hrun]
    exact JobManager.answer_accepted.mpr
      ⟨0, hlookup, formatError_shareOf length_earlier (length_run 9 0), List.not_mem_nil, hmeets⟩)
  rw [hrun] at hcur hblock
  cases hcur
  rw [JobManager.answer, hlookup] at hblock
  exact absurd hblock (by decide)

end Blocks
end Aion.Pool
