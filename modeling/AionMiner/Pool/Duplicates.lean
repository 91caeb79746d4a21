import AionMiner.Pool.Shares
import AionMiner.Solver.Planted

/-! Which shares the pool counts, and which ones it turns away as duplicates. The key that is
remembered covers the time field and leaves out the solution, so both answers can be wrong. -/

namespace Aion.Pool
open Bits Equihash Text Wagner Solver

section Runs
variable {host : Host} {calls : List Call}

/-- A list of which every element agrees with what comes before it. -/
theorem pairwise_of_split {α : Type*} {R : α → α → Prop} {l : List α}
    (h : ∀ pre b post, l = pre ++ b :: post → ∀ a ∈ pre, R a b) : l.Pairwise R := by
  induction l using List.reverseRecOn with
  | nil => exact .nil
  | append_singleton l b ih =>
    refine List.pairwise_append.mpr ⟨ih fun pre c post hl => h pre c (post ++ [b]) (by simp [hl]), ?_, ?_⟩
    · exact List.pairwise_singleton R b
    · intro a ha c hc
      rw [List.mem_singleton.mp hc]
      exact h l b [] rfl a ha

theorem Answer.mem_accepted {a : Answer} {x : ℕ × List Byte × List Byte} (h : a.accepted = some x) :
    a.response.result = true ∧ a.ref = some x.1 ∧ a.share.nonceBytes = x.2.1 ∧
    a.share.solutionBytes = x.2.2 := by
  unfold Answer.accepted at h
  split_ifs at h with hresult
  obtain ⟨ref, href, rfl⟩ := Option.map_eq_some_iff.mp h
  exact ⟨hresult, href, rfl, rfl⟩

theorem nonce_of_key {a b : Answer} (ha : a.Formed host) (hb : b.Formed host)
    (hkey : a.share.key host = b.share.key host) : a.SameNonce b := by
  have hlena := (Share.formatError_eq_none.mp ha).2.1
  have hlenb := (Share.formatError_eq_none.mp hb).2.1
  have hnonce := (List.append_inj' hkey (hlena.trans hlenb.symm)).2
  rw [Answer.SameNonce, Share.nonceBytes, Share.nonceBytes, hnonce]

theorem registrant_split {past : List Answer} {a b : Answer} (h : b.registrant host past = some a) :
    a.Formed host ∧ a.SameKey host b ∧ ∃ pre post, past = pre ++ a :: post ∧
    a.registrant host pre = none := by
  obtain ⟨hab, pre, post, hpast, hpre⟩ := List.find?_eq_some_iff_append.mp h
  simp only [decide_eq_true_eq] at hab
  refine ⟨hab.1, hab.2, pre, post, hpast, List.find?_eq_none.mpr fun c hc => ?_⟩
  have hcb := hpre c hc
  simp only [decide_eq_true_eq, Bool.not_eq_true', decide_eq_false_iff_not] at hcb ⊢
  exact fun hca => hcb ⟨hca.1, hca.2.1.trans hab.2.1, hca.2.2.trans hab.2.2⟩

end Runs

section Resubmission
variable {host : Host} {s : JobManager} {sh : Share} {nTime : Str}

theorem key_ne_of_nTime (hlen : nTime.length = sh.nTime.length) (hne : nTime ≠ sh.nTime) :
    Share.key host { sh with nTime := nTime } ≠ sh.key host := by
  intro hkey
  have hfront := (List.append_inj' hkey rfl).1
  exact hne (List.append_inj' hfront hlen).2

theorem accepted_again {x : ℕ × List Byte × List Byte}
    (haccepted : (s.answer host sh).accepted = some x) (hlen : nTime.length = 16)
    (hne : nTime ≠ sh.nTime)
    (hfresh : Share.key host { sh with nTime := nTime } ∉ (s.jobs x.1).submits) :
    ((s.processShare host sh).1.answer host { sh with nTime := nTime }).accepted = some x := by
  -- An accepted share is accepted once more under another time
  obtain ⟨hresult, href', hnonce, hsolution⟩ := Answer.mem_accepted haccepted
  obtain ⟨ref, href, hformat, hkey, hmeets⟩ := JobManager.answer_accepted.mp hresult
  cases href.symm.trans href'
  obtain ⟨-, -, hjobs, hsubmits⟩ := JobManager.processShare_frame host s sh
  obtain ⟨submits, hjob⟩ := hjobs x.1
  have hchecks := Share.formatError_eq_none.mp hformat
  have href : (s.processShare host sh).1.lookup { sh with nTime := nTime } = some x.1 :=
    (JobManager.lookup_processShare ..).trans href
  have hagain : ((s.processShare host sh).1.answer host { sh with nTime := nTime }).response.result = true := by
    refine JobManager.answer_accepted.mpr ⟨x.1, href, ?_, ?_, ?_⟩
    · exact Share.formatError_eq_none.mpr ⟨hlen, hchecks.2⟩
    · rw [hsubmits]
      rintro (h | ⟨-, -, h⟩)
      · exact hfresh h
      · exact key_ne_of_nTime (hlen.trans hchecks.1.symm) hne h.symm
    · rw [hjob]
      exact hmeets
  rw [Answer.accepted, if_pos hagain, show Answer.ref _ = some x.1 from href, Option.map_some]
  exact congrArg some (Prod.ext rfl (Prod.ext hnonce hsolution))

end Resubmission

section Planted

def integers : Bignum where
  ofNumber n := n
  ofString s _ := some (hexNumber s)
  fromBuffer _ bytes := beNat bytes
  mul x y := x * y
  pow x n := if 0 ≤ n then some (x ^ n.toNat) else none
  gt x y := decide (x > y)

theorem lawful_integers : integers.Lawful := ⟨fun _ _ _ => rfl, fun _ _ => rfl, fun _ _ => rfl⟩

/-- A pool whose leaf hashes plant a solution. -/
def plantedHost : Host where
  H := plantedHash
  unicodeLower := id
  behind _ := []
  bignum := integers

def openTemplate : RpcData where
  previousblockhash := hexStr (List.replicate 32 0)
  headerHash := hexStr (List.replicate 32 0)
  height := 0
  target := hexStr (List.replicate 32 0xff)
  bits := []

/-- A share for the first job; of the miner's choices only the time and the solution are left open. -/
def shareOf (nTime : Str) (v : List ℕ) : Share where
  jobId := [unit '1']
  extraNonce1 := hexStr (List.replicate 8 0)
  extraNonce2 := hexStr (List.replicate 24 0)
  nTime := nTime
  nonce := hexStr (List.replicate 32 0)
  ipAddress := []
  port := []
  workerName := []
  soln := hexStr ([0xfd, 0x80, 0x05] ++ getMinimalFromIndices v 21)

def openJob : BlockTemplate where
  rpcData := openTemplate
  jobId := [unit '1']
  target := hexNumber openTemplate.target
  submits := []

@[simp] theorem jobId_openJob : openJob.jobId = [unit '1'] := rfl

@[simp] theorem submits_openJob : openJob.submits = [] := rfl

def opened : JobManager where
  jobCounter := ⟨1⟩
  jobs := Function.update (fun _ => default) 0 openJob
  created := 1
  currentJob := some 0
  validJobs := Function.update (fun _ => none) [unit '1'] (some 0)

theorem processTemplate_init :
    (JobManager.init.processTemplate plantedHost openTemplate).1 = opened := by
  have hlen : ¬(hexDecode openTemplate.previousblockhash).length < 32 := by
    simp [openTemplate, -List.reduceReplicate]
  have hcur : (JobManager.init.jobCounter.next).cur = [unit '1'] := rfl
  have hne : openTemplate.target ≠ [] := List.cons_ne_nil _ _
  have hjob : blockTemplate plantedHost [unit '1'] openTemplate = some openJob := blockTemplate_eq hne rfl hlen
  simp only [JobManager.processTemplate, hcur, hjob]
  rfl

@[simp] theorem jobs_opened : opened.jobs 0 = openJob := rfl

theorem lookup_opened (nTime : Str) (v : List ℕ) : opened.lookup (shareOf nTime v) = some 0 := by
  simp [JobManager.lookup, opened, shareOf]

variable {nTime : Str} {v : List ℕ}

theorem formatError_shareOf (hnTime : nTime.length = 16) (hlen : v.length = 512) :
    (shareOf nTime v).formatError plantedHost = none := by
  refine Share.formatError_eq_none.mpr ⟨hnTime, ?_, ?_, isHexString_hexStr _ _⟩
  · simp [shareOf]
  · simp [shareOf, length_getMinimalFromIndices hlen]

/-- The key says nothing of the solution. -/
theorem key_shareOf (nTime : Str) (v w : List ℕ) :
    (shareOf nTime v).key plantedHost = (shareOf nTime w).key plantedHost := by simp only [Share.key, shareOf]

theorem hexDecode_shareOf :
    hexDecode ((shareOf nTime v).soln.drop 6) = getMinimalFromIndices v 21 := by
  rw [shareOf, show 6 = 2 * 3 from rfl, drop_hexStr, hexDecode_hexStr]
  rfl

theorem hashDigest_iff (header : List Byte) (hlen : v.length = 512) (hlt : ∀ i ∈ v, i < 2 ^ 22) :
    plantedHost.hashDigest header (getMinimalFromIndices v 21) = true ↔
      Balanced (PairOk plantedHash (initialiseState.update (header.take 64))) 9 v ∧
        DigitEq 9 (xorHash plantedHash (initialiseState.update (header.take 64)) v) 0 := by
  have htake : (getMinimalFromIndices v 21 ++ []).take 1408 = getMinimalFromIndices v 21 := by
    rw [List.append_nil, List.take_of_length_le (length_getMinimalFromIndices hlen).le]
  rw [← isValidSolution_pack_iff hlen hlt]
  unfold Host.hashDigest verifyEH
  rw [show plantedHost.behind _ = [] from rfl, htake]
  rfl

theorem meets_planted : (shareOf nTime (run 9 0)).Meets plantedHost openJob := by
  constructor
  · have hlen : (run 9 0).length = 512 := length_run 9 0
    have hlt : ∀ i ∈ run 9 0, i < 2 ^ 22 := run_lt_nhashes (by decide) (by decide)
    rw [hexDecode_shareOf, hashDigest_iff _ hlen hlt]
    exact (balanced_of_planted (planted_plantedHash _)).1
  · have htarget : openJob.target = hexNumber openTemplate.target := rfl
    rw [BlockTemplate.overTarget, show plantedHost.bignum = integers from rfl, lawful_integers.gt,
      lawful_integers.fromBuffer _ (Host.length_blake2 ..), htarget, decide_eq_false_iff_not, not_lt, Nat.cast_le]
    refine Nat.le_of_lt_succ (Nat.lt_of_lt_of_eq (beNat_lt _) ?_)
    rw [Host.length_blake2]
    decide +kernel

def zeros : List ℕ := List.replicate 512 0

theorem length_zeros : zeros.length = 512 := List.length_replicate ..

theorem not_meets_zeros : ¬(shareOf nTime zeros).Meets plantedHost openJob := by
  rintro ⟨hvalid, -⟩
  have hlt : ∀ i ∈ zeros, i < 2 ^ 22 := fun i hi => List.eq_of_mem_replicate hi ▸ Nat.two_pow_pos 22
  rw [hexDecode_shareOf, hashDigest_iff _ length_zeros hlt] at hvalid
  have hnodup := (balanced_disjoint_iff.mp (hvalid.1.imp fun _ _ _ _ _ _ _ _ hP => hP.disjoint)).2
  rw [zeros, List.nodup_replicate] at hnodup
  exact absurd hnodup (by decide)

def earlier : Str := hexStr (List.replicate 8 0)
def later : Str := hexStr (List.replicate 8 1)

theorem length_earlier : earlier.length = 16 := by simp [earlier]

theorem length_later : later.length = 16 := by simp [later]

theorem good_opened (hnTime : nTime.length = 16) :
    (opened.answer plantedHost (shareOf nTime (run 9 0))).Good plantedHost := by
  have href := lookup_opened nTime (run 9 0)
  refine ⟨?_, formatError_shareOf hnTime (length_run 9 0), ?_⟩
  · rw [JobManager.answer, href]
    rfl
  · rw [JobManager.answer, href]
    exact meets_planted

theorem accepted_opened (hnTime : nTime.length = 16) :
    (opened.answer plantedHost (shareOf nTime (run 9 0))).accepted = some
      (0, (shareOf nTime (run 9 0)).nonceBytes, (shareOf nTime (run 9 0)).solutionBytes) := by
  have href := lookup_opened nTime (run 9 0)
  have hresult : (opened.answer plantedHost (shareOf nTime (run 9 0))).response.result = true :=
    JobManager.answer_accepted.mpr
      ⟨0, href, formatError_shareOf hnTime (length_run 9 0), by simp, meets_planted⟩
  rw [Answer.accepted, if_pos hresult, show Answer.ref _ = some 0 from href]
  rfl

theorem good_after (hnTime : nTime.length = 16) (sh : Share) :
    ((opened.processShare plantedHost sh).1.answer plantedHost (shareOf nTime (run 9 0))).Good plantedHost := by
  -- The planted solution is good whatever came before
  obtain ⟨-, -, hjobs, -⟩ := JobManager.processShare_frame plantedHost opened sh
  have href := (JobManager.lookup_processShare plantedHost opened sh _).trans (lookup_opened nTime (run 9 0))
  obtain ⟨submits, hjob⟩ := hjobs 0
  refine ⟨?_, formatError_shareOf hnTime (length_run 9 0), ?_⟩
  · rw [JobManager.answer, href]
    rfl
  · rw [JobManager.answer, href, Option.getD_some, hjob]
    exact meets_planted

/-- A second share whose solution alone is another is a duplicate. -/
theorem duplicate_after {w : List ℕ} (hnTime : nTime.length = 16) (hv : v.length = 512) (hw : w.length = 512) :
    ((opened.processShare plantedHost (shareOf nTime v)).1.answer plantedHost (shareOf nTime w)).response =
      duplicate := by
  obtain ⟨-, -, -, hsubmits⟩ := JobManager.processShare_frame plantedHost opened (shareOf nTime v)
  have href : (opened.processShare plantedHost (shareOf nTime v)).1.lookup (shareOf nTime w) = some 0 :=
    (JobManager.lookup_processShare ..).trans (lookup_opened nTime w)
  refine JobManager.answer_duplicate.mpr ⟨0, href, formatError_shareOf hnTime hw,
    (hsubmits 0 _).mpr (.inr ?_)⟩
  exact ⟨lookup_opened nTime v, formatError_shareOf hnTime hv, key_shareOf ..⟩

def again (sh : Share) : Answer := (opened.processShare plantedHost sh).1.answer plantedHost sh

/-- The calls that bring the template and then two shares. -/
def twice (sh sh' : Share) : List Call := [.processTemplate openTemplate, .processShare sh, .processShare sh']

theorem answers_twice (sh sh' : Share) : JobManager.init.answers plantedHost (twice sh sh') =
    [opened.answer plantedHost sh, (opened.processShare plantedHost sh).1.answer plantedHost sh'] := by
  rw [← processTemplate_init]
  rfl

end Planted

section Counted

/-- No job has a nonce and solution accepted twice, in runs where shares that mean the same have the same key. -/
theorem accepted_once (host : Host) (calls : List Call)
    (hkeys : (JobManager.init.answers host calls).Pairwise fun a b => a.Good host → b.Good host → a.ref = b.ref →
      a.SameNonce b → a.SameSolution b → a.share.key host = b.share.key host) :
    ((JobManager.init.answers host calls).filterMap Answer.accepted).Nodup := by
  refine List.pairwise_filterMap.mpr (pairwise_of_split fun pre b post hsplit a ha x hx y hy hxy => ?_)
  subst hxy
  obtain ⟨hra, hrefa, hna, hsa⟩ := Answer.mem_accepted hx
  obtain ⟨hrb, hrefb, hnb, hsb⟩ := Answer.mem_accepted hy
  have hjudged : ∀ pre b post, JobManager.init.answers host calls = pre ++ b :: post →
      Judged host pre b :=
    fun pre b post h => judged_of_answers tracks_init h
  obtain ⟨hgoodb, hfresh⟩ := (hjudged pre b post hsplit).accepted.mp hrb
  obtain ⟨as, bs, rfl⟩ := List.append_of_mem ha
  have hgooda := ((hjudged as a (bs ++ b :: post) (by simp [hsplit])).accepted.mp hra).1
  have hkey : a.share.key host = b.share.key host := by
    rw [hsplit, List.pairwise_append] at hkeys
    exact hkeys.2.2 a ha b (by simp) hgooda hgoodb (hrefa.trans hrefb.symm) (hna.trans hnb.symm)
      (hsa.trans hsb.symm)
  have hseen : (b.registrant host (as ++ a :: bs)).isSome :=
    (Answer.registrant_isSome host).mpr ⟨a, ha, hgooda.2.1, hrefa.trans hrefb.symm, hkey⟩
  rw [hfresh] at hseen
  cases hseen

theorem accepted_once_planted :
    ((JobManager.init.answers plantedHost (twice (shareOf earlier (run 9 0)) (shareOf earlier (run 9 0)))).filterMap
      Answer.accepted).Nodup := by
  refine accepted_once plantedHost _ ?_
  rw [answers_twice]
  refine .cons (fun b hb _ _ _ _ _ => ?_) (List.pairwise_singleton ..)
  rw [List.mem_singleton.mp hb, JobManager.answer_share, JobManager.answer_share]

/-- One solution counts twice. -/
theorem accepted_twice :
    ¬((JobManager.init.answers plantedHost (twice (shareOf earlier (run 9 0)) (shareOf later (run 9 0)))).filterMap
      Answer.accepted).Nodup := by
  have hfirst := accepted_opened length_earlier
  have hne : later ≠ (shareOf earlier (run 9 0)).nTime := by decide
  have hagain := accepted_again hfirst length_later hne (by simp)
  rw [answers_twice, show shareOf later (run 9 0) = { shareOf earlier (run 9 0) with nTime := later } from rfl]
  simp [hfirst, hagain]

/-- A good share is turned away as a duplicate of an accepted one, in runs where the share that
registered its key was good and had the same solution. -/
theorem duplicate_accepted (host : Host) (calls : List Call)
    (hregistrants : ∀ pre b post, JobManager.init.answers host calls = pre ++ b :: post → b.Good host →
      ∀ a ∈ b.registrant host pre, a.Good host ∧ a.SameSolution b) :
    ∀ pre b post, JobManager.init.answers host calls = pre ++ b :: post → b.Good host → b.response = duplicate →
      ∃ a ∈ pre, a.response.result = true ∧ a.ref = b.ref ∧ a.SameNonce b ∧ a.SameSolution b := by
  intro pre b post hsplit hgood hdup
  have hjudged : ∀ pre b post, JobManager.init.answers host calls = pre ++ b :: post →
      Judged host pre b :=
    fun pre b post h => judged_of_answers tracks_init h
  have hseen := ((hjudged pre b post hsplit).duplicate.mp hdup).2.2
  obtain ⟨a, ha⟩ := Option.isSome_iff_exists.mp hseen
  obtain ⟨hformed, hkey, as, bs, rfl, hfresh⟩ := registrant_split ha
  obtain ⟨hgooda, hsolution⟩ := hregistrants _ b post hsplit hgood a ha
  refine ⟨a, by simp, ?_, hkey.1, nonce_of_key hformed hgood.2.1 hkey.2, hsolution⟩
  exact (hjudged as a (bs ++ b :: post) (by simp [hsplit])).accepted.mpr ⟨hgooda, hfresh⟩

theorem duplicate_accepted_planted :
    ∃ a ∈ [opened.answer plantedHost (shareOf earlier (run 9 0))], a.response.result = true ∧
      a.ref = (again (shareOf earlier (run 9 0))).ref ∧ a.SameNonce (again (shareOf earlier (run 9 0))) ∧
        a.SameSolution (again (shareOf earlier (run 9 0))) := by
  have hgood := good_after length_earlier (shareOf earlier (run 9 0))
  have hduplicate := duplicate_after length_earlier (length_run 9 0) (length_run 9 0)
  refine duplicate_accepted plantedHost (twice (shareOf earlier (run 9 0)) (shareOf earlier (run 9 0)))
    (fun pre b post hsplit _ a ha => ?_) _ _ [] (answers_twice _ _) hgood hduplicate
  rw [answers_twice] at hsplit
  have hpre : a ∈ pre := List.mem_of_find?_eq_some ha
  rcases pre with _ | ⟨c, _ | ⟨d, pre⟩⟩
  · cases hpre
  · simp only [List.cons_append, List.nil_append, List.cons.injEq] at hsplit
    obtain ⟨rfl, rfl, -⟩ := hsplit
    rw [List.mem_singleton.mp hpre]
    refine ⟨good_opened length_earlier, ?_⟩
    rw [Answer.SameSolution, JobManager.answer_share, JobManager.answer_share]
  · have := congrArg List.length hsplit
    simp at this

/-- A rejected share makes a good one fail. -/
theorem duplicate_of_rejected :
    ¬∀ pre b post, JobManager.init.answers plantedHost (twice (shareOf earlier zeros) (shareOf earlier (run 9 0))) =
        pre ++ b :: post → b.Good plantedHost → b.response = duplicate →
      ∃ a ∈ pre, a.response.result = true ∧ a.ref = b.ref ∧ a.SameNonce b ∧ a.SameSolution b := by
  intro h
  have hgood := good_after length_earlier (shareOf earlier zeros)
  have hduplicate := duplicate_after length_earlier length_zeros (length_run 9 0)
  obtain ⟨a, ha, hresult, -⟩ := h [_] _ [] (answers_twice _ _) hgood hduplicate
  rw [List.mem_singleton.mp ha, JobManager.answer_accepted] at hresult
  obtain ⟨ref, href, -, -, hmeets⟩ := hresult
  cases (lookup_opened earlier zeros).symm.trans href
  exact not_meets_zeros hmeets

end Counted
end Aion.Pool
