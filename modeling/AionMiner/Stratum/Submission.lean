import AionMiner.Pool.Shares
import AionMiner.Stratum.Values

/-! `processShare` for whatever a client has put into `params`. -/

namespace Aion.Stratum
open Text Bits Pool

/-- The host, and the number a string stands for, made a byte: 0 where it stands for none. -/
structure Engine extends Host where
  toUint8 : Str → Byte

/-- What the `submit` listener passes on. The two strings come from the pool. -/
structure Submission where
  name : Value
  jobId : Value
  nTime : Value
  extraNonce2 : Value
  soln : Value
  extraNonce1 : Str
  nonce : Str

section Bytes

/-- What an array element becomes in a `Buffer`. -/
def elementByte (host : Engine) : Json → Option Byte
  | .bool true => some 1
  | e => e.text.map host.toUint8

/-- `new Buffer(soln.slice(6), 'hex')`: strings and arrays can be sliced. -/
def sliceBytes (host : Engine) : Value → Option (List Byte)
  | some (.str soln) => some (hexDecode (soln.drop 6))
  | some (.arr items) => (items.drop 6).mapM (elementByte host)
  | _ => none

end Bytes

def refuse (code : ℕ) (text : String) : Response :=
  { error := some (code, text), result := false, blockHash := none }

/-- `validJobs[jobId]`, and `job.jobId != jobId`. A number, an array or an object equals its text;
the other values equal no job number, and what `validJobs` inherits has none. -/
def find (s : JobManager) (key : Str) : Value → Option ℕ
  | none | some .null | some (.bool _) => none
  | some _ => (s.validJobs key).filter fun ref => (s.jobs ref).jobId = key

/-- The last checks, once the key is registered. -/
def judge (host : Engine) (s : JobManager) (job : BlockTemplate) (p : Submission) : Option (JobManager × Response) :=
  let headerBuffer := job.serializeHeader p.nonce
  (sliceBytes host p.soln).bind fun solution =>
    let headerHash := host.blake2 (headerBuffer ++ solution)
    if host.hashDigest headerBuffer solution ≠ true then some (s, refuse 20 "invalid solution")
    else
      match p.soln with
      | some (.str soln) =>
        if job.overTarget host.toHost (host.blake2 (job.serializeHeaderTarget p.nonce soln)) then
          some (s, refuse 20 "Header hash larger than target")
        else some (s, { error := none, result := true, blockHash := some (hexStr headerHash.reverse) })
      -- `write` takes nothing but strings
      | _ => none

/-- The registration of the key. Only strings have a `toLowerCase`. -/
def register (host : Engine) (s : JobManager) (ref : ℕ) (p : Submission) : Option (JobManager × Response) :=
  match p.extraNonce2 with
  | some (.str extraNonce2) =>
    p.nTime.text.bind fun nTime =>
      match (s.jobs ref).registerSubmit (toLowerCase host.unicodeLower p.extraNonce1)
        (toLowerCase host.unicodeLower extraNonce2) nTime p.nonce with
      | (false, _) => some (s, refuse 22 "duplicate share")
      | (true, job) => judge host { s with jobs := Function.update s.jobs ref job } job p
  | _ => none

def checkSizes (host : Engine) (s : JobManager) (ref : ℕ) (p : Submission) : Option (JobManager × Response) :=
  (p.nTime.member (Json.sized 16)).bind fun sized =>
    if !sized then some (s, refuse 20 "incorrect size of ntime")
    else if p.nonce.length ≠ 64 then some (s, refuse 20 "incorrect size of nonce")
    else
      (p.soln.member (Json.sized 2822)).bind fun sized =>
        if !sized then some (s, refuse 20 "incorrect size of solution")
        else
          p.extraNonce2.text.bind fun check =>
            if !isHexString host.unicodeLower check then some (s, refuse 20 "invalid hex in extraNonce2")
            else register host s ref p

def processShare (host : Engine) (s : JobManager) (p : Submission) : Option (JobManager × Response) :=
  p.jobId.text.bind fun key =>
    match find s key p.jobId with
    | none => some (s, refuse 21 "job not found")
    | some ref => checkSizes host s ref p

namespace Submission
variable (host : Engine) (s : JobManager) (p : Submission)

def Names (ref : ℕ) : Prop := ∃ key, p.jobId.text = some key ∧ find s key p.jobId = some ref

def Timed : Prop := p.nTime.member (Json.sized 16) = some true ∧ p.nonce.length = 64

def Sized : Prop := p.Timed ∧ p.soln.member (Json.sized 2822) = some true

def Formed : Prop :=
  p.Sized ∧ ∃ check, p.extraNonce2.text = some check ∧ isHexString host.unicodeLower check = true

def key : Option Str :=
  match p.extraNonce2 with
  | some (.str extraNonce2) =>
    p.nTime.text.map fun nTime =>
      toLowerCase host.unicodeLower p.extraNonce1 ++ toLowerCase host.unicodeLower extraNonce2 ++ nTime ++ p.nonce
  | _ => none

/-- The solution is sliced into bytes. When these solve the header they must have come from a string. -/
def Slices (job : BlockTemplate) : Prop :=
  ∃ solution, sliceBytes host p.soln = some solution ∧
    ((∃ soln, p.soln = some (.str soln)) ∨ host.hashDigest (job.serializeHeader p.nonce) solution ≠ true)

/-- Each parameter is of a kind that can be used the way it is, if the checks before come to it. -/
structure Sound : Prop where
  jobId : p.jobId.text.isSome
  nTime : ∀ ref, p.Names s ref → p.nTime.nullish = false
  soln : ∀ ref, p.Names s ref → p.Timed → p.soln.nullish = false
  extraNonce2 : ∀ ref, p.Names s ref → p.Sized → p.extraNonce2.text.isSome
  key : ∀ ref, p.Names s ref → p.Formed host → (p.key host).isSome
  slices : ∀ ref, p.Names s ref → p.Formed host → ∀ key ∈ p.key host, key ∉ (s.jobs ref).submits →
    p.Slices host (s.jobs ref)

/-- The share is new, valid and meets the target. -/
def Accepted : Prop :=
  ∃ ref, p.Names s ref ∧ p.Formed host ∧ (∃ key ∈ p.key host, key ∉ (s.jobs ref).submits) ∧
    ∃ soln, p.soln = some (.str soln) ∧
      host.hashDigest ((s.jobs ref).serializeHeader p.nonce) (hexDecode (soln.drop 6)) = true ∧
        (s.jobs ref).overTarget host.toHost (host.blake2 ((s.jobs ref).serializeHeaderTarget p.nonce soln)) = false

end Submission

section Throws
variable {host : Engine} {s : JobManager} {p : Submission}

theorem judge_isSome (job : BlockTemplate) : (judge host s job p).isSome ↔ p.Slices host job := by
  unfold judge Submission.Slices
  cases hslice : sliceBytes host p.soln with
  | none => simp
  | some solution =>
    rw [Option.bind_some]
    by_cases hvalid : host.hashDigest (job.serializeHeader p.nonce) solution = true
    · simp only [hvalid, ne_eq, not_true_eq_false, if_false]
      split
      · next soln hsoln =>
        rw [apply_ite Option.isSome]
        simp [hsoln]
      · next hsoln =>
        simp only [Option.isSome_none, Bool.false_eq_true, false_iff]
        rintro ⟨bytes, hbytes, ⟨soln, heq⟩ | hne⟩
        · exact hsoln soln heq
        · cases hbytes
          exact hne hvalid
    · simp [hvalid]

theorem register_isSome {ref : ℕ} : (register host s ref p).isSome ↔
    (p.key host).isSome ∧ ∀ key ∈ p.key host, key ∉ (s.jobs ref).submits →
    p.Slices host (s.jobs ref) := by
  unfold register Submission.key
  split
  · cases p.nTime.text with
    | none => simp
    | some nTime =>
      rw [Option.bind_some, Option.map_some]
      unfold BlockTemplate.registerSubmit
      dsimp only
      split_ifs with hseen
      · refine iff_of_true rfl ⟨rfl, fun key hkey hfresh => absurd ?_ hfresh⟩
        rw [← Option.mem_some_iff.mp hkey]
        exact hseen
      · dsimp only
        rw [judge_isSome]
        constructor
        · exact fun hslices => ⟨rfl, fun key _ _ => hslices⟩
        · exact fun h => h.2 _ rfl hseen
  · simp

theorem member_cases {n : ℕ} (v : Value) : (v.nullish = true ∧ v.member (Json.sized n) = none) ∨
    (v.nullish = false ∧ ∃ sized, v.member (Json.sized n) = some sized) := by
  rcases v with _ | j
  · exact .inl ⟨rfl, rfl⟩
  · cases j with
    | null => exact .inl ⟨rfl, rfl⟩
    | _ => exact .inr ⟨rfl, _, rfl⟩

theorem checkSizes_isSome {ref : ℕ} : (checkSizes host s ref p).isSome ↔
    p.nTime.nullish = false ∧ (p.Timed → p.soln.nullish = false) ∧
    (p.Sized → p.extraNonce2.text.isSome) ∧
      (p.Formed host → (p.key host).isSome ∧
        ∀ key ∈ p.key host, key ∉ (s.jobs ref).submits → p.Slices host (s.jobs ref)) := by
  unfold checkSizes Submission.Formed Submission.Sized Submission.Timed
  rcases member_cases (n := 16) p.nTime with ⟨hnull, hsize⟩ | ⟨hnull, timed, hsize⟩
  · simp [hnull, hsize]
  rw [hsize, Option.bind_some]
  cases timed
  · simp [hnull]
  by_cases hnonce : p.nonce.length = 64
  swap
  · simp [hnull, hnonce]
  rcases member_cases (n := 2822) p.soln with ⟨hnull', hsize'⟩ | ⟨hnull', sized, hsize'⟩
  · simp [hnull', hsize', hnonce]
  cases sized
  · simp [hnull, hnull', hsize', hnonce]
  cases htext : p.extraNonce2.text with
  | none => simp [hsize', hnonce]
  | some check =>
    by_cases hhex : isHexString host.unicodeLower check = true
    · simp [hnull, hnull', hsize', hnonce, hhex, register_isSome]
    · simp [hnull, hnull', hsize', hnonce, hhex]

/-- No exception escapes exactly when the parameters are sound. -/
theorem processShare_isSome : (processShare host s p).isSome ↔ p.Sound host s := by
  unfold processShare
  cases hkey : p.jobId.text with
  | none =>
    refine iff_of_false Bool.false_ne_true fun hsound => ?_
    have := hsound.jobId
    rw [hkey] at this
    cases this
  | some key =>
    have hnames : ∀ ref, p.Names s ref ↔ find s key p.jobId = some ref := by
      intro ref
      simp [Submission.Names, hkey]
    rw [Option.bind_some]
    cases hfind : find s key p.jobId with
    | none =>
      have hnone : ∀ ref, ¬p.Names s ref := fun ref href => by
        rw [hnames, hfind] at href
        cases href
      refine iff_of_true rfl ⟨by rw [hkey]; rfl, ?_, ?_, ?_, ?_, ?_⟩ <;>
        exact fun ref href => absurd href (hnone ref)
    | some ref =>
      have hone : ∀ r, p.Names s r ↔ ref = r := fun r => by rw [hnames, hfind, Option.some_inj]
      dsimp only
      rw [checkSizes_isSome]
      constructor
      · rintro ⟨hnTime, hsoln, htext, hregister⟩
        refine ⟨by rw [hkey]; rfl, ?_, ?_, ?_, ?_, ?_⟩ <;> intro r hr
        · exact hnTime
        · exact hsoln
        · exact htext
        · exact fun hformed => (hregister hformed).1
        · rw [← (hone r).mp hr]
          exact fun hformed => (hregister hformed).2
      · intro hsound
        have href := (hone ref).mpr rfl
        exact ⟨hsound.nTime ref href, hsound.soln ref href, hsound.extraNonce2 ref href,
          fun hformed => ⟨hsound.key ref href hformed, hsound.slices ref href hformed⟩⟩

end Throws

section Accepts
variable {host : Engine} {s : JobManager} {p : Submission}

def accepts (x : Option (JobManager × Response)) : Bool := x.any fun y => y.2.result

theorem judge_accepts (job : BlockTemplate) : accepts (judge host s job p) = true ↔
    ∃ soln, p.soln = some (.str soln) ∧
      host.hashDigest (job.serializeHeader p.nonce) (hexDecode (soln.drop 6)) = true ∧
        job.overTarget host.toHost (host.blake2 (job.serializeHeaderTarget p.nonce soln)) = false := by
  unfold judge
  by_cases hstr : ∃ soln, p.soln = some (.str soln)
  · obtain ⟨soln, hsoln⟩ := hstr
    rw [hsoln, sliceBytes, Option.bind_some]
    dsimp only
    split_ifs with hvalid htarget <;> simp_all [accepts, refuse]
  · refine iff_of_false (fun h => ?_) fun ⟨soln, hsoln, _⟩ => hstr ⟨soln, hsoln⟩
    cases hslice : sliceBytes host p.soln with
    | none =>
      rw [hslice] at h
      cases h
    | some solution =>
      rw [hslice, Option.bind_some] at h
      split_ifs at h
      · cases h
      · split at h
        · next soln hsoln => exact hstr ⟨soln, hsoln⟩
        · cases h

theorem register_accepts {ref : ℕ} : accepts (register host s ref p) = true ↔
    (∃ key ∈ p.key host, key ∉ (s.jobs ref).submits) ∧ ∃ soln, p.soln = some (.str soln) ∧
      host.hashDigest ((s.jobs ref).serializeHeader p.nonce) (hexDecode (soln.drop 6)) = true ∧
        (s.jobs ref).overTarget host.toHost
          (host.blake2 ((s.jobs ref).serializeHeaderTarget p.nonce soln)) = false := by
  unfold register Submission.key
  split
  · cases p.nTime.text with
    | none => simp [accepts]
    | some nTime =>
      rw [Option.bind_some, Option.map_some]
      unfold BlockTemplate.registerSubmit
      dsimp only
      split_ifs with hseen
      · refine iff_of_false (by simp [accepts, refuse]) ?_
        rintro ⟨⟨key, hkey, hfresh⟩, -⟩
        rw [← Option.mem_some_iff.mp hkey] at hfresh
        exact hfresh hseen
      · dsimp only
        rw [judge_accepts]
        exact (and_iff_right ⟨_, rfl, hseen⟩).symm
  · simp [accepts]

theorem checkSizes_accepts {ref : ℕ} : accepts (checkSizes host s ref p) = true ↔
    p.Formed host ∧ accepts (register host s ref p) = true := by
  unfold checkSizes Submission.Formed Submission.Sized Submission.Timed
  rcases member_cases (n := 16) p.nTime with ⟨-, hsize⟩ | ⟨-, timed, hsize⟩
  · simp [hsize, accepts]
  rw [hsize, Option.bind_some]
  cases timed
  · simp [accepts, refuse]
  by_cases hnonce : p.nonce.length = 64
  swap
  · simp [hnonce, accepts, refuse]
  rcases member_cases (n := 2822) p.soln with ⟨-, hsize'⟩ | ⟨-, sized, hsize'⟩
  · simp [hsize', hnonce, accepts]
  cases sized
  · simp [hsize', hnonce, accepts, refuse]
  cases htext : p.extraNonce2.text with
  | none => simp [hsize', hnonce, accepts]
  | some check =>
    by_cases hhex : isHexString host.unicodeLower check = true
    · simp [hsize', hnonce, hhex]
    · simp [hsize', hnonce, hhex, accepts, refuse]

/-- What it takes for a share to be accepted. -/
theorem processShare_accepts : accepts (processShare host s p) = true ↔ p.Accepted host s := by
  unfold processShare Submission.Accepted Submission.Names
  cases hkey : p.jobId.text with
  | none => simp [accepts]
  | some key =>
    rw [Option.bind_some]
    cases hfind : find s key p.jobId with
    | none => simp [hfind, accepts, refuse]
    | some ref => simp [hfind, checkSizes_accepts, register_accepts]

end Accepts

section Strings
variable {host : Engine} {s : JobManager}

/-- The parameters of a share that are all strings. -/
def Submission.ofShare (sh : Share) : Submission where
  name := some (.str sh.workerName)
  jobId := some (.str sh.jobId)
  nTime := some (.str sh.nTime)
  extraNonce2 := some (.str sh.extraNonce2)
  soln := some (.str sh.soln)
  extraNonce1 := sh.extraNonce1
  nonce := sh.nonce

theorem processShare_ofShare (sh : Share) : processShare host s (.ofShare sh) =
    some ((s.processShare host.toHost sh).1, (s.processShare host.toHost sh).2.1) := by
  -- Strings are judged as the job manager judges shares
  unfold processShare JobManager.processShare
  change (match find s sh.jobId (some (.str sh.jobId)) with | none => _ | some ref => _) = _
  cases hvalid : s.validJobs sh.jobId with
  | none => simp [find, hvalid, refuse, JobManager.shareError]
  | some ref =>
    by_cases hid : (s.jobs ref).jobId = sh.jobId
    swap
    · have hfind : find s sh.jobId (some (.str sh.jobId)) = none := by simp [find, hvalid, hid]
      simp [hfind, hid, refuse, JobManager.shareError]
    have hfind : find s sh.jobId (some (.str sh.jobId)) = some ref := by simp [find, hvalid, hid]
    simp only [hfind, hid, ne_eq, not_true_eq_false, if_false]
    unfold checkSizes
    change (if !(sh.nTime.length == 16) then _ else if _ then _ else if !(sh.soln.length == 2822) then _ else
      if _ then _ else register host s ref (.ofShare sh)) = _
    by_cases hnTime : sh.nTime.length = 16
    swap
    · simp [hnTime, refuse, JobManager.shareError]
    by_cases hnonce : sh.nonce.length = 64
    swap
    · simp [hnTime, hnonce, Submission.ofShare, refuse, JobManager.shareError]
    by_cases hsoln : sh.soln.length = 2822
    swap
    · simp [hnTime, hnonce, hsoln, Submission.ofShare, refuse, JobManager.shareError]
    by_cases hhex : isHexString host.unicodeLower sh.extraNonce2 = true
    swap
    · simp [hnTime, hnonce, hsoln, hhex, Submission.ofShare, refuse, JobManager.shareError]
    simp only [hnTime, hnonce, hsoln, hhex, Submission.ofShare, beq_self_eq_true, Bool.not_true,
      Bool.false_eq_true, if_false, not_true_eq_false]
    unfold register
    change (match (s.jobs ref).registerSubmit (toLowerCase host.unicodeLower sh.extraNonce1)
      (toLowerCase host.unicodeLower sh.extraNonce2) sh.nTime sh.nonce with | (false, _) => _ | (true, job) => _) = _
    rcases hkey : (s.jobs ref).registerSubmit (toLowerCase host.unicodeLower sh.extraNonce1)
      (toLowerCase host.unicodeLower sh.extraNonce2) sh.nTime sh.nonce with ⟨fresh, job⟩
    cases fresh
    · rfl
    · unfold judge
      simp only [sliceBytes, Option.bind_some]
      split_ifs <;> rfl

end Strings
end Aion.Stratum
