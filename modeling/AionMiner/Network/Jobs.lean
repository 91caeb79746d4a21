import AionMiner.Network.World

/-! The pool's jobs over a run: while their numbers have not wrapped, a message finds the job it was
mined for, and what is a duplicate of what shows in the log. -/

namespace Aion.Network
open Bits Equihash Text Pool Miner Solver

section Numbered
variable {host : Host} {rig : ℕ → Prop} {w w' : World}

theorem processShare_jobCounter (host : Host) (s : JobManager) (sh : Share) :
    (s.processShare host sh).1.jobCounter = s.jobCounter := by
  obtain ⟨-, hp⟩ | ⟨ref, code, text, -, -, hp⟩ | ⟨ref, -, -, -, hp⟩ | ⟨ref, -, -, -, hp⟩ :=
    s.processShare_cases host sh
  · rw [hp, JobManager.shareError]
  · rw [hp, JobManager.shareError]
  · rw [hp, JobManager.shareError]
  · rw [hp, JobManager.judge_state, JobManager.register]

theorem split_append_singleton {α : Type*} {l pre post : List α} {b x : α}
    (h : l ++ [b] = pre ++ x :: post) : (l = pre ∧ b = x) ∨ ∃ post', l = pre ++ x :: post' := by
  induction post using List.reverseRecOn with
  | nil =>
    obtain ⟨hpre, hx⟩ := List.append_inj' h rfl
    exact .inl ⟨hpre, List.singleton_inj.mp hx⟩
  | append_singleton post c _ =>
    rw [← List.cons_append, ← List.append_assoc] at h
    exact .inr ⟨post, (List.append_inj' h rfl).1⟩

/-- While the job numbers have not wrapped, a job's number is its own; the log is what the jobs
remember, and a target that is given is the target that counts. -/
structure Numbered (host : Host) (w : World) : Prop where
  tracks : Tracks host w.pool (w.log.map Entry.answer)
  judged : ∀ pre x post, w.log = pre ++ x :: post → Judged host (pre.map Entry.answer) x.answer
  target : ∀ ref < w.pool.created, (w.pool.jobs ref).rpcData.target ≠ [] →
    host.bignum.ofString (w.pool.jobs ref).rpcData.target 16 = some (w.pool.jobs ref).target
  counter : w.numbers < 0xffff → w.pool.jobCounter.counter = w.numbers
  number : w.numbers < 0xffff → ∀ ref < w.pool.created, ∃ c ≤ w.numbers,
    (w.pool.jobs ref).jobId = JobCounter.cur ⟨c⟩
  valid : w.numbers < 0xffff → ∀ ref < w.pool.created, w.pool.validJobs (w.pool.jobs ref).jobId = some ref

theorem numbered_init (instanceId : BitVec 32) (addresses : ℕ → Str × Str) :
    Numbered host (World.init instanceId addresses) where
  tracks := tracks_init
  judged pre x post h := by simp [World.init] at h
  target _ h := absurd h (Nat.not_lt_zero _)
  counter _ := rfl
  number _ _ h := absurd h (Nat.not_lt_zero _)
  valid _ _ h := absurd h (Nat.not_lt_zero _)

theorem Numbered.receive (h : Numbered host w) (i : ℕ) (params : SubmitParams) :
    Numbered host (w.receive host i params).1 := by
  obtain heq | ⟨sh, -, -, heq⟩ := receive_cases host w i params
  · rwa [heq]
  · obtain ⟨hvalid, hcreated, hjobs, -⟩ := JobManager.processShare_frame host w.pool sh
    have hcounter := processShare_jobCounter host w.pool sh
    rw [heq]
    constructor
    · dsimp only
      rw [List.map_append]
      exact h.tracks.processShare sh
    · intro pre x post hlog
      dsimp only at hlog
      rcases split_append_singleton hlog with ⟨hpre, hx⟩ | ⟨post', hold⟩
      · rw [← hpre, ← hx]
        exact h.tracks.judged sh
      · exact h.judged pre x post' hold
    · intro ref href
      obtain ⟨submits, hjob⟩ := hjobs ref
      dsimp only at href ⊢
      rw [hcreated] at href
      rw [hjob]
      exact h.target ref href
    · intro hlt
      exact (congrArg JobCounter.counter hcounter).trans (h.counter hlt)
    · intro hlt ref href
      obtain ⟨submits, hjob⟩ := hjobs ref
      dsimp only at href ⊢
      rw [hcreated] at href
      rw [hjob]
      exact h.number hlt ref href
    · intro hlt ref href
      obtain ⟨submits, hjob⟩ := hjobs ref
      dsimp only at href ⊢
      rw [hcreated] at href
      rw [hjob, hvalid]
      exact h.valid hlt ref href

theorem processTemplate_new (host : Host) {s : JobManager} {rpcData : RpcData} (hnew : s.isNewBlock rpcData = true) :
    (s.processTemplate host rpcData).1 = { s with jobCounter := s.jobCounter.next } ∨
    ∃ job, blockTemplate host s.jobCounter.next.cur rpcData = some job ∧
      (s.processTemplate host rpcData).1 =
        { s with
          jobCounter := s.jobCounter.next
          jobs := Function.update s.jobs s.created job
          created := s.created + 1
          currentJob := some s.created
          validJobs := Function.update s.validJobs job.jobId (some s.created) } := by
  rw [JobManager.processTemplate, hnew]
  dsimp only
  rw [if_neg (by decide)]
  split
  · exact .inl rfl
  · next job hjob => exact .inr ⟨job, hjob, rfl⟩

theorem next_counter {c : JobCounter} {n : ℕ} (hc : c.counter = n) (hn : n + 1 < 0xffff) :
    c.next = ⟨n + 1⟩ := by
  have hne : ¬(c.counter + 1) % 0xffff = 0 := by omega
  rw [JobCounter.next, if_neg hne, hc]

theorem Numbered.template (h : Numbered host w) (rpcData : RpcData) :
    Numbered host (w.template host rpcData) := by
  have htracks := h.tracks.processTemplate rpcData
  cases hnew : w.pool.isNewBlock rpcData with
  | false =>
    have hsame : w.template host rpcData = w := by
      rw [World.template, JobManager.processTemplate, hnew]
      rfl
    rwa [hsame]
  | true =>
    have hnumbers : (w.template host rpcData).numbers = w.numbers + 1 := by
      rw [World.template, hnew]
      rfl
    obtain heq | ⟨job, hjob, heq⟩ := processTemplate_new host hnew
    · refine ⟨htracks, h.judged, ?_, fun hlt => ?_, fun hlt ref href => ?_, fun hlt => ?_⟩
      · dsimp only [World.template]
        rw [heq]
        exact h.target
      · rw [hnumbers] at hlt ⊢
        dsimp only [World.template]
        rw [heq]
        exact congrArg JobCounter.counter (next_counter (h.counter (by omega)) hlt)
      · rw [hnumbers] at hlt ⊢
        dsimp only [World.template] at href ⊢
        rw [heq] at href ⊢
        obtain ⟨c, hc, hid⟩ := h.number (by omega) ref href
        exact ⟨c, by omega, hid⟩
      · rw [hnumbers] at hlt
        dsimp only [World.template]
        rw [heq]
        exact h.valid (by omega)
    · obtain ⟨hrpc, hid, -, htarget⟩ := blockTemplate_some hjob
      have hnext : w.numbers + 1 < 0xffff → w.pool.jobCounter.next = ⟨w.numbers + 1⟩ := fun hlt =>
        next_counter (h.counter (by omega)) hlt
      refine ⟨htracks, h.judged, fun ref href => ?_, fun hlt => ?_, fun hlt ref href => ?_, fun hlt ref href => ?_⟩
      · dsimp only [World.template] at href ⊢
        rw [heq] at href ⊢
        dsimp only at href ⊢
        rcases Nat.lt_succ_iff_lt_or_eq.mp href with hold | rfl
        · rw [Function.update_of_ne hold.ne]
          exact h.target ref hold
        · rw [Function.update_self, hrpc]
          exact htarget
      · rw [hnumbers] at hlt ⊢
        dsimp only [World.template]
        rw [heq]
        exact congrArg JobCounter.counter (hnext hlt)
      · rw [hnumbers] at hlt ⊢
        dsimp only [World.template] at href ⊢
        rw [heq] at href ⊢
        dsimp only at href ⊢
        rcases Nat.lt_succ_iff_lt_or_eq.mp href with hold | rfl
        · obtain ⟨c, hc, hcur⟩ := h.number (by omega) ref hold
          rw [Function.update_of_ne hold.ne]
          exact ⟨c, by omega, hcur⟩
        · rw [Function.update_self, hid, hnext hlt]
          exact ⟨w.numbers + 1, Nat.le_refl _, rfl⟩
      · rw [hnumbers] at hlt
        dsimp only [World.template] at href ⊢
        rw [heq] at href ⊢
        dsimp only at href ⊢
        rcases Nat.lt_succ_iff_lt_or_eq.mp href with hold | rfl
        · -- An earlier job has a smaller number
          obtain ⟨c, hc, hcur⟩ := h.number (by omega) ref hold
          have hne : (w.pool.jobs ref).jobId ≠ job.jobId := by
            rw [hcur, hid, hnext hlt]
            intro hsame
            have hcount := congrArg JobCounter.counter (JobCounter.cur_inj hsame)
            dsimp only at hcount
            omega
          rw [Function.update_of_ne hold.ne, Function.update_of_ne hne]
          exact h.valid (by omega) ref hold
        · rw [Function.update_self, Function.update_self]

theorem Numbered.step (h : Numbered host w) (hstep : Step host rig w w') : Numbered host w' := by
  cases hstep with
  | template rpcData => exact h.template rpcData
  | subscribe i extraNonce1 _ _ => exact ⟨h.tracks, h.judged, h.target, h.counter, h.number, h.valid⟩
  | authorize i authorized => exact ⟨h.tracks, h.judged, h.target, h.counter, h.number, h.valid⟩
  | find => exact ⟨h.tracks, h.judged, h.target, h.counter, h.number, h.valid⟩
  | deliver pre post m _ =>
    have hrest : Numbered host { w with flying := pre ++ post } :=
      ⟨h.tracks, h.judged, h.target, h.counter, h.number, h.valid⟩
    have hreceive := hrest.receive m.client m.message
    exact ⟨hreceive.tracks, hreceive.judged, hreceive.target, hreceive.counter, hreceive.number, hreceive.valid⟩
  | submit i params _ => exact h.receive i params

theorem numbered_of_reachable {instanceId : BitVec 32} {addresses : ℕ → Str × Str}
    (hw : Reachable host rig instanceId addresses w) : Numbered host w := by
  induction hw with
  | refl => exact numbered_init instanceId addresses
  | tail _ hstep ih => exact ih.step hstep

end Numbered

section Isolated
variable {host : Host} {rig : ℕ → Prop} {w w' : World}

/-- Of one client, for one job, with one nonce and one time. -/
structure SameWork (x y : Entry) : Prop where
  client : x.client = y.client
  ref : x.answer.ref = y.answer.ref
  nonce : x.answer.share.nonce = y.answer.share.nonce
  nTime : x.answer.share.nTime = y.answer.share.nTime

theorem nonce_nTime_of_key {a b : Share} (ha : a.formatError host = none) (hb : b.formatError host = none)
    (hkey : a.key host = b.key host) : a.nonce = b.nonce ∧ a.nTime = b.nTime := by
  obtain ⟨htimeA, hnonceA, -, -⟩ := Share.formatError_eq_none.mp ha
  obtain ⟨htimeB, hnonceB, -, -⟩ := Share.formatError_eq_none.mp hb
  obtain ⟨hfront, hnonce⟩ := List.append_inj' hkey (hnonceA.trans hnonceB.symm)
  exact ⟨hnonce, (List.append_inj' hfront (htimeA.trans htimeB.symm)).2⟩

/-- A share is called a duplicate only of a share its own client has sent. -/
theorem duplicate_same (hgranted : Granted w) (hnumbered : Numbered host w) {pre post : List Entry} {x : Entry}
    (hlog : w.log = pre ++ x :: post) (hdup : x.answer.response = duplicate) :
    ∃ y ∈ pre, SameWork y x := by
  obtain ⟨-, hformed, hsome⟩ := (hnumbered.judged pre x post hlog).duplicate.mp hdup
  obtain ⟨a, ha, hformedA, href, hkey⟩ := Answer.registrant_isSome host |>.mp hsome
  obtain ⟨y, hy, rfl⟩ := List.mem_map.mp ha
  have hyw : y ∈ w.log := by rw [hlog]; exact List.mem_append_left _ hy
  have hxw : x ∈ w.log := by rw [hlog]; exact List.mem_append_right _ List.mem_cons_self
  have hyissued := hgranted.logged y hyw
  have hxissued := hgranted.logged x hxw
  obtain ⟨k, -, -, hyextra⟩ := hgranted.range _ hyissued
  obtain ⟨l, -, -, hxextra⟩ := hgranted.range _ hxissued
  have hextra := key_parts hyextra hxextra rfl rfl hkey
  rw [hextra] at hyissued
  obtain ⟨hnonce, hnTime⟩ := nonce_nTime_of_key hformedA hformed hkey
  exact ⟨y, hy, hgranted.client_eq hyissued hxissued, href, hnonce, hnTime⟩

/-- No client makes a share of another a duplicate. -/
theorem duplicates_are_own {instanceId : BitVec 32} {addresses : ℕ → Str × Str}
    (hw : Reachable host rig instanceId addresses w) {pre post : List Entry} {x : Entry}
    (hlog : w.log = pre ++ x :: post) (hdup : x.answer.response = duplicate) : ∃ y ∈ pre, SameWork y x :=
  duplicate_same (granted_of_reachable hw) (numbered_of_reachable hw) hlog hdup

/-- One job, and one client that has subscribed and is authorized. -/
def opening : World :=
  (((World.init 0 fun _ => ([], [])).template plantedHost openTemplate).subscribe 0
    (extraNonce 0 0)).authorize 0 true

theorem reachable_opening (rig : ℕ → Prop) : Reachable plantedHost rig 0 (fun _ => ([], [])) opening := by
  refine Relation.ReflTransGen.refl.tail (.template _ openTemplate)
    |>.tail (.subscribe _ 0 _ ?_ fun _ => rfl) |>.tail (.authorize _ 0 true)
  rfl

theorem pool_opening : opening.pool = opened := processTemplate_init

theorem client_opening : opening.clients 0 = ⟨true, some (extraNonce 0 0), [], []⟩ := rfl

def plantedParams : SubmitParams where
  name := []
  jobId := [unit '1']
  nTime := earlier
  extraNonce2 := hexStr (List.replicate 24 0)
  soln := (shareOf earlier (run 9 0)).soln

theorem handleSubmit_planted :
    (opening.clients 0).handleSubmit plantedParams = .ok (shareOf earlier (run 9 0)) := by
  rw [client_opening, StratumClient.handleSubmit_eq rfl rfl (List.cons_ne_nil _ _)]
  rfl

def resubmitted : World := ((opening.receive plantedHost 0 plantedParams).1.receive plantedHost 0 plantedParams).1

theorem log_twice {i : ℕ} {params : SubmitParams} {sh : Share} (h : (w.clients i).handleSubmit params = .ok sh) :
    ((w.receive host i params).1.receive host i params).1.log =
      w.log ++ [⟨i, w.pool.answer host sh⟩] ++ [⟨i, (w.pool.processShare host sh).1.answer host sh⟩] := by
  have hagain : ((w.receive host i params).1.clients i).handleSubmit params = .ok sh := by rwa [World.receive, h]
  rw [World.receive, hagain, World.receive, h]

theorem log_resubmitted : resubmitted.log =
    [⟨0, opened.answer plantedHost (shareOf earlier (run 9 0))⟩, ⟨0, again (shareOf earlier (run 9 0))⟩] := by
  rw [resubmitted, log_twice handleSubmit_planted, pool_opening, again]
  rfl

/-- The same share once more. -/
theorem duplicates_are_own_again :
    ∃ y ∈ [(⟨0, opened.answer plantedHost (shareOf earlier (run 9 0))⟩ : Entry)],
      SameWork y ⟨0, again (shareOf earlier (run 9 0))⟩ := by
  have hreach : Reachable plantedHost (fun _ => False) 0 (fun _ => ([], [])) resubmitted :=
    ((reachable_opening fun _ => False).tail (.submit opening 0 plantedParams not_false)).tail
      (.submit _ 0 plantedParams not_false)
  exact duplicates_are_own hreach log_resubmitted (duplicate_after length_earlier (length_run 9 0) (length_run 9 0))

end Isolated

end Aion.Network
