import AionMiner.Session.Protocol
import Mathlib.Data.List.Chain

/-! The miner works on the job of the last `mining.notify`, as long as the job number it goes by is
not one it remembers from before its subscription. -/

namespace Aion.Session
open Text Miner Pool

/-- What the step must find for a `mining.notify` not to be passed over wrongly: if its job number
is that of `p_current`, then `p_current` has been set since the subscription reply of the current
connection. -/
def Renewed (s : State) (w : Seen) : Event → Prop
  | .process => ∀ params inbox current, s.inbox = (s.conn, .notify params) :: inbox → w.extraNonce1.isSome →
      s.miner.current = some current → current.job = params.jobId → w.replaced = true
  | _ => True

def Apart (p q : NotifyParams) : Prop := p = q ∨ p.jobId ≠ q.jobId

/-- The jobs on their way on the current connection. -/
def State.notifies (s : State) : List NotifyParams := (s.inbox.filter (·.1 = s.conn)).filterMap (·.2.params)

/-- The jobs the miner has processed last, or will process, on the current connection. -/
def State.jobs (s : State) (w : Seen) : List NotifyParams := w.last.toList ++ s.notifies

/-- The lines come in order, and the jobs among them follow those of the pool. -/
structure Wire (s : State) (w : Seen) : Prop where
  sorted : s.inbox.Pairwise fun a b => a.1 ≤ b.1
  bound : ∀ l ∈ s.inbox, l.1 ≤ s.conn
  clean : ∀ l ∈ s.inbox, ∀ p ∈ l.2.params, p.clean = true
  jobClean : s.pool.jobParams.clean = true
  jobId : s.pool.jobParams.jobId = s.pool.jobCounter.cur
  chain : (s.jobs w).IsChain Apart
  latest : s.client = true → ∀ p ∈ (s.jobs w).getLast?, p = s.pool.jobParams
  torn : s.torn = true → s.jobs w = []

/-- Once subscribed the miner has its extra nonce, and works on the last job. -/
structure Work (s : State) (w : Seen) : Prop where
  subscribed : ∀ e, w.extraNonce1 = some e →
    s.miner.connected = true ∧ s.miner.server = setServerNonce e ∧ ∀ l ∈ s.inbox, l.1 = s.conn
  quiet : w.extraNonce1 = none → w = .nothing
  working : w.replaced = true → ∃ e p job, w.extraNonce1 = some e ∧ w.last = some p ∧
    parseJob (setServerNonce e) p = some job ∧ s.miner.current = some job ∧ s.miner.threads = some job ∧
      s.miner.paused = false
  replaced : w.last.isSome → w.replaced = true

section Wire
variable {s : State} {w : Seen}

theorem work_nothing (s : State) : Work s .nothing where
  subscribed _ h := by cases h
  quiet _ := rfl
  working h := by cases h
  replaced h := by cases h

theorem getLast?_of_append {α : Type*} {xs ys : List α} {a : α} (h : a ∈ ys.getLast?) :
    a ∈ (xs ++ ys).getLast? := by
  rw [List.getLast?_append]
  rw [Option.mem_def] at h ⊢
  rw [h]
  rfl

/-- What has been seen may be forgotten. -/
theorem Wire.nothing (h : Wire s w) : Wire s .nothing where
  sorted := h.sorted
  bound := h.bound
  clean := h.clean
  jobClean := h.jobClean
  jobId := h.jobId
  chain := h.chain.right_of_append
  latest hc p hp := h.latest hc p (getLast?_of_append hp)
  torn ht := (List.append_eq_nil_iff.mp (h.torn ht)).2

theorem Wire.frame (h : Wire s w) {s' : State} (hpool : s'.pool = s.pool)
    (hinbox : s'.inbox = s.inbox) (hconn : s'.conn = s.conn)
    (hclient : s'.client = true → s.client = true) (htorn : s'.torn = true → s.torn = true) :
    Wire s' w := by
  have hjobs : s'.jobs w = s.jobs w := by unfold State.jobs State.notifies; rw [hinbox, hconn]
  constructor
  · exact hinbox ▸ h.sorted
  · rw [hinbox, hconn]; exact h.bound
  · exact hinbox ▸ h.clean
  · exact hpool ▸ h.jobClean
  · exact hpool ▸ h.jobId
  · exact hjobs ▸ h.chain
  · rw [hjobs, hpool]; exact fun hc => h.latest (hclient hc)
  · rw [hjobs]; exact fun ht => h.torn (htorn ht)

theorem notifies_concat (s : State) (line : Line) :
    { s with inbox := s.inbox ++ [(s.conn, line)] }.notifies =
      s.notifies ++ line.params.toList := by
  cases line <;> simp [State.notifies, Line.params]

theorem isChain_append_toList {α : Type*} {R : α → α → Prop} {xs : List α} (h : xs.IsChain R)
    {o : Option α} (ho : ∀ q ∈ o, ∀ p ∈ xs.getLast?, R p q) : (xs ++ o.toList).IsChain R := by
  cases o with
  | none => rwa [Option.toList_none, List.append_nil]
  | some q =>
    apply h.append (.singleton q)
    intro p hp q' hq
    rw [List.head?_cons, Option.mem_some_iff] at hq
    exact hq ▸ ho q rfl p hp

theorem mem_getLast?_append_toList {α : Type*} {xs : List α} {o : Option α} {p : α}
    (hp : p ∈ (xs ++ o.toList).getLast?) : p ∈ o ∨ o = none ∧ p ∈ xs.getLast? := by
  cases o with
  | none =>
    rw [Option.toList_none, List.append_nil] at hp
    exact .inr ⟨rfl, hp⟩
  | some q =>
    rw [Option.toList_some, List.getLast?_concat] at hp
    exact .inl hp

/-- The pool's job becomes `pool.jobParams`, and a line is written that carries this job or none. -/
theorem Wire.write (h : Wire s w) {pool : PoolServer} (hclean : pool.jobParams.clean = true)
    (hjobId : pool.jobParams.jobId = pool.jobCounter.cur) {line : Line}
    (hline : ∀ p ∈ line.params, p = pool.jobParams)
    (hlink : ∀ p ∈ (s.jobs w).getLast?, Apart p pool.jobParams)
    (hlatest : line.params = none → ∀ p ∈ (s.jobs w).getLast?, p = pool.jobParams) :
    Wire ({ s with pool := pool }.write line) w := by
  unfold State.write
  split_ifs with ht
  · -- the line is lost; nothing has come through on this connection
    have hnone : s.jobs w = [] := h.torn ht
    refine ⟨h.sorted, h.bound, h.clean, hclean, hjobId, h.chain, fun _ p hp => ?_,
      fun hf => by cases hf⟩
    change p ∈ (s.jobs w).getLast? at hp
    rw [hnone] at hp
    cases hp
  have hjobs : { s with pool := pool, inbox := s.inbox ++ [(s.conn, line)] }.jobs w =
      s.jobs w ++ line.params.toList :=
    (congrArg _ (notifies_concat s line)).trans (List.append_assoc ..).symm
  refine ⟨?_, ?_, ?_, hclean, hjobId, ?_, ?_, fun hf => absurd hf ht⟩
  · refine List.pairwise_append.mpr ⟨h.sorted, List.pairwise_singleton .., fun l hl m hm => ?_⟩
    rw [List.mem_singleton.mp hm]
    exact h.bound l hl
  · intro l hl
    rcases List.mem_append.mp hl with hl | hl
    · exact h.bound l hl
    · rw [List.mem_singleton.mp hl]
  · intro l hl p hp
    rcases List.mem_append.mp hl with hl | hl
    · exact h.clean l hl p hp
    · rw [List.mem_singleton.mp hl] at hp
      rw [hline p hp]
      exact hclean
  · rw [hjobs]
    apply isChain_append_toList h.chain
    intro q hq p hp
    rw [hline q hq]
    exact hlink p hp
  · intro _ p hp
    rw [hjobs] at hp
    obtain hparams | ⟨hparams, hp⟩ := mem_getLast?_append_toList hp
    · exact hline p hparams
    · exact hlatest hparams p hp

/-- The client is gone, and perhaps the last lines with it. -/
theorem Wire.leave (h : Wire s w) {s' : State} (hinbox : s'.inbox <+: s.inbox)
    (hconn : s'.conn = s.conn) (hclient : s'.client = false) (htorn : s'.torn = s.torn)
    (hclean : s'.pool.jobParams.clean = true)
    (hjobId : s'.pool.jobParams.jobId = s'.pool.jobCounter.cur) : Wire s' w := by
  have hjobs : s'.jobs w <+: s.jobs w := by
    unfold State.jobs State.notifies
    rw [hconn]
    exact (List.prefix_append_right_inj _).mpr ((hinbox.filter _).filterMap _)
  refine ⟨h.sorted.sublist hinbox.sublist, ?_, fun l hl => h.clean l (hinbox.subset hl),
    hclean, hjobId, h.chain.prefix hjobs, fun hc => ?_, fun ht => ?_⟩
  · rw [hconn]
    exact fun l hl => h.bound l (hinbox.subset hl)
  · rw [hclient] at hc
    cases hc
  · rw [htorn] at ht
    exact List.prefix_nil.mp (h.torn ht ▸ hjobs)

/-- The pool announces its job, new or not, to a client. -/
theorem Wire.sendMiningJob (h : Wire s w) (hclient : s.client = true) {pool : PoolServer}
    (hclean : pool.jobParams.clean = true) (hjobId : pool.jobParams.jobId = pool.jobCounter.cur)
    (hapart : Apart s.pool.jobParams pool.jobParams) (timeout : Bool) :
    Wire ({ s with pool := pool }.sendMiningJob timeout) w := by
  unfold State.sendMiningJob
  split_ifs
  · exact h.leave List.prefix_rfl rfl rfl rfl hclean hjobId
  · refine h.write hclean hjobId (fun p hp => (Option.mem_some_iff.mp hp).symm) (fun p hp => ?_)
      fun hf => by cases hf
    rw [h.latest hclient p hp]
    exact hapart

/-- A new connection, with what is left of the old ones. -/
theorem Wire.connect (h : Wire s w) {s' : State} (hpool : s'.pool = s.pool)
    (hinbox : s'.inbox <+: s.inbox) (hconn : s'.conn = s.conn + 1) : Wire s' .nothing := by
  have hbound : ∀ l ∈ s'.inbox, l.1 < s'.conn := by
    intro l hl
    have := h.bound l (hinbox.subset hl)
    omega
  have hjobs : s'.jobs .nothing = [] := by
    unfold State.jobs State.notifies
    rw [List.filter_eq_nil_iff.mpr fun l hl => by simpa using (hbound l hl).ne]
    rfl
  refine ⟨h.sorted.sublist hinbox.sublist, fun l hl => (hbound l hl).le,
    fun l hl => h.clean l (hinbox.subset hl), hpool ▸ h.jobClean, hpool ▸ h.jobId, ?_,
    fun _ p hp => ?_, fun _ => hjobs⟩
  · rw [hjobs]
    exact .nil
  · rw [hjobs] at hp
    cases hp

theorem Wire.tail (h : Wire s w) {s' : State} {w' : Seen} {l : ℕ × Line} (hpool : s'.pool = s.pool)
    (hinbox : s.inbox = l :: s'.inbox) (hconn : s'.conn = s.conn) (hclient : s'.client = s.client)
    (htorn : s'.torn = s.torn) (hjobs : s'.jobs w' <:+ s.jobs w) : Wire s' w' := by
  have hsub : ∀ m ∈ s'.inbox, m ∈ s.inbox := fun m hm => hinbox ▸ List.mem_cons_of_mem l hm
  have hsorted := h.sorted
  rw [hinbox, List.pairwise_cons] at hsorted
  refine ⟨hsorted.2, ?_, fun m hm => h.clean m (hsub m hm), hpool ▸ h.jobClean, hpool ▸ h.jobId,
    h.chain.suffix hjobs, fun hc p hp => ?_, fun ht => ?_⟩
  · rw [hconn]
    exact fun m hm => h.bound m (hsub m hm)
  · obtain ⟨xs, hxs⟩ := hjobs
    rw [hpool]
    exact h.latest (hclient ▸ hc) p (hxs ▸ getLast?_of_append hp)
  · exact List.suffix_nil.mp (h.torn (htorn ▸ ht) ▸ hjobs)

end Wire

section Step
variable {s s' : State} {w : Seen} {e : Event}

theorem apart_template (pool : PoolServer) (hjobId : pool.jobParams.jobId = pool.jobCounter.cur)
    (target headerHash : Str) :
    Apart pool.jobParams (pool.template target headerHash).jobParams := by
  refine .inr fun hid => pool.jobCounter.next_ne (JobCounter.cur_inj ?_)
  rw [← hjobId, hid]
  rfl

theorem parseJob_fields {server : ServerNonce} {params : NotifyParams} {job : AionJob}
    (h : parseJob server params = some job) :
    job.job = params.jobId ∧ job.clean = params.clean := by
  obtain ⟨header, -, rfl⟩ := Option.map_eq_some_iff.mp h
  exact ⟨rfl, rfl⟩

theorem Wire.current_tail (h : Wire s w) {l : ℕ × Line} {inbox : List (ℕ × Line)}
    (hinbox : s.inbox = l :: inbox) (hl : l.1 = s.conn) : ∀ m ∈ inbox, m.1 = s.conn := by
  -- Behind the subscription reply every line belongs to the current connection
  intro m hm
  have hsorted := h.sorted
  rw [hinbox, List.pairwise_cons] at hsorted
  have hbound := h.bound m (hinbox ▸ List.mem_cons_of_mem l hm)
  exact Nat.le_antisymm hbound (hl ▸ hsorted.1 m hm)

theorem notifies_cons {l : ℕ × Line} {inbox : List (ℕ × Line)} (hinbox : s.inbox = l :: inbox) :
    s.notifies = (if l.1 = s.conn then l.2.params.toList else []) ++
      (inbox.filter (·.1 = s.conn)).filterMap (·.2.params) := by
  unfold State.notifies
  rw [hinbox]
  split_ifs with hl
  · rw [List.filter_cons_of_pos (by simpa using hl)]
    cases hparams : l.2.params <;> simp [hparams]
  · rw [List.filter_cons_of_neg (by simpa using hl)]
    rfl

theorem Work.before (h : Work s w) (hw : w.extraNonce1 = none) : Work s' w := by
  -- A line that does not concern the subscription of the current connection, or is processed
  -- before it
  rw [h.quiet hw]
  exact work_nothing s'

/-- A `mining.notify` after the subscription reply. -/
theorem Work.notify (h : Work s w) (hwire : Wire s w) {params : NotifyParams}
    {inbox : List (ℕ × Line)} (hinbox : s.inbox = (s.conn, .notify params) :: inbox)
    (hrenewed : Renewed s w .process) {e : Str} (hw : w.extraNonce1 = some e) {job : AionJob}
    (hjob : parseJob (setServerNonce e) params = some job)
    (hminer : s'.miner = s.miner.processReponse (.notify params)) (hconn : s'.conn = s.conn)
    (hinbox' : s'.inbox = inbox) : Work s' { w with
      last := some params
      replaced := w.replaced ||
        params.clean && !s.miner.current.any fun current => params.jobId == current.job } := by
  obtain ⟨hconnected, hserver, hall⟩ := h.subscribed e hw
  obtain ⟨hid, hjobClean⟩ := parseJob_fields hjob
  have hclean : params.clean = true := hwire.clean _ (hinbox ▸ List.mem_cons_self) params rfl
  have hall' : ∀ l ∈ inbox, l.1 = s.conn := hwire.current_tail hinbox rfl
  by_cases hknown : s.miner.current.any (fun current => params.jobId == current.job) = true
  · -- the number is that of `p_current`, which then is the job of this very notify
    obtain ⟨current, hcurrent, heq⟩ := (Option.any_eq_true _ _).mp hknown
    have hreplaced := hrenewed params inbox current hinbox (by simp [hw]) hcurrent (beq_iff_eq.mp heq).symm
    obtain ⟨e', p, job', hw', hlast, hjob', hcurrent', hthreads, hpaused⟩ := h.working hreplaced
    cases hw.symm.trans hw'
    cases hcurrent.symm.trans hcurrent'
    have hchain := hwire.chain
    rw [State.jobs, hlast, notifies_cons hinbox, if_pos rfl] at hchain
    change (p :: params :: _).IsChain Apart at hchain
    have hsame : p = params := by
      rcases (List.isChain_cons_cons.mp hchain).1 with hsame | hne
      · exact hsame
      · rw [beq_iff_eq, (parseJob_fields hjob').1] at heq
        exact absurd heq.symm hne
    have hkeep : s.miner.processReponse (.notify params) = s.miner := by
      simp only [StratumMiner.processReponse, hserver, hjob, hid, hknown]
      simp
    rw [hkeep] at hminer
    refine ⟨fun e' he' => ?_, fun hf => ?_, fun _ => ?_, fun _ => ?_⟩
    · rw [hminer, hinbox', hconn]
      exact ⟨hconnected, (h.subscribed e' he').2.1, hall'⟩
    · rw [hw] at hf
      cases hf
    · exact ⟨e, params, current, hw, rfl, hsame ▸ hjob', hminer ▸ hcurrent, hminer ▸ hthreads,
        hminer ▸ hpaused⟩
    · rw [hreplaced, Bool.true_or]
  · have hset : s.miner.processReponse (.notify params) =
        { s.miner with current := some job, threads := some job, paused := false } := by
      simp only [StratumMiner.processReponse, hserver, hjob, hid, hknown, hjobClean, hclean]
      simp
    rw [hset] at hminer
    refine ⟨fun e' he' => ?_, fun hf => ?_, fun _ => ?_, fun _ => ?_⟩
    · rw [hminer, hinbox', hconn]
      exact ⟨hconnected, (h.subscribed e' he').2.1, hall'⟩
    · rw [hw] at hf
      cases hf
    · exact ⟨e, params, job, hw, rfl, hjob, by rw [hminer], by rw [hminer], by rw [hminer]⟩
    · simp [hclean, hknown]

theorem Work.quiet_of_old (h : Work s w) {l : ℕ × Line} {inbox : List (ℕ × Line)}
    (hinbox : s.inbox = l :: inbox) (hl : l.1 ≠ s.conn) : w.extraNonce1 = none := by
  -- The lines of old connections come before the reply to the subscription
  cases hw : w.extraNonce1 with
  | none => rfl
  | some e => exact absurd ((h.subscribed e hw).2.2 l (hinbox ▸ List.mem_cons_self)) hl

theorem notifies_suffix {l : ℕ × Line} {inbox : List (ℕ × Line)} (hinbox : s.inbox = l :: inbox)
    (hinbox' : s'.inbox = inbox) (hconn : s'.conn = s.conn) : s'.notifies <:+ s.notifies := by
  rw [notifies_cons hinbox]
  unfold State.notifies
  rw [hinbox', hconn]
  exact List.suffix_append ..

theorem processReponse_connected (m : StratumMiner) (line : Line)
    (h : (m.processReponse line).connected = true) :
    m.connected = true ∧ ∀ params ∈ line.params, (parseJob m.server params).isSome := by
  -- Only a job that does not parse ends the connection
  cases line with
  | subscribed e => exact ⟨h, fun params hp => by cases hp⟩
  | notify params =>
    unfold StratumMiner.processReponse at h
    cases hjob : parseJob m.server params with
    | none => simp [hjob, StratumMiner.reconnect] at h
    | some job =>
      refine ⟨?_, fun params' hp => ?_⟩
      · simp only [hjob] at h
        split_ifs at h <;> exact h
      · rw [← Option.mem_some_iff.mp hp, hjob]
        rfl

theorem process_inv (hwire : Wire s w) (hwork : Work s w) (hrenewed : Renewed s w .process)
    (hstep : step s .process = some s') :
    Wire s' (w.observe s .process) ∧ Work s' (w.observe s .process) := by
  obtain ⟨c, line, inbox, hinbox⟩ : ∃ c line inbox, s.inbox = (c, line) :: inbox := by
    cases hinbox : s.inbox with
    | nil => simp [step, hinbox] at hstep
    | cons l inbox => exact ⟨l.1, l.2, inbox, rfl⟩
  obtain ⟨-, rfl⟩ : s.miner.connected = true ∧
      { s with miner := s.miner.processReponse line, inbox := inbox } = s' := by
    simpa [step, hinbox] using hstep
  have hsuffix : ({ s with miner := s.miner.processReponse line, inbox := inbox } : State).notifies <:+ s.notifies :=
    notifies_suffix hinbox rfl rfl
  have htail {w' : Seen}
      (hjobs : ({ s with miner := s.miner.processReponse line, inbox := inbox } : State).jobs w' <:+ s.jobs w) :
      Wire { s with miner := s.miner.processReponse line, inbox := inbox } w' :=
    hwire.tail rfl hinbox rfl rfl rfl hjobs
  unfold Seen.observe
  rw [hinbox]
  by_cases hlost : (s.miner.processReponse line).connected = true
  swap
  · -- the job does not parse
    simp only [hlost, Bool.not_false, if_true]
    exact ⟨htail (hsuffix.trans (List.suffix_append ..)), work_nothing _⟩
  obtain ⟨hconnected, hparse⟩ := processReponse_connected s.miner line hlost
  simp only [hlost, Bool.not_true, Bool.false_eq_true, if_false]
  by_cases hc : c = s.conn
  swap
  · -- a line of an old connection
    have hw := hwork.quiet_of_old hinbox hc
    rw [if_pos hc]
    refine ⟨htail ?_, hwork.before hw⟩
    rw [hwork.quiet hw]
    exact hsuffix
  rw [if_neg (not_not_intro hc)]
  subst hc
  cases line with
  | subscribed e =>
    refine ⟨htail (hsuffix.trans (List.suffix_append ..)), ?_⟩
    constructor
    · intro e' he'
      cases he'
      exact ⟨hconnected, rfl, hwire.current_tail hinbox rfl⟩
    · exact fun hf => absurd hf (Option.some_ne_none _)
    · exact fun hf => absurd hf Bool.false_ne_true
    · exact fun hf => absurd hf Bool.false_ne_true
  | notify params =>
    dsimp only
    by_cases hw : w.extraNonce1.isSome = true
    · rw [if_pos hw]
      obtain ⟨e, hw⟩ := Option.isSome_iff_exists.mp hw
      obtain ⟨job, hjob⟩ := Option.isSome_iff_exists.mp (hparse params rfl)
      rw [(hwork.subscribed e hw).2.1] at hjob
      refine ⟨htail ?_, hwork.notify hwire hinbox hrenewed hw hjob rfl rfl rfl⟩
      unfold State.jobs
      rw [notifies_cons hinbox, if_pos rfl]
      exact List.suffix_append ..
    · rw [if_neg hw]
      rw [Bool.not_eq_true, Option.isSome_eq_false_iff, Option.isNone_iff_eq_none] at hw
      refine ⟨htail ?_, hwork.before hw⟩
      rw [hwork.quiet hw]
      exact hsuffix

theorem Work.pool (h : Work s w) (hminer : s'.miner = s.miner)
    (hinbox : ∀ l ∈ s'.inbox, l ∈ s.inbox ∨ l.1 = s.conn) (hconn : s'.conn = s.conn) :
    Work s' w where
  subscribed e he := by
    obtain ⟨hconnected, hserver, hall⟩ := h.subscribed e he
    refine ⟨hminer ▸ hconnected, hminer ▸ hserver, fun l hl => ?_⟩
    rw [hconn]
    exact (hinbox l hl).elim (hall l) id
  quiet := h.quiet
  working := hminer ▸ h.working
  replaced := h.replaced

theorem write_miner (s : State) (line : Line) : (s.write line).miner = s.miner := by
  unfold State.write
  split_ifs <;> rfl

theorem write_conn (s : State) (line : Line) : (s.write line).conn = s.conn := by
  unfold State.write
  split_ifs <;> rfl

theorem write_client (s : State) (line : Line) : (s.write line).client = s.client := by
  unfold State.write
  split_ifs <;> rfl

theorem mem_write {s : State} {line : Line} {l : ℕ × Line} (hl : l ∈ (s.write line).inbox) :
    l ∈ s.inbox ∨ l.1 = s.conn := by
  unfold State.write at hl
  split_ifs at hl
  · exact .inl hl
  · rcases List.mem_append.mp hl with hl | hl
    · exact .inl hl
    · exact .inr (by rw [List.mem_singleton.mp hl])

theorem Work.write (h : Work s w) (line : Line) : Work (s.write line) w :=
  h.pool (write_miner s line) (fun _ => mem_write) (write_conn s line)

theorem Work.sendMiningJob (h : Work s w) (timeout : Bool) : Work (s.sendMiningJob timeout) w := by
  unfold State.sendMiningJob
  split_ifs
  · exact h.pool rfl (fun l hl => .inl hl) rfl
  · exact h.write _

/-- The reply to a subscription, and behind it the job the pool has. -/
theorem subscription_inv (hwire : Wire s w) (hwork : Work s w) (hclient : s.client = true)
    (counter : ExtraNonceCounter) (extraNonce1 : Str) (timeout : Bool) :
    let s' : State :=
    { s with pool := { s.pool with extraNonceCounter := counter }, requested := false }
    Wire ((s'.write (.subscribed extraNonce1)).sendMiningJob timeout) w ∧
      Work ((s'.write (.subscribed extraNonce1)).sendMiningJob timeout) w := by
  intro s'
  let pool : PoolServer := { s.pool with extraNonceCounter := counter }
  have hframe : Wire { s with requested := false } w := hwire.frame rfl rfl rfl id id
  have hreply : Wire (s'.write (.subscribed extraNonce1)) w := by
    apply @Wire.write _ _ hframe pool hwire.jobClean hwire.jobId
    · intro p hp
      cases hp
    · exact fun p hp => .inl (hwire.latest hclient p hp)
    · exact fun _ => hwire.latest hclient
  have hclient' : (s'.write (.subscribed extraNonce1)).client = true :=
    (write_client s' _).trans hclient
  have hwork' : Work s' w := hwork.pool rfl (fun l hl => .inl hl) rfl
  exact ⟨hreply.sendMiningJob hclient' hreply.jobClean hreply.jobId (.inl rfl) timeout,
    (hwork'.write _).sendMiningJob timeout⟩

theorem step_inv (hwire : Wire s w) (hwork : Work s w) (hrenewed : Renewed s w e)
    (hstep : step s e = some s') : Wire s' (w.observe s e) ∧ Work s' (w.observe s e) := by
  cases e with
  | newBlock target headerHash timeout =>
    have hapart := apart_template s.pool hwire.jobId target headerHash
    have hwork' : Work { s with pool := s.pool.template target headerHash } w :=
      hwork.pool rfl (fun l hl => .inl hl) rfl
    simp only [step] at hstep
    split_ifs at hstep with hclient
    · cases hstep
      exact ⟨hwire.sendMiningJob hclient rfl rfl hapart timeout, hwork'.sendMiningJob timeout⟩
    · cases hstep
      refine ⟨hwire.leave List.prefix_rfl rfl ?_ rfl rfl rfl, hwork'⟩
      exact eq_false_of_ne_true hclient
  | subscription timeout =>
    simp only [step] at hstep
    split_ifs at hstep with hrequested
    obtain ⟨hclient, -⟩ := (Bool.and_eq_true_iff).mp hrequested
    rcases hnext : s.pool.extraNonceCounter.next with ⟨_ | extraNonce1, counter⟩
    · simp [hnext] at hstep
    · simp only [hnext, Option.some.injEq] at hstep
      subst hstep
      exact subscription_inv hwire hwork hclient counter extraNonce1 timeout
  | restart instanceId target headerHash kept =>
    cases hstep
    refine ⟨hwire.leave (List.take_prefix ..) rfl rfl rfl rfl rfl, hwork.pool rfl (fun l hl => .inl ?_) rfl⟩
    exact List.mem_of_mem_take hl
  | drop kept =>
    cases hstep
    refine ⟨hwire.leave (List.take_prefix ..) rfl rfl rfl hwire.jobClean hwire.jobId,
      hwork.pool rfl (fun l hl => .inl ?_) rfl⟩
    exact List.mem_of_mem_take hl
  | connect kept torn =>
    simp only [step] at hstep
    split_ifs at hstep
    cases hstep
    exact ⟨hwire.connect rfl (List.take_prefix ..) rfl, work_nothing _⟩
  | reconnect =>
    cases hstep
    exact ⟨hwire.nothing.frame rfl rfl rfl id id, work_nothing _⟩
  | process => exact process_inv hwire hwork hrenewed hstep

end Step

section Runs
variable {s : State} {w : Seen}

theorem start_inv (server : ServerNonce) (instanceId : BitVec 32) (target headerHash : Str) :
    Wire (start server instanceId target headerHash) .nothing ∧
      Work (start server instanceId target headerHash) .nothing := by
  refine ⟨⟨.nil, ?_, ?_, rfl, rfl, .nil, ?_, fun _ => rfl⟩, work_nothing _⟩
  · exact fun l hl => absurd hl List.not_mem_nil
  · exact fun l hl => absurd hl List.not_mem_nil
  · intro hc
    cases hc

theorem reachable_inv (h : Reachable Renewed s w) : Wire s w ∧ Work s w := by
  induction h with
  | start server instanceId target headerHash => exact start_inv server instanceId target headerHash
  | step _ hrenewed hstep ih => exact step_inv ih.1 ih.2 hrenewed hstep

/-- The threads have the job of the last `mining.notify`, with the extra nonce of the subscription,
and are not paused. -/
def WorksOnLast (s : State) (w : Seen) : Prop :=
  ∀ e p, w.extraNonce1 = some e → w.last = some p →
    s.miner.paused = false ∧
      ∃ job, s.miner.threads = some job ∧ parseJob (setServerNonce e) p = some job ∧
        job.header.nNonce = (setServerNonce e).nonce1

theorem parseJob_nonce {server : ServerNonce} {params : NotifyParams} {job : AionJob}
    (h : parseJob server params = some job) : job.header.nNonce = server.nonce1 := by
  obtain ⟨header, -, rfl⟩ := Option.map_eq_some_iff.mp h
  rfl

/-- The job number must not come again on a new connection, as it does when the pool has no new
block, or has been restarted. -/
theorem works_on_last (h : Reachable Renewed s w) : WorksOnLast s w := by
  intro e p he hp
  have hwork := (reachable_inv h).2
  obtain ⟨e', p', job, he', hp', hjob, -, hthreads, hpaused⟩ :=
    hwork.working (hwork.replaced (by rw [hp]; rfl))
  cases he.symm.trans he'
  cases hp.symm.trans hp'
  exact ⟨hpaused, job, hthreads, hjob, parseJob_nonce hjob⟩

end Runs

section Idle

def zeros : Str := List.replicate 64 (unit '0')

def first : State := start (setServerNonce []) 0 [] zeros

def run (s : State) (w : Seen) : List Event → Option (State × Seen)
  | [] => some (s, w)
  | e :: events => (step s e).bind fun s' => run s' (w.observe s e) events

theorem Reachable.run {ok : State → Seen → Event → Prop} (hok : ∀ s w e, ok s w e)
    {events : List Event} {s s' : State} {w w' : Seen} (h : Reachable ok s w)
    (hrun : run s w events = some (s', w')) : Reachable ok s' w' := by
  induction events generalizing s w with
  | nil =>
    cases hrun
    exact h
  | cons e events ih =>
    obtain ⟨s₁, hstep, hrun⟩ := Option.bind_eq_some_iff.mp hrun
    exact ih (h.step (hok s w e) hstep) hrun

def opening : List Event := [.connect 0 false, .subscription false, .process, .process]

/-- The first job is always taken. -/
theorem works_on_last_first :
    ∃ s w, Reachable Renewed s w ∧ w.extraNonce1.isSome ∧ w.last = some first.pool.jobParams ∧ WorksOnLast s w := by
  have hstart : Reachable Renewed first .nothing := .start ..
  have hready := hstart.step (e := .connect 0 false) trivial rfl
  have hsent := hready.step (e := .subscription false) trivial rfl
  have hsubscribed := hsent.step (e := .process) (fun _ _ _ _ _ hcurrent _ => by cases hcurrent) rfl
  have hworking := hsubscribed.step (e := .process) (fun _ _ _ _ _ hcurrent _ => by cases hcurrent) rfl
  exact ⟨_, _, hworking, by decide +kernel, by decide +kernel, works_on_last hworking⟩

/-- After a lost connection the pool gives the same job again, which the miner takes for known: it
stays paused. -/
theorem stays_paused :
    ∃ s w, Reachable (fun _ _ _ => True) s w ∧ w.extraNonce1.isSome ∧ w.last.isSome ∧ ¬ WorksOnLast s w := by
  have hidle : (run first .nothing (opening ++ [.drop 0, .reconnect] ++ opening)).any (fun (s, w) =>
      w.extraNonce1.isSome && w.last.isSome && s.miner.paused) = true := by decide +kernel
  obtain ⟨⟨s, w⟩, hrun, hidle⟩ := (Option.any_eq_true _ _).mp hidle
  rw [Bool.and_eq_true, Bool.and_eq_true] at hidle
  obtain ⟨⟨he, hp⟩, hpaused⟩ := hidle
  refine ⟨s, w, Reachable.run (fun _ _ _ => trivial) (.start ..) hrun, he, hp, fun hworks => ?_⟩
  obtain ⟨e, he⟩ := Option.isSome_iff_exists.mp he
  obtain ⟨p, hp⟩ := Option.isSome_iff_exists.mp hp
  rw [(hworks e p he hp).1] at hpaused
  cases hpaused

end Idle
end Aion.Session
