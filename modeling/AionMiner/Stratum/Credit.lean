import AionMiner.Stratum.Harmless

/-! Whose shares are counted. The connection has one flag, and a share may carry any name. -/

namespace Aion.Stratum
open Text Pool

/-- A line, an answer to a request that `authorizeFn` has left open, or what the templates and the other
connections do to the pool. -/
inductive Event where
  | line (now : ℤ) (messageJson : Json)
  | answer (request : ℕ) (authorized : Bool)
  | elsewhere (jobManager : JobManager) (extraNonceCounter : ExtraNonceCounter)

/-- The workers of the `share` events, and the state unless the event cannot happen or an exception escapes. -/
def step (host : Engine) (o : Options) (st : State) : Event → List Value × Option State
  | .line now messageJson => handleLine host o now st messageJson
  | .answer request authorized =>
    match st.pending[request]? with
    | none => ([], none)
    | some _ =>
      ([], some
        { st with
          client := { st.client with authorized := authorized }
          pending := st.pending.eraseIdx request })
  | .elsewhere jobManager extraNonceCounter =>
    ([], some { st with jobManager := jobManager, extraNonceCounter := extraNonceCounter })

def run (host : Engine) (o : Options) : State → List Event → Option State
  | st, [] => some st
  | st, e :: events => (step host o st e).2.bind fun st' => run host o st' events

def State.connect (remoteAddress localPort : Str) (now : ℤ) (jobManager : JobManager)
    (extraNonceCounter : ExtraNonceCounter) : State where
  client := .connect remoteAddress localPort now
  jobManager := jobManager
  extraNonceCounter := extraNonceCounter
  pending := []

section Histories

/-- What the messages on a connection and the answers of its authorizer come to. -/
structure History where
  pending : List Value
  authorized : Bool
  subscribed : Bool
  accepted : List Value

def History.init : History := ⟨[], false, false, []⟩

/-- The authorizer has answered the request for `worker`. -/
def History.answered (worker : Value) (authorized : Bool) (h : History) : History :=
  { h with authorized := authorized, accepted := if authorized then h.accepted ++ [worker] else h.accepted }

def History.event (o : Options) (remoteAddress localPort : Str) (h : History) : Event → History
  | .line _ message =>
    if (message.field (literal "method")).is "mining.subscribe" then { h with subscribed := true }
    else if (message.field (literal "method")).is "mining.authorize" then
      match message.params with
      | none => h
      | some params =>
        match o.authorizeFn remoteAddress localPort (params.index 0) (params.index 1) with
        | .throws => h
        | .answers authorized => h.answered (params.index 0) authorized
        | .later => { h with pending := h.pending ++ [params.index 0] }
    else h
  | .answer request authorized =>
    match h.pending[request]? with
    | none => h
    | some worker => { h.answered worker authorized with pending := h.pending.eraseIdx request }
  | .elsewhere _ _ => h

def history (o : Options) (remoteAddress localPort : Str) (events : List Event) : History :=
  events.foldl (History.event o remoteAddress localPort) .init

variable {o : Options} {remoteAddress localPort : Str} {worker : Value}

/-- All that is asked and accepted on the connection is one worker. -/
structure History.Single (worker : Value) (h : History) : Prop where
  pending : ∀ name ∈ h.pending, name = worker
  authorized : h.authorized = true → worker ∈ h.accepted

/-- A line asks for no other worker. -/
def Asks (worker : Value) : Event → Prop
  | .line _ message => (message.field (literal "method")).is "mining.authorize" = true →
      ∀ params ∈ message.params, params.index 0 = worker
  | .answer _ _ | .elsewhere _ _ => True

theorem History.mem_answered (h : History) {authorized : Bool}
    (hauthorized : (h.answered worker authorized).authorized = true) :
    worker ∈ (h.answered worker authorized).accepted := by
  change authorized = true at hauthorized
  rw [answered, hauthorized]
  exact List.mem_append_right _ List.mem_cons_self

theorem History.Single.event {h : History} (hsingle : h.Single worker) {e : Event} (hasks : Asks worker e) :
    (h.event o remoteAddress localPort e).Single worker := by
  cases e with
  | elsewhere jobManager extraNonceCounter => exact hsingle
  | answer request authorized =>
    rw [History.event]
    split
    · exact hsingle
    · next name hname =>
      obtain rfl := hsingle.pending name (List.mem_of_getElem? hname)
      exact ⟨fun other hother => hsingle.pending other (List.eraseIdx_subset hother), h.mem_answered⟩
  | line now message =>
    rw [History.event]
    split_ifs with hsubscribe hauthorize
    · exact ⟨hsingle.pending, hsingle.authorized⟩
    · split
      · exact hsingle
      · next params hparams =>
        rw [hasks hauthorize params hparams]
        split
        · exact hsingle
        · exact ⟨hsingle.pending, h.mem_answered⟩
        · refine ⟨fun name hname => ?_, hsingle.authorized⟩
          rcases List.mem_append.mp hname with hname | hname
          · exact hsingle.pending name hname
          · exact List.mem_singleton.mp hname
    · exact hsingle

theorem single_history {events : List Event} (hasks : ∀ e ∈ events, Asks worker e) :
    (history o remoteAddress localPort events).Single worker := by
  induction events using List.reverseRecOn with
  | nil => exact ⟨by simp [history, History.init], by simp [history, History.init]⟩
  | append_singleton events e ih =>
    rw [history, List.foldl_append]
    exact (ih fun e' he' => hasks e' (List.mem_append_left _ he')).event (hasks e (by simp))

end Histories

section Handlers
variable {host : Engine} {o : Options} {st : State}

theorem mem_handleSubmit {message : Json} {worker : Value} :
    worker ∈ (handleSubmit host o st message).1 ↔ ∃ extraNonce1, st.client.Ready extraNonce1 ∧
    ∃ share, submission extraNonce1 message = some share ∧
      share.Sound host st.jobManager ∧ share.name = worker := by
  by_cases hready : ∃ extraNonce1, st.client.Ready extraNonce1
  swap
  · rw [handleSubmit_refused (not_exists.mp hready)]
    exact iff_of_false List.not_mem_nil fun ⟨e, he, _⟩ => hready ⟨e, he⟩
  obtain ⟨extraNonce1, hready⟩ := hready
  have honly : ∀ e, st.client.Ready e ↔ extraNonce1 = e :=
    fun e => ⟨hready.unique, fun heq => heq ▸ hready⟩
  rw [handleSubmit_ready hready]
  simp only [honly, exists_eq_left', ← processShare_isSome]
  cases submission extraNonce1 message with
  | none => simp
  | some share =>
    simp only [Option.some.injEq, exists_eq_left']
    cases processShare host st.jobManager share <;> simp [eq_comm]

theorem truthy_of_is {message : Json} {name method : String}
    (h : (message.field (literal name)).is method = true) : message.truthy = true := by
  cases message with
  | obj fields => rfl
  | _ => cases h

theorem handleLine_submit {now : ℤ} {message : Json}
    (h : (message.field (literal "method")).is "mining.submit" = true) :
    handleLine host o now st message =
      handleSubmit host o { st with client := { st.client with lastActivity := now } } message := by
  unfold handleLine handleMessage
  rw [if_pos (truthy_of_is h)]
  dsimp only
  rw [if_neg (not_is h (by decide)), if_neg (not_is h (by decide)), if_pos h]

theorem handleLine_subscribe {now : ℤ} {message : Json}
    (h : (message.field (literal "method")).is "mining.subscribe" = true) :
    handleLine host o now st message = ([], handleSubscribe o now st) := by
  unfold handleLine handleMessage
  rw [if_pos (truthy_of_is h)]
  dsimp only
  rw [if_pos h]

theorem handleLine_authorize {now : ℤ} {message : Json}
    (h : (message.field (literal "method")).is "mining.authorize" = true) :
    handleLine host o now st message = ([], handleAuthorize o st message) := by
  unfold handleLine handleMessage
  rw [if_pos (truthy_of_is h)]
  dsimp only
  rw [if_neg (not_is h (by decide)), if_pos h]

theorem handleLine_other {now : ℤ} {message : Json}
    (h : ¬(message.field (literal "method")).is "mining.submit" = true) :
    (handleLine host o now st message).1 = [] := by
  unfold handleLine handleMessage
  dsimp only
  split_ifs <;> rfl

theorem mem_step {e : Event} {worker : Value} : worker ∈ (step host o st e).1 ↔
    ∃ now message, e = .line now message ∧
    (message.field (literal "method")).is "mining.submit" = true ∧
      ∃ extraNonce1, st.client.Ready extraNonce1 ∧
      ∃ share, submission extraNonce1 message = some share ∧
        share.Sound host st.jobManager ∧ share.name = worker := by
  cases e with
  | elsewhere jobManager extraNonceCounter =>
    exact iff_of_false List.not_mem_nil fun ⟨_, _, heq, _⟩ => by cases heq
  | answer request authorized =>
    refine iff_of_false ?_ fun ⟨_, _, heq, _⟩ => by cases heq
    unfold step
    dsimp only
    split <;> exact List.not_mem_nil
  | line now message =>
    by_cases hmethod : (message.field (literal "method")).is "mining.submit" = true
    · rw [step, handleLine_submit hmethod, mem_handleSubmit]
      constructor
      · exact fun h => ⟨now, message, rfl, hmethod, h⟩
      · rintro ⟨now, message, heq, -, h⟩
        cases heq
        exact h
    · rw [step, handleLine_other hmethod]
      refine iff_of_false List.not_mem_nil ?_
      rintro ⟨now, message, heq, h, -⟩
      cases heq
      exact hmethod h

theorem submission_name {extraNonce1 : Str} {message : Json} {share : Submission}
    (h : submission extraNonce1 message = some share) :
    ∃ params, message.params = some params ∧ share.name = params.index 0 := by
  obtain ⟨params, hparams, h⟩ := Option.bind_eq_some_iff.mp h
  obtain ⟨text, -, rfl⟩ := Option.map_eq_some_iff.mp h
  exact ⟨params, hparams, rfl⟩

theorem run_events_append (pre post : List Event) :
    run host o st (pre ++ post) = (run host o st pre).bind fun st' => run host o st' post := by
  induction pre generalizing st with
  | nil => rfl
  | cons e pre ih =>
    rw [List.cons_append, run, run, Option.bind_assoc]
    exact congrArg _ (funext fun st' => ih)

end Handlers

section Frames
variable {host : Engine} {o : Options} {st st' : State} {now : ℤ} {message : Json}

theorem count_frame {valid : Bool} (h : st.count o valid = some st') :
    st'.client.toStratumClient = st.client.toStratumClient ∧ st'.pending = st.pending := by
  obtain ⟨⟨banned, client⟩, hban, rfl⟩ := Option.map_eq_some_iff.mp h
  refine ⟨?_, rfl⟩
  have hcounted : (st.client.counted valid).toStratumClient = st.client.toStratumClient := by
    cases valid <;> rfl
  unfold considerBan at hban
  split at hban
  · cases hban
    rfl
  · dsimp only at hban
    split_ifs at hban
    · cases hban
      exact hcounted
    · cases hban
      exact hcounted
    · obtain ⟨label, -, heq⟩ := Option.map_eq_some_iff.mp hban
      cases heq
      exact hcounted

theorem handleSubmit_frame (h : (handleSubmit host o st message).2 = some st') :
    st'.client.toStratumClient = st.client.toStratumClient ∧ st'.pending = st.pending := by
  by_cases hready : ∃ extraNonce1, st.client.Ready extraNonce1
  swap
  · rw [handleSubmit_refused (not_exists.mp hready)] at h
    exact count_frame h
  obtain ⟨extraNonce1, hready⟩ := hready
  rw [handleSubmit_ready hready] at h
  split at h
  · cases h
  · split at h
    · cases h
    · obtain ⟨-, -, h⟩ := Option.bind_eq_some_iff.mp h
      obtain ⟨hclient, hpending⟩ := count_frame h
      exact ⟨hclient, hpending⟩

theorem handleSubscribe_frame (h : handleSubscribe o now st = some st') :
    ∃ extraNonce1 ≠ [], st'.client.toStratumClient =
      { st.client.toStratumClient with extraNonce1 := some extraNonce1 } ∧ st'.pending = st.pending := by
  unfold handleSubscribe at h
  split at h
  · cases h
  · next extraNonce1 counter hnext =>
    split at h
    · cases h
    · obtain ⟨-, -, rfl⟩ := Option.map_eq_some_iff.mp h
      refine ⟨extraNonce1, ?_, rfl, rfl⟩
      unfold ExtraNonceCounter.next at hnext
      split_ifs at hnext
      · cases hnext
        simp [hexStr, be32]
      · cases hnext

/-- Nothing else has to do with the flag or the extra nonce. -/
theorem handleLine_frame (hsubscribe : ¬(message.field (literal "method")).is "mining.subscribe" = true)
    (hauthorize : ¬(message.field (literal "method")).is "mining.authorize" = true)
    (h : (handleLine host o now st message).2 = some st') :
    st'.client.toStratumClient = st.client.toStratumClient ∧ st'.pending = st.pending := by
  unfold handleLine handleMessage at h
  dsimp only at h
  split_ifs at h
  · obtain ⟨hclient, hpending⟩ := handleSubmit_frame h
    exact ⟨hclient, hpending⟩
  · cases h
    exact ⟨rfl, rfl⟩
  · cases h
    exact ⟨rfl, rfl⟩
  · obtain ⟨-, -, h⟩ := Option.bind_eq_some_iff.mp h
    obtain ⟨-, -, rfl⟩ := Option.map_eq_some_iff.mp h
    exact ⟨rfl, rfl⟩
  · cases h
    exact ⟨rfl, rfl⟩

end Frames

section Follows
variable {host : Engine} {o : Options} {remoteAddress localPort : Str} {st st' : State} {h : History}

/-- The state of a connection is what its history says. -/
structure Follows (remoteAddress localPort : Str) (h : History) (st : State) : Prop where
  remoteAddress : st.client.remoteAddress = remoteAddress
  localPort : st.client.localPort = localPort
  pending : st.pending = h.pending
  authorized : st.client.authorized = h.authorized
  subscribed : (∃ extraNonce1, st.client.extraNonce1 = some extraNonce1 ∧ extraNonce1 ≠ []) ↔ h.subscribed = true

theorem Follows.ready (hf : Follows remoteAddress localPort h st) :
    (∃ extraNonce1, st.client.Ready extraNonce1) ↔ h.authorized = true ∧ h.subscribed = true := by
  rw [← hf.authorized, ← hf.subscribed]
  constructor
  · rintro ⟨extraNonce1, hauthorized, hready⟩
    exact ⟨hauthorized, extraNonce1, hready⟩
  · rintro ⟨hauthorized, extraNonce1, hready⟩
    exact ⟨extraNonce1, hauthorized, hready⟩

theorem Follows.frame (hf : Follows remoteAddress localPort h st) {extraNonce1 : Option Str} {subscribed : Bool}
    (hclient : st'.client.toStratumClient = { st.client.toStratumClient with extraNonce1 := extraNonce1 })
    (hpending : st'.pending = st.pending) (hsubscribed : (∃ e, extraNonce1 = some e ∧ e ≠ []) ↔ subscribed = true) :
    Follows remoteAddress localPort { h with subscribed := subscribed } st' := by
  refine ⟨?_, ?_, hpending.trans hf.pending, ?_, ?_⟩
  · rw [hclient]
    exact hf.remoteAddress
  · rw [hclient]
    exact hf.localPort
  · rw [hclient]
    exact hf.authorized
  · rw [hclient]
    exact hsubscribed

theorem Follows.subscribe (hf : Follows remoteAddress localPort h st) {now : ℤ}
    (hstep : handleSubscribe o now st = some st') :
    Follows remoteAddress localPort { h with subscribed := true } st' := by
  obtain ⟨extraNonce1, hne, hclient, hpending⟩ := handleSubscribe_frame hstep
  exact hf.frame hclient hpending (iff_of_true ⟨extraNonce1, rfl, hne⟩ rfl)

theorem Follows.authorize (hf : Follows remoteAddress localPort h st) {now : ℤ} {message : Json}
    (hmethod : (message.field (literal "method")).is "mining.authorize" = true)
    (hstep : handleAuthorize o st message = some st') :
    Follows remoteAddress localPort (h.event o remoteAddress localPort (.line now message)) st' := by
  obtain ⟨params, hparams, hstep⟩ := Option.bind_eq_some_iff.mp hstep
  obtain ⟨rfl, rfl, hpending, hauthorized, hsubscribed⟩ := hf
  rw [History.event, if_neg (not_is hmethod (by decide)), if_pos hmethod, hparams]
  dsimp only at hstep ⊢
  cases hanswer : o.authorizeFn st.client.remoteAddress st.client.localPort (params.index 0) (params.index 1) with
  | throws => simp [hanswer] at hstep
  | answers authorized =>
    simp only [hanswer, Option.some.injEq] at hstep
    subst hstep
    exact ⟨rfl, rfl, hpending, rfl, hsubscribed⟩
  | later =>
    simp only [hanswer, Option.some.injEq] at hstep
    subst hstep
    refine ⟨rfl, rfl, ?_, hauthorized, hsubscribed⟩
    rw [hpending]

theorem Follows.event (hf : Follows remoteAddress localPort h st) {e : Event}
    (hstep : (step host o st e).2 = some st') :
    Follows remoteAddress localPort (h.event o remoteAddress localPort e) st' := by
  cases e with
  | elsewhere jobManager extraNonceCounter =>
    cases hstep
    exact ⟨hf.remoteAddress, hf.localPort, hf.pending, hf.authorized, hf.subscribed⟩
  | answer request authorized =>
    rw [step, hf.pending] at hstep
    rw [History.event]
    split at hstep
    · cases hstep
    · next name hname =>
      cases hstep
      exact ⟨hf.remoteAddress, hf.localPort, rfl, rfl, hf.subscribed⟩
  | line now message =>
    rw [step] at hstep
    by_cases hsubscribe : (message.field (literal "method")).is "mining.subscribe" = true
    · rw [handleLine_subscribe hsubscribe] at hstep
      rw [History.event, if_pos hsubscribe]
      exact hf.subscribe hstep
    by_cases hauthorize : (message.field (literal "method")).is "mining.authorize" = true
    · rw [handleLine_authorize hauthorize] at hstep
      exact hf.authorize hauthorize hstep
    · rw [History.event, if_neg hsubscribe, if_neg hauthorize]
      obtain ⟨hclient, hpending⟩ := handleLine_frame hsubscribe hauthorize hstep
      exact hf.frame hclient hpending hf.subscribed

theorem Follows.run (hf : Follows remoteAddress localPort h st) {events : List Event}
    (hrun : run host o st events = some st') :
    Follows remoteAddress localPort (events.foldl (History.event o remoteAddress localPort) h) st' := by
  induction events generalizing st h with
  | nil =>
    cases hrun
    exact hf
  | cons e events ih =>
    obtain ⟨st₁, hstep, hrun⟩ := Option.bind_eq_some_iff.mp hrun
    exact ih (hf.event hstep) hrun

theorem follows_of_run {now : ℤ} {jobManager : JobManager} {extraNonceCounter : ExtraNonceCounter}
    {events : List Event}
    (hrun : run host o (.connect remoteAddress localPort now jobManager extraNonceCounter) events = some st') :
    Follows remoteAddress localPort (history o remoteAddress localPort events) st' := by
  have hconnect : Follows remoteAddress localPort .init
      (.connect remoteAddress localPort now jobManager extraNonceCounter) :=
    ⟨rfl, rfl, rfl, rfl, iff_of_false (fun ⟨_, hsome, _⟩ => by cases hsome) Bool.false_ne_true⟩
  exact hconnect.run hrun

end Follows

section Credit
variable (host : Engine) (o : Options) (remoteAddress localPort : Str)

/-- Every share is counted for a worker whose request has been accepted before. -/
def Credited (st : State) (events : List Event) : Prop :=
  ∀ pre e post, events = pre ++ e :: post → ∀ st', run host o st pre = some st' →
    ∀ worker ∈ (step host o st' e).1,
      worker ∈ (history o st.client.remoteAddress st.client.localPort pre).accepted

/-- Every `mining.submit` that comes while the last answer is positive, and after a subscription, names
a worker whose request has been accepted before. -/
def NamesAccepted (events : List Event) : Prop :=
  ∀ pre now message post, events = pre ++ .line now message :: post →
    (message.field (literal "method")).is "mining.submit" = true →
      (history o remoteAddress localPort pre).authorized = true →
        (history o remoteAddress localPort pre).subscribed = true →
          ∀ params ∈ message.params, params.index 0 ∈ (history o remoteAddress localPort pre).accepted

variable (now : ℤ) (jobManager : JobManager) (extraNonceCounter : ExtraNonceCounter) (events : List Event)

/-- The names in the messages decide whose shares are counted, as long as no line ends the process. -/
theorem credited_iff :
    (NamesAccepted o remoteAddress localPort events →
      Credited host o (.connect remoteAddress localPort now jobManager extraNonceCounter) events) ∧
    ((run host o (.connect remoteAddress localPort now jobManager extraNonceCounter) events).isSome →
      Credited host o (.connect remoteAddress localPort now jobManager extraNonceCounter) events →
        NamesAccepted o remoteAddress localPort events) := by
  constructor
  · rintro hnames pre e post rfl st' hrun worker hworker
    have hfollows := follows_of_run hrun
    obtain ⟨now', message, rfl, hmethod, extraNonce1, hready, share, hshare, -, rfl⟩ := mem_step.mp hworker
    obtain ⟨hauthorized, hsubscribed⟩ := hfollows.ready.mp ⟨extraNonce1, hready⟩
    obtain ⟨params, hparams, hname⟩ := submission_name hshare
    rw [hname]
    exact hnames pre now' message post rfl hmethod hauthorized hsubscribed params hparams
  · rintro hsome hcredited pre now' message post rfl hmethod hauthorized hsubscribed params hparams
    obtain ⟨st'', hrun⟩ := Option.isSome_iff_exists.mp hsome
    rw [run_events_append] at hrun
    obtain ⟨st', hpre, hrun⟩ := Option.bind_eq_some_iff.mp hrun
    obtain ⟨st₁, hstep, -⟩ := Option.bind_eq_some_iff.mp hrun
    obtain ⟨extraNonce1, hready⟩ := (follows_of_run hpre).ready.mpr ⟨hauthorized, hsubscribed⟩
    rw [step, handleLine_submit hmethod] at hstep
    obtain ⟨share, hshare, hsound, -⟩ :=
      (submit_isSome.mp (Option.isSome_iff_exists.mpr ⟨st₁, hstep⟩)).2 extraNonce1 hready
    obtain ⟨params', hparams', hname⟩ := submission_name hshare
    cases hparams'.symm.trans hparams
    rw [← hname]
    exact hcredited pre _ post rfl st' hpre _
      (mem_step.mpr ⟨now', message, rfl, hmethod, extraNonce1, hready, share, hshare, hsound, rfl⟩)

/-- On a connection with one worker the flag is enough. -/
theorem credited_of_single {worker : Value} (hasks : ∀ e ∈ events, Asks worker e)
    (hnames : ∀ now message, .line now message ∈ events →
      (message.field (literal "method")).is "mining.submit" = true →
        ∀ params ∈ message.params, params.index 0 = worker) :
    Credited host o (.connect remoteAddress localPort now jobManager extraNonceCounter) events := by
  refine (credited_iff ..).1 ?_
  rintro pre now' message post rfl hmethod hauthorized - params hparams
  rw [hnames now' message (by simp) hmethod params hparams]
  exact (single_history fun e he => hasks e (List.mem_append_left _ he)).authorized hauthorized

end Credit

section Another

def request (method : String) (params : List Json) : Json :=
  .obj [(literal "method", .str (literal method)), (literal "params", .arr params)]

def opening : List Event :=
  [.line 0 (request "mining.authorize" [.str (literal "a")]), .line 0 (request "mining.subscribe" [])]

def foreign : Event :=
  .line 0 (request "mining.submit" [.str (literal "b"), .str (literal "9"), .str [], .str [], .str []])

/-- The share is counted for the name it carries. -/
theorem credits_another : ¬Credited engine options fresh (opening ++ [foreign]) := by
  intro h
  have hsome : (run engine options fresh opening).isSome := by decide
  obtain ⟨st', hrun⟩ := Option.isSome_iff_exists.mp hsome
  have hshares : (run engine options fresh opening).map (fun st => (step engine options st foreign).1) =
      some [some (.str (literal "b"))] := rfl
  rw [hrun, Option.map_some, Option.some_inj] at hshares
  have hmem := h opening foreign [] rfl st' hrun _ (hshares ▸ List.mem_cons_self)
  have haccepted : (history options fresh.client.remoteAddress fresh.client.localPort opening).accepted =
      [some (.str (literal "a"))] := rfl
  rw [haccepted, List.mem_singleton, Option.some_inj, Json.str.injEq] at hmem
  exact absurd hmem (by decide)

end Another
end Aion.Stratum
