import AionMiner.Network.Lines
import AionMiner.Network.Fair

/-! What the process does with the requests the clients write. It is a refinement of the world. -/

namespace Aion.Stratum
open Text Pool

section Handlers
variable {host : Engine} {o : Options} {now : ℤ} {st : State} {message : Json}

def Client.active (now : ℤ) (c : Client) : Client := { c with lastActivity := now }

/-- Shares are counted where banning is enabled. -/
def Client.tallied (o : Options) (valid : Bool) (c : Client) : Client :=
  if o.banning.isSome then c.counted valid else c

theorem count_eq (hlabel : st.client.getLabel.isSome) (valid : Bool) :
    st.count o valid = some { st with client := st.client.tallied o valid } := by
  obtain ⟨-, -, hcounted⟩ := counted_eq valid st.client
  unfold State.count considerBan Client.tallied
  cases o.banning with
  | none => rfl
  | some banning =>
    dsimp only
    rw [Option.isSome_some, if_pos rfl, hcounted]
    obtain ⟨label, hsome⟩ := Option.isSome_iff_exists.mp hlabel
    rw [hsome]
    split_ifs <;> rfl

theorem ready_of_handleSubmit {c : Client} {params : SubmitParams} {sh : Share}
    (h : c.toStratumClient.handleSubmit params = .ok sh) : ∃ extraNonce1, c.Ready extraNonce1 := by
  unfold StratumClient.handleSubmit at h
  split_ifs at h with hauthorized
  rw [Bool.not_eq_true', Bool.not_eq_false] at hauthorized
  split at h
  · cases h
  · cases h
  · next extraNonce1 hne hsome => exact ⟨extraNonce1, hauthorized, hsome, hne⟩

theorem tallied_frame (o : Options) (now : ℤ) (valid : Bool) (c : Client) :
    ((c.active now).tallied o valid).toStratumClient = c.toStratumClient ∧
      ((c.active now).tallied o valid).getLabel = c.getLabel := by
  unfold Client.tallied Client.counted
  split_ifs <;> exact ⟨rfl, rfl⟩

/-- Nothing but a share is counted. -/
theorem step_counts {e : Event} {st' : State}
    (he : ∀ now message, e = .line now message → ¬(message.field (literal "method")).is "mining.submit" = true)
    (h : (step host o st e).2 = some st') :
    st'.client.valid = st.client.valid ∧ st'.client.invalid = st.client.invalid := by
  cases e with
  | answer request authorized =>
    rw [step] at h
    split at h
    · cases h
    · cases h
      exact ⟨rfl, rfl⟩
  | elsewhere jobManager extraNonceCounter =>
    cases h
    exact ⟨rfl, rfl⟩
  | line now message =>
    have hsubmit := he now message rfl
    unfold step handleLine handleMessage at h
    dsimp only at h
    split_ifs at h
    · unfold handleSubscribe at h
      split at h
      · cases h
      · split at h
        · cases h
        · obtain ⟨-, -, rfl⟩ := Option.map_eq_some_iff.mp h
          exact ⟨rfl, rfl⟩
    · obtain ⟨params, -, h⟩ := Option.bind_eq_some_iff.mp h
      dsimp only at h
      split at h <;> cases h <;> exact ⟨rfl, rfl⟩
    · cases h
      exact ⟨rfl, rfl⟩
    · cases h
      exact ⟨rfl, rfl⟩
    · obtain ⟨-, -, h⟩ := Option.bind_eq_some_iff.mp h
      obtain ⟨-, -, rfl⟩ := Option.map_eq_some_iff.mp h
      exact ⟨rfl, rfl⟩
    · cases h
      exact ⟨rfl, rfl⟩

end Handlers
end Aion.Stratum

namespace Aion.Network
open Bits Text Pool Stratum

section Code

/-- `pending` holds the names `authorizeFn` has not answered yet. -/
structure Connection where
  client : Stratum.Client
  pending : List Value

structure Process where
  jobManager : JobManager
  extraNonceCounter : ExtraNonceCounter
  connections : ℕ → Connection

/-- Connection `i` is made at the time `connected i`. -/
def Process.init (instanceId : BitVec 32) (addresses : ℕ → Str × Str) (connected : ℕ → ℤ) : Process where
  jobManager := .init
  extraNonceCounter := ⟨instanceId, 0⟩
  connections i := ⟨.connect (addresses i).1 (addresses i).2 (connected i), []⟩

def Process.state (p : Process) (i : ℕ) : Stratum.State where
  client := (p.connections i).client
  jobManager := p.jobManager
  extraNonceCounter := p.extraNonceCounter
  pending := (p.connections i).pending

def Process.put (p : Process) (i : ℕ) (st : Stratum.State) : Process where
  jobManager := st.jobManager
  extraNonceCounter := st.extraNonceCounter
  connections := Function.update p.connections i ⟨st.client, st.pending⟩

variable (host : Engine) (o : Options)

/-- An event at connection `i`; `none` when an exception escapes, which ends the process. -/
def Process.event (p : Process) (i : ℕ) (e : Stratum.Event) : Option Process :=
  (Stratum.step host o (p.state i) e).2.map (p.put i)

def Process.template (p : Process) (rpcData : RpcData) : Process :=
  { p with jobManager := (p.jobManager.processTemplate host.toHost rpcData).1 }

end Code

section Requests
variable {host : Engine} {o : Options} {number : Str → Str} {st : Stratum.State} {now : ℤ}

theorem handle_subscribe (host' port : Str) (hlabel : st.client.getLabel.isSome) :
    (Stratum.step host o st (.line now ((Request.subscribe host' port).message number))).2 =
      st.jobManager.currentJob.bind fun _ => st.extraNonceCounter.next.1.map fun extraNonce1 =>
        { st with
          client := { st.client with extraNonce1 := some extraNonce1 }
          extraNonceCounter := st.extraNonceCounter.next.2 } := by
  have hmethod : (((Request.subscribe host' port).message number).field (literal "method")).is "mining.subscribe" =
      true := rfl
  rw [Stratum.step, handleLine_subscribe hmethod, handleSubscribe]
  rcases hnext : st.extraNonceCounter.next with ⟨_ | extraNonce1, counter⟩
  · cases st.jobManager.currentJob <;> rfl
  · cases hjob : st.jobManager.currentJob with
    | none => rfl
    | some ref =>
      have hsend : sendMiningJob o now { st.client with extraNonce1 := some extraNonce1 } = some () := by
        rw [sendMiningJob]
        split_ifs
        · exact Option.map_eq_some_iff.mpr ⟨_, (Option.some_get hlabel).symm, rfl⟩
        · rfl
      dsimp only
      rw [hsend]
      rfl

theorem handle_authorize (user pass : Str) :
    (Stratum.step host o st (.line now ((Request.authorize user pass).message number))).2 =
      let client := { st.client with workerName := some (.str user), workerPass := some (.str pass) }
      match o.authorizeFn client.remoteAddress client.localPort (some (.str user)) (some (.str pass)) with
      | .throws => none
      | .answers authorized => some { st with client := { client with authorized := authorized } }
      | .later => some { st with client := client, pending := st.pending ++ [some (.str user)] } := by
  have hmethod : (((Request.authorize user pass).message number).field (literal "method")).is "mining.authorize" =
      true := rfl
  rw [Stratum.step, handleLine_authorize hmethod]
  rfl

theorem handle_extranonceSubscribe :
    (Stratum.step host o st (.line now (Request.extranonceSubscribe.message number))).2 = some st := rfl

theorem emitShare_ofShare (sh : Share) (response : Response) : emitShare (.ofShare sh) response = some () := by
  unfold emitShare
  split_ifs <;> rfl

/-- Strings are handled as the messages of the world are. -/
theorem handleSubmit_strings (id : ℕ) (params : SubmitParams) (hlabel : st.client.getLabel.isSome) :
    (handleSubmit host o st ((Request.submit id params).message number)).2 =
      match st.client.toStratumClient.handleSubmit params with
      | .error _ => some { st with client := st.client.tallied o false }
      | .ok sh => some { st with
          client := st.client.tallied o (st.jobManager.answer host.toHost sh).response.result
          jobManager := (st.jobManager.processShare host.toHost sh).1 } := by
  by_cases hready : ∃ extraNonce1, st.client.Ready extraNonce1
  · obtain ⟨extraNonce1, hready⟩ := hready
    have hsubmission : submission extraNonce1 ((Request.submit id params).message number) =
        some (.ofShare (st.client.share params extraNonce1)) := rfl
    have hjudged : ∀ jobManager valid, State.count o valid { st with jobManager := jobManager } =
        some { st with client := st.client.tallied o valid, jobManager := jobManager } := by
      intro jobManager valid
      refine count_eq ?_ valid
      exact hlabel
    rw [handleSubmit_ready hready, hsubmission,
      StratumClient.handleSubmit_eq hready.1 hready.2.1 hready.2.2]
    dsimp only
    rw [processShare_ofShare]
    dsimp only
    rw [emitShare_ofShare, Option.bind_some]
    apply hjudged
  · rw [handleSubmit_refused (not_exists.mp hready)]
    cases hsubmit : st.client.toStratumClient.handleSubmit params with
    | error e => exact count_eq hlabel false
    | ok sh => exact absurd (ready_of_handleSubmit hsubmit) hready

theorem step_submit (id : ℕ) (params : SubmitParams) (hlabel : st.client.getLabel.isSome) :
    (Stratum.step host o st (.line now ((Request.submit id params).message number))).2 =
      match st.client.toStratumClient.handleSubmit params with
      | .error _ => some { st with client := (st.client.active now).tallied o false }
      | .ok sh => some { st with
          client := (st.client.active now).tallied o (st.jobManager.answer host.toHost sh).response.result
          jobManager := (st.jobManager.processShare host.toHost sh).1 } := by
  have hmethod : (((Request.submit id params).message number).field (literal "method")).is "mining.submit" =
      true := rfl
  rw [Stratum.step, handleLine_submit hmethod]
  apply handleSubmit_strings
  exact hlabel

end Requests

section Runs
variable (host : Engine) (o : Options) (rig : ℕ → Prop) (number : Str → Str)

/-- The process beside the world it serves. The miners subscribe once and submit what they have sent; the
others write any requests whose fields are strings. -/
inductive Run (instanceId : BitVec 32) (addresses : ℕ → Str × Str) (connected : ℕ → ℤ) : World → Process → Prop
  | start : Run instanceId addresses connected (.init instanceId addresses) (.init instanceId addresses connected)
  | template {w : World} {p : Process} (h : Run instanceId addresses connected w p) (rpcData : RpcData) :
      Run instanceId addresses connected (w.template host.toHost rpcData) (p.template host rpcData)
  | find {w : World} {p : Process} (h : Run instanceId addresses connected w p) (m : Sent)
      (hfind : Step host.toHost rig w { w with flying := w.flying ++ [m] }) :
      Run instanceId addresses connected { w with flying := w.flying ++ [m] } p
  | subscribe {w : World} {p p' : Process} (h : Run instanceId addresses connected w p) (i : ℕ) (now : ℤ)
      (host' port extraNonce1 : Str) (honce : rig i → (w.clients i).extraNonce1 = none)
      (hnext : w.extraNonces.next.1 = some extraNonce1)
      (hevent : p.event host o i (.line now ((Request.subscribe host' port).message number)) = some p') :
      Run instanceId addresses connected (w.subscribe i extraNonce1) p'
  | authorize {w : World} {p p' : Process} (h : Run instanceId addresses connected w p) (i : ℕ) (now : ℤ)
      (user pass : Str) (authorized : Bool)
      (hanswers : o.authorizeFn (w.clients i).remoteAddress (w.clients i).localPort (some (.str user))
        (some (.str pass)) = .answers authorized)
      (hevent : p.event host o i (.line now ((Request.authorize user pass).message number)) = some p') :
      Run instanceId addresses connected (w.authorize i authorized) p'
  | ask {w : World} {p p' : Process} (h : Run instanceId addresses connected w p) (i : ℕ) (now : ℤ) (user pass : Str)
      (hlater : o.authorizeFn (w.clients i).remoteAddress (w.clients i).localPort (some (.str user))
        (some (.str pass)) = .later)
      (hevent : p.event host o i (.line now ((Request.authorize user pass).message number)) = some p') :
      Run instanceId addresses connected w p'
  | answer {w : World} {p p' : Process} (h : Run instanceId addresses connected w p) (i request : ℕ)
      (authorized : Bool)
      (hevent : p.event host o i (.answer request authorized) = some p') :
      Run instanceId addresses connected (w.authorize i authorized) p'
  | extranonceSubscribe {w : World} {p p' : Process} (h : Run instanceId addresses connected w p) (i : ℕ) (now : ℤ)
      (hevent : p.event host o i (.line now (Request.extranonceSubscribe.message number)) = some p') :
      Run instanceId addresses connected w p'
  | deliver {w : World} {p p' : Process} (h : Run instanceId addresses connected w p) (now : ℤ) (id : ℕ)
      (pre post : List Sent) (m : Sent) (hflying : w.flying = pre ++ m :: post)
      (hevent : p.event host o m.client (.line now ((Request.submit id m.message).message number)) = some p') :
      Run instanceId addresses connected (w.deliver host.toHost m (pre ++ post)) p'
  | submit {w : World} {p p' : Process} (h : Run instanceId addresses connected w p) (i : ℕ) (now : ℤ) (id : ℕ)
      (params : SubmitParams) (hrig : ¬rig i)
      (hevent : p.event host o i (.line now ((Request.submit id params).message number)) = some p') :
      Run instanceId addresses connected (w.receive host.toHost i params).1 p'

end Runs

section Refinement
variable {host : Engine} {o : Options} {rig : ℕ → Prop} {number : Str → Str} {w w' : World} {p p' : Process}
  {i : ℕ} {now : ℤ}

/-- The process is in the state the world says. -/
structure Serves (w : World) (p : Process) : Prop where
  pool : p.jobManager = w.pool
  extraNonces : p.extraNonceCounter = w.extraNonces
  client : ∀ i, (p.connections i).client.toStratumClient = w.clients i
  label : ∀ i, (p.connections i).client.getLabel.isSome

theorem Serves.put (h : Serves w p) {st : Stratum.State} (hpool : st.jobManager = w'.pool)
    (hextra : st.extraNonceCounter = w'.extraNonces) (hclient : st.client.toStratumClient = w'.clients i)
    (hothers : ∀ j ≠ i, w'.clients j = w.clients j) (hlabel : st.client.getLabel.isSome) :
    Serves w' (p.put i st) := by
  refine ⟨hpool, hextra, fun j => ?_, fun j => ?_⟩
  · dsimp only [Process.put]
    by_cases hj : j = i
    · rw [hj, Function.update_self]
      exact hclient
    · rw [Function.update_of_ne hj, hothers j hj]
      exact h.client j
  · dsimp only [Process.put]
    by_cases hj : j = i
    · rw [hj, Function.update_self]
      exact hlabel
    · rw [Function.update_of_ne hj]
      exact h.label j

theorem label_of_string (c : Stratum.Client) {name : Str} (hname : c.workerName = some (.str name)) :
    c.getLabel.isSome := by
  rw [Stratum.Client.getLabel, hname, Option.isSome_map]
  dsimp only
  split_ifs <;> rfl

theorem serves_init (instanceId : BitVec 32) (addresses : ℕ → Str × Str) (connected : ℕ → ℤ) :
    Serves (World.init instanceId addresses) (Process.init instanceId addresses connected) :=
  ⟨rfl, rfl, fun _ => rfl, fun _ => rfl⟩

theorem Serves.template (h : Serves w p) (rpcData : RpcData) :
    Serves (w.template host.toHost rpcData) (p.template host rpcData) := by
  refine ⟨?_, h.extraNonces, h.client, h.label⟩
  dsimp only [Process.template, World.template]
  rw [h.pool]

theorem Serves.subscribe (h : Serves w p) {host' port extraNonce1 : Str}
    (hnext : w.extraNonces.next.1 = some extraNonce1)
    (hevent : p.event host o i (.line now ((Request.subscribe host' port).message number)) = some p') :
    Serves (w.subscribe i extraNonce1) p' := by
  obtain ⟨st, hst, rfl⟩ := Option.map_eq_some_iff.mp hevent
  have hlabel : (p.state i).client.getLabel.isSome := h.label i
  rw [handle_subscribe host' port hlabel] at hst
  obtain ⟨-, -, hst⟩ := Option.bind_eq_some_iff.mp hst
  obtain ⟨extra, hextra, rfl⟩ := Option.map_eq_some_iff.mp hst
  dsimp only [Process.state] at hextra
  rw [h.extraNonces, hnext] at hextra
  cases hextra
  refine h.put h.pool ?_ ?_ (fun j hj => Function.update_of_ne hj ..) hlabel
  · dsimp only [Process.state, World.subscribe]
    rw [h.extraNonces]
  · dsimp only [Process.state, World.subscribe]
    rw [Function.update_self, ← h.client i]

theorem Serves.authorize (h : Serves w p) {user pass : Str} {authorized : Bool}
    (hanswers : o.authorizeFn (w.clients i).remoteAddress (w.clients i).localPort (some (.str user))
      (some (.str pass)) = .answers authorized)
    (hevent : p.event host o i (.line now ((Request.authorize user pass).message number)) = some p') :
    Serves (w.authorize i authorized) p' := by
  obtain ⟨st, hst, rfl⟩ := Option.map_eq_some_iff.mp hevent
  rw [← h.client i] at hanswers
  rw [handle_authorize] at hst
  dsimp only [Process.state] at hst
  rw [hanswers] at hst
  cases hst
  refine h.put h.pool h.extraNonces ?_ (fun j hj => Function.update_of_ne hj ..) (label_of_string _ rfl)
  dsimp only [World.authorize]
  rw [Function.update_self, ← h.client i]

theorem Serves.ask (h : Serves w p) {user pass : Str}
    (hlater : o.authorizeFn (w.clients i).remoteAddress (w.clients i).localPort (some (.str user))
      (some (.str pass)) = .later)
    (hevent : p.event host o i (.line now ((Request.authorize user pass).message number)) = some p') :
    Serves w p' := by
  obtain ⟨st, hst, rfl⟩ := Option.map_eq_some_iff.mp hevent
  rw [← h.client i] at hlater
  rw [handle_authorize] at hst
  dsimp only [Process.state] at hst
  rw [hlater] at hst
  cases hst
  exact h.put h.pool h.extraNonces (h.client i) (fun _ _ => rfl) (label_of_string _ rfl)

theorem Serves.answer (h : Serves w p) {request : ℕ} {authorized : Bool}
    (hevent : p.event host o i (.answer request authorized) = some p') : Serves (w.authorize i authorized) p' := by
  obtain ⟨st, hst, rfl⟩ := Option.map_eq_some_iff.mp hevent
  rw [Stratum.step] at hst
  split at hst
  · cases hst
  · cases hst
    refine h.put h.pool h.extraNonces ?_ (fun j hj => Function.update_of_ne hj ..) (h.label i)
    dsimp only [Process.state, World.authorize]
    rw [Function.update_self, ← h.client i]

theorem Serves.extranonceSubscribe (h : Serves w p)
    (hevent : p.event host o i (.line now (Request.extranonceSubscribe.message number)) = some p') :
    Serves w p' := by
  obtain ⟨st, hst, rfl⟩ := Option.map_eq_some_iff.mp hevent
  rw [handle_extranonceSubscribe] at hst
  cases hst
  exact h.put h.pool h.extraNonces (h.client i) (fun _ _ => rfl) (h.label i)

/-- A message that is not a request for a name leaves the client as it is but for the counts. -/
theorem Serves.tally (h : Serves w p) {jobManager : JobManager} (hpool : jobManager = w'.pool)
    (hextra : w'.extraNonces = w.extraNonces) (hclients : w'.clients = w.clients) (valid : Bool) :
    Serves w' (p.put i { p.state i with
      client := ((p.state i).client.active now).tallied o valid, jobManager := jobManager }) := by
  obtain ⟨hsame, hlabel⟩ := tallied_frame o now valid (p.state i).client
  refine h.put hpool (hextra ▸ h.extraNonces) ?_ (fun _ _ => by rw [hclients]) ?_
  · rw [hclients]
    exact hsame.trans (h.client i)
  · dsimp only
    rw [hlabel]
    exact h.label i

/-- A share is judged as in the world, and counted. -/
theorem event_submit (h : Serves w p) {id : ℕ} {params : SubmitParams}
    (hevent : p.event host o i (.line now ((Request.submit id params).message number)) = some p') :
    p' = p.put i { p.state i with
      client := ((p.state i).client.active now).tallied o
        ((w.receive host.toHost i params).2.any fun a => a.response.result)
      jobManager := (w.receive host.toHost i params).1.pool } := by
  obtain ⟨st, hst, rfl⟩ := Option.map_eq_some_iff.mp hevent
  have hlabel : (p.state i).client.getLabel.isSome := h.label i
  have hclient : (p.state i).client.toStratumClient = w.clients i := h.client i
  have hpool : (p.state i).jobManager = w.pool := h.pool
  rw [step_submit id params hlabel, hclient, hpool] at hst
  rw [World.receive]
  cases hsubmit : (w.clients i).handleSubmit params with
  | error e =>
    rw [hsubmit] at hst
    cases hst
    rw [← hpool]
    rfl
  | ok sh =>
    rw [hsubmit] at hst
    cases hst
    rfl

theorem Serves.submit (h : Serves w p) {id : ℕ} {params : SubmitParams}
    (hevent : p.event host o i (.line now ((Request.submit id params).message number)) = some p') :
    Serves (w.receive host.toHost i params).1 p' := by
  rw [event_submit h hevent]
  have hframe : (w.receive host.toHost i params).1.extraNonces = w.extraNonces ∧
      (w.receive host.toHost i params).1.clients = w.clients := by
    rcases receive_cases host.toHost w i params with heq | ⟨sh, -, -, heq⟩ <;> rw [heq] <;> exact ⟨rfl, rfl⟩
  exact h.tally rfl hframe.1 hframe.2 _

theorem Serves.deliver (h : Serves w p) {id : ℕ} {m : Sent} {rest : List Sent}
    (hevent : p.event host o m.client (.line now ((Request.submit id m.message).message number)) = some p') :
    Serves (w.deliver host.toHost m rest) p' := by
  have hrest : Serves { w with flying := rest } p := ⟨h.pool, h.extraNonces, h.client, h.label⟩
  have hsubmit := hrest.submit hevent
  exact ⟨hsubmit.pool, hsubmit.extraNonces, hsubmit.client, hsubmit.label⟩

/-- What a request needs to be answered. A share needs nothing. -/
def Request.Answerable (o : Options) (w : World) (i : ℕ) : Request → Prop
  | .subscribe _ _ => w.pool.currentJob.isSome ∧ w.extraNonces.counter < 2 ^ 32
  | .authorize user pass =>
    o.authorizeFn (w.clients i).remoteAddress (w.clients i).localPort (some (.str user)) (some (.str pass)) ≠ .throws
  | .extranonceSubscribe => True
  | .submit _ _ => True

theorem Serves.event_isSome (h : Serves w p) (i : ℕ) (now : ℤ) (r : Request) :
    (p.event host o i (.line now (r.message number))).isSome ↔ r.Answerable o w i := by
  have hlabel : (p.state i).client.getLabel.isSome := h.label i
  rw [Process.event, Option.isSome_map]
  cases r with
  | subscribe host' port =>
    rw [handle_subscribe host' port hlabel, Request.Answerable, ← h.pool, ← h.extraNonces]
    dsimp only [Process.state]
    rw [ExtraNonceCounter.next]
    by_cases hlt : p.extraNonceCounter.counter < 2 ^ 32
    · rw [if_pos hlt, and_iff_left hlt]
      cases p.jobManager.currentJob <;> rfl
    · rw [if_neg hlt]
      refine iff_of_false ?_ fun h => hlt h.2
      cases p.jobManager.currentJob <;> exact Bool.false_ne_true
  | authorize user pass =>
    rw [handle_authorize, Request.Answerable, ← h.client i]
    dsimp only [Process.state]
    cases o.authorizeFn (p.connections i).client.remoteAddress (p.connections i).client.localPort (some (.str user))
      (some (.str pass)) <;> simp
  | extranonceSubscribe => exact iff_of_true rfl trivial
  | submit id params =>
    rw [step_submit id params hlabel]
    refine iff_of_true ?_ trivial
    split <;> rfl

variable {instanceId : BitVec 32} {addresses : ℕ → Str × Str} {connected : ℕ → ℤ}

theorem serves_of_run (h : Run host o rig number instanceId addresses connected w p) :
    Reachable host.toHost rig instanceId addresses w ∧ Serves w p := by
  induction h with
  | start => exact ⟨.refl, serves_init instanceId addresses connected⟩
  | template _ rpcData ih => exact ⟨ih.1.tail (.template _ rpcData), ih.2.template rpcData⟩
  | find _ m hfind ih => exact ⟨ih.1.tail hfind, ih.2.pool, ih.2.extraNonces, ih.2.client, ih.2.label⟩
  | subscribe _ i now host' port extraNonce1 honce hnext hevent ih =>
    exact ⟨ih.1.tail (.subscribe _ i extraNonce1 hnext honce), ih.2.subscribe hnext hevent⟩
  | authorize _ i now user pass authorized hanswers hevent ih =>
    exact ⟨ih.1.tail (.authorize _ i authorized), ih.2.authorize hanswers hevent⟩
  | ask _ i now user pass hlater hevent ih => exact ⟨ih.1, ih.2.ask hlater hevent⟩
  | answer _ i request authorized hevent ih =>
    exact ⟨ih.1.tail (.authorize _ i authorized), ih.2.answer hevent⟩
  | extranonceSubscribe _ i now hevent ih => exact ⟨ih.1, ih.2.extranonceSubscribe hevent⟩
  | deliver _ now id pre post m hflying hevent ih =>
    exact ⟨ih.1.tail (.deliver _ pre post m hflying), ih.2.deliver hevent⟩
  | submit _ i now id params hrig hevent ih =>
    exact ⟨ih.1.tail (.submit _ i params hrig), ih.2.submit hevent⟩

/-- The process refines the world, and of the requests no share ends it. -/
theorem process_refines_world (h : Run host o rig number instanceId addresses connected w p) :
    Reachable host.toHost rig instanceId addresses w ∧ Serves w p ∧
      ∀ i now (r : Request), (p.event host o i (.line now (r.message number))).isSome ↔ r.Answerable o w i := by
  obtain ⟨hreach, hserves⟩ := serves_of_run h
  exact ⟨hreach, hserves, hserves.event_isSome⟩

end Refinement

section Counts
variable {host : Engine} {o : Options} {rig : ℕ → Prop} {number : Str → Str} {w w' : World} {p p' : Process}
  {instanceId : BitVec 32} {addresses : ℕ → Str × Str} {connected : ℕ → ℤ} {i : ℕ} {now : ℤ}

def Verdict.accepted (v : Verdict) : Bool := v.answer.any fun a => a.response.result

def World.verdictsOf (w : World) (i : ℕ) : List Verdict := w.verdicts.filter fun v => v.sent.client = i

/-- The shares of a client are counted as they have been answered. -/
structure Tallied (w : World) (p : Process) (i : ℕ) : Prop where
  valid : (p.connections i).client.valid = (w.verdictsOf i).countP Verdict.accepted
  invalid : (p.connections i).client.invalid = (w.verdictsOf i).countP fun v => !v.accepted

theorem Tallied.mono {j : ℕ} (h : Tallied w p j) (hverdicts : w'.verdicts = w.verdicts)
    (hvalid : (p'.connections j).client.valid = (p.connections j).client.valid)
    (hinvalid : (p'.connections j).client.invalid = (p.connections j).client.invalid) : Tallied w' p' j := by
  refine ⟨?_, ?_⟩
  · rw [hvalid, h.valid, World.verdictsOf, World.verdictsOf, hverdicts]
  · rw [hinvalid, h.invalid, World.verdictsOf, World.verdictsOf, hverdicts]

theorem line_not_submit {r : Request} (hr : ∀ id params, r ≠ .submit id params) (now' : ℤ) (message : Json)
    (h : Stratum.Event.line now (r.message number) = .line now' message) :
    ¬(message.field (literal "method")).is "mining.submit" = true := by
  cases h
  cases r with
  | submit id params => exact absurd rfl (hr id params)
  | subscribe | authorize | extranonceSubscribe => exact Bool.false_ne_true

theorem Tallied.event {j : ℕ} (h : Tallied w p j) {e : Stratum.Event} (hverdicts : w'.verdicts = w.verdicts)
    (he : ∀ now message, e = .line now message → ¬(message.field (literal "method")).is "mining.submit" = true)
    (hevent : p.event host o i e = some p') : Tallied w' p' j := by
  obtain ⟨st, hst, rfl⟩ := Option.map_eq_some_iff.mp hevent
  obtain ⟨hvalid, hinvalid⟩ := step_counts he hst
  by_cases hj : j = i
  · subst hj
    have hput : ((p.put j st).connections j).client = st.client := by
      dsimp only [Process.put]
      rw [Function.update_self]
    exact h.mono hverdicts (hput ▸ hvalid) (hput ▸ hinvalid)
  · have hput : (p.put i st).connections j = p.connections j := Function.update_of_ne hj ..
    exact h.mono hverdicts (by rw [hput]) (by rw [hput])

theorem verdictsOf_deliver (host : Host) (w : World) (m : Sent) (rest : List Sent) (j : ℕ) :
    (w.deliver host m rest).verdictsOf j =
      if j = m.client then w.verdictsOf j ++
        [⟨m, (w.clients m.client).authorized, w.log,
          (World.receive host { w with flying := rest } m.client m.message).2⟩]
      else w.verdictsOf j := by
  rw [World.verdictsOf, World.deliver, List.filter_append, World.verdictsOf]
  split_ifs with hj
  · rw [List.filter_singleton, hj]
    simp
  · rw [List.filter_singleton]
    simp [Ne.symm hj]

theorem counted_accepted (c : Stratum.Client) (v : Verdict) :
    (c.counted v.accepted).valid = c.valid + [v].countP Verdict.accepted ∧
      (c.counted v.accepted).invalid = c.invalid + [v].countP fun v => !v.accepted := by
  rw [Stratum.Client.counted]
  cases hv : v.accepted <;> simp [hv]

theorem Tallied.deliver {j : ℕ} (h : Tallied w p j) (hserves : Serves w p) (hbanning : o.banning.isSome) {id : ℕ}
    {m : Sent} {rest : List Sent}
    (hevent : p.event host o m.client (.line now ((Request.submit id m.message).message number)) = some p') :
    Tallied (w.deliver host.toHost m rest) p' j := by
  have hrest : Serves { w with flying := rest } p :=
    ⟨hserves.pool, hserves.extraNonces, hserves.client, hserves.label⟩
  have hput := event_submit hrest hevent
  rw [Stratum.Client.tallied, if_pos hbanning] at hput
  by_cases hj : j = m.client
  · subst hj
    obtain ⟨v, hv⟩ : ∃ v : Verdict, v = ⟨m, (w.clients m.client).authorized, w.log,
        (World.receive host.toHost { w with flying := rest } m.client m.message).2⟩ := ⟨_, rfl⟩
    have hclient : (p'.connections m.client).client =
        ((p.state m.client).client.active now).counted v.accepted := by
      rw [hput, hv]
      dsimp only [Process.put]
      rw [Function.update_self]
      rfl
    obtain ⟨hvalid, hinvalid⟩ := counted_accepted ((p.state m.client).client.active now) v
    refine ⟨?_, ?_⟩
    · rw [hclient, hvalid, verdictsOf_deliver, if_pos rfl, List.countP_append, ← h.valid, hv]
      rfl
    · rw [hclient, hinvalid, verdictsOf_deliver, if_pos rfl, List.countP_append, ← h.invalid, hv]
      rfl
  · have hsame : p'.connections j = p.connections j := by
      rw [hput]
      exact Function.update_of_ne hj ..
    refine ⟨?_, ?_⟩
    · rw [hsame, verdictsOf_deliver, if_neg hj, h.valid]
    · rw [hsame, verdictsOf_deliver, if_neg hj, h.invalid]

/-- What others submit does not count. -/
theorem Tallied.submit {j : ℕ} (h : Tallied w p j) (hserves : Serves w p) (hj : j ≠ i) {id : ℕ}
    {params : SubmitParams}
    (hevent : p.event host o i (.line now ((Request.submit id params).message number)) = some p') :
    Tallied (w.receive host.toHost i params).1 p' j := by
  have hsame : p'.connections j = p.connections j := by
    rw [event_submit hserves hevent]
    exact Function.update_of_ne hj ..
  exact h.mono (receive_numbers ..).2.2 (by rw [hsame]) (by rw [hsame])

theorem tallied_of_run (h : Run host o rig number instanceId addresses connected w p) (hbanning : o.banning.isSome)
    (hi : rig i) : Tallied w p i := by
  induction h with
  | start => exact ⟨rfl, rfl⟩
  | template _ rpcData ih => exact ih.mono rfl rfl rfl
  | find _ m hfind ih => exact ih.mono rfl rfl rfl
  | subscribe _ j now host' port extraNonce1 honce hnext hevent ih =>
    exact ih.event rfl (line_not_submit fun _ _ => Request.noConfusion) hevent
  | authorize _ j now user pass authorized hanswers hevent ih =>
    exact ih.event rfl (line_not_submit fun _ _ => Request.noConfusion) hevent
  | ask _ j now user pass hlater hevent ih =>
    exact ih.event rfl (line_not_submit fun _ _ => Request.noConfusion) hevent
  | answer _ j request authorized hevent ih => exact ih.event rfl (fun _ _ h => by cases h) hevent
  | extranonceSubscribe _ j now hevent ih =>
    exact ih.event rfl (line_not_submit fun _ _ => Request.noConfusion) hevent
  | deliver h now id pre post m hflying hevent ih => exact ih.deliver (serves_of_run h).2 hbanning hevent
  | submit h j now id params hrig hevent ih =>
    exact ih.submit (serves_of_run h).2 (fun heq : i = j => hrig (heq ▸ hi)) hevent

/-- The share repeats the work of one that came before. -/
def Verdict.Repeats (v : Verdict) : Prop :=
  ∃ a, v.answer = some a ∧ ∃ y ∈ v.before, SameWork y ⟨v.sent.client, a⟩

/-- While the job numbers have not wrapped, a miner whose shares are genuine, come while it is authorized and
repeat nothing has all of them counted as valid, and its next valid share sets off no ban. -/
theorem miners_never_banned (hhost : host.bignum.Lawful)
    (h : Run host o rig number instanceId addresses connected w p)
    (hnumbers : w.numbers < 0xffff) {banning : Banning} (hbanning : o.banning = some banning)
    (hlenient : ∀ totalShares > 0, banning.lenient 0 totalShares = true) (hi : rig i)
    (hgenuine : ∀ v ∈ w.verdictsOf i, v.sent.Genuine host.H ∧ v.authorized = true)
    (honce : ∀ v ∈ w.verdictsOf i, ¬v.Repeats) :
    (p.connections i).client.valid = (w.verdictsOf i).length ∧ (p.connections i).client.invalid = 0 ∧
      ¬(p.connections i).client.Bans o true := by
  have hfair := (inv_of_reachable hhost (serves_of_run h).1).fair hnumbers
  have haccepted : ∀ v ∈ w.verdictsOf i, v.accepted = true := by
    intro v hv
    obtain ⟨hfind, hauthorized⟩ := hgenuine v hv
    obtain ⟨a, ha, -, haccepted | ⟨-, hrepeats⟩⟩ := (hfair v (List.mem_of_mem_filter hv) hfind).1 hauthorized
    · rw [Verdict.accepted, ha]
      exact haccepted
    · exact absurd ⟨a, ha, hrepeats⟩ (honce v hv)
  obtain ⟨hvalid, hinvalid⟩ := tallied_of_run h (by rw [hbanning]; rfl) hi
  have hnone : (p.connections i).client.invalid = 0 := by
    rw [hinvalid, List.countP_eq_zero]
    intro v hv
    simp [haccepted v hv]
  refine ⟨hvalid.trans (List.countP_eq_length.mpr haccepted), hnone, ?_⟩
  rintro ⟨banning', hbanning', -, hbans⟩
  rw [hbanning] at hbanning'
  cases hbanning'
  rw [if_pos rfl, hnone, hlenient _ (Nat.succ_pos _)] at hbans
  cases hbans

end Counts

section Planted

/-- Half of the shares may be invalid. -/
def strict : Options where
  banning := some ⟨1, fun invalid totalShares => invalid * 100 < 50 * totalShares⟩
  connectionTimeout := 600
  authorizeFn := authorizeFN

abbrev PlantedRun : World → Process → Prop :=
  Run engine strict (· = 0) id 0 (fun _ => ([], [])) fun _ => 0

/-- One job, and a miner that subscribes and gives its name. -/
theorem run_opening : ∃ p, PlantedRun opening p := by
  have hstart : PlantedRun _ _ := (Run.start).template openTemplate
  have hjob : (World.template plantedHost (.init 0 fun _ => ([], [])) openTemplate).pool.currentJob.isSome := by
    rw [show (World.template plantedHost (.init 0 fun _ => ([], [])) openTemplate).pool = opened from
      processTemplate_init]
    rfl
  obtain ⟨p₁, hsubscribe⟩ := Option.isSome_iff_exists.mp
    (((serves_of_run hstart).2.event_isSome 0 0 (.subscribe [] [])).mpr ⟨hjob, by decide⟩)
  have hsubscribed : PlantedRun _ _ := hstart.subscribe 0 0 [] [] (extraNonce 0 0) (fun _ => rfl) rfl hsubscribe
  have hanswers : strict.authorizeFn [] [] (some (.str [])) (some (.str [])) = .answers true := rfl
  have hanswerable : strict.authorizeFn [] [] (some (.str [])) (some (.str [])) ≠ .throws := by
    intro hthrows
    cases hanswers.symm.trans hthrows
  obtain ⟨p₂, hauthorize⟩ := Option.isSome_iff_exists.mp
    (((serves_of_run hsubscribed).2.event_isSome 0 0 (.authorize [] [])).mpr hanswerable)
  exact ⟨p₂, hsubscribed.authorize 0 0 [] [] true rfl hauthorize⟩

theorem process_refines_world_opening : ∃ p, Serves opening p ∧
    (p.event engine strict 0 (.line 0 ((Request.submit 4 plantedParams).message id))).isSome := by
  obtain ⟨p, hrun⟩ := run_opening
  obtain ⟨-, hserves, hsome⟩ := process_refines_world hrun
  exact ⟨p, hserves, (hsome 0 0 (.submit 4 plantedParams)).mpr trivial⟩

/-- The planted find is sent, and counted. -/
theorem miners_never_banned_planted : ∃ w p, PlantedRun w p ∧ (w.verdictsOf 0).length = 1 ∧
    (p.connections 0).client.valid = (w.verdictsOf 0).length ∧ (p.connections 0).client.invalid = 0 ∧
      ¬(p.connections 0).client.Bans strict true := by
  obtain ⟨p, hrun⟩ := run_opening
  obtain ⟨m, hclient, hgenuine, hfind⟩ := step_find
  have hfound : PlantedRun _ _ := hrun.find m hfind
  obtain ⟨p', hsubmit⟩ := Option.isSome_iff_exists.mp
    (((serves_of_run hfound).2.event_isSome m.client 0 (.submit 4 m.message)).mpr trivial)
  have hdelivered : PlantedRun _ _ := hfound.deliver 0 4 [] [] m rfl hsubmit
  have hverdicts := verdictsOf_deliver plantedHost { opening with flying := opening.flying ++ [m] } m [] 0
  rw [if_pos hclient.symm] at hverdicts
  have hauthorized : (opening.clients m.client).authorized = true := by rw [hclient, client_opening]
  refine ⟨_, p', hdelivered, ?_, miners_never_banned lawful_integers hdelivered ?_ rfl ?_ rfl ?_ ?_⟩
  · exact congrArg List.length hverdicts
  · rw [World.deliver, (receive_numbers ..).1, numbers_opening]
    decide
  · intro totalShares hpos
    refine decide_eq_true ?_
    omega
  · intro v hv
    cases List.mem_singleton.mp (hverdicts ▸ hv)
    exact ⟨hgenuine, hauthorized⟩
  · rintro v hv ⟨a, -, y, hy, -⟩
    cases List.mem_singleton.mp (hverdicts ▸ hv)
    exact absurd hy List.not_mem_nil

end Planted
end Aion.Network
