import AionMiner.Pool.StratumClient
import AionMiner.Stratum.Submission

/-! `StratumClient` of `stratum.js` and the listeners of `pool.js`: what a message does to a
connection. -/

namespace Aion.Stratum
open Text Pool

/-- Enabled banning. `lenient` is `percentBad < banning.invalidPercent`, of the invalid shares among all. -/
structure Banning where
  checkThreshold : ℕ
  lenient : ℕ → ℕ → Bool

/-- What a call of `authorizeFn` does: it may answer at once, or later. -/
inductive Authorizing where
  | throws
  | answers (authorized : Bool)
  | later

structure Options where
  banning : Option Banning
  connectionTimeout : ℤ
  authorizeFn : Str → Str → Value → Value → Authorizing

structure Client extends StratumClient where
  workerName : Value
  workerPass : Value
  valid : ℕ
  invalid : ℕ
  lastActivity : ℤ

def Client.connect (remoteAddress localPort : Str) (now : ℤ) : Client :=
  ⟨⟨false, none, remoteAddress, localPort⟩, none, none, 0, 0, now⟩

/-- A connection and the pool behind it. `pending` holds the names `authorizeFn` has not answered yet. -/
structure State where
  client : Client
  jobManager : JobManager
  extraNonceCounter : ExtraNonceCounter
  pending : List Value

def Value.is (v : Value) (s : String) : Bool :=
  match v with
  | some (.str t) => t == literal s
  | _ => false

def Client.getLabel (c : Client) : Option Str :=
  let name := match c.workerName with
    | some j => if j.truthy then j.text else some (literal "(unauthorized)")
    | none => some (literal "(unauthorized)")
  name.map fun name => name ++ literal " [" ++ c.remoteAddress ++ literal "]"

def Client.counted (shareValid : Bool) (c : Client) : Client :=
  if shareValid then { c with valid := c.valid + 1 } else { c with invalid := c.invalid + 1 }

/-- The counts go on: `this.shares = ...` sets them on another object. -/
def considerBan (o : Options) (shareValid : Bool) (c : Client) : Option (Bool × Client) :=
  match o.banning with
  | none => some (false, c)
  | some banning =>
    let c := c.counted shareValid
    let totalShares := c.valid + c.invalid
    if totalShares < banning.checkThreshold then some (false, c)
    else if banning.lenient c.invalid totalShares then some (false, c)
    else c.getLabel.map fun _ => (true, c)

def sendMiningJob (o : Options) (now : ℤ) (c : Client) : Option Unit :=
  if now - c.lastActivity > o.connectionTimeout * 1000 then c.getLabel.map fun _ => () else some ()

/-- The listener takes the next extra nonce, and then the parameters of `currentJob`. -/
def handleSubscribe (o : Options) (now : ℤ) (st : State) : Option State :=
  match st.extraNonceCounter.next with
  | (none, _) => none
  | (some extraNonce1, counter) =>
    let client := { st.client with extraNonce1 := some extraNonce1 }
    match st.jobManager.currentJob with
    | none => none
    | some _ =>
      (sendMiningJob o now client).map fun _ => { st with client := client, extraNonceCounter := counter }

def Json.params (message : Json) : Option Json := (message.field (literal "params")).member id

def handleAuthorize (o : Options) (st : State) (message : Json) : Option State :=
  message.params.bind fun params =>
    let client := { st.client with workerName := params.index 0, workerPass := params.index 1 }
    match o.authorizeFn client.remoteAddress client.localPort client.workerName client.workerPass with
    | .throws => none
    | .answers authorized => some { st with client := { client with authorized := authorized } }
    | .later => some { st with client := client, pending := st.pending ++ [client.workerName] }

def submission (extraNonce1 : Str) (message : Json) : Option Submission :=
  message.params.bind fun params =>
    (Value.text (params.index 3)).map fun text =>
      { name := params.index 0
        jobId := params.index 1
        nTime := params.index 2
        extraNonce2 := params.index 3
        soln := params.index 4
        extraNonce1 := extraNonce1
        nonce := extraNonce1 ++ text }

def State.count (o : Options) (shareValid : Bool) (st : State) : Option State :=
  (considerBan o shareValid st.client).map fun (_, client) => { st with client := client }

/-- The listeners of `share`. A rejected share is logged and comes to `handleShare` at once, which joins the
worker's name into `hashrateData`. A valid one is a block, and comes there when the daemons have answered. -/
def emitShare (params : Submission) (response : Response) : Option Unit :=
  if response.result then some () else params.name.joined.map fun _ => ()

/-- The workers of the `share` events that are emitted, and the state unless an exception escapes. -/
def handleSubmit (host : Engine) (o : Options) (st : State) (message : Json) : List Value × Option State :=
  if !st.client.authorized then ([], st.count o false)
  else
    match st.client.extraNonce1 with
    | none | some [] => ([], st.count o false)
    | some extraNonce1 =>
      match submission extraNonce1 message with
      | none => ([], none)
      | some params =>
        match processShare host st.jobManager params with
        | none => ([], none)
        | some (jobManager, response) =>
          ([params.name],
            (emitShare params response).bind fun _ => { st with jobManager := jobManager }.count o response.result)

def unknownStratumMethod (st : State) (message : Json) : Option State :=
  st.client.getLabel.bind fun _ => (Value.text (message.field (literal "method"))).map fun _ => st

def handleMessage (host : Engine) (o : Options) (now : ℤ) (st : State) (message : Json) :
    List Value × Option State :=
  let method : Value := message.field (literal "method")
  if method.is "mining.subscribe" then ([], handleSubscribe o now st)
  else if method.is "mining.authorize" then ([], handleAuthorize o st message)
  else if method.is "mining.submit" then
    handleSubmit host o { st with client := { st.client with lastActivity := now } } message
  else if method.is "mining.get_transactions" then ([], some st)
  else if method.is "mining.extranonce.subscribe" then ([], some st)
  else ([], unknownStratumMethod st message)

def handleLine (host : Engine) (o : Options) (now : ℤ) (st : State) (messageJson : Json) :
    List Value × Option State :=
  if messageJson.truthy then handleMessage host o now st messageJson else ([], some st)

end Aion.Stratum
