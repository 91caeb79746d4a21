import AionMiner.Session.Protocol
import AionMiner.Stratum.Values

/-! `processReponse` and `parseJob` on whatever object the server sends: which positions of its
arrays they read, and what `workLoop` does with the exceptions they throw. -/

namespace Aion.Session.Checked
open Text Miner
open Stratum (literal)

section Values

inductive ValueType where
  | obj | array | str | bool | int | real | null
  deriving DecidableEq

/-- `Value_type_name`. -/
def ValueType.name : ValueType → Str
  | .obj => literal "obj"
  | .array => literal "array"
  | .str => literal "str"
  | .bool => literal "bool"
  | .int => literal "int"
  | .real => literal "real"
  | .null => literal "null"

/-- `json_spirit::Value`, with the numbers `R` in the place of `double`. -/
inductive Value (R : Type) where
  | obj (pairs : List (Str × Value R))
  | array (items : List (Value R))
  | str (s : Str)
  | bool (b : Bool)
  | int (n : BitVec 64) (is_uint64 : Bool)
  | real (x : R)
  | null

variable {R : Type}

def Value.type : Value R → ValueType
  | .obj _ => .obj
  | .array _ => .array
  | .str _ => .str
  | .bool _ => .bool
  | .int _ _ => .int
  | .real _ => .real
  | .null => .null

def Value.isTrue : Value R → Bool
  | .bool b => b
  | _ => false

abbrev Object (R : Type) := List (Str × Value R)

/-- `find_value`: the first pair of that name. -/
def findValue (obj : Object R) (name : String) : Value R := (obj.lookup (literal name)).getD .null

end Values

section Machine

structure Credentials where
  host : Str
  port : Str
  user : Str
  pass : Str

/-- What `p_active` points to. -/
inductive Active where
  | primary | failover
  deriving DecidableEq

/-- `StratumClient` with the fields of its miner that a message changes. `writable` says that the
socket takes a line. -/
structure Client (R : Type) where
  active : Active
  primary : Credentials
  failover : Credentials
  authorized : Bool
  connected : Bool
  running : Bool
  retries : ℤ
  maxRetries : ℤ
  current : Option AionJob
  previous : Option AionJob
  nextJobTarget : Str
  currentDifficulty : R
  writable : Bool
  sent : List Str
  server : ServerNonce
  threads : Option AionJob
  paused : Bool
  sharesOk : ℕ

inductive Exception where
  | runtime_error (what : Str)
  | logic_error (what : Str)
  | system_error (what : Str)

/-- What ends a function early: an exception, or an access of an array at a position it does not
have, whose behaviour is undefined. -/
inductive Failure where
  | thrown (e : Exception)
  | outOfRange (index size : ℕ)

abbrev M (R : Type) := EStateM Failure (Client R)

variable {R : Type}

/-- The client right after its construction; the difficulty and the miner's nonces are what happens
to be there. -/
def Client.new (primary : Credentials) (maxRetries : ℤ) (currentDifficulty : R)
    (server : ServerNonce) : Client R where
  active := .primary
  primary := primary
  failover := ⟨[], [], [], []⟩
  authorized := false
  connected := false
  running := true
  retries := 0
  maxRetries := maxRetries
  current := none
  previous := none
  nextJobTarget := []
  currentDifficulty := currentDifficulty
  writable := false
  sent := []
  server := server
  threads := none
  paused := false
  sharesOk := 0

def Client.cred (c : Client R) : Credentials :=
  match c.active with
  | .primary => c.primary
  | .failover => c.failover

def Client.setCred (c : Client R) (cred : Credentials) : Client R :=
  match c.active with
  | .primary => { c with primary := cred }
  | .failover => { c with failover := cred }

end Machine

section Code
variable {R : Type}

/-- `array[index]`. -/
def item (array : List (Value R)) (index : ℕ) : M R (Value R) :=
  match array[index]? with
  | some v => pure v
  | none => throw (.outOfRange index array.length)

/-- `check_type` when the type is another one. -/
def wrongType {α : Type} (v : Value R) (vtype : ValueType) : M R α :=
  throw (.thrown (.runtime_error (literal "value is type " ++ v.type.name ++
    literal ", expected " ++ vtype.name)))

def getStr : Value R → M R Str
  | .str s => pure s
  | v => wrongType v .str

def getBool : Value R → M R Bool
  | .bool b => pure b
  | v => wrongType v .bool

/-- An integer will do. -/
def getReal [IntCast R] : Value R → M R R
  | .real x => pure x
  | .int n is_uint64 => pure ((if is_uint64 then (n.toNat : ℤ) else n.toInt : ℤ) : R)
  | v => wrongType v .real

/-- `get_int` of an integer, and 0 for everything else. -/
def messageId : Value R → ℤ
  | .int n _ => (n.setWidth 32).toInt
  | _ => 0

def write (line : Str) : M R Unit := do
  let c ← get
  if c.writable then set { c with sent := c.sent ++ [line] }
  else throw (.thrown (.system_error (literal "write")))

/-- A connected client joins its own thread, which throws. -/
def disconnect : M R Unit := do
  let c ← get
  if c.connected then
    set { c with running := false }
    throw (.thrown (.system_error (literal "Resource deadlock avoided")))

def reconnect : M R Unit := do
  modify fun c => { c with paused := true, authorized := false, connected := false }
  let c ← get
  if c.failover.host ≠ [] then
    if c.retries + 1 > c.maxRetries then
      set { c with retries := c.retries + 1 }
      if c.failover.host = literal "exit" then disconnect
      else
        modify fun c =>
          { c with active := if c.active = .primary then .failover else .primary, retries := 0 }
    else set { c with retries := c.retries + 1 }

/-- The rest of `parseJob`, behind the test of the size. -/
def parseParams (job : Str) (params : List (Value R)) : M R AionJob := do
  let headerHash ← getStr (← item params 3)
  let strHexHeader := headerHash ++ List.replicate 64 (unit '0') ++ List.replicate 2 (unit '0')
  match ABlockHeader.unserialize (parseHex strHexHeader) with
  | none =>
    throw
      (.thrown (.logic_error (literal "AionMiner::parseJob(): Invalid block header parameters")))
  | some header =>
    let clean ← getBool (← item params 1)
    let c ← get
    let target ← getStr (← item params 2)
    return {
      job := job
      header := { header with nNonce := c.server.nonce1 }
      nonce1Size := c.server.nonce1Size
      nonce2Inc := c.server.nonce2Inc
      serverTarget := serverTarget target
      clean := clean }

/-- `AionMiner::parseJob`. -/
def parseJob (params : List (Value R)) : M R AionJob :=
  if params.length < 2 then throw (.thrown (.logic_error (literal "Invalid job params")))
  else do
    let job ← getStr (← item params 0)
    if params.length ≠ 4 then throw (.thrown (.logic_error (literal "Invalid job params")))
    else parseParams job params

/-- The message of an error, which only the log would use. -/
def reportError (responseObject : Object R) : M R Unit := do
  match findValue responseObject "error" with
  | .array error =>
    if error.length > 0 then
      let _ ← item error 1
  | _ => pure ()

/-- A job other than the current one takes its place, and goes to the threads. -/
def Client.setJob (c : Client R) (workOrder : AionJob) : Client R :=
  if c.current.any fun current => workOrder.job == current.job then c
  else
    { c with
      previous := c.current
      current := some workOrder
      threads := some workOrder
      paused := false }

def notify (params : List (Value R)) : M R Unit := do
  let workOrder ← parseJob params
  if workOrder.clean then modify fun c => c.setJob workOrder

/-- The methods of the messages with id 0, when `params` is an array. -/
def processMethod [IntCast R] (method : Str) (params : List (Value R)) : M R Unit := do
  if method = literal "mining.notify" then notify params
  else if method = literal "mining.set_target" then
    let target ← getStr (← item params 0)
    modify fun c => { c with nextJobTarget := target }
  else if method = literal "mining.set_extranonce" then
    let n1str ← getStr (← item params 0)
    modify fun c => { c with server := setServerNonce n1str }
  else if method = literal "client.reconnect" then
    if params.length > 1 then
      let host ← getStr (← item params 0)
      modify fun c => c.setCred { c.cred with host := host }
      let port ← getStr (← item params 1)
      modify fun c => c.setCred { c.cred with port := port }
    reconnect
  else if method = literal "mining.set_difficulty" then
    let difficulty ← getReal (← item params 0)
    modify fun c => { c with currentDifficulty := difficulty }

/-- The reply to `mining.subscribe`. -/
def subscribed (result : List (Value R)) : M R Unit := do
  let n1str ← getStr (← item result 1)
  modify fun c => { c with server := setServerNonce n1str }
  let c ← get
  write (literal "\x7b\"id\":2,\"method\":\"mining.authorize\",\"params\":[\"" ++ c.cred.user ++
    literal "\",\"" ++ c.cred.pass ++ literal "\"]\x7d\n")

/-- The reply to `mining.authorize`. -/
def authorized (valRes : Value R) : M R Unit := do
  modify fun c => { c with authorized := valRes.isTrue }
  if valRes.isTrue then
    write (literal "\x7b\"id\":3,\"method\":\"mining.extranonce.subscribe\",\"params\":[]\x7d\n")
  else disconnect

/-- The reply to a share. The reason of a rejection is read behind a size test, and only logged. -/
def shareReply (responseObject : Object R) : M R Unit := do
  if (findValue responseObject "result").isTrue then modify fun c =>
    { c with sharesOk := c.sharesOk + 1 }
  else
    match findValue responseObject "error" with
    | .array params =>
      if params.length > 1 then
        let _ ← item params 1
    | _ => pure ()

def dispatch [IntCast R] (responseObject : Object R) : M R Unit :=
  match messageId (findValue responseObject "id") with
  | 0 =>
    match findValue responseObject "method", findValue responseObject "params" with
    | .str method, .array params => processMethod method params
    | _, _ => pure ()
  | 1 =>
    match findValue responseObject "result" with
    | .array result => subscribed result
    | _ => pure ()
  | 2 => authorized (findValue responseObject "result")
  | 3 => pure ()
  | _ => shareReply responseObject

def processReponse [IntCast R] (responseObject : Object R) : M R Unit := do
  reportError responseObject
  dispatch responseObject

/-- The turn of `workLoop` for one object: an exception leads to `reconnect`, and one thrown there,
like an access out of range, ends the program (`none`). -/
def workLoopTurn [IntCast R] (responseObject : Object R) (c : Client R) : Option (Client R) :=
  match processReponse responseObject c with
  | .ok _ c => some c
  | .error (.thrown _) c =>
    match reconnect c with
    | .ok _ c => some c
    | .error _ _ => none
  | .error (.outOfRange _ _) _ => none

end Code

section Safe
variable {R : Type} {α β : Type}

/-- Whatever the state, no array is accessed out of range. -/
def Safe (m : M R α) : Prop := ∀ c i n c', m c ≠ .error (.outOfRange i n) c'

theorem safe_pure (a : α) : Safe (pure a : M R α) := by
  intro c i n c' h
  cases h

theorem safe_thrown (e : Exception) : Safe (throw (.thrown e) : M R α) := by
  intro c i n c' h
  cases h

theorem safe_get : Safe (get : M R (Client R)) := by
  intro c i n c' h
  cases h

theorem safe_set (c₀ : Client R) : Safe (set c₀ : M R PUnit) := by
  intro c i n c' h
  cases h

theorem safe_modify (f : Client R → Client R) : Safe (modify f : M R Unit) := by
  intro c i n c' h
  cases h

theorem Safe.bind {m : M R α} {f : α → M R β} (hm : Safe m) (hf : ∀ a, Safe (f a)) :
    Safe (m >>= f) := by
  intro c i n c' h
  change EStateM.bind m f c = _ at h
  rw [EStateM.bind] at h
  cases hrun : m c with
  | ok a c₁ =>
    rw [hrun] at h
    exact hf a c₁ i n c' h
  | error e c₁ =>
    rw [hrun] at h
    cases h
    exact hm c i n c' hrun

theorem safe_item {array : List (Value R)} {index : ℕ} (h : index < array.length) :
    Safe (item array index) := by
  rw [item, List.getElem?_eq_getElem h]
  exact safe_pure _

theorem safe_wrongType (v : Value R) (vtype : ValueType) : Safe (wrongType v vtype : M R α) :=
  safe_thrown _

theorem safe_getStr (v : Value R) : Safe (getStr v) := by
  cases v with
  | str s => exact safe_pure s
  | _ => exact safe_wrongType _ _

theorem safe_getBool (v : Value R) : Safe (getBool v) := by
  cases v with
  | bool b => exact safe_pure b
  | _ => exact safe_wrongType _ _

theorem safe_getReal [IntCast R] (v : Value R) : Safe (getReal v) := by
  cases v with
  | real x => exact safe_pure x
  | int n is_uint64 => exact safe_pure _
  | _ => exact safe_wrongType _ _

theorem safe_write (line : Str) : Safe (write line : M R Unit) := by
  refine safe_get.bind fun c => ?_
  split
  · exact safe_set _
  · exact safe_thrown _

theorem safe_disconnect : Safe (disconnect : M R Unit) := by
  refine safe_get.bind fun c => ?_
  split
  · exact (safe_set _).bind fun _ => safe_thrown _
  · exact safe_pure _

theorem error_bind {m : M R α} {c c' : Client R} {e : Failure} (h : m c = .error e c')
    (f : α → M R β) : (m >>= f) c = .error e c' := by
  change EStateM.bind m f c = _
  rw [EStateM.bind, h]

theorem ok_bind {m : M R α} {c c' : Client R} {a : α} (h : m c = .ok a c') (f : α → M R β) :
    (m >>= f) c = f a c' := by
  change EStateM.bind m f c = _
  rw [EStateM.bind, h]

theorem get_bind (c : Client R) (f : Client R → M R α) : (get >>= f) c = f c c := rfl

theorem set_bind (c c' : Client R) (f : PUnit → M R α) : (set c' >>= f) c = f () c' := rfl

theorem modify_bind (c : Client R) (g : Client R → Client R) (f : PUnit → M R α) :
    (modify g >>= f) c = f () (g c) := rfl

theorem disconnect_ok {c : Client R} (h : c.connected = false) : disconnect c = .ok () c := by
  rw [disconnect, get_bind, if_neg (by rw [h]; exact Bool.false_ne_true)]
  rfl

/-- Once `m_connected` is false, `disconnect` does nothing, and `reconnect` does not throw. -/
theorem reconnect_spec (c : Client R) :
    ∃ c', reconnect c = .ok () c' ∧ c'.connected = false ∧ c'.paused = true ∧ c'.server = c.server ∧
    c'.current = c.current ∧ c'.threads = c.threads := by
  rw [reconnect, modify_bind, get_bind]
  dsimp only
  split_ifs
  · rw [set_bind]
    exact ⟨_, disconnect_ok rfl, rfl, rfl, rfl, rfl, rfl⟩
  · exact ⟨_, rfl, rfl, rfl, rfl, rfl, rfl⟩
  · exact ⟨_, rfl, rfl, rfl, rfl, rfl, rfl⟩
  · exact ⟨_, rfl, rfl, rfl, rfl, rfl, rfl⟩

theorem safe_reconnect : Safe (reconnect : M R Unit) := by
  intro c i n c' h
  obtain ⟨c₁, hok, -⟩ := reconnect_spec c
  rw [hok] at h
  cases h

theorem safe_parseParams (job : Str) {params : List (Value R)} (hlen : params.length = 4) :
    Safe (parseParams job params) := by
  refine (safe_item (by omega)).bind fun v => (safe_getStr v).bind fun headerHash => ?_
  dsimp only
  split
  · exact safe_thrown _
  · refine (safe_item (by omega)).bind fun v => (safe_getBool v).bind fun clean =>
      safe_get.bind fun c => ?_
    exact (safe_item (by omega)).bind fun v => (safe_getStr v).bind fun target => safe_pure _

theorem safe_parseJob (params : List (Value R)) : Safe (parseJob params) := by
  unfold parseJob
  split
  · exact safe_thrown _
  · refine (safe_item (by omega)).bind fun v => (safe_getStr v).bind fun job => ?_
    split
    · exact safe_thrown _
    · next hlen => exact safe_parseParams job (not_not.mp hlen)

theorem safe_notify (params : List (Value R)) : Safe (notify params) := by
  refine (safe_parseJob params).bind fun workOrder => ?_
  split
  · exact safe_modify _
  · exact safe_pure _

/-- The methods that read the first parameter without a test of the size. -/
def readsFirst (method : Str) : Prop :=
  method = literal "mining.set_target" ∨ method = literal "mining.set_extranonce" ∨
    method = literal "mining.set_difficulty"

instance (method : Str) : Decidable (readsFirst method) := inferInstanceAs (Decidable (_ ∨ _ ∨ _))

theorem safe_processMethod [IntCast R] {method : Str} {params : List (Value R)}
    (h : readsFirst method → params ≠ []) : Safe (processMethod method params) := by
  have hpos : readsFirst method → 0 < params.length := fun hm => List.length_pos_of_ne_nil (h hm)
  unfold processMethod
  split_ifs with hnotify htarget hextra hreconnect hsize hdifficulty
  · exact safe_notify params
  · refine (safe_item (hpos (Or.inl htarget))).bind fun v => (safe_getStr v).bind fun target =>
      safe_modify _
  · exact (safe_item (hpos (Or.inr (Or.inl hextra)))).bind fun v =>
      (safe_getStr v).bind fun n1str => safe_modify _
  · refine (safe_item (by omega)).bind fun v => (safe_getStr v).bind fun host =>
      (safe_modify _).bind fun _ => ?_
    exact (safe_item (by omega)).bind fun v => (safe_getStr v).bind fun port =>
      (safe_modify _).bind fun _ => safe_reconnect
  · exact safe_reconnect
  · exact (safe_item (hpos (Or.inr (Or.inr hdifficulty)))).bind fun v =>
      (safe_getReal v).bind fun d => safe_modify _
  · exact safe_pure _

theorem safe_subscribed {result : List (Value R)} (h : 1 < result.length) :
    Safe (subscribed result) := by
  refine (safe_item h).bind fun v => (safe_getStr v).bind fun n1str =>
    (safe_modify _).bind fun _ => ?_
  exact safe_get.bind fun c => safe_write _

theorem safe_authorized (valRes : Value R) : Safe (authorized valRes) := by
  refine (safe_modify _).bind fun _ => ?_
  split
  · exact safe_write _
  · exact safe_disconnect

theorem safe_shareReply (responseObject : Object R) : Safe (shareReply responseObject) := by
  unfold shareReply
  split
  · exact safe_modify _
  · split
    · split_ifs with hsize
      · exact (safe_item hsize).bind fun _ => safe_pure _
      · exact safe_pure _
    · exact safe_pure _

theorem write_ok {c : Client R} (h : c.writable = true) (line : Str) :
    write line c = .ok () { c with sent := c.sent ++ [line] } := by
  have hget : (get : M R (Client R)) c = .ok c c := rfl
  rw [write, ok_bind hget, if_pos h]
  rfl

theorem item_error {array : List (Value R)} {index : ℕ} (h : array.length ≤ index) (c : Client R) :
    item array index c = .error (.outOfRange index array.length) c := by
  rw [item, List.getElem?_eq_none h]
  rfl

end Safe

section Messages
variable {R : Type} [IntCast R] {responseObject : Object R}

/-- The arrays of a message have the positions that are read without a test of the size, or with a
wrong one. -/
structure Readable (responseObject : Object R) : Prop where
  error : ∀ error, findValue responseObject "error" = .array error → error.length ≠ 1
  result : messageId (findValue responseObject "id") = 1 →
    ∀ result, findValue responseObject "result" = .array result → 1 < result.length
  params : messageId (findValue responseObject "id") = 0 →
    ∀ method, findValue responseObject "method" = .str method → readsFirst method →
    findValue responseObject "params" ≠ .array []

omit [IntCast R] in
theorem reportError_ok
    (h : ∀ error, findValue responseObject "error" = .array error → error.length ≠ 1)
    (c : Client R) : reportError responseObject c = .ok () c := by
  unfold reportError
  cases herror : findValue responseObject "error" with
  | array error =>
    have hone := h error herror
    dsimp only
    split_ifs with hpos
    · have hlt : 1 < error.length := by omega
      rw [item, List.getElem?_eq_getElem hlt]
      rfl
    · rfl
  | _ => rfl

omit [IntCast R] in
theorem reportError_error (error : List (Value R))
    (herror : findValue responseObject "error" = .array error) (hone : error.length = 1)
    (c : Client R) : reportError responseObject c = .error (.outOfRange 1 1) c := by
  unfold reportError
  rw [herror]
  dsimp only
  rw [if_pos (by omega), error_bind (item_error hone.le c), hone]

theorem safe_dispatch (h : Readable responseObject) : Safe (dispatch responseObject) := by
  unfold dispatch
  split
  · next hid =>
    split
    · next method params hmethod hparams =>
      refine safe_processMethod fun hfirst hnil => h.params hid method hmethod hfirst ?_
      rw [hparams, hnil]
    · exact safe_pure _
  · next hid =>
    split
    · next result hresult => exact safe_subscribed (h.result hid result hresult)
    · exact safe_pure _
  · exact safe_authorized _
  · exact safe_pure _
  · exact safe_shareReply responseObject

omit [IntCast R] in
theorem subscribed_error {result : List (Value R)} (h : result.length ≤ 1) (c : Client R) :
    subscribed result c = .error (.outOfRange 1 result.length) c := error_bind (item_error h c) _

theorem processMethod_error {method : Str} (h : readsFirst method) (c : Client R) :
    processMethod method [] c = .error (.outOfRange 0 0) c := by
  have hitem : item (R := R) [] 0 c = .error (.outOfRange 0 0) c := rfl
  rcases h with rfl | rfl | rfl
  · exact error_bind hitem _
  · exact error_bind hitem _
  · exact error_bind hitem _

theorem safe_processReponse (h : Readable responseObject) :
    Safe (processReponse responseObject) := by
  intro c i n c' hrun
  rw [processReponse, ok_bind (reportError_ok h.error c)] at hrun
  exact safe_dispatch h c i n c' hrun

theorem processReponse_error (h : ¬Readable responseObject) (c : Client R) :
    ∃ i n, processReponse responseObject c = .error (.outOfRange i n) c := by
  by_cases herror : ∀ error, findValue responseObject "error" = .array error → error.length ≠ 1
  · rw [processReponse, ok_bind (reportError_ok herror c), dispatch]
    by_cases hresult : messageId (findValue responseObject "id") = 1 →
        ∀ result, findValue responseObject "result" = .array result → 1 < result.length
    · by_cases hparams : messageId (findValue responseObject "id") = 0 → ∀ method,
          findValue responseObject "method" = .str method → readsFirst method →
            findValue responseObject "params" ≠ .array []
      · exact absurd ⟨herror, hresult, hparams⟩ h
      · push Not at hparams
        obtain ⟨hid, method, hmethod, hfirst, hnil⟩ := hparams
        rw [hid, hmethod, hnil]
        exact ⟨0, 0, processMethod_error hfirst c⟩
    · push Not at hresult
      obtain ⟨hid, result, hresult, hlen⟩ := hresult
      rw [hid, hresult]
      exact ⟨1, result.length, subscribed_error hlen c⟩
  · push Not at herror
    obtain ⟨error, herror, hone⟩ := herror
    exact ⟨1, 1, error_bind (reportError_error _ herror hone c) _⟩

theorem isSome_workLoopTurn (h : Readable responseObject) (c : Client R) :
    (workLoopTurn responseObject c).isSome = true := by
  rw [workLoopTurn]
  cases hrun : processReponse responseObject c with
  | ok _ c' => rfl
  | error failure c' =>
    cases failure with
    | thrown e =>
      obtain ⟨c'', hok, -⟩ := reconnect_spec c'
      dsimp only
      rw [hok]
      rfl
    | outOfRange i n => exact absurd hrun (safe_processReponse h c i n c')

/-- No array is accessed out of range, and an exception is caught. -/
structure Survives (c : Client R) (responseObject : Object R) : Prop where
  inRange : ∀ i n c', processReponse responseObject c ≠ .error (.outOfRange i n) c'
  caught : (workLoopTurn responseObject c).isSome = true

/-- The miner survives a message if and only if its arrays have the positions that are read. -/
theorem survives_iff (c : Client R) (responseObject : Object R) :
    Survives c responseObject ↔ Readable responseObject := by
  constructor
  · intro hsurvives
    by_contra hnot
    obtain ⟨i, n, herror⟩ := processReponse_error hnot c
    exact hsurvives.inRange i n c herror
  · exact fun h => ⟨safe_processReponse h c, isSome_workLoopTurn h c⟩

/-- An error of one element, as a reply to a share. -/
theorem error_out_of_range : ¬Survives
    (Client.new ⟨literal "pool", literal "3333", literal "user", literal "x"⟩ 0 (0 : ℚ)
      (setServerNonce []))
    [(literal "id", .int 4 false), (literal "result", .null),
      (literal "error", .array [.str (literal "rejected")])] :=
  fun h => h.inRange 1 1 _ (error_bind (reportError_error [.str (literal "rejected")] rfl rfl _) _)

/-- A session goes on as long as all its messages are readable. -/
theorem isSome_foldlM_workLoopTurn_iff (objects : List (Object R)) (c : Client R) :
    (objects.foldlM (fun c responseObject => workLoopTurn responseObject c) c).isSome = true ↔
      ∀ responseObject ∈ objects, Readable responseObject := by
  induction objects generalizing c with
  | nil => exact ⟨fun _ _ h => absurd h List.not_mem_nil, fun _ => rfl⟩
  | cons responseObject objects ih =>
    rw [List.foldlM_cons, List.forall_mem_cons]
    by_cases h : Readable responseObject
    · obtain ⟨c', hc'⟩ := Option.isSome_iff_exists.mp (isSome_workLoopTurn h c)
      rw [hc', Option.bind_eq_bind, Option.bind_some, ih, and_iff_right h]
    · obtain ⟨i, n, herror⟩ := processReponse_error h c
      rw [workLoopTurn, herror]
      exact iff_of_false Bool.false_ne_true fun hall => h hall.1

end Messages

section Pool
variable {R : Type} [IntCast R]

/-- What the miner of the session model keeps of its client. -/
def Client.miner (c : Client R) : StratumMiner :=
  ⟨c.connected, c.server, c.current, c.threads, c.paused⟩

def values (params : NotifyParams) : List (Value R) :=
  [.str params.jobId, .bool params.clean, .str params.target, .str params.headerHash]

/-- The objects the pool writes. -/
def object : Line → Object R
  | .subscribed extraNonce1 =>
    [(literal "id", .int 1 false), (literal "result", .array [.null, .str extraNonce1]),
      (literal "error", .null)]
  | .notify params =>
    [(literal "id", .null), (literal "method", .str (literal "mining.notify")),
      (literal "params", .array (values params))]

omit [IntCast R] in
theorem miner_reconnect {c c' : Client R} (h : reconnect c = .ok () c') :
    c'.miner = c.miner.reconnect := by
  obtain ⟨c₁, hrun, hconnected, hpaused, hserver, hcurrent, hthreads⟩ := reconnect_spec c
  rw [hrun] at h
  cases h
  rw [Client.miner, hconnected, hpaused, hserver, hcurrent, hthreads]
  rfl

omit [IntCast R] in
theorem miner_setJob (c : Client R) (job : AionJob) : (c.setJob job).miner =
    if c.current.any (fun current => job.job == current.job) then c.miner
    else { c.miner with current := some job, threads := some job, paused := false } := by
  rw [Client.setJob]
  split
  · rfl
  · rfl

omit [IntCast R] in
theorem parseJob_line (params : NotifyParams) (c : Client R) :
    parseJob (values params) c =
      match Miner.parseJob c.server params with
      | some job => .ok job c
      | none =>
        .error (.thrown (.logic_error
          (literal "AionMiner::parseJob(): Invalid block header parameters"))) c := by
  have hparams : parseJob (values params) c = parseParams params.jobId (values params) c := rfl
  have hitem : item (values params) 3 c = .ok (.str params.headerHash) c := rfl
  have hstr : getStr (.str params.headerHash) c = .ok params.headerHash c := rfl
  rw [hparams, parseParams, ok_bind hitem, ok_bind hstr, Miner.parseJob]
  cases hheader : ABlockHeader.unserialize
      (parseHex (params.headerHash ++ List.replicate 64 (unit '0') ++
        List.replicate 2 (unit '0'))) with
  | none => rfl
  | some header => rfl

/-- On the lines of the pool the client does what the miner of the session model does. -/
theorem workLoopTurn_line (line : Line) {c : Client R} (hwritable : c.writable = true) :
    ∃ c', workLoopTurn (object line) c = some c' ∧ c'.miner = c.miner.processReponse line := by
  cases line with
  | subscribed extraNonce1 =>
    have hrun : processReponse (object (R := R) (.subscribed extraNonce1)) c =
        write _ { c with server := setServerNonce extraNonce1 } := rfl
    have hok := write_ok (c := { c with server := setServerNonce extraNonce1 }) hwritable
    rw [workLoopTurn, hrun, hok]
    exact ⟨_, rfl, rfl⟩
  | notify params =>
    have hrun : processReponse (object (R := R) (.notify params)) c = notify (values params) c := rfl
    have hjob := parseJob_line params c
    rw [workLoopTurn, hrun, notify, StratumMiner.processReponse]
    dsimp only [Client.miner]
    cases hparse : Miner.parseJob c.server params with
    | none =>
      rw [hparse] at hjob
      obtain ⟨c', hc', -⟩ := reconnect_spec c
      rw [error_bind hjob]
      dsimp only
      rw [hc']
      exact ⟨c', rfl, miner_reconnect hc'⟩
    | some job =>
      rw [hparse] at hjob
      rw [ok_bind hjob]
      dsimp only
      cases hclean : job.clean with
      | false => exact ⟨c, rfl, rfl⟩
      | true =>
        exact ⟨c.setJob job, rfl, miner_setJob c job⟩

end Pool
end Aion.Session.Checked
