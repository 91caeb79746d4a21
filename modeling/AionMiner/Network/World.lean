import AionMiner.Miner.Nonces
import AionMiner.Network.Find
import Mathlib.Logic.Relation

/-! One process of the pool, its clients, and the messages on their way to it. Some clients are the
miners of this repository; the others submit any shares of five strings. -/

namespace Aion.Network
open Bits Equihash Text Pool Miner

section Code

/-- A message a miner has put on the wire, and what it was made of. The pool sees the message alone. -/
structure Sent where
  client : ℕ
  ref : ℕ
  extraNonce1 : Str
  params : NotifyParams
  find : Find
  message : SubmitParams

structure Entry where
  client : ℕ
  answer : Answer

/-- What became of a message: whether its client was authorized when it came, the shares that had come
before it, and the answer to its own. -/
structure Verdict where
  sent : Sent
  authorized : Bool
  before : List Entry
  answer : Option Answer

/-- `numbers` counts the job numbers used up; `issued` and `log` remember who was given which extra
nonce and which shares have been processed. No function of the pool reads the three. -/
structure World where
  pool : JobManager
  extraNonces : ExtraNonceCounter
  clients : ℕ → StratumClient
  flying : List Sent
  verdicts : List Verdict
  numbers : ℕ
  issued : List (ℕ × Str)
  log : List Entry

def World.init (instanceId : BitVec 32) (addresses : ℕ → Str × Str) : World where
  pool := .init
  extraNonces := ⟨instanceId, 0⟩
  clients i := ⟨false, none, (addresses i).1, (addresses i).2⟩
  flying := []
  verdicts := []
  numbers := 0
  issued := []
  log := []

variable (host : Host)

/-- `handleSubmit` and the listener behind it. -/
def World.receive (w : World) (i : ℕ) (params : SubmitParams) : World × Option Answer :=
  match (w.clients i).handleSubmit params with
  | .error _ => (w, none)
  | .ok sh =>
    ({ w with pool := (w.pool.processShare host sh).1, log := w.log ++ [⟨i, w.pool.answer host sh⟩] },
      some (w.pool.answer host sh))

def World.template (w : World) (rpcData : RpcData) : World :=
  { w with
    pool := (w.pool.processTemplate host rpcData).1
    numbers := if w.pool.isNewBlock rpcData then w.numbers + 1 else w.numbers }

def World.subscribe (w : World) (i : ℕ) (extraNonce1 : Str) : World :=
  { w with
    extraNonces := w.extraNonces.next.2
    clients := Function.update w.clients i { w.clients i with extraNonce1 := some extraNonce1 }
    issued := w.issued ++ [(i, extraNonce1)] }

def World.authorize (w : World) (i : ℕ) (authorized : Bool) : World :=
  { w with clients := Function.update w.clients i { w.clients i with authorized := authorized } }

def World.deliver (w : World) (m : Sent) (rest : List Sent) : World :=
  let received := { w with flying := rest }.receive host m.client m.message
  { received.1 with verdicts := w.verdicts ++ [⟨m, (w.clients m.client).authorized, w.log, received.2⟩] }

/-- The clients `rig` are miners: they subscribe once, and send what their threads make of a vector for a job
of the pool. They do not wait for the answer to `mining.authorize`, and any vector may come of a solver. -/
inductive Step (rig : ℕ → Prop) : World → World → Prop
  | template (w : World) (rpcData : RpcData) : Step rig w (w.template host rpcData)
  | subscribe (w : World) (i : ℕ) (extraNonce1 : Str) (hnext : w.extraNonces.next.1 = some extraNonce1)
      (honce : rig i → (w.clients i).extraNonce1 = none) : Step rig w (w.subscribe i extraNonce1)
  | authorize (w : World) (i : ℕ) (authorized : Bool) : Step rig w (w.authorize i authorized)
  | find (w : World) (i ref : ℕ) (extraNonce1 : Str) (f : Find) (message : SubmitParams) (hrig : rig i)
      (hextra : (w.clients i).extraNonce1 = some extraNonce1) (href : ref < w.pool.created)
      (hmine : mine host.H extraNonce1 (jobParams (w.pool.jobs ref)) f = some message) :
      Step rig w
        { w with flying := w.flying ++ [⟨i, ref, extraNonce1, jobParams (w.pool.jobs ref), f, message⟩] }
  | deliver (w : World) (pre post : List Sent) (m : Sent) (hflying : w.flying = pre ++ m :: post) :
      Step rig w (w.deliver host m (pre ++ post))
  | submit (w : World) (i : ℕ) (params : SubmitParams) (hrig : ¬rig i) :
      Step rig w (w.receive host i params).1

def Reachable (rig : ℕ → Prop) (instanceId : BitVec 32) (addresses : ℕ → Str × Str) : World → Prop :=
  Relation.ReflTransGen (Step host rig) (World.init instanceId addresses)

end Code

section ExtraNonces

theorem be32_inj {x y : BitVec 32} (h : be32 x = be32 y) : x = y := by
  simp only [be32, List.cons.injEq, and_true] at h
  obtain ⟨h3, h2, h1, h0⟩ := h
  have hbyte : ∀ q < 4, x.extractLsb' (8 * q) 8 = y.extractLsb' (8 * q) 8 := by
    intro q hq
    interval_cases q <;> assumption
  have hbit : ∀ (z : BitVec 32) (i : ℕ), z.getLsbD i = (z.extractLsb' (8 * (i / 8)) 8).getLsbD (i % 8) := by
    intro z i
    rw [BitVec.getLsbD_extractLsb', decide_eq_true (Nat.mod_lt i (by decide)), Bool.true_and,
      Nat.div_add_mod]
  apply BitVec.eq_of_getLsbD_eq
  intro i hi
  rw [hbit x, hbit y, hbyte _ (by omega)]

def extraNonce (id : BitVec 32) (k : ℕ) : Str := hexStr (be32 id ++ be32 (BitVec.ofNat 32 k))

/-- Extra nonces of one process differ as long as the counter fits four bytes. -/
theorem extraNonce_inj {id : BitVec 32} {k l : ℕ} (hk : k < 2 ^ 32) (hl : l < 2 ^ 32)
    (h : extraNonce id k = extraNonce id l) : k = l := by
  have hbytes := congrArg hexDecode h
  rw [extraNonce, extraNonce, hexDecode_hexStr, hexDecode_hexStr] at hbytes
  have hnat := congrArg BitVec.toNat (be32_inj (List.append_cancel_left hbytes))
  rwa [BitVec.toNat_ofNat, BitVec.toNat_ofNat, Nat.mod_eq_of_lt hk, Nat.mod_eq_of_lt hl] at hnat

theorem next_eq {c : ExtraNonceCounter} {extraNonce1 : Str} (h : c.next.1 = some extraNonce1) :
    c.counter < 2 ^ 32 ∧ extraNonce1 = extraNonce c.instanceId c.counter := by
  rw [ExtraNonceCounter.next] at h
  split_ifs at h with hlt
  exact ⟨hlt, (Option.some.inj h).symm⟩

end ExtraNonces

section Nonces
variable {server : ServerNonce} {params params' : NotifyParams} {job job' : AionJob}

theorem parseJob_server (hparse : parseJob server params = some job) :
    job.header.nNonce = server.nonce1 ∧ job.nonce2Inc = server.nonce2Inc := by
  obtain ⟨header, -, rfl⟩ := Option.map_eq_some_iff.mp hparse
  exact ⟨rfl, rfl⟩

/-- All nonces of a job start with the extra nonce. -/
theorem take_nonce_of_parseJob {bytes : List Byte} (hbytes : bytes.length = 8)
    (hparse : parseJob (setServerNonce (hexStr bytes)) params = some job) (pos n : ℕ) :
    (arithToUint256 (job.nonce pos n)).data.take 8 = bytes := by
  obtain ⟨hfront, -, hinc⟩ := setServerNonce_hexStr hbytes
  obtain ⟨hnonce1, hnonce2Inc⟩ := parseJob_server hparse
  refine (job.take_nonce (k := 2) (by decide) (hnonce2Inc ▸ hinc) pos n).trans ?_
  rw [hnonce1, hfront]

theorem nonce_of_parseJob (hparse : parseJob server params = some job)
    (hparse' : parseJob server params' = some job') (pos n : ℕ) : job.nonce pos n = job'.nonce pos n := by
  obtain ⟨header, -, rfl⟩ := Option.map_eq_some_iff.mp hparse
  obtain ⟨header', -, rfl⟩ := Option.map_eq_some_iff.mp hparse'
  rfl

theorem tries_of_parseJob (hparse : parseJob server params = some job)
    (hparse' : parseJob server params' = some job') {pos n : ℕ} (h : job.Tries pos n) : job'.Tries pos n := by
  obtain ⟨header, -, rfl⟩ := Option.map_eq_some_iff.mp hparse
  obtain ⟨header', -, rfl⟩ := Option.map_eq_some_iff.mp hparse'
  exact h

theorem ranges_of_parseJob {n1str : Str} {len : ℕ} (hhex : IsHexDigits n1str) (hlen : n1str.length = 2 * len)
    (hle : len ≤ 19) (hparse : parseJob (setServerNonce n1str) params = some job) :
    job.Ranges (parseHex n1str) := by
  have hserves := serves_of_parseJob hhex hlen (by omega) hparse
  exact hserves.ranges hle (setServerNonce_digits hhex hlen (by omega)).1 rfl

end Nonces

section Keys
variable {host : Host}

/-- A share's key starts with its extra nonce. -/
theorem key_parts {a b : Share} {xs ys : List Byte} (ha : a.extraNonce1 = hexStr xs)
    (hb : b.extraNonce1 = hexStr ys) (hxs : xs.length = 8) (hys : ys.length = 8)
    (hkey : a.key host = b.key host) : a.extraNonce1 = b.extraNonce1 := by
  have hlen : (hexStr xs).length = (hexStr ys).length := by rw [length_hexStr, length_hexStr, hxs, hys]
  rw [Share.key, Share.key, ha, hb, toLowerCase_hexStr, toLowerCase_hexStr, List.append_assoc,
    List.append_assoc, List.append_assoc, List.append_assoc] at hkey
  rw [ha, hb, (List.append_inj hkey hlen).1]

end Keys

section Receive
variable {host : Host} {w : World} {i : ℕ} {params : SubmitParams}

theorem handleSubmit_ok {client : StratumClient} {sh : Share} (h : client.handleSubmit params = .ok sh) :
    ∃ e, client.extraNonce1 = some e ∧ sh = client.share params e := by
  unfold StratumClient.handleSubmit at h
  split at h
  · cases h
  · split at h
    · cases h
    · cases h
    · next e _ he => exact ⟨e, he, (Except.ok.inj h).symm⟩

/-- A message is refused, or becomes a share under the client's extra nonce. -/
theorem receive_cases (host : Host) (w : World) (i : ℕ) (params : SubmitParams) :
    w.receive host i params = (w, none) ∨
    ∃ sh, (w.clients i).handleSubmit params = .ok sh ∧ (w.clients i).extraNonce1 = some sh.extraNonce1 ∧
      w.receive host i params =
        ({ w with pool := (w.pool.processShare host sh).1, log := w.log ++ [⟨i, w.pool.answer host sh⟩] },
          some (w.pool.answer host sh)) := by
  rw [World.receive]
  cases hsubmit : (w.clients i).handleSubmit params with
  | error e => exact .inl rfl
  | ok sh =>
    obtain ⟨e, he, rfl⟩ := handleSubmit_ok hsubmit
    exact .inr ⟨_, rfl, he, rfl⟩

end Receive

section Granted
variable {host : Host} {rig : ℕ → Prop} {w w' : World}

/-- Extra nonces are given out once, and every share in the log bears one its client was given. -/
structure Granted (w : World) : Prop where
  range : ∀ x ∈ w.issued, ∃ k < w.extraNonces.counter, k < 2 ^ 32 ∧
    x.2 = extraNonce w.extraNonces.instanceId k
  distinct : (w.issued.map Prod.snd).Nodup
  held : ∀ i e, (w.clients i).extraNonce1 = some e → (i, e) ∈ w.issued
  logged : ∀ x ∈ w.log, (x.client, x.answer.share.extraNonce1) ∈ w.issued

theorem granted_init (instanceId : BitVec 32) (addresses : ℕ → Str × Str) :
    Granted (World.init instanceId addresses) where
  range _ h := absurd h List.not_mem_nil
  distinct := List.nodup_nil
  held _ _ h := by cases h
  logged _ h := absurd h List.not_mem_nil

theorem Granted.receive (h : Granted w) (i : ℕ) (params : SubmitParams) :
    Granted (w.receive host i params).1 := by
  obtain heq | ⟨sh, -, hextra, heq⟩ := receive_cases host w i params
  · rwa [heq]
  · rw [heq]
    refine ⟨h.range, h.distinct, h.held, fun x hx => ?_⟩
    rcases List.mem_append.mp hx with hx | hx
    · exact h.logged x hx
    · rw [List.mem_singleton.mp hx]
      exact h.held i _ hextra

theorem Granted.subscribe (h : Granted w) (i : ℕ) {extraNonce1 : Str}
    (hnext : w.extraNonces.next.1 = some extraNonce1) : Granted (w.subscribe i extraNonce1) := by
  obtain ⟨hlt, rfl⟩ := next_eq hnext
  refine ⟨fun x hx => ?_, ?_, fun j e hj => ?_, fun x hx => List.mem_append_left _ (h.logged x hx)⟩
  · rcases List.mem_append.mp hx with hx | hx
    · obtain ⟨k, hk, hk', heq⟩ := h.range x hx
      exact ⟨k, Nat.lt_succ_of_lt hk, hk', heq⟩
    · rw [List.mem_singleton.mp hx]
      exact ⟨w.extraNonces.counter, Nat.lt_succ_self _, hlt, rfl⟩
  · -- The count is above all that were used
    rw [World.subscribe, List.map_append, List.map_singleton]
    refine h.distinct.append (List.nodup_singleton _) (List.disjoint_singleton.mpr fun hmem => ?_)
    obtain ⟨x, hx, heq⟩ := List.mem_map.mp hmem
    obtain ⟨k, hk, hk', heq'⟩ := h.range x hx
    have hsame := extraNonce_inj hk' hlt (heq'.symm.trans heq)
    omega
  · dsimp only [World.subscribe] at hj ⊢
    by_cases hji : j = i
    · rw [hji, Function.update_self] at hj
      rw [hji, ← Option.some.inj hj]
      exact List.mem_append_right _ (List.mem_singleton_self _)
    · rw [Function.update_of_ne hji] at hj
      exact List.mem_append_left _ (h.held j e hj)

theorem Granted.authorize (h : Granted w) (i : ℕ) (authorized : Bool) :
    Granted (w.authorize i authorized) := by
  refine ⟨h.range, h.distinct, fun j e hj => h.held j e ?_, h.logged⟩
  dsimp only [World.authorize] at hj
  by_cases hji : j = i
  · rw [hji, Function.update_self] at hj
    rwa [hji]
  · rwa [Function.update_of_ne hji] at hj

theorem Granted.step (h : Granted w) (hstep : Step host rig w w') : Granted w' := by
  cases hstep with
  | template rpcData => exact ⟨h.range, h.distinct, h.held, h.logged⟩
  | subscribe i extraNonce1 hnext _ => exact h.subscribe i hnext
  | authorize i authorized => exact h.authorize i authorized
  | find => exact ⟨h.range, h.distinct, h.held, h.logged⟩
  | deliver pre post m _ =>
    have hrest : Granted { w with flying := pre ++ post } := ⟨h.range, h.distinct, h.held, h.logged⟩
    have hreceive : Granted (World.receive host { w with flying := pre ++ post } m.client m.message).1 :=
      hrest.receive m.client m.message
    exact ⟨hreceive.range, hreceive.distinct, hreceive.held, hreceive.logged⟩
  | submit i params _ => exact h.receive i params

theorem granted_of_reachable {instanceId : BitVec 32} {addresses : ℕ → Str × Str}
    (hw : Reachable host rig instanceId addresses w) : Granted w := by
  induction hw with
  | refl => exact granted_init instanceId addresses
  | tail _ hstep ih => exact ih.step hstep

/-- An extra nonce tells the client it was given to. -/
theorem Granted.client_eq (h : Granted w) {i j : ℕ} {e : Str} (hi : (i, e) ∈ w.issued)
    (hj : (j, e) ∈ w.issued) : i = j := by
  have hinj := List.inj_on_of_nodup_map h.distinct hi hj rfl
  exact congrArg Prod.fst hinj

/-- No two of the nonces searched are the same, whoever searches them, for whatever jobs. -/
theorem nonces_never_overlap {instanceId : BitVec 32} {addresses : ℕ → Str × Str}
    (hw : Reachable host rig instanceId addresses w) {x y : ℕ × Str} (hx : x ∈ w.issued) (hy : y ∈ w.issued)
    {params params' : NotifyParams} {job job' : AionJob} (hparse : parseJob (setServerNonce x.2) params = some job)
    (hparse' : parseJob (setServerNonce y.2) params' = some job') {p q m n : ℕ} (hp : p < AionJob.threads)
    (hq : q < AionJob.threads) (hpm : job.Tries p m) (hqn : job'.Tries q n) (hne : (x, p, m) ≠ (y, q, n)) :
    job.nonce p m ≠ job'.nonce q n := by
  intro hsame
  have hgranted := granted_of_reachable hw
  obtain ⟨k, -, -, hxe⟩ := hgranted.range x hx
  obtain ⟨l, -, -, hye⟩ := hgranted.range y hy
  have hxy : x = y := by
    -- The nonces start with the extra nonces
    refine List.inj_on_of_nodup_map hgranted.distinct hx hy ?_
    rw [hxe, extraNonce] at hparse
    rw [hye, extraNonce] at hparse'
    have hbytes := congrArg (fun a => (arithToUint256 a).data.take 8) hsame
    rw [take_nonce_of_parseJob rfl hparse, take_nonce_of_parseJob rfl hparse'] at hbytes
    rw [hxe, hye, extraNonce, extraNonce, hbytes]
  subst hxy
  have hranges : job.Ranges (parseHex x.2) := by
    rw [hxe, extraNonce] at hparse ⊢
    exact ranges_of_parseJob (isHexDigits_hexStr _) (length_hexStr _) (show 8 ≤ 19 by decide) hparse
  have htries : job.Tries q n := tries_of_parseJob hparse' hparse hqn
  rw [nonce_of_parseJob hparse' hparse] at hsame
  by_cases hpq : p = q
  · subst hpq
    exact hne (congrArg (fun n => (x, p, n)) (hranges.once p hp m n hpm htries hsame))
  · exact hranges.apart p hp q hq hpq m n hpm htries hsame

theorem nonces_never_overlap_two :
    ∃ job job', parseJob (setServerNonce (extraNonce 0 0)) zeroParams = some job ∧
      parseJob (setServerNonce (extraNonce 0 1)) zeroParams = some job' ∧ job.nonce 0 0 ≠ job'.nonce 0 0 := by
  obtain ⟨hhex, hlen⟩ := zeroParams_headerHash
  obtain ⟨job, hparse, -⟩ := parseJob_of_hex (setServerNonce (extraNonce 0 0)) hhex hlen
  obtain ⟨job', hparse', -⟩ := parseJob_of_hex (setServerNonce (extraNonce 0 1)) hhex hlen
  have hfirst : Step plantedHost (fun _ => True) (World.init 0 fun _ => ([], []))
      ((World.init 0 fun _ => ([], [])).subscribe 0 (extraNonce 0 0)) :=
    .subscribe _ 0 _ rfl fun _ => rfl
  have hsecond : Step plantedHost (fun _ => True) ((World.init 0 fun _ => ([], [])).subscribe 0 (extraNonce 0 0))
      (((World.init 0 fun _ => ([], [])).subscribe 0 (extraNonce 0 0)).subscribe 1 (extraNonce 0 1)) :=
    .subscribe _ 1 _ rfl fun _ => rfl
  have htries : ∀ job : AionJob, job.Tries 0 0 := fun _ m hm hle => absurd hm (Nat.not_lt_of_le hle)
  have hne : (((0, extraNonce 0 0) : ℕ × Str), 0, 0) ≠ ((1, extraNonce 0 1), 0, 0) := by
    intro h
    cases congrArg (fun z => z.1.1) h
  exact ⟨job, job', hparse, hparse', nonces_never_overlap
    (Relation.ReflTransGen.refl.tail hfirst |>.tail hsecond) List.mem_cons_self
    (List.mem_cons_of_mem _ List.mem_cons_self) hparse hparse' (by decide) (by decide) (htries job)
      (htries job') hne⟩

end Granted

end Aion.Network
