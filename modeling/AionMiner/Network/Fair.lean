import AionMiner.Network.Jobs

/-! What the miners' messages meet at the pool. -/

namespace Aion.Network
open Bits Equihash Text Pool Miner Solver

section Miners
variable {host : Host} {rig : ℕ → Prop} {w w' : World} {m : Sent}

/-- The find is one a solver has made, for a job that miner and pool read alike. -/
structure Sent.Genuine (H : Blake2b) (m : Sent) : Prop where
  minable : Minable m.params
  found : Found (Handed H) m.extraNonce1 m.params m.find

/-- The client as it is when it is authorized. -/
def World.admitted (w : World) (i : ℕ) : StratumClient := { w.clients i with authorized := true }

theorem admitted_of_authorized {i : ℕ} (h : (w.clients i).authorized = true) : w.admitted i = w.clients i := by
  rw [World.admitted, ← h]

theorem admitted_authorize (w : World) (i j : ℕ) (authorized : Bool) :
    (w.authorize i authorized).admitted j = w.admitted j := by
  by_cases hji : j = i
  · subst hji
    simp only [World.admitted, World.authorize, Function.update_self]
  · simp only [World.admitted, World.authorize, Function.update_of_ne hji]

/-- A message on its way from a miner. If its find is genuine, the pool will turn it into a good share once the
client is authorized. -/
structure Carried (host : Host) (rig : ℕ → Prop) (w : World) (m : Sent) : Prop where
  miner : rig m.client
  subscribed : (w.clients m.client).extraNonce1 ≠ none
  created : m.ref < w.pool.created
  sound : m.Genuine host.H → ∃ sh, Sound host (w.pool.jobs m.ref) (w.admitted m.client) m.message sh

/-- It stays one while its client keeps the extra nonce, and its job at most remembers more shares. -/
theorem Carried.mono (h : Carried host rig w m) (hclient : w'.admitted m.client = w.admitted m.client)
    (hcreated : w.pool.created ≤ w'.pool.created)
    (hjob : ∃ submits, w'.pool.jobs m.ref = { w.pool.jobs m.ref with submits := submits }) :
    Carried host rig w' m := by
  obtain ⟨submits, hjob⟩ := hjob
  refine ⟨h.miner, ?_, h.created.trans_le hcreated, fun hgenuine => ?_⟩
  · have hextra : (w'.admitted m.client).extraNonce1 = (w.admitted m.client).extraNonce1 := by rw [hclient]
    exact fun hnone => h.subscribed (hextra.symm.trans hnone)
  · obtain ⟨sh, hsound⟩ := h.sound hgenuine
    refine ⟨sh, ?_⟩
    rw [hclient, hjob]
    exact ⟨hsound.submitted, hsound.jobId, hsound.formed, hsound.meets⟩

theorem Carried.template (h : Carried host rig w m) (rpcData : RpcData) :
    Carried host rig (w.template host rpcData) m := by
  obtain ⟨c, heq, -⟩ | ⟨c, job, -, heq, -⟩ := w.pool.processTemplate_cases host rpcData
  · refine h.mono rfl ?_ ⟨(w.pool.jobs m.ref).submits, ?_⟩
    · dsimp only [World.template]
      rw [heq]
    · dsimp only [World.template]
      rw [heq]
  · refine h.mono rfl ?_ ⟨(w.pool.jobs m.ref).submits, ?_⟩
    · dsimp only [World.template]
      rw [heq]
      exact Nat.le_succ _
    · dsimp only [World.template]
      rw [heq]
      exact Function.update_of_ne h.created.ne _ _

theorem Carried.receive (h : Carried host rig w m) (i : ℕ) (params : SubmitParams) :
    Carried host rig (w.receive host i params).1 m := by
  obtain heq | ⟨sh, -, -, heq⟩ := receive_cases host w i params
  · rwa [heq]
  · obtain ⟨-, hcreated, hjobs, -⟩ := JobManager.processShare_frame host w.pool sh
    rw [heq]
    exact h.mono rfl hcreated.ge (hjobs m.ref)

/-- A find is sent as such a message. -/
theorem carried_of_find (hhost : host.bignum.Lawful) (hgranted : Granted w) (hnumbered : Numbered host w)
    {i ref : ℕ} {extraNonce1 : Str} {f : Find} {message : SubmitParams} (hrig : rig i)
    (hextra : (w.clients i).extraNonce1 = some extraNonce1) (href : ref < w.pool.created)
    (hmine : mine host.H extraNonce1 (jobParams (w.pool.jobs ref)) f = some message) :
    Carried host rig w ⟨i, ref, extraNonce1, jobParams (w.pool.jobs ref), f, message⟩ := by
  obtain ⟨k, -, -, hbytes⟩ := hgranted.range _ (hgranted.held i extraNonce1 hextra)
  dsimp only at hbytes
  rw [extraNonce] at hbytes
  subst hbytes
  have hsubscribed : (w.clients i).extraNonce1 ≠ none := by
    rw [hextra]
    exact Option.some_ne_none _
  refine ⟨hrig, hsubscribed, href, fun hgenuine => ?_⟩
  obtain ⟨minerJob, hparse, hhanded⟩ := hgenuine.found
  have htarget := hnumbered.target ref href hgenuine.minable.target_some
  exact ⟨_, share_of_mine hhost hgenuine.minable htarget rfl rfl hextra ⟨minerJob, hparse, hhanded.accepted⟩ hmine⟩

/-- The share of the message is accepted, unless its client has sent one for the same work before. A message
that comes while its client is not authorized becomes no share. -/
def Verdict.Fair (v : Verdict) : Prop :=
  (v.authorized = true → ∃ a, v.answer = some a ∧ a.ref = some v.sent.ref ∧
    (a.response.result = true ∨ a.response = duplicate ∧ ∃ y ∈ v.before, SameWork y ⟨v.sent.client, a⟩)) ∧
  (v.authorized = false → v.answer = none)

theorem fair_of_carried (hgranted : Granted w) (hnumbered : Numbered host w) (hlt : w.numbers < 0xffff)
    (h : Carried host rig w m) (hgenuine : m.Genuine host.H) :
    Verdict.Fair ⟨m, (w.clients m.client).authorized, w.log, (w.receive host m.client m.message).2⟩ := by
  refine ⟨fun hauthorized => ?_, fun hrefused => ?_⟩
  swap
  · dsimp only at hrefused
    rw [World.receive, StratumClient.handleSubmit, hrefused]
    rfl
  obtain ⟨sh, hsound⟩ := h.sound hgenuine
  rw [admitted_of_authorized hauthorized] at hsound
  have hreceive : w.receive host m.client m.message =
      ({ w with pool := (w.pool.processShare host sh).1, log := w.log ++ [⟨m.client, w.pool.answer host sh⟩] },
        some (w.pool.answer host sh)) := by
    rw [World.receive, hsound.submitted]
  have hlookup : w.pool.lookup sh = some m.ref := by
    rw [JobManager.lookup, hsound.jobId, hnumbered.valid hlt m.ref h.created, Option.filter_some,
      if_pos (decide_eq_true rfl)]
  have hanswer : (w.pool.answer host sh).ref = some m.ref := hlookup
  have hjudged := hnumbered.tracks.judged sh
  have hgood : (w.pool.answer host sh).Good host := by
    refine ⟨by rw [hanswer]; rfl, hsound.formed, ?_⟩
    rw [JobManager.answer, hlookup]
    exact hsound.meets
  rw [hreceive]
  refine ⟨_, rfl, hanswer, ?_⟩
  cases hreg : (w.pool.answer host sh).registrant host (w.log.map Entry.answer) with
  | none => exact .inl (hjudged.accepted.mpr ⟨hgood, hreg⟩)
  | some a =>
    have hdup : (w.pool.answer host sh).response = duplicate :=
      hjudged.duplicate.mpr ⟨hgood.1, hsound.formed, by rw [hreg]; rfl⟩
    have hgranted' : Granted (w.receive host m.client m.message).1 := hgranted.receive m.client m.message
    have hnumbered' := hnumbered.receive m.client m.message
    rw [hreceive] at hgranted' hnumbered'
    exact .inr ⟨hdup, duplicate_same hgranted' hnumbered' rfl hdup⟩

end Miners

section Runs
variable {host : Host} {rig : ℕ → Prop} {w w' : World}

/-- What holds in every reachable world. -/
structure Inv (host : Host) (rig : ℕ → Prop) (w : World) : Prop where
  granted : Granted w
  numbered : Numbered host w
  carried : ∀ m ∈ w.flying, Carried host rig w m
  fair : w.numbers < 0xffff → ∀ v ∈ w.verdicts, v.sent.Genuine host.H → v.Fair

theorem inv_init (instanceId : BitVec 32) (addresses : ℕ → Str × Str) :
    Inv host rig (World.init instanceId addresses) where
  granted := granted_init instanceId addresses
  numbered := numbered_init instanceId addresses
  carried _ h := absurd h List.not_mem_nil
  fair _ _ h := absurd h List.not_mem_nil

theorem receive_numbers (host : Host) (w : World) (i : ℕ) (params : SubmitParams) :
    (w.receive host i params).1.numbers = w.numbers ∧ (w.receive host i params).1.flying = w.flying ∧
      (w.receive host i params).1.verdicts = w.verdicts := by
  obtain heq | ⟨sh, -, -, heq⟩ := receive_cases host w i params <;> rw [heq] <;> exact ⟨rfl, rfl, rfl⟩

theorem Inv.deliver (h : Inv host rig w) {pre post : List Sent} {m : Sent}
    (hflying : w.flying = pre ++ m :: post) :
    (∀ x ∈ pre ++ post, Carried host rig (w.deliver host m (pre ++ post)) x) ∧
      (w.numbers < 0xffff → ∀ v ∈ (w.deliver host m (pre ++ post)).verdicts, v.sent.Genuine host.H → v.Fair) := by
  have hsub : ∀ x ∈ pre ++ post, x ∈ w.flying := by
    intro x hx
    rw [hflying]
    rcases List.mem_append.mp hx with hx | hx
    · exact List.mem_append_left _ hx
    · exact List.mem_append_right _ (List.mem_cons_of_mem _ hx)
  have hkeep : ∀ x, Carried host rig w x → Carried host rig { w with flying := pre ++ post } x :=
    fun x hx => hx.mono rfl (Nat.le_refl _) ⟨_, rfl⟩
  refine ⟨fun x hx => ?_, fun hlt v hv hgenuine => ?_⟩
  · have hreceive := (hkeep x (h.carried x (hsub x hx))).receive m.client m.message
    exact hreceive.mono rfl (Nat.le_refl _) ⟨_, rfl⟩
  · rcases List.mem_append.mp hv with hv | hv
    · exact h.fair hlt v hv hgenuine
    · have hm : m ∈ w.flying := by
        rw [hflying]
        exact List.mem_append_right _ List.mem_cons_self
      have hgranted : Granted { w with flying := pre ++ post } :=
        ⟨h.granted.range, h.granted.distinct, h.granted.held, h.granted.logged⟩
      have hnumbered : Numbered host { w with flying := pre ++ post } :=
        ⟨h.numbered.tracks, h.numbered.judged, h.numbered.target, h.numbered.counter, h.numbered.number,
          h.numbered.valid⟩
      rw [List.mem_singleton.mp hv] at hgenuine ⊢
      exact fair_of_carried hgranted hnumbered hlt (hkeep m (h.carried m hm)) hgenuine

theorem Inv.step (hhost : host.bignum.Lawful) (h : Inv host rig w) (hstep : Step host rig w w') :
    Inv host rig w' := by
  have hgranted := h.granted.step hstep
  have hnumbered := h.numbered.step hstep
  cases hstep with
  | template rpcData =>
    refine ⟨hgranted, hnumbered, fun m hm => (h.carried m hm).template rpcData, fun hlt v hv => ?_⟩
    refine h.fair (Nat.lt_of_le_of_lt ?_ hlt) v hv
    dsimp only [World.template]
    split_ifs <;> omega
  | subscribe i extraNonce1 _ honce =>
    refine ⟨hgranted, hnumbered, fun m hm => ?_, h.fair⟩
    have hcarried := h.carried m hm
    have hne : m.client ≠ i := fun heq => hcarried.subscribed (heq ▸ honce (heq ▸ hcarried.miner))
    have hsame : (w.subscribe i extraNonce1).admitted m.client = w.admitted m.client := by
      simp only [World.admitted, World.subscribe, Function.update_of_ne hne]
    exact hcarried.mono hsame (Nat.le_refl _) ⟨_, rfl⟩
  | authorize i authorized =>
    exact ⟨hgranted, hnumbered, fun m hm => (h.carried m hm).mono (admitted_authorize ..) (Nat.le_refl _) ⟨_, rfl⟩,
      h.fair⟩
  | find i ref extraNonce1 f message hrig hextra href hmine =>
    refine ⟨hgranted, hnumbered, fun m hm => ?_, h.fair⟩
    rcases List.mem_append.mp hm with hm | hm
    · exact (h.carried m hm).mono rfl (Nat.le_refl _) ⟨_, rfl⟩
    · rw [List.mem_singleton.mp hm]
      have hnew := carried_of_find hhost h.granted h.numbered hrig hextra href hmine
      exact hnew.mono rfl (Nat.le_refl _) ⟨_, rfl⟩
  | deliver pre post m hflying =>
    obtain ⟨hcarried, hfair⟩ := h.deliver hflying
    have hsame := receive_numbers host { w with flying := pre ++ post } m.client m.message
    refine ⟨hgranted, hnumbered, fun x hx => hcarried x ?_, fun hlt => hfair ?_⟩
    · rwa [World.deliver, hsame.2.1] at hx
    · rwa [World.deliver, hsame.1] at hlt
  | submit i params hrig =>
    obtain ⟨hnumbers, hflying, hverdicts⟩ := receive_numbers host w i params
    refine ⟨hgranted, hnumbered, fun m hm => ?_, ?_⟩
    · rw [hflying] at hm
      exact (h.carried m hm).receive i params
    · rw [hnumbers, hverdicts]
      exact h.fair

variable {instanceId : BitVec 32} {addresses : ℕ → Str × Str}

theorem inv_of_reachable (hhost : host.bignum.Lawful) (hw : Reachable host rig instanceId addresses w) :
    Inv host rig w := by
  induction hw with
  | refl => exact inv_init instanceId addresses
  | tail _ hstep ih => exact ih.step hhost hstep

/-- While the job numbers have not wrapped, whatever order messages arrive in and whatever else is sent, each
message a miner has made of a genuine find is answered as a good share of its job. -/
theorem miners_treated_fairly (hhost : host.bignum.Lawful) (hw : Reachable host rig instanceId addresses w)
    (hnumbers : w.numbers < 0xffff) : ∀ v ∈ w.verdicts, v.sent.Genuine host.H → v.Fair :=
  (inv_of_reachable hhost hw).fair hnumbers

end Runs

section Planted

/-- Under `plantedHash` a hash misses a bit. -/
theorem blake2_planted_lt (input : List Byte) : beNat (plantedHost.blake2 input) < 2 ^ 256 - 1 := by
  have hlen : (plantedHost.blake2 input).length = 32 := Host.length_blake2 ..
  have hlt := beNat_lt (plantedHost.blake2 input)
  have hbit : (beNat (plantedHost.blake2 input)).testBit 40 = false := by
    rw [testBit_beNat (by decide), hlen, show 32 * 8 - 1 - 40 = 26 * 8 + (8 - 1 - 0) from rfl,
      streamBit_at _ (by decide), Host.blake2, List.getD_eq_getElem?_getD, List.getElem?_map,
        List.getElem?_range (by decide)]
    change (plantedHash _ 26).getLsbD 0 = false
    have hplan : ∀ i, plan i 10 = 0 := fun i => by simp [plan]
    rw [plantedHash, hashOfDigits, BitVec.getLsbD_ofNat, testBit_field _ _ (by decide), Solver.digitBit,
      show (8 * (26 % hashLen) + (8 - 1 - 0)) / 21 = 10 from rfl, hplan, Nat.zero_testBit, Bool.and_false]
  rw [hlen] at hlt
  refine Nat.lt_of_le_of_ne (Nat.le_sub_one_of_lt hlt) fun heq => ?_
  rw [heq] at hbit
  exact absurd hbit (by decide)

theorem minable_openJob : Minable (jobParams openJob) where
  headerHash_hex := isHexDigits_hexStr _
  headerHash_length := length_hexStr _
  target_some := List.cons_ne_nil _ _
  target_hex := isHexDigits_hexStr _
  target_length := (length_hexStr _).le

theorem handed_planted (header nonce : List Byte) : ∃ v, Handed plantedHash header nonce v := by
  have hpos : 0 < (Cpu.after plantedHash header nonce 9).nsols := Cpu.nsols_pos_of_planted (planted_plantedHash _)
  have hmem : (⟨0, Cpu.indexVector (Cpu.after plantedHash header nonce 9).sols 0⟩ : Cpu.Handed) ∈
      (Cpu.solve plantedHash header nonce fun _ => false).handed :=
    Cpu.mem_solve.mpr ⟨0, hpos, fun _ _ => rfl, rfl⟩
  have hrow : 0 < maxsols := by decide
  generalize Cpu.indexVector (Cpu.after plantedHash header nonce 9).sols 0 = v at hmem
  exact ⟨v, .inl ⟨_, _, hmem, hrow, rfl⟩⟩

/-- The miner finds the planted solution, and sends it. -/
theorem exists_find : ∃ f message, Found (Handed plantedHash) (extraNonce 0 0) (jobParams openJob) f ∧
    mine plantedHash (extraNonce 0 0) (jobParams openJob) f = some message := by
  obtain ⟨job, hparse, -, -, -, hsize, -⟩ := @parseJob_of_hex (setServerNonce (extraNonce 0 0)) (jobParams openJob)
    minable_openJob.headerHash_hex minable_openJob.headerHash_length
  obtain ⟨v, hhanded⟩ := handed_planted job.header.headerHash.data (arithToUint256 (job.nonce 0 0)).data
  have htarget : job.serverTarget.toNat = 2 ^ 256 - 1 := by
    have hvalue : (serverTarget (jobParams openJob).target).toNat = hexNumber (jobParams openJob).target :=
      toNat_serverTarget minable_openJob.target_some minable_openJob.target_hex minable_openJob.target_length
    rw [parseJob_serverTarget hparse, hvalue]
    decide +kernel
  have hbelow : belowTarget job.serverTarget (plantedHost.blake2
      (job.targetInput (arithToUint256 (job.nonce 0 0)) (Equihash.getMinimalFromIndices v 21))) = true := by
    refine (belowTarget_iff _ (Host.length_blake2 ..)).mpr ?_
    rw [htarget]
    exact blake2_planted_lt _
  obtain ⟨solution, hsolution⟩ := Option.isSome_iff_exists.mp
    ((isSome_solutionFound plantedHash job (arithToUint256 (job.nonce 0 0))
      (Equihash.getMinimalFromIndices v 21)).trans hbelow)
  obtain ⟨message, hmessage⟩ : ∃ message, submit [] solution job.job 0 = some message := by
    rw [solutionFound_eq hsolution, hsize.trans (length_hexStr _)]
    exact ⟨_, submit_eq ..⟩
  refine ⟨⟨0, 0, v, [], 0⟩, message, ⟨job, hparse, hhanded⟩, ?_⟩
  rw [mine, hparse, Option.bind_eq_bind, Option.bind_some,
    miner_getMinimalFromIndices_eq hhanded.accepted.length]
  exact Option.bind_eq_some_iff.mpr ⟨_, rfl, Option.bind_eq_some_iff.mpr ⟨_, hsolution, hmessage⟩⟩

/-- The miner of the opening world sends it. -/
theorem step_find : ∃ m : Sent, m.client = 0 ∧ m.Genuine plantedHash ∧
    Step plantedHost (· = 0) opening { opening with flying := opening.flying ++ [m] } := by
  obtain ⟨f, message, hfound, hmine⟩ := exists_find
  have hjob : opening.pool.jobs 0 = openJob := by
    rw [pool_opening, jobs_opened]
  have hcreated : 0 < opening.pool.created := by
    rw [pool_opening]
    exact Nat.one_pos
  refine ⟨⟨0, 0, extraNonce 0 0, jobParams (opening.pool.jobs 0), f, message⟩, rfl, ?_, ?_⟩
  · rw [hjob]
    exact ⟨minable_openJob, hfound⟩
  · rw [← hjob] at hmine
    exact .find opening 0 0 (extraNonce 0 0) f message rfl (by rw [client_opening]) hcreated hmine

theorem numbers_opening : opening.numbers = 1 := rfl

/-- One find, delivered. -/
theorem miners_treated_fairly_planted : ∃ w, Reachable plantedHost (· = 0) 0 (fun _ => ([], [])) w ∧
    ∃ v ∈ w.verdicts, v.sent.Genuine plantedHash ∧ v.authorized = true ∧ v.Fair := by
  obtain ⟨m, hclient, hgenuine, hfind⟩ := step_find
  have hreach := ((reachable_opening _).tail hfind).tail (.deliver _ [] [] m rfl)
  have hnumbers : (World.deliver plantedHost { opening with flying := opening.flying ++ [m] } m []).numbers <
      0xffff := by
    rw [World.deliver, (receive_numbers ..).1, numbers_opening]
    decide
  have hauthorized : (opening.clients m.client).authorized = true := by rw [hclient, client_opening]
  refine ⟨_, hreach, _, List.mem_cons_self, hgenuine, hauthorized, ?_⟩
  exact miners_treated_fairly lawful_integers hreach hnumbers _ List.mem_cons_self hgenuine

end Planted

end Aion.Network
