import AionMiner.Pool.Duplicates
import AionMiner.Stratum.Client

/-! Which lines the pool survives. An exception that escapes from a handler ends the process. -/

namespace Aion.Stratum
open Text Pool

/-- The share that is counted next sets off a ban. -/
def Client.Bans (o : Options) (c : Client) (shareValid : Bool) : Prop :=
  ∃ banning, o.banning = some banning ∧ banning.checkThreshold ≤ c.valid + c.invalid + 1 ∧
    banning.lenient (if shareValid then c.invalid else c.invalid + 1) (c.valid + c.invalid + 1) = false

/-- Shares are judged: the last answer of the authorizer was positive, and there is an extra nonce. -/
def Client.Ready (c : Client) (extraNonce1 : Str) : Prop :=
  c.authorized = true ∧ c.extraNonce1 = some extraNonce1 ∧ extraNonce1 ≠ []

def methods : List String :=
  ["mining.subscribe", "mining.authorize", "mining.submit", "mining.get_transactions", "mining.extranonce.subscribe"]

section Handlers
variable {host : Engine} {o : Options} {now : ℤ} {st : State} {message : Json}

theorem counted_eq (valid : Bool) (c : Client) :
    (c.counted valid).invalid = (if valid then c.invalid else c.invalid + 1) ∧
      (c.counted valid).valid + (c.counted valid).invalid = c.valid + c.invalid + 1 ∧
        (c.counted valid).getLabel = c.getLabel := by
  cases valid
  · exact ⟨rfl, rfl, rfl⟩
  · exact ⟨rfl, Nat.succ_add .., rfl⟩

theorem count_isSome (valid : Bool) :
    (st.count o valid).isSome ↔ (st.client.Bans o valid → st.client.getLabel.isSome) := by
  obtain ⟨hinvalid, htotal, hlabel⟩ := counted_eq valid st.client
  unfold State.count considerBan Client.Bans
  rw [Option.isSome_map]
  cases o.banning with
  | none => simp
  | some banning =>
    dsimp only
    rw [htotal, hinvalid, hlabel]
    simp only [Option.some.injEq, exists_eq_left']
    generalize (if valid = true then st.client.invalid else st.client.invalid + 1) = invalid
    split_ifs with hfew hlenient
    · simp [Nat.not_le.mpr hfew]
    · simp [hlenient]
    · simp [Nat.not_lt.mp hfew, hlenient]

theorem Client.Ready.unique {c : Client} {x y : Str} (hx : c.Ready x) (hy : c.Ready y) : x = y :=
  Option.some.inj (hx.2.1.symm.trans hy.2.1)

/-- A share that is not judged. -/
theorem handleSubmit_refused (h : ∀ extraNonce1, ¬st.client.Ready extraNonce1) :
    handleSubmit host o st message = ([], st.count o false) := by
  unfold handleSubmit
  by_cases hauthorized : st.client.authorized = true
  · rw [hauthorized, Bool.not_true, if_neg Bool.false_ne_true]
    split
    · rfl
    · rfl
    · next extraNonce1 hne hsome => exact absurd ⟨hauthorized, hsome, hne⟩ (h extraNonce1)
  · rw [Bool.eq_false_of_not_eq_true hauthorized]
    rfl

theorem handleSubmit_ready {extraNonce1 : Str} (h : st.client.Ready extraNonce1) :
    handleSubmit host o st message =
      match submission extraNonce1 message with
      | none => ([], none)
      | some params =>
        match processShare host st.jobManager params with
        | none => ([], none)
        | some (jobManager, response) =>
          ([params.name],
            (emitShare params response).bind fun _ =>
              { st with jobManager := jobManager }.count o response.result) := by
  obtain ⟨hauthorized, hsome, hne⟩ := h
  unfold handleSubmit
  rw [hauthorized, hsome, Bool.not_true, if_neg Bool.false_ne_true]
  cases extraNonce1 with
  | nil => exact absurd rfl hne
  | cons c extraNonce1 => rfl

theorem submit_isSome : (handleSubmit host o st message).2.isSome ↔
    ((∀ extraNonce1, ¬st.client.Ready extraNonce1) → st.client.Bans o false → st.client.getLabel.isSome) ∧
    ∀ extraNonce1, st.client.Ready extraNonce1 →
      ∃ share, submission extraNonce1 message = some share ∧ share.Sound host st.jobManager ∧
        (¬share.Accepted host st.jobManager → share.name.joined.isSome) ∧
          ∀ valid, (valid = true ↔ share.Accepted host st.jobManager) → st.client.Bans o valid →
            st.client.getLabel.isSome := by
  by_cases hready : ∃ extraNonce1, st.client.Ready extraNonce1
  swap
  · rw [handleSubmit_refused (not_exists.mp hready), count_isSome]
    exact ⟨fun h => ⟨fun _ => h, fun e he => absurd ⟨e, he⟩ hready⟩,
      fun h => h.1 (not_exists.mp hready)⟩
  obtain ⟨extraNonce1, hready⟩ := hready
  have honly : ∀ e, st.client.Ready e ↔ extraNonce1 = e :=
    fun e => ⟨hready.unique, fun heq => heq ▸ hready⟩
  rw [handleSubmit_ready hready]
  simp only [honly, forall_eq', IsEmpty.forall_iff, true_and]
  cases hshare : submission extraNonce1 message with
  | none => simp
  | some share =>
    simp only [Option.some.injEq, exists_eq_left', ← processShare_isSome, ← processShare_accepts]
    cases hprocess : processShare host st.jobManager share with
    | none => simp
    | some result =>
      obtain ⟨jobManager, response⟩ := result
      have haccepts : ∀ valid, (valid = true ↔ accepts (some (jobManager, response)) = true) ↔
          response.result = valid := by
        intro valid
        rw [accepts, Option.any_some]
        cases valid <;> cases response.result <;> simp
      have hrejected : ¬accepts (some (jobManager, response)) = true ↔ response.result = false := by
        rw [accepts, Option.any_some, Bool.not_eq_true]
      simp only [haccepts, hrejected, forall_eq', Option.isSome_some, true_and]
      have hcount := @count_isSome o { st with jobManager := jobManager } response.result
      unfold emitShare
      cases hresult : response.result with
      | true =>
        rw [hresult] at hcount
        simpa using hcount
      | false =>
        rw [hresult] at hcount
        cases share.name.joined with
        | none => simp
        | some name => simpa using hcount

theorem not_is {v : Value} {a b : String} (h : v.is a = true) (hne : literal a ≠ literal b) :
    ¬v.is b = true := by
  unfold Value.is at h ⊢
  split at h
  · rw [beq_iff_eq.mp h]
    exact fun heq => hne (beq_iff_eq.mp heq)
  · cases h

/-- Of a known method only its own condition counts. -/
theorem known {method : String} (hmethod : method ∈ methods)
    (h : (message.field (literal "method")).is method = true) :
    ¬∀ method ∈ methods, (message.field (literal "method")).is method = false := by
  intro hunknown
  rw [hunknown method hmethod] at h
  cases h

end Handlers

section Fresh

/-- `authorizeFN` of `poolWorker.js` where user names are not validated: it logs name and password,
and accepts. -/
def authorizeFN (_ _ : Str) (workerName password : Value) : Authorizing :=
  if workerName.text.isSome && password.text.isSome then .answers true else .throws

def options : Options where
  banning := none
  connectionTimeout := 600
  authorizeFn := authorizeFN

def engine : Engine := { plantedHost with toUint8 := fun _ => 0 }

def fresh : State where
  client := .connect (literal "127.0.0.1") (literal "3333") 0
  jobManager := opened
  extraNonceCounter := ⟨1, 0⟩
  pending := []

end Fresh
end Aion.Stratum
