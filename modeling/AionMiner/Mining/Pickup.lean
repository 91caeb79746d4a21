import AionMiner.Mining.Slot

/-! A delivered job is taken once, and its nonces go up. -/

namespace Aion.Mining
open Bits Equihash Miner Text

section Invariant

/-- `workReady` is set, or a callback is about to set it. -/
def State.Raised (s : State) : Prop := s.workReady = true ∨ .workReady true ∈ s.pending

def Thread.delivery : Thread → Option ℕ
  | .working _ w => some w.delivery
  | _ => none

/-- The job is being worked on, or was. -/
def State.Taken (s : State) (d : ℕ) : Prop := s.thread.delivery = some d ∨ ∃ nonce, (d, nonce) ∈ s.started

/-- Whether `solve` has got the current nonce. -/
def Line.tried : Line → ℕ
  | .solving | .update => 1
  | _ => 0

inductive Advance (pos : ℕ) (s : State) : State → Prop
  | wait : Advance pos s s
  | pick : s.thread = .waiting → s.workReady = true → Advance pos s { s with workReady := false, thread := .picked }
  | clear : s.thread = .picked → Advance pos s { s with cancelSolver := false, thread := .cleared }
  | copy {w : Work} : s.thread = .cleared → s.pending = [] →
      w = { delivery := s.delivered, nonce := s.slot.startNonce pos, nonceEnd := s.slot.nonceEnd pos } →
      Advance pos s { s with thread := .working .solve w }
  | solve {w : Work} : s.thread = .working .solve w →
      Advance pos s { s with thread := .working .solving w, started := (w.delivery, w.nonce) :: s.started }
  | update {w w' : Work} : s.thread = .working .update w → w' = { w with nonce := w.nonce.add s.slot.nonce2Inc } →
      w'.nonce ≠ w'.nonceEnd → Advance pos s { s with thread := .working .workReady w' }
  | goOn {line line' : Line} {w : Work} : s.thread = .working line w → line.tried = line'.tried →
      Advance pos s { s with thread := .working line' w }
  | leave {line : Line} {w : Work} : s.thread = .working line w → Advance pos s { s with thread := .waiting }

theorem advance_spec {pos : ℕ} {s s' : State} (hstep : s.advance pos = some s') :
    Advance pos s s' := by
  unfold State.advance at hstep
  split at hstep
  case h_1 hthread =>
    split_ifs at hstep with hready
    · cases hstep
      exact .pick hthread hready
    · cases hstep
      exact .wait
  case h_2 hthread =>
    cases hstep
    exact .clear hthread
  case h_3 hthread =>
    split_ifs at hstep with hpending
    cases hstep
    exact .copy hthread hpending rfl
  case h_4 w hthread =>
    cases hstep
    exact .solve hthread
  case h_5 w hthread =>
    cases hstep
    exact .goOn hthread rfl
  case h_6 w hthread =>
    cases hstep
    split_ifs with hend
    · exact .leave hthread
    · exact .update hthread rfl hend
  case h_7 w hthread =>
    cases hstep
    split_ifs
    · exact .leave hthread
    · exact .goOn hthread rfl
  case h_8 w hthread =>
    cases hstep
    split_ifs
    · exact .leave hthread
    · exact .goOn hthread rfl
  case h_9 => cases hstep

structure Inv (s : State) : Prop where
  nodup : s.started.Nodup
  le : ∀ d, s.Taken d → d ≤ s.delivered
  fresh : s.Raised ∨ s.thread.copying = true → ∀ d, s.Taken d → d < s.delivered
  unset : s.thread.copying = true → s.workReady = false
  ahead : ∀ line w, s.thread = .working line w → ∀ nonce, (w.delivery, nonce) ∈ s.started →
    nonce.toNat < w.nonce.toNat + line.tried

variable {s : State}

theorem inv_start (slot : AionJob) : Inv (start slot) where
  nodup := List.nodup_nil
  le := by
    rintro d (h | ⟨_, h⟩) <;> cases h
  fresh := by
    rintro - d (h | ⟨_, h⟩) <;> cases h
  unset := fun _ => rfl
  ahead := by
    intro line w h
    cases h

theorem raised_null (h : (s.newJob none).Raised) : s.Raised := by
  rcases h with hready | hready
  · exact Or.inl hready
  · have hnone : Store.workReady true ∉ nullStores := by decide
    exact absurd hready hnone

theorem Inv.newJob (h : Inv s) (job : Option AionJob) : Inv (s.newJob job) := by
  cases job with
  | some job =>
    exact { h with
      le := fun d hd => (h.le d hd).trans (Nat.le_succ _)
      fresh := fun _ d hd => Nat.lt_succ_of_le (h.le d hd) }
  | none => exact { h with fresh := fun hbusy => h.fresh (hbusy.imp_left raised_null) }

theorem State.store_spec (s : State) (pending : List Store) (store : Store) :
    (s.store pending store).started = s.started ∧ (s.store pending store).thread = s.thread ∧
      (s.store pending store).delivered = s.delivered ∧ (s.store pending store).slot = s.slot ∧
      (s.store pending store).pending = pending ∧
      ((s.store pending store).workReady = true → store = .workReady true ∨ s.workReady = true) := by
  -- A store takes nothing, and sets `workReady` only if that was to come
  cases store with
  | workReady value =>
    refine ⟨rfl, rfl, rfl, rfl, rfl, ?_⟩
    rintro rfl
    exact Or.inl rfl
  | cancelSolver value => exact ⟨rfl, rfl, rfl, rfl, rfl, Or.inr⟩
  | pauseMining value => exact ⟨rfl, rfl, rfl, rfl, rfl, Or.inr⟩

theorem raised_store {store : Store} {pending : List Store}
    (hpending : s.pending = store :: pending) (h : (s.store pending store).Raised) : s.Raised := by
  obtain ⟨-, -, -, -, hrest, hready⟩ := s.store_spec pending store
  rcases h with hset | hset
  · obtain rfl | hset := hready hset
    · exact Or.inr (hpending ▸ List.mem_cons_self)
    · exact Or.inl hset
  · rw [hrest] at hset
    exact Or.inr (hpending ▸ List.mem_cons_of_mem _ hset)

theorem Inv.store (h : Inv s) {store : Store} {pending : List Store}
    (hpending : s.pending = store :: pending)
    (hapart : ¬(s.thread.copying = true ∧ store = .workReady true)) :
    Inv (s.store pending store) := by
  obtain ⟨hstarted, hthread, hdelivered, -, -, hready⟩ := s.store_spec pending store
  have htaken : ∀ d, (s.store pending store).Taken d ↔ s.Taken d := by
    intro d
    rw [State.Taken, State.Taken, hthread, hstarted]
  constructor
  · rw [hstarted]
    exact h.nodup
  · intro d hd
    rw [hdelivered]
    exact h.le d ((htaken d).mp hd)
  · intro hbusy d hd
    rw [hthread] at hbusy
    rw [hdelivered]
    exact h.fresh (hbusy.imp_left (raised_store hpending)) d ((htaken d).mp hd)
  · intro hcopying
    rw [hthread] at hcopying
    rw [Bool.eq_false_iff]
    intro hset
    obtain hstore | hset := hready hset
    · exact hapart ⟨hcopying, hstore⟩
    · rw [h.unset hcopying] at hset
      cases hset
  · rw [hthread, hstarted]
    exact h.ahead

theorem Inv.leave (h : Inv s) {thread : Thread} (hdelivery : thread.delivery = none)
    (hcopying : thread.copying = false) : Inv { s with thread := thread } := by
  have htaken : ∀ d, State.Taken { s with thread := thread } d → s.Taken d := by
    rintro d (hd | hd)
    · exact absurd (hdelivery.symm.trans hd) (Option.some_ne_none d).symm
    · exact Or.inr hd
  exact {
    nodup := h.nodup
    le := fun d hd => h.le d (htaken d hd)
    fresh := by
      rintro (hraised | hcopy) d hd
      · exact h.fresh (Or.inl hraised) d (htaken d hd)
      · exact absurd (hcopying.symm.trans hcopy) Bool.false_ne_true
    unset := fun hcopy => absurd (hcopying.symm.trans hcopy) Bool.false_ne_true
    ahead := by
      rintro line w rfl
      cases hdelivery }

theorem Inv.goOn (h : Inv s) {line line' : Line} {w w' : Work}
    (hthread : s.thread = .working line w) (hdelivery : w'.delivery = w.delivery)
    (hnonce : w.nonce.toNat + line.tried ≤ w'.nonce.toNat + line'.tried) :
    Inv { s with thread := .working line' w' } := by
  have htaken : ∀ d, State.Taken { s with thread := .working line' w' } d → s.Taken d := by
    rintro d (hd | hd)
    · left
      rw [hthread]
      exact (congrArg some hdelivery).symm.trans hd
    · exact Or.inr hd
  exact {
    nodup := h.nodup
    le := fun d hd => h.le d (htaken d hd)
    fresh := by
      rintro (hraised | hcopy) d hd
      · exact h.fresh (Or.inl hraised) d (htaken d hd)
      · cases hcopy
    unset := fun hcopy => absurd hcopy Bool.false_ne_true
    ahead := by
      intro line'' w'' heq nonce hmem
      cases heq
      rw [hdelivery] at hmem
      exact (h.ahead line w hthread nonce hmem).trans_le hnonce }

theorem Inv.pick (h : Inv s) (hready : s.workReady = true) :
    Inv { s with workReady := false, thread := .picked } := by
  have hfresh : ∀ d, State.Taken { s with workReady := false, thread := .picked } d →
      d < s.delivered := by
    rintro d (hd | hd)
    · cases hd
    · exact h.fresh (Or.inl (Or.inl hready)) d (Or.inr hd)
  exact {
    nodup := h.nodup
    le := fun d hd => (hfresh d hd).le
    fresh := fun _ => hfresh
    unset := fun _ => rfl
    ahead := by
      intro line w heq
      cases heq }

theorem Inv.clear (h : Inv s) (hthread : s.thread = .picked) :
    Inv { s with cancelSolver := false, thread := .cleared } := by
  have hcopying : s.thread.copying = true := by rw [hthread]; rfl
  have hfresh : ∀ d, State.Taken { s with cancelSolver := false, thread := .cleared } d →
      d < s.delivered := by
    rintro d (hd | hd)
    · cases hd
    · exact h.fresh (Or.inr hcopying) d (Or.inr hd)
  exact {
    nodup := h.nodup
    le := fun d hd => (hfresh d hd).le
    fresh := fun _ => hfresh
    unset := fun _ => h.unset hcopying
    ahead := by
      intro line w heq
      cases heq }

theorem Inv.copy (h : Inv s) (hthread : s.thread = .cleared) (hpending : s.pending = []) {w : Work}
    (hdelivery : w.delivery = s.delivered) : Inv { s with thread := .working .solve w } := by
  -- The copy is of a job that nothing has been done for, and the flag is not set for it any more
  have hcopying : s.thread.copying = true := by rw [hthread]; rfl
  have hfresh : ∀ nonce, (s.delivered, nonce) ∉ s.started := by
    intro nonce hmem
    exact lt_irrefl _ (h.fresh (Or.inr hcopying) _ (Or.inr ⟨nonce, hmem⟩))
  exact {
    nodup := h.nodup
    le := by
      rintro d (hd | hd)
      · cases hd
        exact hdelivery.le
      · exact h.le d (Or.inr hd)
    fresh := by
      rintro ((hset | hset) | hcopy)
      · exact absurd ((h.unset hcopying).symm.trans hset) Bool.false_ne_true
      · exact absurd hset (hpending ▸ List.not_mem_nil)
      · cases hcopy
    unset := fun hcopy => absurd hcopy Bool.false_ne_true
    ahead := by
      intro line w' heq nonce hmem
      cases heq
      rw [hdelivery] at hmem
      exact absurd hmem (hfresh nonce) }

theorem Inv.solve (h : Inv s) {w : Work} (hthread : s.thread = .working .solve w) :
    Inv { s with thread := .working .solving w, started := (w.delivery, w.nonce) :: s.started } := by
  have htaken : ∀ d, State.Taken
      { s with thread := .working .solving w, started := (w.delivery, w.nonce) :: s.started } d →
      s.Taken d := by
    rintro d (hd | ⟨nonce, hd⟩)
    · left
      rwa [hthread]
    · rcases List.mem_cons.mp hd with hd | hd
      · cases hd
        left
        rw [hthread]
        rfl
      · exact Or.inr ⟨nonce, hd⟩
  exact {
    nodup := by
      apply List.nodup_cons.mpr ⟨_, h.nodup⟩
      intro hmem
      exact lt_irrefl _ (h.ahead .solve w hthread w.nonce hmem)
    le := fun d hd => h.le d (htaken d hd)
    fresh := by
      rintro (hraised | hcopy) d hd
      · exact h.fresh (Or.inl hraised) d (htaken d hd)
      · cases hcopy
    unset := fun hcopy => absurd hcopy Bool.false_ne_true
    ahead := by
      intro line w' heq nonce hmem
      cases heq
      rcases List.mem_cons.mp hmem with hd | hd
      · cases hd
        exact Nat.lt_succ_self _
      · exact (h.ahead .solve w hthread nonce hd).trans (Nat.lt_succ_self _) }

end Invariant

section Runs
variable {pos : ℕ} {s s' : State}

theorem Inv.advance (h : Inv s) (hfits : Fits s .advance) (hstep : Advance pos s s') : Inv s' := by
  cases hstep with
  | wait => exact h
  | pick _ hready => exact h.pick hready
  | clear hthread => exact h.clear hthread
  | copy hthread hpending hw => exact h.copy hthread hpending (congrArg Work.delivery hw)
  | solve hthread => exact h.solve hthread
  | @update w w' hthread hw _ =>
    subst hw
    simp only [Fits, hthread, Thread.Fits] at hfits
    obtain ⟨hpos, hlt⟩ := hfits
    have hnext : w.nonce.toNat + 1 ≤ (w.nonce.add s.slot.nonce2Inc).toNat + 0 := by
      rw [Arith256.toNat_add, Nat.mod_eq_of_lt hlt]
      exact Nat.add_le_add_left hpos _
    exact h.goOn hthread rfl hnext
  | goOn hthread htried => exact h.goOn hthread rfl (Nat.add_le_add_left htried.le _)
  | leave hthread => exact h.leave rfl rfl

theorem Inv.step (h : Inv s) {e : Event} (hapart : Apart s e) (hfits : Fits s e)
    (hstep : step pos s e = some s') : Inv s' := by
  cases e with
  | newJob job =>
    simp only [Mining.step] at hstep
    split_ifs at hstep
    cases hstep
    exact h.newJob job
  | store =>
    simp only [Mining.step] at hstep
    cases hpending : s.pending with
    | nil =>
      rw [hpending] at hstep
      cases hstep
    | cons store pending =>
      rw [hpending] at hstep
      cases hstep
      apply h.store hpending
      simp only [Apart, hpending, List.head?_cons, Option.some.injEq] at hapart
      exact hapart
  | advance => exact h.advance hfits (advance_spec hstep)
  | interrupt =>
    simp only [Mining.step] at hstep
    split_ifs at hstep
    cases hstep
    exact h.leave rfl rfl

end Runs

section Issued

/-- There is no job to work on. -/
def Thread.idle : Thread → Bool
  | .waiting | .stopped => true
  | _ => false

/-- The nonce is one of the thread's range for some job. -/
def Work.InRange (pos len : ℕ) (w : Work) : Prop :=
  ∃ job base n, Serves job base len ∧ w.nonce = job.nonce pos n ∧ w.nonceEnd = job.nonceEnd pos ∧ job.Tries pos n

structure Ranged (pos len : ℕ) (s : State) : Prop where
  slot : s.Raised ∨ s.thread.idle = false → ∃ base, Serves s.slot base len
  range : ∀ line w, s.thread = .working line w → w.InRange pos len

variable {pos len : ℕ} {s s' : State}

theorem ranged_start (slot : AionJob) : Ranged pos len (start slot) where
  slot := by
    rintro ((h | h) | h) <;> cases h
  range := by
    intro line w h
    cases h

theorem Ranged.newJob (h : Ranged pos len s) {job : Option AionJob}
    (hissued : Issued len (.newJob job)) : Ranged pos len (s.newJob job) := by
  cases job with
  | some job => exact ⟨fun _ => hissued, h.range⟩
  | none => exact ⟨fun hbusy => h.slot (hbusy.imp_left raised_null), h.range⟩

theorem Ranged.store (h : Ranged pos len s) {store : Store} {pending : List Store}
    (hpending : s.pending = store :: pending) : Ranged pos len (s.store pending store) := by
  obtain ⟨-, hthread, -, hslot, -, -⟩ := s.store_spec pending store
  constructor
  · intro hbusy
    rw [hthread] at hbusy
    rw [hslot]
    exact h.slot (hbusy.imp_left (raised_store hpending))
  · rw [hthread]
    exact h.range

theorem Ranged.slot_of_eq (h : Ranged pos len s) {thread : Thread} (hthread : s.thread = thread)
    (hidle : thread.idle = false) : ∃ base, Serves s.slot base len :=
  h.slot (Or.inr (hthread ▸ hidle))

theorem Ranged.advance (h : Ranged pos len s) (hstep : Advance pos s s') : Ranged pos len s' := by
  cases hstep with
  | wait => exact h
  | pick _ hready =>
    refine ⟨fun _ => h.slot (Or.inl (Or.inl hready)), ?_⟩
    intro line w heq
    cases heq
  | clear hthread =>
    refine ⟨fun _ => h.slot_of_eq hthread rfl, ?_⟩
    intro line w heq
    cases heq
  | copy hthread _ hw =>
    have hslot := h.slot_of_eq hthread rfl
    refine ⟨fun _ => hslot, ?_⟩
    obtain ⟨base, hserves⟩ := hslot
    intro line w heq
    cases heq
    rw [hw]
    exact ⟨s.slot, base, 0, hserves, rfl, rfl, s.slot.tries_zero pos⟩
  | solve hthread =>
    refine ⟨fun _ => h.slot_of_eq hthread rfl, ?_⟩
    intro line w heq
    cases heq
    exact h.range _ _ hthread
  | @update w w' hthread hw hend =>
    have hslot := h.slot_of_eq hthread rfl
    refine ⟨fun _ => hslot, ?_⟩
    obtain ⟨base', hslot⟩ := hslot
    obtain ⟨job, base, n, hserves, hnonce, hnonceEnd, htries⟩ := h.range _ _ hthread
    have hnext : w'.nonce = job.nonce pos (n + 1) := by
      have hinc : s.slot.nonce2Inc = job.nonce2Inc :=
        Arith256.toNat_inj (hslot.inc.trans hserves.inc.symm)
      rw [hw, AionJob.nonce, Function.iterate_succ_apply', ← AionJob.nonce, ← hnonce, hinc]
    have hlast : w'.nonceEnd = job.nonceEnd pos := by rw [hw, hnonceEnd]
    intro line w'' heq
    cases heq
    rw [hnext, hlast] at hend
    exact ⟨job, base, n + 1, hserves, hnext, hlast, htries.succ hend⟩
  | goOn hthread _ =>
    refine ⟨fun _ => h.slot_of_eq hthread rfl, ?_⟩
    intro line w heq
    cases heq
    exact h.range _ _ hthread
  | leave hthread =>
    refine ⟨fun _ => h.slot_of_eq hthread rfl, ?_⟩
    intro line w heq
    cases heq

theorem Ranged.step (h : Ranged pos len s) {e : Event} (hissued : Issued len e)
    (hstep : step pos s e = some s') : Ranged pos len s' := by
  cases e with
  | newJob job =>
    simp only [Mining.step] at hstep
    split_ifs at hstep
    cases hstep
    exact h.newJob hissued
  | store =>
    simp only [Mining.step] at hstep
    cases hpending : s.pending with
    | nil =>
      rw [hpending] at hstep
      cases hstep
    | cons store pending =>
      rw [hpending] at hstep
      cases hstep
      exact h.store hpending
  | advance => exact h.advance (advance_spec hstep)
  | interrupt =>
    simp only [Mining.step] at hstep
    split_ifs at hstep
    cases hstep
    constructor
    · rintro (hraised | hidle)
      · exact h.slot (Or.inl hraised)
      · cases hidle
    · intro line w heq
      cases heq

/-- A thread with a short extra nonce does not run over. -/
theorem Ranged.fits (h : Ranged pos len s) (hpos : pos < AionJob.threads) (hlen : len ≤ 19)
    (e : Event) : Fits s e := by
  cases e with
  | newJob job => trivial
  | store => trivial
  | interrupt => trivial
  | advance =>
    change s.thread.Fits s.slot.nonce2Inc
    generalize hthread : s.thread = thread
    unfold Thread.Fits
    split
    · next w =>
      obtain ⟨base', hslot⟩ := h.slot (Or.inr (by rw [hthread]; rfl))
      obtain ⟨job, base, n, hserves, hnonce, -, htries⟩ := h.range _ _ hthread
      have hlt := hserves.tries_lt hlen hpos htries
      refine ⟨hslot.inc ▸ Nat.two_pow_pos _, ?_⟩
      calc w.nonce.toNat + s.slot.nonce2Inc.toNat = (job.nonce pos (n + 1)).toNat := by
            rw [hnonce, hserves.nonce_eq hlen hpos hlt.le, hserves.nonce_eq hlen hpos hlt,
              hslot.inc, Nat.succ_mul n (2 ^ (8 * len)), Nat.add_assoc]
        _ < 2 ^ 256 := Arith256.toNat_lt _
    · trivial

/-- While all extra nonces have one length of at most 19 bytes, no nonce runs over. -/
theorem reachable_fits (hpos : pos < AionJob.threads) (hlen : len ≤ 19)
    (h : Reachable pos (fun s e => Apart s e ∧ Issued len e) s) :
    Reachable pos (fun s e => Apart s e ∧ Fits s e) s := by
  apply h.mono
  intro s e hs hok
  have hranged : Ranged pos len s := by
    apply hs.invariant
    · rintro _ ⟨slot, rfl⟩
      exact ranged_start slot
    · intro s e s' hs hok hstep
      exact hs.step hok.2 hstep
  exact ⟨hok.1, hranged.fits hpos hlen e⟩

end Issued

section Runs
variable {pos : ℕ} {s s' : State}

/-- No nonce of a delivered job is searched twice in a run whose callbacks keep apart from the
pickup and whose nonces do not run over. -/
theorem solved_once (pos : ℕ) {s : State} (h : Reachable pos (fun s e => Apart s e ∧ Fits s e) s) :
    s.started.Nodup := by
  have hinv : Inv s := by
    apply h.invariant
    · rintro _ ⟨slot, rfl⟩
      exact inv_start slot
    · intro s e s' hs hok hstep
      exact hs.step hok.1 hok.2 hstep
  exact hinv.nodup

end Runs

section Examples

/-- The extra nonce of eight bytes, and a header hash of zeros. -/
def issuedJob (jobId : Str) : AionJob where
  job := jobId
  header :=
    { headerHash := ⟨List.replicate 32 0, rfl⟩
      nNonce := (setServerNonce (hexStr [0, 0, 0, 7, 0, 0, 0, 3])).nonce1
      nSolution := [] }
  nonce1Size := 16
  nonce2Inc := (setServerNonce (hexStr [0, 0, 0, 7, 0, 0, 0, 3])).nonce2Inc
  serverTarget := serverTarget []
  clean := true

theorem parseJob_issued (jobId : Str) :
    parseJob (setServerNonce (hexStr [0, 0, 0, 7, 0, 0, 0, 3])) { zeroParams with jobId := jobId } =
      some (issuedJob jobId) := rfl

def deliver (jobId : Str) : List Event := [.newJob (some (issuedJob jobId)), .store, .store, .store]

/-- Two nonces of a job, one after the other. -/
theorem solved_once_two :
    ∃ s, Reachable 0 (fun s e => Apart s e ∧ Fits s e) s ∧ s.started.length = 2 ∧ s.started.Nodup := by
  have hrun : (Machine.run (step 0) (fun s e => Apart s e ∧ Fits s e) (start (issuedJob []))
      (deliver [unit '1'] ++ List.replicate 9 .advance)).map (fun s => s.started.length) = some 2 := rfl
  obtain ⟨s, hrun, hlen⟩ := Option.map_eq_some_iff.mp hrun
  have hreach : Reachable 0 (fun s e => Apart s e ∧ Fits s e) s :=
    Machine.Reachable.run (.start ⟨_, rfl⟩) hrun
  exact ⟨s, hreach, hlen, solved_once 0 hreach⟩

/-- Job 2 comes between the compare-exchange for job 1 and the copy: its first nonce is searched twice. -/
theorem solved_twice : ∃ s, Reachable 0 (fun _ _ => True) s ∧ ¬s.started.Nodup := by
  have hrun : (Machine.run (step 0) (fun _ _ => True) (start (issuedJob []))
      (deliver [unit '1'] ++ [.advance] ++ deliver [unit '2'] ++ List.replicate 10 .advance)).map
        (fun s => decide s.started.Nodup) = some false := rfl
  obtain ⟨s, hrun, hdup⟩ := Option.map_eq_some_iff.mp hrun
  exact ⟨s, Machine.Reachable.run (.start ⟨_, rfl⟩) hrun, of_decide_eq_false hdup⟩

end Examples
end Aion.Mining
