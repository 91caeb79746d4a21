import AionMiner.Machine.Runs
import AionMiner.Miner.Nonces

/-! A mining thread, and the slot through which the stratum thread hands it jobs. -/

namespace Aion.Mining
open Miner

deriving instance DecidableEq for Arith256

inductive Store where
  | workReady (value : Bool)
  | cancelSolver (value : Bool)
  | pauseMining (value : Bool)
  deriving DecidableEq

inductive Line where
  | solve
  | solving
  | update
  | workReady
  | pauseMining

/-- The thread's copy of a job; `delivery` counts jobs. -/
structure Work where
  delivery : ℕ
  nonce : Arith256
  nonceEnd : Arith256

/-- `picked` is between the compare-exchange and `cancelSolver.store(false)`, `cleared` between that
and the copy. -/
inductive Thread where
  | waiting
  | picked
  | cleared
  | working (line : Line) (work : Work)
  | stopped

/-- `pending` holds the stores that the running callback has still to make. It has `m_zmt` until
there are none. `started` lists the calls of `solve`, the last one first. -/
structure State where
  slot : AionJob
  delivered : ℕ
  pending : List Store
  workReady : Bool
  cancelSolver : Bool
  pauseMining : Bool
  thread : Thread
  started : List (ℕ × Arith256)

inductive Event where
  | newJob (job : Option AionJob)
  | store
  | advance
  | interrupt

section Callback

def jobStores (job : AionJob) : List Store :=
  [.pauseMining false, .workReady true] ++ if job.clean then [.cancelSolver true] else []

def nullStores : List Store := [.workReady false, .cancelSolver true, .pauseMining true]

def State.newJob (s : State) : Option AionJob → State
  | some job => { s with slot := job, delivered := s.delivered + 1, pending := jobStores job }
  | none => { s with pending := nullStores }

def State.store (s : State) (pending : List Store) : Store → State
  | .workReady value => { s with workReady := value, pending := pending }
  | .cancelSolver value => { s with cancelSolver := value, pending := pending }
  | .pauseMining value => { s with pauseMining := value, pending := pending }

end Callback

section Thread

def State.advance (pos : ℕ) (s : State) : Option State :=
  match s.thread with
  | .waiting => some (if s.workReady then { s with workReady := false, thread := .picked } else s)
  | .picked => some { s with cancelSolver := false, thread := .cleared }
  | .cleared =>
    if s.pending = [] then
      let work := { delivery := s.delivered, nonce := s.slot.startNonce pos, nonceEnd := s.slot.nonceEnd pos }
      some { s with thread := .working .solve work }
    else none
  | .working .solve w => some { s with thread := .working .solving w, started := (w.delivery, w.nonce) :: s.started }
  | .working .solving w => some { s with thread := .working .update w }
  | .working .update w =>
    let nonce := w.nonce.add s.slot.nonce2Inc
    some { s with thread := if nonce = w.nonceEnd then .waiting else .working .workReady { w with nonce := nonce } }
  | .working .workReady w => some { s with thread := if s.workReady then .waiting else .working .pauseMining w }
  | .working .pauseMining w => some { s with thread := if s.pauseMining then .waiting else .working .solve w }
  | .stopped => none

/-- Where `minerThreadActive` is checked, and where the solver may throw. -/
def Thread.exits : Thread → Bool
  | .waiting | .working .solve _ | .working .solving _ => true
  | _ => false

end Thread

/-- A compare-exchange that fails without cause is no step. -/
def step (pos : ℕ) (s : State) : Event → Option State
  | .newJob job => if s.pending = [] then some (s.newJob job) else none
  | .store =>
    match s.pending with
    | [] => none
    | store :: pending => some (s.store pending store)
  | .advance => s.advance pos
  | .interrupt => if s.thread.exits then some { s with thread := .stopped } else none

/-- The thread begins before the first job; `slot` is what its variables happen to hold. -/
def start (slot : AionJob) : State where
  slot := slot
  delivered := 0
  pending := []
  workReady := false
  cancelSolver := false
  pauseMining := false
  thread := .waiting
  started := []

abbrev Reachable (pos : ℕ) (ok : State → Event → Prop) : State → Prop :=
  Machine.Reachable (step pos) (fun s => ∃ slot, s = start slot) ok

def Thread.copying : Thread → Bool
  | .picked | .cleared => true
  | _ => false

/-- No callback sets `workReady` between the compare-exchange and the copy. -/
def Apart (s : State) : Event → Prop
  | .store => ¬(s.thread.copying = true ∧ s.pending.head? = some (.workReady true))
  | _ => True

def Thread.Fits (nonce2Inc : Arith256) : Thread → Prop
  | .working .update w => 0 < nonce2Inc.toNat ∧ w.nonce.toNat + nonce2Inc.toNat < 2 ^ 256
  | _ => True

def Fits (s : State) : Event → Prop
  | .advance => s.thread.Fits s.slot.nonce2Inc
  | _ => True

def Issued (len : ℕ) : Event → Prop
  | .newJob (some job) => ∃ base, Serves job base len
  | _ => True

instance (s : State) : DecidablePred (Apart s)
  | .store => inferInstanceAs (Decidable ¬(_ ∧ _))
  | .newJob _ | .advance | .interrupt => inferInstanceAs (Decidable True)

instance (nonce2Inc : Arith256) : DecidablePred (Thread.Fits nonce2Inc)
  | .working .update _ => inferInstanceAs (Decidable (_ ∧ _))
  | .working .solve _ | .working .solving _ | .working .workReady _ | .working .pauseMining _ =>
    inferInstanceAs (Decidable True)
  | .waiting | .picked | .cleared | .stopped => inferInstanceAs (Decidable True)

instance (s : State) : DecidablePred (Fits s)
  | .advance => inferInstanceAs (Decidable (Thread.Fits _ _))
  | .newJob _ | .store | .interrupt => inferInstanceAs (Decidable True)

end Aion.Mining
