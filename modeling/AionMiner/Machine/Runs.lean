import Mathlib.Data.List.Basic
import Mathlib.Logic.Relation

/-! Runs of a machine that takes one event after the other. -/

namespace Aion.Machine

variable {σ ε : Type*}

/-- The states that runs lead to whose events all satisfy `ok`. -/
inductive Reachable (step : σ → ε → Option σ) (start : σ → Prop) (ok : σ → ε → Prop) : σ → Prop
  | start {s : σ} : start s → Reachable step start ok s
  | step {s s' : σ} {e : ε} : Reachable step start ok s → ok s e → step s e = some s' → Reachable step start ok s'

variable {step : σ → ε → Option σ} {start : σ → Prop} {ok ok' : σ → ε → Prop} {s s' : σ}

theorem Reachable.invariant {Inv : σ → Prop} (h : Reachable step start ok s)
    (hstart : ∀ s, start s → Inv s)
    (hstep : ∀ s e s', Inv s → ok s e → step s e = some s' → Inv s') : Inv s := by
  induction h with
  | start hs => exact hstart _ hs
  | step _ hok hs ih => exact hstep _ _ _ ih hok hs

theorem Reachable.mono (h : Reachable step start ok s)
    (hok : ∀ s e, Reachable step start ok s → ok s e → ok' s e) : Reachable step start ok' s := by
  induction h with
  | start hs => exact .start hs
  | step hreach hallowed hs ih => exact .step ih (hok _ _ hreach hallowed) hs

section Run
variable (step ok) [∀ s e, Decidable (ok s e)]

def run : σ → List ε → Option σ
  | s, [] => some s
  | s, e :: events => if ok s e then (step s e).bind fun s => run s events else none

variable {step ok}

theorem Reachable.run {events : List ε} (h : Reachable step start ok s)
    (hrun : run step ok s events = some s') : Reachable step start ok s' := by
  induction events generalizing s with
  | nil =>
    cases hrun
    exact h
  | cons e events ih =>
    rw [Machine.run] at hrun
    split_ifs at hrun with hok
    obtain ⟨s₁, hs, hrun⟩ := Option.bind_eq_some_iff.mp hrun
    exact ih (.step h hok hs) hrun

end Run

section Loops
variable {next : σ → ε → σ} {Inv : ℕ → σ → Prop} {bound : ℕ}

/-- A loop whose steps may fail does not fail while an invariant that counts its steps says so. -/
theorem foldlM_eq_foldl {events : List ε}
    (hstep : ∀ n s, ∀ e ∈ events, n < bound → Inv n s → step s e = some (next s e) ∧ Inv (n + 1) (next s e))
    {n : ℕ} (hs : Inv n s) (hbound : n + events.length ≤ bound) :
    events.foldlM step s = some (events.foldl next s) ∧ Inv (n + events.length) (events.foldl next s) := by
  induction events generalizing n s with
  | nil => exact ⟨rfl, hs⟩
  | cons e events ih =>
    rw [List.length_cons] at hbound
    obtain ⟨hnext, hinv⟩ := hstep n s e List.mem_cons_self (by omega) hs
    obtain ⟨hrun, hfinal⟩ := ih (fun n s e he => hstep n s e (List.mem_cons_of_mem _ he)) hinv (by omega)
    rw [List.foldlM_cons, hnext, List.foldl_cons, List.length_cons,
      show n + (events.length + 1) = n + 1 + events.length by omega]
    exact ⟨hrun, hfinal⟩

/-- A loop whose every pass is made of small steps is made of them. -/
theorem reflTransGen_foldl {τ : Type*} {R : τ → τ → Prop} (view : σ → τ)
    (h : ∀ s e, Relation.ReflTransGen R (view s) (view (next s e))) (events : List ε) (s : σ) :
    Relation.ReflTransGen R (view s) (view (events.foldl next s)) := by
  induction events generalizing s with
  | nil => exact .refl
  | cons e events ih => exact (h s e).trans (ih (next s e))

theorem foldlM_range_succ (step : σ → ℕ → Option σ) (n : ℕ) (s : σ) :
    (List.range (n + 1)).foldlM step s = ((List.range n).foldlM step s).bind fun s => step s n := by
  rw [List.range_succ, List.foldlM_append]
  refine congrArg (Option.bind _) (funext fun s => ?_)
  rw [List.foldlM_cons]
  exact bind_pure (step s n)

end Loops
end Aion.Machine
