import Mathlib.Data.Option.Basic

/-! Readers that agree on two streams, one of which is seen through a view. -/

namespace Aion.Machine
variable {σ τ α β : Type*} {view : σ → τ} {inv : σ → Prop}

/-- The same is read or nothing is, the rest is the same, and the invariant holds of it. -/
def Agree (view : σ → τ) (inv : σ → Prop) (x : Option (α × σ)) (y : Option (α × τ)) : Prop :=
  (x.map fun p => (p.1, view p.2)) = y ∧ ∀ a s, x = some (a, s) → inv s

theorem Agree.none : Agree view inv (none : Option (α × σ)) none := ⟨rfl, fun _ _ h => nomatch h⟩

theorem Agree.some {s : σ} (hs : inv s) (a : α) : Agree view inv (some (a, s)) (some (a, view s)) := by
  refine ⟨rfl, fun a' s' h => ?_⟩
  obtain ⟨rfl, rfl⟩ := Prod.mk.inj (Option.some.inj h)
  exact hs

theorem Agree.bind {x : Option (α × σ)} {y : Option (α × τ)} {f : α × σ → Option (β × σ)}
    {g : α × τ → Option (β × τ)}
    (h : Agree view inv x y) (hf : ∀ a s, inv s → Agree view inv (f (a, s)) (g (a, view s))) :
    Agree view inv (x.bind f) (y.bind g) := by
  obtain ⟨hview, hinv⟩ := h
  subst hview
  cases x with
  | none => exact .none
  | some p => exact hf p.1 p.2 (hinv p.1 p.2 rfl)

theorem Agree.ite {c : Prop} [Decidable c] {x x' : Option (α × σ)} {y y' : Option (α × τ)}
    (h : Agree view inv x y) (h' : Agree view inv x' y') :
    Agree view inv (if c then x else x') (if c then y else y') := by
  by_cases hc : c
  · rw [if_pos hc, if_pos hc]
    exact h
  · rw [if_neg hc, if_neg hc]
    exact h'

end Aion.Machine
