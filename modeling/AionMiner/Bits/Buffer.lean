import Mathlib.Data.List.GetD

/-! Byte buffers filled by counting loops. -/

namespace Aion.Bits
variable {α : Type*}

/-- `for (x = a; x < a + n; x++) out[j + x] = f x`. -/
def writeLoop (j a n : ℕ) (f : ℕ → α) (out : List α) : List α :=
  (List.range' a n).foldl (fun out x => out.set (j + x) (f x)) out

@[simp] theorem length_writeLoop (j a n : ℕ) (f : ℕ → α) (out : List α) :
    (writeLoop j a n f out).length = out.length := by
  induction n generalizing a out with
  | zero => rfl
  | succ n ih =>
    rw [writeLoop, List.range'_succ, List.foldl_cons]
    exact (ih (a + 1) _).trans (List.length_set ..)

theorem getD_writeLoop_of_lt (j a n : ℕ) (f : ℕ → α) (out : List α) (d : α) {i : ℕ}
    (hi : i < j + a) : (writeLoop j a n f out).getD i d = out.getD i d := by
  induction n generalizing a out with
  | zero => rfl
  | succ n ih =>
    rw [writeLoop, List.range'_succ, List.foldl_cons]
    refine (ih (a + 1) _ (by omega)).trans ?_
    simp only [List.getD_eq_getElem?_getD, List.getElem?_set_ne (show j + a ≠ i by omega)]

theorem getD_writeLoop_of_ge (j a n : ℕ) (f : ℕ → α) (out : List α) (d : α) {i : ℕ}
    (hi : j + a + n ≤ i) : (writeLoop j a n f out).getD i d = out.getD i d := by
  induction n generalizing a out with
  | zero => rfl
  | succ n ih =>
    rw [writeLoop, List.range'_succ, List.foldl_cons]
    refine (ih (a + 1) _ (by omega)).trans ?_
    simp only [List.getD_eq_getElem?_getD, List.getElem?_set_ne (show j + a ≠ i by omega)]

theorem getD_writeLoop (j a n : ℕ) (f : ℕ → α) (out : List α) (d : α) {x : ℕ}
    (ha : a ≤ x) (hx : x < a + n) (hlen : j + x < out.length) :
    (writeLoop j a n f out).getD (j + x) d = f x := by
  induction n generalizing a out with
  | zero => omega
  | succ n ih =>
    rw [writeLoop, List.range'_succ, List.foldl_cons]
    rcases Nat.eq_or_lt_of_le ha with rfl | ha
    · refine (getD_writeLoop_of_lt j (a + 1) n f _ d (by omega)).trans ?_
      rw [List.getD_eq_getElem _ _ (by simpa using hlen), List.getElem_set_self]
    · exact ih (a + 1) _ (by omega) (by omega) (by simpa using hlen)

end Aion.Bits
