import AionMiner.Store.Ring
import Mathlib.Algebra.BigOperators.Group.List.Basic
import Mathlib.Algebra.Order.Field.Rat
import Mathlib.Data.Rat.Floor

/-! `RingBuffer` of `varDiff.js`, and the window it stands for. -/

namespace Aion.VarDiff
open Store.Ring

section Code

structure RingBuffer where
  data : List ℚ
  cursor : ℕ
  isFull : Bool

/-- `new RingBuffer(maxSize)`, and what `clear` leaves. -/
def RingBuffer.empty : RingBuffer := ⟨[], 0, false⟩

variable (maxSize : ℚ) (b : RingBuffer)

def RingBuffer.append (x : ℚ) : RingBuffer :=
  if b.isFull then
    -- a full buffer has as many entries as `maxSize` says, so the remainder is one of whole numbers
    ⟨b.data.set b.cursor x, (b.cursor + 1) % ⌊maxSize⌋.toNat, true⟩
  else if ((b.data ++ [x]).length : ℚ) = maxSize then ⟨b.data ++ [x], 0, true⟩
  else ⟨b.data ++ [x], b.cursor + 1, false⟩

def RingBuffer.size : ℚ := if b.isFull then maxSize else b.cursor

/-- The sum of no entries throws. -/
def RingBuffer.avg : Option ℚ := if b.data = [] then none else some (b.data.sum / b.size maxSize)

end Code

section Window

def mean (xs : List ℚ) : ℚ := xs.sum / xs.length

/-- The last `min(n, bufferSize)` of `n` intervals. -/
def window (bufferSize : ℚ) (xs : List ℚ) : List ℚ := xs.rtake (min xs.length ⌊bufferSize⌋.toNat)

theorem rtake_min (xs : List ℚ) (size : ℕ) : xs.rtake (min xs.length size) = xs.rtake size := by
  rw [List.rtake, List.rtake]
  apply congrArg fun m => xs.drop m
  omega

theorem window_natCast (size : ℕ) (xs : List ℚ) : window size xs = xs.rtake size := by
  rw [window, Int.floor_natCast, Int.toNat_natCast, rtake_min]

/-- The buffer of a whole size, and what was written since it was empty. -/
def Represents (size : ℕ) (b : RingBuffer) (history : List ℚ) : Prop :=
  if b.isFull then Holds size b.data b.cursor history
  else b.data = history ∧ b.cursor = history.length ∧ history.length < size

variable {size : ℕ} {b : RingBuffer} {history : List ℚ}

theorem represents_empty (h : 0 < size) : Represents size RingBuffer.empty [] := ⟨rfl, rfl, h⟩

theorem Represents.append (h : Represents size b history) (x : ℚ) :
    Represents size (b.append size x) (history ++ [x]) := by
  obtain ⟨data, cursor, isFull⟩ := b
  cases isFull with
  | true =>
    have hwrite := Holds.write h x
    rw [RingBuffer.append, if_pos rfl, Int.floor_natCast, Int.toNat_natCast]
    exact hwrite
  | false =>
    obtain ⟨hdata, hcursor, hlt⟩ := h
    dsimp only at hdata hcursor
    subst hdata hcursor
    rw [RingBuffer.append, if_neg Bool.false_ne_true]
    split_ifs with hfull
    · rw [Nat.cast_inj] at hfull
      have hpos : 0 < (data ++ [x]).length := by
        rw [List.length_append]
        exact Nat.succ_pos _
      have hself := holds_self hpos
      rw [hfull] at hself
      exact hself
    · have hne : data.length + 1 ≠ size := by
        intro h
        apply hfull
        rw [← h, List.length_append]
        rfl
      refine ⟨rfl, ?_, ?_⟩
      · rw [List.length_append]
        rfl
      · rw [List.length_append]
        exact lt_of_le_of_ne hlt hne

theorem Represents.length_data_le (h : Represents size b history) : b.data.length ≤ size := by
  rw [Represents] at h
  split_ifs at h
  · exact h.length_data.le
  · exact h.1 ▸ h.2.2.le

theorem Represents.size_eq (h : Represents size b history) : b.size size = (b.data.length : ℚ) := by
  rw [RingBuffer.size]
  rw [Represents] at h
  split_ifs at h ⊢
  · rw [h.length_data]
  · rw [h.2.1, h.1]

theorem Represents.perm (h : Represents size b history) : b.data.Perm (history.rtake size) := by
  rw [Represents] at h
  split_ifs at h
  · exact h.perm
  · rw [h.1, List.rtake, Nat.sub_eq_zero_of_le h.2.2.le, List.drop_zero]

theorem Represents.data_ne_nil (h : Represents size b history) (hne : history ≠ []) :
    b.data ≠ [] := by
  rw [Represents] at h
  split_ifs at h
  · apply List.ne_nil_of_length_pos
    rw [h.length_data]
    exact Nat.zero_lt_of_lt h.cursor_lt
  · rw [h.1]
    exact hne

/-- The average of the buffer is that of its window. -/
theorem Represents.avg (h : Represents size b history) (hne : history ≠ []) :
    b.avg size = some (mean (window size history)) := by
  rw [RingBuffer.avg, if_neg (h.data_ne_nil hne), h.size_eq, mean, window_natCast, h.perm.sum_eq,
    h.perm.length_eq]

end Window
end Aion.VarDiff
