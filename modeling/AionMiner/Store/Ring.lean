import Mathlib.Data.List.DropRight
import Mathlib.Data.List.Rotate

/-! A list of fixed length whose oldest entry is overwritten, as the end of all that was written. -/

namespace Aion.Store.Ring

section Lists
variable {α : Type*}

theorem rotate_set (data : List α) {cursor : ℕ} (h : cursor < data.length) (x : α) :
    (data.set cursor x).rotate (cursor + 1) = (data.rotate cursor).tail ++ [x] := by
  have hlen : (data.take cursor).length = cursor := List.length_take_of_le (Nat.le_of_lt h)
  rw [List.rotate_eq_drop_append_take (Nat.le_of_lt h),
    List.rotate_eq_drop_append_take (by rw [List.length_set]; exact h), List.drop_eq_getElem_cons h,
    List.cons_append, List.tail_cons, List.drop_set_of_lt (Nat.lt_succ_self cursor),
    List.append_assoc]
  apply congrArg
  rw [List.take_set, List.take_succ_eq_append_getElem h, List.set_append_right _ _ (by rw [hlen]),
    hlen, Nat.sub_self, List.set_cons_zero]

theorem rtake_append_singleton {history : List α} {size : ℕ} (hpos : 0 < size)
    (h : size ≤ history.length) (x : α) :
    (history ++ [x]).rtake size = (history.rtake size).tail ++ [x] := by
  obtain ⟨n, rfl⟩ := Nat.exists_eq_succ_of_ne_zero (Nat.pos_iff_ne_zero.mp hpos)
  rw [List.rtake_concat_succ, List.rtake, List.rtake, List.tail_drop]
  apply congrArg fun m => history.drop m ++ [x]
  omega

end Lists

/-- Read from the cursor on, the entries are the last ones of the history. -/
structure Holds {α : Type*} (size : ℕ) (data : List α) (cursor : ℕ) (history : List α) : Prop where
  length_data : data.length = size
  cursor_lt : cursor < size
  le_history : size ≤ history.length
  rotate : data.rotate cursor = history.rtake size

section Holds
variable {α : Type*} {size cursor : ℕ} {data history : List α}

theorem holds_self (h : 0 < data.length) : Holds data.length data 0 data where
  length_data := rfl
  cursor_lt := h
  le_history := le_rfl
  rotate := by rw [List.rotate_zero, List.rtake, Nat.sub_self, List.drop_zero]

theorem Holds.write (h : Holds size data cursor history) (x : α) :
    Holds size (data.set cursor x) ((cursor + 1) % size) (history ++ [x]) where
  length_data := (List.length_set ..).trans h.length_data
  cursor_lt := Nat.mod_lt _ (Nat.zero_lt_of_lt h.cursor_lt)
  le_history := by
    rw [List.length_append]
    exact h.le_history.trans (Nat.le_add_right _ _)
  rotate := by
    have hlen : (data.set cursor x).length = size := (List.length_set ..).trans h.length_data
    have hlt : cursor < data.length := h.length_data.symm ▸ h.cursor_lt
    rw [rtake_append_singleton (Nat.zero_lt_of_lt h.cursor_lt) h.le_history, ← h.rotate,
      ← rotate_set data hlt, ← hlen, List.rotate_mod]

theorem Holds.perm (h : Holds size data cursor history) : data.Perm (history.rtake size) :=
  h.rotate ▸ (List.rotate_perm data cursor).symm

end Holds
end Aion.Store.Ring
