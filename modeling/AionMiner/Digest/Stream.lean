import Mathlib.Data.List.TakeDrop
import Mathlib.Order.Nat

/-! Hash functions that compress a message block by block and close with its last block. -/

namespace Aion.Digest
variable {σ β : Type*}

/-- `compress` takes the chaining value, a block, how many symbols there are up to the end of the
block, and whether it is the last one. -/
structure Mode (σ β : Type*) where
  size : ℕ
  size_pos : 0 < size
  zero : β
  compress : σ → List β → ℕ → Bool → σ

namespace Mode
variable (M : Mode σ β) (start : σ) (msg : List β)

/-- The chaining value behind the first `k` blocks. -/
def after : ℕ → σ
  | 0 => start
  | k + 1 => M.compress (after k) ((msg.drop (k * M.size)).take M.size) ((k + 1) * M.size) false

/-- The last block is empty for the empty message only. -/
def lastIndex (len : ℕ) : ℕ := (len - 1) / M.size

def padded (block : List β) : List β := block ++ List.replicate (M.size - block.length) M.zero

def finish : σ :=
  let k := M.lastIndex msg.length
  M.compress (M.after start msg k) (M.padded (msg.drop (k * M.size))) msg.length true

variable {M start msg}

theorem after_append (rest : List β) {k : ℕ} (hk : k * M.size ≤ msg.length) :
    M.after start (msg ++ rest) k = M.after start msg k := by
  induction k with
  | zero => rfl
  | succ k ih =>
    rw [Nat.succ_mul] at hk
    rw [after, after, ih (by omega), List.drop_append_of_le_length (by omega),
      List.take_append_of_le_length (by rw [List.length_drop]; omega)]

theorem lastIndex_eq {len k : ℕ} (hle : k * M.size ≤ len) (hlast : len - k * M.size ≤ M.size)
    (hne : 0 < k → k * M.size < len) : M.lastIndex len = k := by
  unfold lastIndex
  rcases Nat.eq_zero_or_pos len with rfl | hlen
  · rcases Nat.eq_zero_or_pos k with rfl | hk
    · exact Nat.zero_div _
    · exact absurd (hne hk) (Nat.not_lt_zero _)
  · have hlt : k * M.size < len := by
      rcases Nat.eq_zero_or_pos k with rfl | hk
      · rwa [Nat.zero_mul]
      · exact hne hk
    apply Nat.div_eq_of_lt_le
    · omega
    · rw [Nat.succ_mul]
      omega

theorem after_congr {M' : Mode σ β} (hsize : M'.size = M.size) {bound : ℕ}
    (h : ∀ s block t, t ≤ bound → ∀ last, M'.compress s block t last = M.compress s block t last)
    {k : ℕ} (hk : k * M.size ≤ bound) : M'.after start msg k = M.after start msg k := by
  induction k with
  | zero => rfl
  | succ k ih =>
    have hle : k * M.size ≤ (k + 1) * M.size := Nat.mul_le_mul_right _ (Nat.le_succ k)
    rw [after, after, ih (hle.trans hk), hsize, h _ _ _ hk]

/-- A mode that counts correctly up to a bound hashes messages up to that length correctly. -/
theorem finish_congr {M' : Mode σ β} (hsize : M'.size = M.size) (hzero : M'.zero = M.zero)
    (h : ∀ s block t, t ≤ msg.length → ∀ last,
      M'.compress s block t last = M.compress s block t last) :
    M'.finish start msg = M.finish start msg := by
  have hk : (msg.length - 1) / M.size * M.size ≤ msg.length :=
    (Nat.div_mul_le_self _ _).trans (Nat.sub_le _ _)
  unfold finish lastIndex padded
  rw [hsize, hzero]
  dsimp only
  rw [h _ _ _ (Nat.le_refl _), after_congr hsize h hk]

end Mode

/-- `h` is the chaining value behind the first `k` blocks and `tail` what is left of the message. -/
structure Holds (M : Mode σ β) (start : σ) (msg : List β) (k : ℕ) (h : σ) (tail : List β) : Prop where
  chain : h = M.after start msg k
  rest : tail = msg.drop (k * M.size)
  le : k * M.size ≤ msg.length

namespace Holds
variable {M : Mode σ β} {start : σ} {msg : List β} {k : ℕ} {h : σ} {tail : List β}

theorem nil (M : Mode σ β) (start : σ) : Holds M start [] 0 start [] where
  chain := rfl
  rest := List.drop_nil.symm
  le := by rw [Nat.zero_mul]; exact Nat.zero_le _

theorem length (hold : Holds M start msg k h tail) : msg.length = k * M.size + tail.length := by
  have hle := hold.le
  rw [hold.rest, List.length_drop]
  omega

theorem append (hold : Holds M start msg k h tail) (data : List β) :
    Holds M start (msg ++ data) k h (tail ++ data) where
  chain := hold.chain.trans (Mode.after_append data hold.le).symm
  rest := by rw [hold.rest, List.drop_append_of_le_length hold.le]
  le := hold.le.trans (by rw [List.length_append]; exact Nat.le_add_right _ _)

theorem compress (hold : Holds M start msg k h tail) (hlen : M.size ≤ tail.length) :
    Holds M start msg (k + 1) (M.compress h (tail.take M.size) ((k + 1) * M.size) false)
      (tail.drop M.size) where
  chain := by rw [Mode.after, hold.chain, hold.rest]
  rest := by rw [hold.rest, List.drop_drop, Nat.succ_mul, Nat.add_comm]
  le := by
    have := hold.length
    rw [Nat.succ_mul]
    omega

theorem finish (hold : Holds M start msg k h tail) (hlen : tail.length ≤ M.size)
    (hne : 0 < k → 0 < tail.length) :
    M.compress h (M.padded tail) msg.length true = M.finish start msg := by
  have hindex : M.lastIndex msg.length = k := by
    have := hold.length
    apply Mode.lastIndex_eq hold.le (by omega)
    intro hk
    have := hne hk
    omega
  rw [Mode.finish, hindex, hold.chain, hold.rest]

end Holds

end Aion.Digest
