import AionMiner.Stratum.Harmless

/-! The shares that `considerBan` counts: all of a connection, as its reset is lost. -/

namespace Aion.Stratum
open Text Pool

section Windows
variable (b : Banning)

def overLimit (shares : List Bool) : Bool := !b.lenient (shares.count false) shares.length

def ShouldBan (shares : List Bool) : Prop := b.checkThreshold ≤ shares.length ∧ overLimit b shares = true

instance (shares : List Bool) : Decidable (ShouldBan b shares) := inferInstanceAs (Decidable (_ ∧ _))

/-- One more share in the window; it starts anew when the threshold is reached without a ban. -/
def nextWindow (window : List Bool) (shareValid : Bool) : List Bool :=
  let window := window ++ [shareValid]
  if b.checkThreshold ≤ window.length ∧ overLimit b window = false then [] else window

def sinceReset (past : List Bool) : List Bool := past.foldl (nextWindow b) []

theorem sinceReset_concat (past : List Bool) (shareValid : Bool) :
    sinceReset b (past ++ [shareValid]) = nextWindow b (sinceReset b past) shareValid := by
  rw [sinceReset, List.foldl_append]
  rfl

theorem sinceReset_cases (past : List Bool) :
    sinceReset b past = past ∨ b.checkThreshold ≤ past.length := by
  induction past using List.reverseRecOn with
  | nil => exact .inl rfl
  | append_singleton past shareValid ih =>
    rw [List.length_append, List.length_singleton]
    rcases ih with ih | ih
    · rw [sinceReset_concat, ih, nextWindow]
      split_ifs with hreset
      · rw [List.length_append, List.length_singleton] at hreset
        exact .inr hreset.1
      · exact .inl rfl
    · exact .inr (Nat.le_succ_of_le ih)

end Windows

section Counts
variable (o : Options) (b : Banning) (c : Client)

/-- The client after a share. When a listener on `triggerBan` throws, the share has been counted before. -/
def afterShare (c : Client) (shareValid : Bool) : Client :=
  match considerBan o shareValid c with
  | some (_, c) => c
  | none => c.counted shareValid

/-- `triggerBan` is emitted, whatever its listener does. -/
def triggersBan (shareValid : Bool) (c : Client) : Bool :=
  match considerBan o shareValid c with
  | some (ban, _) => ban
  | none => true

variable {o b}

theorem afterShare_eq (hb : o.banning = some b) (shareValid : Bool) :
    afterShare o c shareValid = c.counted shareValid := by
  unfold afterShare considerBan
  rw [hb]
  dsimp only
  split_ifs
  · rfl
  · rfl
  · cases (c.counted shareValid).getLabel <;> rfl

theorem triggersBan_iff (hb : o.banning = some b) (shareValid : Bool) :
    triggersBan o shareValid c = true ↔ c.Bans o shareValid := by
  obtain ⟨hinvalid, htotal, -⟩ := counted_eq shareValid c
  unfold triggersBan considerBan Client.Bans
  rw [hb]
  simp only [Option.some.injEq, exists_eq_left']
  rw [← hinvalid, ← htotal]
  split_ifs with hfew hlenient
  · exact iff_of_false not_false fun h => absurd h.1 (Nat.not_le.mpr hfew)
  · exact iff_of_false not_false fun h => absurd h.2 (by rw [hlenient]; decide)
  · refine iff_of_true ?_ ⟨Nat.not_lt.mp hfew, Bool.not_eq_true _ |>.mp hlenient⟩
    cases (c.counted shareValid).getLabel <;> rfl

theorem counts_after (hb : o.banning = some b) (past : List Bool) :
    (past.foldl (afterShare o) c).valid = c.valid + past.count true ∧
      (past.foldl (afterShare o) c).invalid = c.invalid + past.count false := by
  induction past generalizing c with
  | nil => exact ⟨rfl, rfl⟩
  | cons shareValid past ih =>
    obtain ⟨hvalid, hinvalid⟩ := ih (c.counted shareValid)
    rw [List.foldl_cons, afterShare_eq c hb, hvalid, hinvalid]
    cases shareValid
    · exact ⟨rfl, by rw [Client.counted, List.count_cons_self]; exact Nat.add_right_comm ..⟩
    · exact ⟨by rw [Client.counted, List.count_cons_self]; exact Nat.add_right_comm .., rfl⟩

theorem count_add_count (shares : List Bool) :
    shares.count true + shares.count false = shares.length := by
  induction shares with
  | nil => rfl
  | cons shareValid shares ih => cases shareValid <;> simp <;> omega

/-- The code bans by all the shares of the connection. -/
theorem triggersBan_after (hb : o.banning = some b) (hvalid : c.valid = 0)
    (hinvalid : c.invalid = 0) (past : List Bool) (shareValid : Bool) :
    triggersBan o shareValid (past.foldl (afterShare o) c) = true ↔
      ShouldBan b (past ++ [shareValid]) := by
  obtain ⟨hv, hi⟩ := counts_after c hb past
  rw [hvalid, Nat.zero_add] at hv
  rw [hinvalid, Nat.zero_add] at hi
  have hcount : (if shareValid then past.count false else past.count false + 1) =
      (past ++ [shareValid]).count false := by
    rw [List.count_append]
    cases shareValid <;> rfl
  have hlen : past.count true + past.count false + 1 = (past ++ [shareValid]).length := by
    rw [count_add_count, List.length_append, List.length_singleton]
  rw [triggersBan_iff _ hb, Client.Bans, hv, hi, hcount, hlen, ShouldBan, overLimit,
    Bool.not_eq_true']
  simp [hb]

end Counts

section Fresh
variable (o : Options) (b : Banning) (c : Client)

def Client.unused : Client := { c with valid := 0, invalid := 0 }

/-- At every share of a connection, `considerBan` judges the shares since the last reset. -/
def FreshWindow (shares : List Bool) : Prop :=
  ∀ past shareValid, past ++ [shareValid] <+: shares →
    (triggersBan { o with banning := some b } shareValid
        (past.foldl (afterShare { o with banning := some b }) c.unused) = true ↔
      ShouldBan b (sinceReset b past ++ [shareValid]))

/-- It does if, after a reset, all shares are over the limit exactly when those since the reset
demand a ban. -/
theorem freshWindow_iff (shares : List Bool) : FreshWindow o b c shares ↔
    ∀ past shareValid, past ++ [shareValid] <+: shares → sinceReset b past ≠ past →
      (overLimit b (past ++ [shareValid]) = true ↔ ShouldBan b (sinceReset b past ++ [shareValid])) := by
  have hall : ∀ past shareValid, triggersBan { o with banning := some b } shareValid
      (past.foldl (afterShare { o with banning := some b }) c.unused) = true ↔
      ShouldBan b (past ++ [shareValid]) :=
    triggersBan_after c.unused rfl rfl rfl
  unfold FreshWindow
  refine forall₃_congr fun past shareValid _ => ?_
  rw [hall]
  rcases sinceReset_cases b past with hnone | hfull
  · -- no reset yet
    rw [hnone]
    exact iff_of_true Iff.rfl fun h => absurd rfl h
  · by_cases hnone : sinceReset b past = past
    · rw [hnone]
      exact iff_of_true Iff.rfl fun h => absurd rfl h
    · have hthreshold : b.checkThreshold ≤ (past ++ [shareValid]).length := by
        rw [List.length_append]
        exact Nat.le_add_right_of_le hfull
      have hshould : ShouldBan b (past ++ [shareValid]) ↔
          overLimit b (past ++ [shareValid]) = true :=
        and_iff_right hthreshold
      rw [hshould]
      exact ⟨fun h _ => h, fun h => h hnone⟩

def half : Banning where
  checkThreshold := 2
  lenient invalid totalShares := decide (invalid * 100 < 50 * totalShares)

/-- After four valid shares two invalid ones are not enough for a ban. -/
theorem window_forgotten : ¬FreshWindow options half fresh.client [true, true, true, true, false, false] := by
  intro h
  have hlast := h [true, true, true, true, false] false (List.prefix_rfl)
  revert hlast
  decide

end Fresh
end Aion.Stratum
