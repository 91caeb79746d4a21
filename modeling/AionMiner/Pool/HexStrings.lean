import AionMiner.Pool.Js

/-! What `isHexString` accepts: pairs of hex digits, but also a minus sign before a digit that is not zero. -/

namespace Aion.Pool
open Text

section Pairs

def hexPair (c d : CodeUnit) : Bool := (hexValue c).isSome && (hexValue d).isSome

/-- A negative number of one digit. -/
def signedPair (c d : CodeUnit) : Bool := c == unit '-' && (hexValue d).any (· != 0)

def hexPairs : Str → Bool
  | [] => true
  | [_] => false
  | c :: d :: s => (hexPair c d || signedPair c d) && hexPairs s

theorem hexValue_lowerUnit (c : CodeUnit) : hexValue (lowerUnit c) = hexValue c := by
  by_cases hc : 65 ≤ c.toNat ∧ c.toNat ≤ 90
  · have hlower : (lowerUnit c).toNat = c.toNat + 32 := by
      rw [lowerUnit, if_pos hc, BitVec.toNat_add]
      exact Nat.mod_eq_of_lt (by simp; omega)
    simp only [hexValue, hlower]
    split_ifs <;> first | omega | rfl
  · rw [lowerUnit, if_neg hc]

theorem hexValue_eq_some {c : CodeUnit} {n : ℕ} (h : hexValue c = some n) :
    n < 16 ∧ ((48 ≤ c.toNat ∧ c.toNat ≤ 57 ∧ n = c.toNat - 48) ∨ (97 ≤ c.toNat ∧ c.toNat ≤ 102 ∧ n = c.toNat - 87) ∨
      (65 ≤ c.toNat ∧ c.toNat ≤ 70 ∧ n = c.toNat - 55)) := by
  unfold hexValue at h
  split_ifs at h with h₁ h₂ h₃ <;> cases h
  · exact ⟨by omega, .inl ⟨h₁.1, h₁.2, rfl⟩⟩
  · exact ⟨by omega, .inr (.inl ⟨h₂.1, h₂.2, rfl⟩)⟩
  · exact ⟨by omega, .inr (.inr ⟨h₃.1, h₃.2, rfl⟩)⟩

theorem toNat_hexDigit {n : ℕ} (hn : n < 16) :
    (hexDigit n).toNat = if n < 10 then 48 + n else 87 + n := by
  rw [hexDigit, BitVec.toNat_ofNat]
  apply Nat.mod_eq_of_lt
  split_ifs <;> omega

theorem lowerUnit_of_hexValue {c : CodeUnit} {n : ℕ} (h : hexValue c = some n) :
    lowerUnit c = hexDigit n := by
  obtain ⟨hn, hc⟩ := hexValue_eq_some h
  apply BitVec.eq_of_toNat_eq
  rw [toNat_hexDigit hn, lowerUnit]
  obtain ⟨hlow, hhigh, rfl⟩ | ⟨hlow, hhigh, rfl⟩ | ⟨hlow, hhigh, rfl⟩ := hc
  · rw [if_neg (by omega), if_pos (by omega)]
    omega
  · rw [if_neg (by omega), if_neg (by omega)]
    omega
  · rw [if_pos (by omega), if_neg (by omega), BitVec.toNat_add]
    simp only [BitVec.reduceToNat]
    omega

theorem lowerUnit_eq_minus {c : CodeUnit} (h : lowerUnit c = unit '-') : c = unit '-' := by
  unfold lowerUnit at h
  split_ifs at h with hc
  · have hnat := congrArg BitVec.toNat h
    rw [BitVec.toNat_add, unit, BitVec.toNat_ofNat] at hnat
    simp only [BitVec.reduceToNat, Char.reduceToNat] at hnat
    omega
  · exact h

end Pairs

section Written

theorem exists_of_mem_toDigits {n : ℕ} {c : Char} (hc : c ∈ Nat.toDigits 16 n) :
    ∃ d < 16, c = Nat.digitChar d := by
  induction n using Nat.strongRecOn with
  | ind n ih =>
    rcases Nat.lt_or_ge n 16 with hlt | hge
    · rw [Nat.toDigits_of_lt_base hlt, List.mem_singleton] at hc
      exact ⟨n, hlt, hc⟩
    · rw [Nat.toDigits_of_base_le (by decide) hge, List.mem_append, List.mem_singleton] at hc
      rcases hc with hc | rfl
      · exact ih _ (by omega) hc
      · exact ⟨_, Nat.mod_lt n (by decide), rfl⟩

theorem lowerUnit_digitChar : ∀ d < 16, lowerUnit (unit (Nat.digitChar d)) = hexDigit d := by decide

/-- A number is written with hex digits and a minus sign. -/
theorem mem_toString16 {n : ℤ} {c : CodeUnit} (hc : c ∈ (toString16 (some n)).map lowerUnit) :
    c = unit '-' ∨ ∃ d < 16, c = hexDigit d := by
  obtain ⟨e, he, rfl⟩ := List.mem_map.mp hc
  rcases List.mem_append.mp he with he | he
  · split_ifs at he
    · rw [List.mem_singleton.mp he]
      exact .inl (by decide)
    · exact absurd he List.not_mem_nil
  · obtain ⟨ch, hch, rfl⟩ := List.mem_map.mp he
    obtain ⟨d, hd, rfl⟩ := exists_of_mem_toDigits hch
    exact .inr ⟨d, hd, lowerUnit_digitChar d hd⟩

theorem exists_of_isHex {c d e : CodeUnit} (h : isHex [c, d] = true) (he : e ∈ [c, d]) :
    e = unit '-' ∨ ∃ n < 16, e = hexDigit n := by
  unfold isHex at h
  rw [beq_iff_eq] at h
  cases ha : parseInt [c, d] with
  | none =>
    -- `0nan` has four characters
    rw [ha] at h
    have hlen := congrArg List.length h
    cases hlen
  | some n =>
    rw [← h, ha] at he
    split_ifs at he
    · rcases List.mem_cons.mp he with rfl | he
      · exact .inr ⟨0, by decide, rfl⟩
      · exact mem_toString16 he
    · exact mem_toString16 he

theorem isHex_minus : ∀ y < 16, isHex [unit '-', hexDigit y] = (y != 0) := by decide

theorem isHex_digit_minus : ∀ x < 16, isHex [hexDigit x, unit '-'] = false := by decide

/-- The test of one pair, by what the two characters are before they are lowered. -/
theorem isHex_lowerUnit (c d : CodeUnit) :
    isHex [lowerUnit c, lowerUnit d] = (hexPair c d || signedPair c d) := by
  have hother : ∀ {e : CodeUnit}, hexValue e = none → (∃ n < 16, lowerUnit e = hexDigit n) →
      False := by
    rintro e he ⟨n, hn, hlower⟩
    rw [← hexValue_lowerUnit, hlower, hexValue_hexDigit hn] at he
    cases he
  cases hc : hexValue c with
  | some x =>
    have hx := (hexValue_eq_some hc).1
    cases hd : hexValue d with
    | some y =>
      rw [lowerUnit_of_hexValue hc, lowerUnit_of_hexValue hd,
        isHex_hexDigit x hx y (hexValue_eq_some hd).1]
      simp [hexPair, hc, hd]
    | none =>
      have hright : (hexPair c d || signedPair c d) = false := by simp [hexPair, signedPair, hd]
      rw [hright, ← Bool.not_eq_true]
      intro hhex
      rcases exists_of_isHex hhex (List.mem_cons_of_mem _ (List.mem_singleton_self _)) with hminus | hdigit
      · rw [lowerUnit_of_hexValue hc, hminus, isHex_digit_minus x hx] at hhex
        cases hhex
      · exact hother hd hdigit
  | none =>
    by_cases hminus : c = unit '-'
    · subst hminus
      have hlower : lowerUnit (unit '-') = unit '-' := by decide
      rw [hlower]
      cases hd : hexValue d with
      | some y =>
        rw [lowerUnit_of_hexValue hd, isHex_minus y (hexValue_eq_some hd).1]
        simp [hexPair, signedPair, hc, hd]
      | none =>
        have hright : (hexPair (unit '-') d || signedPair (unit '-') d) =
            false := by simp [hexPair, signedPair, hd]
        rw [hright, ← Bool.not_eq_true]
        intro hhex
        rcases exists_of_isHex hhex (List.mem_cons_of_mem _ (List.mem_singleton_self _)) with hd' | hdigit
        · rw [hd'] at hhex
          revert hhex
          decide
        · exact hother hd hdigit
    · have hright : (hexPair c d || signedPair c d) = false := by simp [hexPair, signedPair, hc, hminus]
      rw [hright, ← Bool.not_eq_true]
      intro hhex
      rcases exists_of_isHex hhex List.mem_cons_self with hc' | hdigit
      · exact hminus (lowerUnit_eq_minus hc')
      · exact hother hc hdigit

end Written

section Accepted

theorem allHex_map_lowerUnit (s : Str) :
    allHex (s.map lowerUnit) = true ∧ s.length % 2 = 0 ↔ hexPairs s = true := by
  induction s using hexPairs.induct with
  | case1 => simp [allHex, hexPairs]
  | case2 c => simp [hexPairs]
  | case3 c d s ih =>
    rw [List.map_cons, List.map_cons, allHex, isHex_lowerUnit, hexPairs, Bool.and_eq_true,
      Bool.and_eq_true, ← ih]
    simp only [List.length_cons]
    rw [and_assoc]
    refine and_congr Iff.rfl (and_congr Iff.rfl ?_)
    omega

theorem mem_of_allHex {s : Str} (hs : allHex s = true) (heven : s.length % 2 = 0) {e : CodeUnit}
    (he : e ∈ s) : e = unit '-' ∨ ∃ n < 16, e = hexDigit n := by
  induction s using hexPairs.induct with
  | case1 => exact absurd he List.not_mem_nil
  | case2 c => cases heven
  | case3 c d s ih =>
    rw [allHex, Bool.and_eq_true] at hs
    rcases List.mem_append.mp (show e ∈ [c, d] ++ s from he) with he | he
    · exact exists_of_isHex hs.1 he
    · simp only [List.length_cons] at heven
      exact ih hs.2 (by omega) he

theorem toNat_lt_of_hexValue {c : CodeUnit} (h : (hexValue c).isSome) : c.toNat < 128 := by
  obtain ⟨n, hn⟩ := Option.isSome_iff_exists.mp h
  have := (hexValue_eq_some hn).2
  omega

/-- The characters of accepted pairs. -/
theorem mem_of_hexPairs {s : Str} (hs : hexPairs s = true) {e : CodeUnit} (he : e ∈ s) :
    e = unit '-' ∨ (hexValue e).isSome := by
  induction s using hexPairs.induct with
  | case1 => exact absurd he List.not_mem_nil
  | case2 c => simp [hexPairs] at hs
  | case3 c d s ih =>
    rw [hexPairs, Bool.and_eq_true, Bool.or_eq_true] at hs
    rcases List.mem_append.mp (show e ∈ [c, d] ++ s from he) with he | he
    · rcases hs.1 with hpair | hpair
      · rw [hexPair, Bool.and_eq_true] at hpair
        simp only [List.mem_cons, List.not_mem_nil, or_false] at he
        rcases he with rfl | rfl
        · exact .inr hpair.1
        · exact .inr hpair.2
      · rw [signedPair, Bool.and_eq_true, beq_iff_eq] at hpair
        simp only [List.mem_cons, List.not_mem_nil, or_false] at he
        rcases he with rfl | rfl
        · exact .inl hpair.1
        · cases hd : hexValue e with
          | none => rw [hd] at hpair; cases hpair.2
          | some n => exact .inr rfl
    · exact ih hs.2 he

/-- The only ASCII that lower-casing makes of other characters is the `k` of a Kelvin sign and the
`i` under a dot. -/
def LowersBeyondAscii (unicodeLower : Str → Str) : Prop :=
  ∀ s, (∃ c ∈ s, 128 ≤ c.toNat) → ∃ c ∈ unicodeLower s, 128 ≤ c.toNat ∨ c = unit 'k'

variable {unicodeLower : Str → Str}

theorem isHexString_iff_hexPairs (hlower : LowersBeyondAscii unicodeLower) (s : Str) :
    isHexString unicodeLower s = true ↔ hexPairs s = true := by
  unfold isHexString
  dsimp only
  by_cases hascii : s.all fun c => c.toNat < 128
  · rw [toLowerCase, if_pos hascii, List.length_map, ← allHex_map_lowerUnit]
    split_ifs with hodd
    · exact iff_of_false not_false fun h => absurd h.2 (by omega)
    · exact (and_iff_left (by omega)).symm
  · -- neither the lowered string nor the string itself is made of hex digits and minus signs
    rw [toLowerCase, if_neg hascii]
    simp only [List.all_eq_true, decide_eq_true_eq, not_forall, Nat.not_lt] at hascii
    obtain ⟨c, hc, hhigh⟩ := hascii
    obtain ⟨e, he, hother⟩ := hlower s ⟨c, hc, hhigh⟩
    apply iff_of_false
    · split_ifs with hodd
      · exact not_false
      · intro hhex
        have hlow : e.toNat < 128 ∧ e ≠ unit 'k' := by
          rcases mem_of_allHex hhex (by omega) he with rfl | ⟨n, hn, rfl⟩
          · decide
          · exact ⟨hexDigit_lt hn, (by decide : ∀ n < 16, hexDigit n ≠ unit 'k') n hn⟩
        rcases hother with hother | hother
        · omega
        · exact hlow.2 hother
    · intro hpairs
      rcases mem_of_hexPairs hpairs hc with rfl | hdigit
      · revert hhigh
        decide
      · exact absurd (toNat_lt_of_hexValue hdigit) (by omega)

theorem lowersBeyondAscii_id : LowersBeyondAscii id := fun _ ⟨c, hc, hhigh⟩ => ⟨c, hc, .inl hhigh⟩

theorem hexPairs_of_isHexDigits {s : Str} (heven : s.length % 2 = 0) (hs : IsHexDigits s) :
    hexPairs s = true := by
  induction s using hexPairs.induct with
  | case1 => rfl
  | case2 c => cases heven
  | case3 c d s ih =>
    simp only [List.length_cons] at heven
    rw [hexPairs, hexPair, hs c (by simp), hs d (by simp), ih (by omega) fun e he => hs e (by simp [he])]
    rfl

/-- `isHexString` is right, except on pairs of which some are a minus sign and a digit. -/
theorem isHexString_exact_iff (hlower : LowersBeyondAscii unicodeLower) (s : Str) :
    (isHexString unicodeLower s = true ↔ s.length % 2 = 0 ∧ IsHexDigits s) ↔
      ¬(hexPairs s = true ∧ unit '-' ∈ s) := by
  rw [isHexString_iff_hexPairs hlower]
  constructor
  · rintro hexact ⟨hpairs, hminus⟩
    have := (hexact.mp hpairs).2 _ hminus
    revert this
    decide
  · intro hplain
    refine ⟨fun hpairs => ⟨((allHex_map_lowerUnit s).mpr hpairs).2, ?_⟩,
      fun h => hexPairs_of_isHexDigits h.1 h.2⟩
    intro c hc
    rcases mem_of_hexPairs hpairs hc with rfl | hdigit
    · exact absurd ⟨hpairs, hc⟩ hplain
    · exact hdigit

/-- `0F` among strings that have no capital letters beyond ASCII. -/
theorem isHexString_exact_digits :
    (isHexString id [unit '0', unit 'F'] = true ↔
        [unit '0', unit 'F'].length % 2 = 0 ∧ IsHexDigits [unit '0', unit 'F']) ↔
      ¬(hexPairs [unit '0', unit 'F'] = true ∧ unit '-' ∈ [unit '0', unit 'F']) :=
  isHexString_exact_iff lowersBeyondAscii_id [unit '0', unit 'F']

theorem minus_digit_accepted :
    ¬(isHexString id [unit '-', unit 'a'] = true ↔
      [unit '-', unit 'a'].length % 2 = 0 ∧ IsHexDigits [unit '-', unit 'a']) := by
  intro hexact
  have hpairs : isHexString id [unit '-', unit 'a'] = true :=
    (isHexString_iff_hexPairs lowersBeyondAscii_id _).mpr (by decide)
  have hdigit := (hexact.mp hpairs).2 _ List.mem_cons_self
  revert hdigit
  decide

end Accepted
end Aion.Pool
