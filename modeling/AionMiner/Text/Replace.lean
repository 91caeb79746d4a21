import Mathlib.Data.List.Infix

/-! Replacing every occurrence of a pattern, from left to right. -/

namespace Aion.Text

variable {α : Type} [DecidableEq α]

/-- The first number counts the letters of an occurrence that are still to be passed over. -/
def replaceFrom (old new : List α) : ℕ → List α → List α
  | _, [] => []
  | skip + 1, _ :: s => replaceFrom old new skip s
  | 0, c :: s =>
    if old <+: c :: s then new ++ replaceFrom old new (old.length - 1) s
    else c :: replaceFrom old new 0 s

/-- `s.replace(/old/g, new)`. -/
def replaceAll (old new s : List α) : List α := replaceFrom old new 0 s

section Equations
variable {old new : List α}

theorem replaceFrom_eq (skip : ℕ) (s : List α) :
    replaceFrom old new skip s = replaceAll old new (s.drop skip) := by
  induction s generalizing skip with
  | nil => simp [replaceFrom, replaceAll]
  | cons c s ih =>
    cases skip with
    | zero => rfl
    | succ skip => rw [replaceFrom, ih, List.drop_succ_cons]

@[simp] theorem replaceAll_nil : replaceAll old new [] = [] := rfl

theorem replaceAll_match (hne : old ≠ []) (s : List α) :
    replaceAll old new (old ++ s) = new ++ replaceAll old new s := by
  cases old with
  | nil => exact absurd rfl hne
  | cons c old =>
    have hstart : c :: old <+: c :: (old ++ s) := List.prefix_append (c :: old) s
    rw [List.cons_append, replaceAll, replaceFrom, if_pos hstart, replaceFrom_eq, List.length_cons,
      Nat.add_sub_cancel, List.drop_left]

theorem replaceAll_cons {c : α} {s : List α} (h : ¬old <+: c :: s) :
    replaceAll old new (c :: s) = c :: replaceAll old new s := by
  rw [replaceAll, replaceFrom, if_neg h]
  rfl

/-- A text is empty, starts with the pattern, or starts with a letter that is kept. -/
theorem replaceAll_induction (old : List α) (hne : old ≠ []) {P : List α → Prop} (nil : P [])
    (found : ∀ s, P s → P (old ++ s)) (kept : ∀ c s, ¬old <+: c :: s → P s → P (c :: s))
    (s : List α) : P s := by
  induction hn : s.length using Nat.strong_induction_on generalizing s with
  | _ n ih =>
    subst hn
    cases s with
    | nil => exact nil
    | cons c s =>
      by_cases hstart : old <+: c :: s
      · obtain ⟨rest, hrest⟩ := hstart
        have hlen := congrArg List.length hrest
        have hpos := List.length_pos_iff.mpr hne
        rw [List.length_append] at hlen
        rw [← hrest]
        exact found rest (ih rest.length (by omega) rest rfl)
      · exact kept c s hstart (ih s.length (Nat.lt_succ_self _) s rfl)

theorem replaceAll_of_not_infix {s : List α} (h : ¬old <:+: s) : replaceAll old new s = s := by
  induction s with
  | nil => rfl
  | cons c s ih =>
    rw [List.infix_cons_iff, not_or] at h
    rw [replaceAll_cons h.1, ih h.2]

end Equations

section Fresh
variable {x y z : α} {old new : List α}

/-- Words without the first letter of the pattern are found where they were. -/
theorem prefix_replaceAll_iff {q : List α} (hq : x ∉ q) (s : List α) :
    q <+: replaceAll (x :: old) (x :: new) s ↔ q <+: s := by
  induction q generalizing s with
  | nil => simp
  | cons a q ih =>
    have hne : a ≠ x := fun h => hq (h ▸ List.mem_cons_self)
    cases s with
    | nil => rfl
    | cons c s =>
      by_cases hstart : x :: old <+: c :: s
      · obtain ⟨rest, hrest⟩ := hstart
        rw [← hrest, replaceAll_match (List.cons_ne_nil _ _)]
        simp only [List.cons_append, List.cons_prefix_cons]
        exact iff_of_false (fun h => hne h.1) fun h => hne h.1
      · rw [replaceAll_cons hstart, List.cons_prefix_cons, List.cons_prefix_cons,
          ih fun h => hq (List.mem_cons_of_mem _ h)]

theorem prefix_cons_replaceAll_iff {q : List α} (hq : x ∉ q) (c : α) (s : List α) :
    x :: q <+: c :: replaceAll (x :: old) (x :: new) s ↔ x :: q <+: c :: s := by
  rw [List.cons_prefix_cons, List.cons_prefix_cons, prefix_replaceAll_iff hq]

omit [DecidableEq α] in
/-- What replaces the pattern is no part of a word that goes on otherwise after its first letter. -/
theorem infix_new_iff {q : List α} (hxz : x ≠ z) (hyz : y ≠ z) (s : List α) :
    x :: y :: q <:+: [x, z] ++ s ↔ x :: y :: q <:+: s := by
  rw [List.cons_append, List.singleton_append, List.infix_cons_iff, List.infix_cons_iff]
  simp only [List.cons_prefix_cons, hxz, hyz, false_and, and_false, false_or]

theorem not_infix_replaceAll (hxz : x ≠ z) (hyz : y ≠ z) (hold : x ∉ y :: old) (s : List α) :
    ¬x :: y :: old <:+: replaceAll (x :: y :: old) [x, z] s := by
  induction s using replaceAll_induction (x :: y :: old) (List.cons_ne_nil _ _) with
  | nil => simp
  | found s ih =>
    rw [replaceAll_match (List.cons_ne_nil _ _), infix_new_iff hxz hyz]
    exact ih
  | kept c s hstart ih =>
    rw [replaceAll_cons hstart, List.infix_cons_iff, prefix_cons_replaceAll_iff hold]
    exact not_or.mpr ⟨hstart, ih⟩

/-- A second pass finds nothing. -/
theorem replaceAll_replaceAll (hxz : x ≠ z) (hyz : y ≠ z) (hold : x ∉ y :: old) (s : List α) :
    replaceAll (x :: y :: old) [x, z] (replaceAll (x :: y :: old) [x, z] s) =
      replaceAll (x :: y :: old) [x, z] s :=
  replaceAll_of_not_infix (not_infix_replaceAll hxz hyz hold s)

omit [DecidableEq α] in
theorem suffix_of_first {t s : List α} (hold : x ∉ old) (ht : t <:+ old ++ s) (hfirst : [x] <+: t) :
    t <:+ s := by
  induction old with
  | nil => exact ht
  | cons a old ih =>
    rw [List.cons_append, List.suffix_cons_iff] at ht
    rcases ht with rfl | ht
    · rw [List.cons_prefix_cons] at hfirst
      exact absurd (hfirst.1 ▸ List.mem_cons_self) hold
    · exact ih (fun h => hold (List.mem_cons_of_mem _ h)) ht

/-- Of a word that the pattern continues, the occurrences stay that do not go on like the pattern. -/
theorem infix_replaceAll_iff {q : List α} (hxz : x ≠ z) (hyz : y ≠ z) (hold : x ∉ y :: old)
    (hq : q <+: old) (s : List α) : x :: y :: q <:+: replaceAll (x :: y :: old) [x, z] s ↔
      ∃ t, t <:+ s ∧ x :: y :: q <+: t ∧ ¬x :: y :: old <+: t := by
  have hword : x ∉ y :: q := fun h => hold ((List.cons_prefix_cons.mpr ⟨rfl, hq⟩).subset h)
  induction s using replaceAll_induction (x :: y :: old) (List.cons_ne_nil _ _) with
  | nil =>
    refine iff_of_false (by simp) ?_
    rintro ⟨t, ht, hbegins, -⟩
    rw [List.suffix_nil.mp ht] at hbegins
    exact absurd (List.prefix_nil.mp hbegins) (List.cons_ne_nil _ _)
  | found s ih =>
    rw [replaceAll_match (List.cons_ne_nil _ _), infix_new_iff hxz hyz]
    refine Iff.trans ih ?_
    constructor
    · rintro ⟨t, ht, h⟩
      exact ⟨t, ht.trans (List.suffix_append ..), h⟩
    · rintro ⟨t, ht, hbegins, hother⟩
      refine ⟨t, ?_, hbegins, hother⟩
      rw [List.cons_append, List.suffix_cons_iff] at ht
      rcases ht with rfl | ht
      · exact absurd (List.prefix_append (x :: y :: old) s) hother
      · exact suffix_of_first hold ht ((List.cons_prefix_cons.mpr ⟨rfl, List.nil_prefix⟩).trans hbegins)
  | kept c s hstart ih =>
    rw [replaceAll_cons hstart, List.infix_cons_iff, prefix_cons_replaceAll_iff hword]
    refine (or_congr_right ih).trans ?_
    constructor
    · rintro (hbegins | ⟨t, ht, hbegins, hother⟩)
      · exact ⟨c :: s, List.suffix_refl _, hbegins, hstart⟩
      · exact ⟨t, List.suffix_cons_iff.mpr (.inr ht), hbegins, hother⟩
    · rintro ⟨t, ht, hbegins, hother⟩
      rcases List.suffix_cons_iff.mp ht with rfl | ht
      · exact .inl hbegins
      · exact .inr ⟨t, ht, hbegins, hother⟩

end Fresh
end Aion.Text
