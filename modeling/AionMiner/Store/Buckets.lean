import Mathlib.Data.List.GetD
import Mathlib.Data.List.Induction
import Mathlib.Data.List.Nodup
import Mathlib.Logic.Function.Basic

/-! Buckets of slots filled through a counter each: a request takes the next
number of its bucket and writes to that slot when the bucket still has room. -/

namespace Aion.Store

structure Buckets (κ γ : Type*) where
  count : κ → ℕ
  slot : κ → ℕ → γ

/-- How requests of type `ρ` are placed: bucket size, modulus of the counters, and per request
its bucket and what it does to its slot. -/
structure Placement (κ γ ρ : Type*) where
  capacity : ℕ
  modulus : ℕ
  key : ρ → κ
  write : ρ → γ → γ

variable {κ γ ρ : Type*} [DecidableEq κ] (P : Placement κ γ ρ)

def Buckets.put (B : Buckets κ γ) (q : ρ) : Buckets κ γ :=
  let n := B.count (P.key q)
  { count := Function.update B.count (P.key q) ((n + 1) % P.modulus)
    slot := if n < P.capacity then
        Function.update B.slot (P.key q)
          (Function.update (B.slot (P.key q)) n (P.write q (B.slot (P.key q) n)))
      else B.slot }

def Buckets.putAll (B : Buckets κ γ) (qs : List ρ) : Buckets κ γ := qs.foldl (Buckets.put P) B

def Placement.at (k : κ) (qs : List ρ) : List ρ := qs.filter fun q => P.key q = k

variable {P}

namespace Buckets

theorem putAll_append_singleton (B : Buckets κ γ) (qs : List ρ) (q : ρ) :
    B.putAll P (qs ++ [q]) = (B.putAll P qs).put P q := by
  rw [putAll, List.foldl_append, List.foldl_cons, List.foldl_nil, putAll]

theorem at_append_singleton (k : κ) (qs : List ρ) (q : ρ) :
    P.at k (qs ++ [q]) = if P.key q = k then P.at k qs ++ [q] else P.at k qs := by
  rw [Placement.at, List.filter_append, Placement.at, List.filter_cons, List.filter_nil]
  by_cases h : P.key q = k
  · rw [if_pos h, if_pos (decide_eq_true h)]
  · rw [if_neg h, if_neg (by rw [decide_eq_false h]; exact Bool.false_ne_true), List.append_nil]

theorem length_at_le (k : κ) (qs : List ρ) :
    (P.at k qs).length ≤ qs.length := List.length_filter_le _ _

theorem slot_put_of_ne (B : Buckets κ γ) (q : ρ) {k : κ} {s : ℕ}
    (h : ¬(P.key q = k ∧ B.count k = s ∧ s < P.capacity)) : (B.put P q).slot k s = B.slot k s := by
  rw [put]
  dsimp only
  split
  · next hn =>
    by_cases hk : P.key q = k
    · subst hk
      rw [Function.update_self, Function.update_of_ne]
      rintro rfl
      exact h ⟨rfl, rfl, hn⟩
    · rw [Function.update_of_ne fun heq => hk heq.symm]
  · rfl

theorem slot_put_self (B : Buckets κ γ) (q : ρ) (h : B.count (P.key q) < P.capacity) :
    (B.put P q).slot (P.key q) (B.count (P.key q)) = P.write q (B.slot (P.key q) (B.count (P.key q))) := by
  rw [put]
  dsimp only
  rw [if_pos h, Function.update_self, Function.update_self]

/-- The counters count the requests, as long as they cannot wrap. -/
theorem count_putAll_add {B : Buckets κ γ} {k : κ} {qs : List ρ}
    (hqs : B.count k + qs.length < P.modulus) :
    (B.putAll P qs).count k = B.count k + (P.at k qs).length := by
  induction qs using List.reverseRecOn with
  | nil => rfl
  | append_singleton qs q ih =>
    rw [List.length_append, List.length_singleton] at hqs
    have ih := ih (by omega)
    have hle := length_at_le (P := P) k qs
    rw [putAll_append_singleton, at_append_singleton, put]
    dsimp only
    by_cases hk : P.key q = k
    · subst hk
      rw [if_pos rfl, Function.update_self, ih, List.length_append, List.length_singleton,
        Nat.mod_eq_of_lt (by omega), Nat.add_assoc]
    · rw [if_neg hk, Function.update_of_ne fun heq => hk heq.symm, ih]

/-- Request number `m` for a bucket is written `m` slots behind what the bucket held, and nothing else is. -/
theorem slot_putAll_add {B : Buckets κ γ} {k : κ} {qs : List ρ}
    (hqs : B.count k + qs.length < P.modulus) (s : ℕ) : (B.putAll P qs).slot k s =
      if B.count k ≤ s ∧ s < P.capacity then
        match (P.at k qs)[s - B.count k]? with
        | some q => P.write q (B.slot k s)
        | none => B.slot k s
      else B.slot k s := by
  induction qs using List.reverseRecOn with
  | nil =>
    rw [Placement.at, List.filter_nil, List.getElem?_nil, ite_self]
    rfl
  | append_singleton qs q ih =>
    rw [List.length_append, List.length_singleton] at hqs
    have ih := ih (by omega)
    have hcount := count_putAll_add (P := P) (k := k) (show B.count k + qs.length < P.modulus by omega)
    rw [putAll_append_singleton, at_append_singleton]
    by_cases hk : P.key q = k
    · subst hk
      rw [if_pos rfl]
      by_cases hs : B.count (P.key q) ≤ s ∧ s < P.capacity
      · rw [if_pos hs] at ih ⊢
        rcases Nat.lt_trichotomy s (B.count (P.key q) + (P.at (P.key q) qs).length) with hlt | rfl | hgt
        · rw [slot_put_of_ne _ _ (by rw [hcount]; omega), ih, List.getElem?_append_left (by omega)]
        · rw [Nat.add_sub_cancel_left] at ih ⊢
          rw [List.getElem?_eq_none_iff.mpr (Nat.le_refl _)] at ih
          rw [← hcount, slot_put_self _ _ (by rw [hcount]; exact hs.2), hcount, ih,
            List.getElem?_concat_length]
        · rw [slot_put_of_ne _ _ (by rw [hcount]; omega), ih,
            List.getElem?_eq_none_iff.mpr (by omega),
            List.getElem?_eq_none_iff.mpr (by rw [List.length_append, List.length_singleton]; omega)]
      · rw [if_neg hs] at ih ⊢
        rw [slot_put_of_ne _ _ (by rw [hcount]; omega), ih]
    · rw [if_neg hk, slot_put_of_ne _ _ (fun h => hk h.1), ih]

theorem count_putAll {B : Buckets κ γ} {k : κ} (hB : B.count k = 0) {qs : List ρ}
    (hqs : qs.length < P.modulus) : (B.putAll P qs).count k = (P.at k qs).length := by
  rw [count_putAll_add (by rwa [hB, Nat.zero_add]), hB, Nat.zero_add]

/-- From an empty bucket slot `s` is written by request number `s`, and by no other. -/
theorem slot_putAll {B : Buckets κ γ} {k : κ} (hB : B.count k = 0) {qs : List ρ}
    (hqs : qs.length < P.modulus) {s : ℕ} (hs : s < P.capacity) :
    (B.putAll P qs).slot k s =
      match (P.at k qs)[s]? with
      | some q => P.write q (B.slot k s)
      | none => B.slot k s := by
  rw [slot_putAll_add (by rwa [hB, Nat.zero_add]), hB, if_pos ⟨Nat.zero_le s, hs⟩, Nat.sub_zero]

/-- Every slot in use holds what its request wrote. -/
theorem served_of_lt {B : Buckets κ γ} {k : κ} (hB : B.count k = 0) {qs : List ρ}
    (hqs : qs.length < P.modulus) {s : ℕ} (hs : s < min ((B.putAll P qs).count k) P.capacity) :
    ∃ q, (P.at k qs)[s]? = some q ∧ (B.putAll P qs).slot k s = P.write q (B.slot k s) := by
  rw [count_putAll hB hqs] at hs
  have hlt : s < (P.at k qs).length := by omega
  have hq := List.getElem?_eq_getElem hlt
  exact ⟨_, hq, by rw [slot_putAll hB hqs (by omega), hq]⟩

theorem putAll_of_full {B : Buckets κ γ} {k : κ} {qs : List ρ} (hkey : ∀ q ∈ qs, P.key q = k)
    (hfull : P.capacity ≤ B.count k) (hlt : B.count k + qs.length < P.modulus) :
    B.putAll P qs = ⟨Function.update B.count k (B.count k + qs.length), B.slot⟩ := by
  -- A full bucket turns its requests away: only its counter moves
  induction qs using List.reverseRecOn with
  | nil => exact congrArg (Buckets.mk · B.slot) (Function.update_eq_self k B.count).symm
  | append_singleton qs q ih =>
    rw [List.length_append, List.length_singleton] at hlt
    have ih := ih (fun q' hq' => hkey q' (List.mem_append_left _ hq')) (by omega)
    have hq := hkey q (List.mem_append_right _ (List.mem_singleton_self q))
    have hfull' : ¬B.count k + qs.length < P.capacity := by omega
    simp only [putAll_append_singleton, ih, put, hq, Function.update_self, Function.update_idem,
      if_neg hfull', List.length_append, List.length_singleton, ← Nat.add_assoc]
    rw [Nat.mod_eq_of_lt (by omega)]

theorem putAll_preserves {α : Type*} (φ : γ → α) (hφ : ∀ q c, φ (P.write q c) = φ c)
    (B : Buckets κ γ) (qs : List ρ) (k : κ) (s : ℕ) :
    φ ((B.putAll P qs).slot k s) = φ (B.slot k s) := by
  -- What no write changes, no run of requests changes
  induction qs using List.reverseRecOn with
  | nil => rfl
  | append_singleton qs q ih =>
    rw [putAll_append_singleton, ← ih]
    by_cases h : P.key q = k ∧ (B.putAll P qs).count k = s ∧ s < P.capacity
    · obtain ⟨rfl, rfl, hs⟩ := h
      rw [slot_put_self _ _ hs, hφ]
    · rw [slot_put_of_ne _ _ h]

/-- Requests without repetition are served at one place each. -/
theorem existsUnique_at {qs : List ρ} (hqs : qs.Nodup) {q : ρ} (hq : q ∈ qs) :
    ∃! s : ℕ, (P.at (P.key q) qs)[s]? = some q := by
  have hmem : q ∈ P.at (P.key q) qs := List.mem_filter.mpr ⟨hq, decide_eq_true rfl⟩
  obtain ⟨s, hs, hqs'⟩ := List.mem_iff_getElem.mp hmem
  refine ⟨s, List.getElem?_eq_some_iff.mpr ⟨hs, hqs'⟩, fun t ht => ?_⟩
  obtain ⟨ht, hqt⟩ := List.getElem?_eq_some_iff.mp ht
  exact (List.Nodup.getElem_inj_iff (List.Nodup.filter _ hqs)).mp (hqt.trans hqs'.symm)

theorem mem_of_at {qs : List ρ} {k : κ} {s : ℕ} {q : ρ} (h : (P.at k qs)[s]? = some q) :
    q ∈ qs ∧ P.key q = k := by
  have hmem := List.mem_filter.mp (List.mem_of_getElem? h)
  exact ⟨hmem.1, of_decide_eq_true hmem.2⟩

/-- The number of a request in its bucket is the number of earlier requests for it. -/
theorem getElem?_at {qs : List ρ} {n : ℕ} {q : ρ} (h : qs[n]? = some q) :
    (P.at (P.key q) qs)[(P.at (P.key q) (qs.take n)).length]? = some q := by
  have hsplit : qs = qs.take n ++ q :: qs.drop (n + 1) := by
    obtain ⟨hn, rfl⟩ := List.getElem?_eq_some_iff.mp h
    rw [List.getElem_cons_drop, List.take_append_drop]
  have hat : P.at (P.key q) qs = P.at (P.key q) (qs.take n) ++ q :: P.at (P.key q) (qs.drop (n + 1)) := by
    conv_lhs => rw [hsplit]
    have hq : decide (P.key q = P.key q) = true := decide_eq_true rfl
    rw [Placement.at, List.filter_append, List.filter_cons, if_pos hq]
    rfl
  rw [hat, List.getElem?_append_right (Nat.le_refl _), Nat.sub_self]
  rfl

theorem exists_of_getElem?_at {qs : List ρ} {k : κ} {m : ℕ} {q : ρ} (h : (P.at k qs)[m]? = some q) :
    ∃ n, qs[n]? = some q ∧ P.key q = k ∧ (P.at k (qs.take n)).length = m := by
  induction qs using List.reverseRecOn with
  | nil =>
    rw [Placement.at, List.filter_nil, List.getElem?_nil] at h
    cases h
  | append_singleton qs x ih =>
    have hold : (P.at k qs)[m]? = some q → ∃ n, (qs ++ [x])[n]? = some q ∧ P.key q = k ∧
        (P.at k ((qs ++ [x]).take n)).length = m := by
      intro h
      obtain ⟨n, hn, hkey, hlen⟩ := ih h
      have hlt := (List.getElem?_eq_some_iff.mp hn).1
      refine ⟨n, ?_, hkey, ?_⟩
      · rw [List.getElem?_append_left hlt, hn]
      · rw [List.take_append_of_le_length (Nat.le_of_lt hlt), hlen]
    rw [at_append_singleton] at h
    split_ifs at h with hk
    · rcases Nat.lt_or_ge m (P.at k qs).length with hlt | hge
      · rw [List.getElem?_append_left hlt] at h
        exact hold h
      · rw [List.getElem?_append_right hge] at h
        obtain ⟨hm, hx⟩ := List.getElem?_eq_some_iff.mp h
        rw [List.length_singleton] at hm
        rw [List.getElem_singleton] at hx
        refine ⟨qs.length, ?_, hx ▸ hk, ?_⟩
        · rw [List.getElem?_concat_length, hx]
        · rw [List.take_left' rfl]
          omega
    · exact hold h

theorem putAll_map {ρ' : Type*} {P' : Placement κ γ ρ'} (f : ρ → ρ')
    (hcap : P.capacity = P'.capacity) (hmod : P.modulus = P'.modulus) {qs : List ρ}
    (hqs : ∀ q ∈ qs, P.key q = P'.key (f q) ∧ P.write q = P'.write (f q)) (B : Buckets κ γ) :
    B.putAll P qs = B.putAll P' (qs.map f) := by
  induction qs generalizing B with
  | nil => rfl
  | cons q qs ih =>
    obtain ⟨hkey, hwrite⟩ := hqs q List.mem_cons_self
    have hput : B.put P q = B.put P' (f q) := by rw [put, put, hkey, hwrite, hcap, hmod]
    change (B.put P q).putAll P qs = (B.put P' (f q)).putAll P' (qs.map f)
    rw [ih fun q' hq' => hqs q' (List.mem_cons_of_mem q hq'), hput]

theorem at_unique {qs : List ρ} (hqs : qs.Nodup) {k k' : κ} {s s' : ℕ} {q : ρ}
    (h : (P.at k qs)[s]? = some q) (h' : (P.at k' qs)[s']? = some q) : k = k' ∧ s = s' := by
  obtain ⟨hq, rfl⟩ := mem_of_at h
  obtain ⟨-, rfl⟩ := mem_of_at h'
  exact ⟨rfl, (existsUnique_at hqs hq).unique h h'⟩

end Buckets
end Aion.Store
