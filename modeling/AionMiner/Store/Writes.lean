import AionMiner.Redis.Database
import Mathlib.Algebra.Order.BigOperators.Group.List

/-! A map that a loop writes, and what its sum loses where a key is written again. -/

namespace Aion.Store.Writes
open Redis

section Loss
variable {κ M : Type} [DecidableEq κ]

def write (m : AList fun _ : κ => M) (e : κ × M) : AList fun _ : κ => M := m.insert e.1 e.2

/-- The values the writes take the place of. -/
def overwritten (m : AList fun _ : κ => M) : List (κ × M) → List M
  | [] => []
  | e :: es => (m.lookup e.1).toList ++ overwritten (write m e) es

def total [AddCommMonoid M] (m : AList fun _ : κ => M) : M := sumOver (fun _ x => x) m

theorem total_write [AddCommMonoid M] (m : AList fun _ : κ => M) (e : κ × M) :
    total (write m e) + (m.lookup e.1).toList.sum = e.2 + total m := by
  have herase := sumOver_erase (fun _ x => x) m e.1
  have hat : weightAt (fun _ x => x) m e.1 = (m.lookup e.1).toList.sum := by
    rw [weightAt]
    cases m.lookup e.1 with
    | none => rfl
    | some v => exact (List.sum_singleton).symm
  rw [total, write, sumOver_insert, add_assoc, ← hat, add_comm (sumOver _ _), herase, total]

theorem total_foldl_write [AddCommMonoid M] (m : AList fun _ : κ => M) (es : List (κ × M)) :
    total (es.foldl write m) + (overwritten m es).sum = total m + (es.map Prod.snd).sum := by
  induction es generalizing m with
  | nil => rfl
  | cons e es ih =>
    rw [List.foldl_cons, overwritten, List.sum_append, List.map_cons, List.sum_cons, add_left_comm,
      ih, add_left_comm, ← add_assoc, ← add_assoc, total_write, add_comm e.2]

theorem zero_overwritten [Zero M] (m : AList fun _ : κ => M) (es : List (κ × M)) :
    (∀ x ∈ overwritten m es, x = 0) ↔
      (∀ e ∈ es, ∀ x ∈ m.lookup e.1, x = 0) ∧ es.Pairwise fun e e' => e.1 = e'.1 → e.2 = 0 := by
  induction es generalizing m with
  | nil =>
    exact iff_of_true (fun x hx => absurd hx List.not_mem_nil)
      ⟨fun e he => absurd he List.not_mem_nil, .nil⟩
  | cons e es ih =>
    rw [overwritten, List.forall_mem_append, ih, List.forall_mem_cons, List.pairwise_cons]
    constructor
    · rintro ⟨hfirst, hmore, hpairs⟩
      refine ⟨⟨fun x hx => hfirst x (Option.mem_toList.mpr hx), fun e' he' x hx => ?_⟩,
        fun e' he' heq => ?_, hpairs⟩
      · by_cases heq : e'.1 = e.1
        · rw [heq] at hx
          exact hfirst x (Option.mem_toList.mpr hx)
        · apply hmore e' he'
          rw [write, AList.lookup_insert_ne heq]
          exact hx
      · apply hmore e' he'
        rw [write, ← heq, AList.lookup_insert]
        rfl
    · rintro ⟨⟨hfirst, hmore⟩, hlater, hpairs⟩
      refine ⟨fun x hx => hfirst x (Option.mem_toList.mp hx), fun e' he' x hx => ?_, hpairs⟩
      by_cases heq : e'.1 = e.1
      · rw [write, heq, AList.lookup_insert] at hx
        cases hx
        exact hlater e' he' heq.symm
      · rw [write, AList.lookup_insert_ne heq] at hx
        exact hmore e' he' x hx

theorem mem_overwritten {m : AList fun _ : κ => M} {es : List (κ × M)} {x : M}
    (h : x ∈ overwritten m es) : (∃ k, x ∈ m.lookup k) ∨ ∃ e ∈ es, e.2 = x := by
  induction es generalizing m with
  | nil => exact absurd h List.not_mem_nil
  | cons e es ih =>
    rcases List.mem_append.mp h with hfirst | hmore
    · exact Or.inl ⟨e.1, Option.mem_toList.mp hfirst⟩
    · rcases ih hmore with ⟨k, hk⟩ | ⟨e', he', hx⟩
      · by_cases heq : k = e.1
        · rw [write, heq, AList.lookup_insert] at hk
          cases hk
          exact Or.inr ⟨e, List.mem_cons_self, rfl⟩
        · rw [write, AList.lookup_insert_ne heq] at hk
          exact Or.inl ⟨k, hk⟩
      · exact Or.inr ⟨e', List.mem_cons_of_mem e he', hx⟩

end Loss

section Signs
variable {M : Type} [AddCommGroup M] [LinearOrder M] [IsOrderedAddMonoid M]

theorem sum_eq_zero_iff_of_nonneg {l : List M} (h : ∀ x ∈ l, 0 ≤ x) :
    l.sum = 0 ↔ ∀ x ∈ l, x = 0 := by
  induction l with
  | nil => exact iff_of_true rfl fun x hx => absurd hx List.not_mem_nil
  | cons a l ih =>
    obtain ⟨ha, hl⟩ := List.forall_mem_cons.mp h
    rw [List.sum_cons, add_eq_zero_iff_of_nonneg ha (List.sum_nonneg hl), ih hl,
      List.forall_mem_cons]

theorem sum_eq_zero_iff {l : List M} (h : (∀ x ∈ l, 0 ≤ x) ∨ ∀ x ∈ l, x ≤ 0) :
    l.sum = 0 ↔ ∀ x ∈ l, x = 0 := by
  rcases h with hpos | hneg
  · exact sum_eq_zero_iff_of_nonneg hpos
  · have hmap : ∀ x ∈ l.map fun y => -y, 0 ≤ x := by
      intro x hx
      obtain ⟨y, hy, rfl⟩ := List.mem_map.mp hx
      exact neg_nonneg.mpr (hneg y hy)
    have hsum := sum_eq_zero_iff_of_nonneg hmap
    rw [← List.sum_neg, neg_eq_zero, List.forall_mem_map] at hsum
    simpa only [neg_eq_zero] using hsum

end Signs
end Aion.Store.Writes
