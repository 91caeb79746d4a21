import Mathlib.Algebra.Group.Nat.Defs
import Mathlib.Data.List.GetD
import Mathlib.Data.List.Nodup

/-! Aligned blocks of a list whose length is a power of two, and conditions put
on the two halves of every block. -/

namespace Aion.Wagner
variable {α : Type*}

def block (v : List α) (h k : ℕ) : List α := (v.drop (k * 2 ^ h)).take (2 ^ h)

/-- `P h` holds of the halves of every block of length `2 ^ (h + 1)`, up to the whole list. -/
def Balanced (P : ℕ → List α → List α → Prop) : ℕ → List α → Prop
  | 0, v => v.length = 1
  | h + 1, v => ∃ l r, v = l ++ r ∧ Balanced P h l ∧ Balanced P h r ∧ P h l r

theorem Balanced.length {P : ℕ → List α → List α → Prop} :
    ∀ {h : ℕ} {v : List α}, Balanced P h v → v.length = 2 ^ h
  | 0, _, hv => hv
  | h + 1, _, ⟨l, r, hv, hl, hr, _⟩ => by
    rw [hv, List.length_append, hl.length, hr.length, Nat.pow_succ, Nat.mul_two]

theorem Balanced.imp {P Q : ℕ → List α → List α → Prop} :
    ∀ {h : ℕ} {v : List α},
      (∀ j < h, ∀ l r, l ⊆ v → r ⊆ v → l.length = 2 ^ j → r.length = 2 ^ j → P j l r → Q j l r) →
        Balanced P h v → Balanced Q h v
  | 0, _, _, hv => hv
  | h + 1, v, hPQ, ⟨l, r, hv, hl, hr, hP⟩ => by
    have hlv : l ⊆ v := by rw [hv]; exact List.subset_append_left l r
    have hrv : r ⊆ v := by rw [hv]; exact List.subset_append_right l r
    exact ⟨l, r, hv,
      hl.imp fun j hj a b ha hb => hPQ j (by omega) a b (List.Subset.trans ha hlv) (List.Subset.trans hb hlv),
      hr.imp fun j hj a b ha hb => hPQ j (by omega) a b (List.Subset.trans ha hrv) (List.Subset.trans hb hrv),
      hPQ h (by omega) l r hlv hrv hl.length hr.length hP⟩

theorem length_block {v : List α} {K h k : ℕ} (hv : v.length = 2 ^ K) (hh : h ≤ K)
    (hk : k < 2 ^ (K - h)) : (block v h k).length = 2 ^ h := by
  have hle : (k + 1) * 2 ^ h ≤ 2 ^ K := by
    have := Nat.mul_le_mul_right (2 ^ h) (Nat.succ_le_of_lt hk)
    rwa [← Nat.pow_add, Nat.sub_add_cancel hh] at this
  rw [Nat.succ_mul] at hle
  rw [block, List.length_take, List.length_drop, hv]
  omega

theorem block_succ (v : List α) (h k : ℕ) :
    block v (h + 1) k = block v h (2 * k) ++ block v h (2 * k + 1) := by
  have hk : k * 2 ^ (h + 1) = 2 * k * 2 ^ h := by rw [Nat.pow_succ]; ac_rfl
  rw [block, block, block, hk, Nat.succ_mul (2 * k), ← List.drop_drop, Nat.pow_succ, Nat.mul_two,
    List.take_add]

theorem block_top {v : List α} {K : ℕ} (hv : v.length = 2 ^ K) : block v K 0 = v := by
  rw [block, Nat.zero_mul, List.drop_zero, List.take_of_length_le (Nat.le_of_eq hv)]

theorem getD_block {v : List α} {h k i : ℕ} (d : α) (hi : i < 2 ^ h) :
    (block v h k).getD i d = v.getD (k * 2 ^ h + i) d := by
  rw [List.getD_eq_getElem?_getD, block, List.getElem?_take_of_lt hi, List.getElem?_drop,
    ← List.getD_eq_getElem?_getD]

theorem block_zero {v : List α} {k : ℕ} (hk : k < v.length) : block v 0 k = [v[k]] := by
  rw [block, Nat.pow_zero, Nat.mul_one, List.drop_eq_getElem_cons hk, List.take_succ_cons,
    List.take_zero]

theorem balanced_append_iff {P : ℕ → List α → List α → Prop} {h : ℕ} {l r : List α}
    (hl : l.length = 2 ^ h) :
    Balanced P (h + 1) (l ++ r) ↔ Balanced P h l ∧ Balanced P h r ∧ P h l r := by
  constructor
  · rintro ⟨l', r', heq, hl', hr', hP⟩
    obtain ⟨rfl, rfl⟩ := List.append_inj heq (hl.trans hl'.length.symm)
    exact ⟨hl', hr', hP⟩
  · exact fun ⟨hl', hr', hP⟩ => ⟨l, r, rfl, hl', hr', hP⟩

/-- The recursive condition read block by block: `m` runs over the blocks inside block `k`. -/
theorem balanced_block {P : ℕ → List α → List α → Prop} {v : List α} {K : ℕ}
    (hv : v.length = 2 ^ K) : ∀ {h k : ℕ}, h ≤ K → k < 2 ^ (K - h) →
      (Balanced P h (block v h k) ↔ ∀ j < h, ∀ m, m / 2 ^ (h - 1 - j) = k →
        P j (block v j (2 * m)) (block v j (2 * m + 1))) := by
  intro h
  induction h with
  | zero =>
    intro k hh hk
    exact ⟨fun _ j hj => absurd hj (Nat.not_lt_zero j), fun _ => length_block hv hh hk⟩
  | succ h ih =>
    intro k hh hk
    have hpow : 2 ^ (K - h) = 2 * 2 ^ (K - (h + 1)) := by
      rw [show K - h = K - (h + 1) + 1 by omega, Nat.pow_succ, Nat.mul_comm]
    have hleft := ih (k := 2 * k) (by omega) (by omega)
    have hright := ih (k := 2 * k + 1) (by omega) (by omega)
    have hsub : ∀ j < h, ∀ m, m / 2 ^ (h + 1 - 1 - j) = m / 2 ^ (h - 1 - j) / 2 := by
      intro j hj m
      rw [show h + 1 - 1 - j = h - 1 - j + 1 by omega, Nat.pow_succ, Nat.div_div_eq_div_mul]
    constructor
    · rintro ⟨l, r, hlr, hl, hr, hP⟩
      rw [block_succ] at hlr
      have hlen : (block v h (2 * k)).length = l.length := by
        rw [length_block hv (by omega) (by omega), hl.length]
      obtain ⟨rfl, rfl⟩ := List.append_inj hlr hlen
      intro j hj m hm
      rcases Nat.lt_succ_iff_lt_or_eq.mp hj with hj | rfl
      · rw [hsub j hj] at hm
        rcases (show m / 2 ^ (h - 1 - j) = 2 * k ∨ m / 2 ^ (h - 1 - j) = 2 * k + 1 by omega) with hc | hc
        · exact hleft.mp hl j hj m hc
        · exact hright.mp hr j hj m hc
      · rw [Nat.add_sub_cancel, Nat.sub_self, Nat.pow_zero, Nat.div_one] at hm
        rwa [hm]
    · intro hP
      refine ⟨_, _, block_succ v h k, hleft.mpr fun j hj m hm => hP j (by omega) m ?_,
        hright.mpr fun j hj m hm => hP j (by omega) m ?_, hP h (by omega) k ?_⟩
      · rw [hsub j hj, hm]; omega
      · rw [hsub j hj, hm]; omega
      · rw [Nat.add_sub_cancel, Nat.sub_self, Nat.pow_zero, Nat.div_one]

theorem balanced_iff {P : ℕ → List α → List α → Prop} {v : List α} {K : ℕ} (hv : v.length = 2 ^ K) :
    Balanced P K v ↔
      ∀ j < K, ∀ m < 2 ^ (K - 1 - j), P j (block v j (2 * m)) (block v j (2 * m + 1)) := by
  have h := balanced_block (P := P) hv (h := K) (k := 0) (Nat.le_refl K) (by simp)
  rw [block_top hv] at h
  have hdiv : ∀ m j, m / 2 ^ j = 0 ↔ m < 2 ^ j :=
    fun m j => Nat.div_eq_zero_iff_lt (Nat.two_pow_pos j)
  simpa only [hdiv] using h

/-- Pairwise distinctness is disjointness of all sibling blocks. -/
theorem balanced_disjoint_iff {h : ℕ} {v : List α} :
    Balanced (fun _ => List.Disjoint) h v ↔ v.length = 2 ^ h ∧ v.Nodup := by
  induction h generalizing v with
  | zero =>
    refine ⟨fun hv => ⟨hv, ?_⟩, And.left⟩
    obtain ⟨a, rfl⟩ := List.length_eq_one_iff.mp hv
    exact List.nodup_singleton a
  | succ h ih =>
    constructor
    · intro hv
      have hlen := hv.length
      obtain ⟨l, r, rfl, hl, hr, hd⟩ := hv
      exact ⟨hlen, List.nodup_append'.mpr ⟨(ih.mp hl).2, (ih.mp hr).2, hd⟩⟩
    · rintro ⟨hlen, hnd⟩
      have hpow : 2 ^ (h + 1) = 2 ^ h + 2 ^ h := by rw [Nat.pow_succ, Nat.mul_two]
      refine ⟨v.take (2 ^ h), v.drop (2 ^ h), (List.take_append_drop ..).symm,
        ih.mpr ⟨by rw [List.length_take]; omega, hnd.sublist (List.take_sublist ..)⟩,
        ih.mpr ⟨by rw [List.length_drop]; omega, hnd.sublist (List.drop_sublist ..)⟩, ?_⟩
      rw [← List.take_append_drop (2 ^ h) v] at hnd
      exact (List.nodup_append'.mp hnd).2.2

end Aion.Wagner
