import AionMiner.Solver.Layers

/-! The index vectors the joined pairs of the last layer stand for. -/

namespace Aion.Solver
open Bits Equihash Wagner

def vectors (F : Forest ℕ) (ps : List (ℕ × ℕ × ℕ)) : List (List ℕ) :=
  (ps.map fun p => (F.pairTree 8 p).order).filter fun v => decide v.Nodup

theorem vectors_append (F : Forest ℕ) (ps : List (ℕ × ℕ × ℕ)) (p : ℕ × ℕ × ℕ) :
    vectors F (ps ++ [p]) =
      if (F.pairTree 8 p).order.Nodup then vectors F ps ++ [(F.pairTree 8 p).order] else vectors F ps := by
  rw [vectors, List.map_append, List.filter_append, ← vectors, List.map_singleton, List.filter_cons,
    List.filter_nil]
  by_cases h : (F.pairTree 8 p).order.Nodup
  · rw [if_pos h, if_pos (decide_eq_true h)]
  · rw [if_neg h, if_neg (by simpa using h), List.append_nil]

theorem length_vectors_le (F : Forest ℕ) (ps : List (ℕ × ℕ × ℕ)) :
    (vectors F ps).length ≤ ps.length := by
  have := List.length_filter_le (fun v => decide v.Nodup) (ps.map fun p => (F.pairTree 8 p).order)
  rwa [List.length_map] at this

theorem mem_vectors {F : Forest ℕ} {ps : List (ℕ × ℕ × ℕ)} {v : List ℕ} :
    v ∈ vectors F ps ↔ v.Nodup ∧ ∃ p ∈ ps, (F.pairTree 8 p).order = v := by
  rw [vectors, List.mem_filter, List.mem_map, decide_eq_true_iff, and_comm]

theorem length_order_pairTree (F : Forest ℕ) (p : ℕ × ℕ × ℕ) :
    (F.pairTree 8 p).order.length = 512 := by
  rw [Forest.pairTree, Tree.order, length_mergeOrder, Forest.length_order_tree,
    Forest.length_order_tree]
  rfl

def recordedVectors (sols : ℕ → List ℕ) (nsols : ℕ) : Set (List ℕ) :=
  {v | v.Nodup ∧ ∃ s < min nsols maxsols, sols s = v}

section Rounds
variable {L : Layout} {H : Blake2b} {base : Blake2bState} {E : ℕ → Memory}

/-- Vectors of the last layer are balanced, and their indices leaves. -/
theorem Rounds.balanced_of_mem (hE : Rounds L H base E) {v : List ℕ}
    (hv : v ∈ vectors (forestOf L E) ((E 8).roundPairs L 9)) :
    v.length = 512 ∧ (∀ i ∈ v, i < 2 ^ 22) ∧ Balanced (Forest.Joins (scheme H base)) 9 v := by
  obtain ⟨hnd, p, hp, rfl⟩ := mem_vectors.mp hv
  have hpair := (mem_roundPairs_iff (by decide) (hE.layer (Nat.le_refl 8))).mp hp
  refine ⟨length_order_pairTree _ p, fun i hi => ?_,
    hE.sound.balanced_pairTree (Nat.le_refl 8) hpair hnd⟩
  rcases List.mem_append.mp ((mergeOrder_perm _ _).mem_iff.mp hi) with hi | hi
  · exact hE.sound.mem_leaves (Nat.le_refl 8) hpair.bucket hpair.stored_left i hi
  · exact hE.sound.mem_leaves (Nat.le_refl 8) hpair.bucket hpair.stored i hi

/-- Without overflow they are all balanced vectors of leaves: the layout and the order of the slots
leave no trace. -/
theorem Rounds.mem_vectors_iff (hE : Rounds L H base E) (hover : NoOverflow E) {v : List ℕ} :
    v ∈ vectors (forestOf L E) ((E 8).roundPairs L 9) ↔
      (∀ i ∈ v, i < 2 ^ 22) ∧ Balanced (Forest.Joins (scheme H base)) 9 v := by
  constructor
  · intro hv
    exact (hE.balanced_of_mem hv).2
  · rintro ⟨hlt, hbal⟩
    have hnd : v.Nodup := (balanced_disjoint_iff.mp (hbal.imp fun _ _ _ _ _ _ _ _ hP => hP.disjoint)).2
    obtain ⟨p, ⟨hp, hpv⟩, -⟩ := Forest.existsUnique_pairTree hE.sound (hE.complete hover) hbal hlt
    exact mem_vectors.mpr
      ⟨hnd, p, (mem_roundPairs_iff (by decide) (hE.layer (Nat.le_refl 8))).mpr hp, hpv⟩

end Rounds
end Aion.Solver
