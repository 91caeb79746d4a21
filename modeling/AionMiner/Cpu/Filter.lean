import AionMiner.Cpu.Report

/-! The duplicate filter of `candidate` against the leaves a tree has in the heaps. -/

namespace Aion.Cpu
open Bits Equihash Solver Store Wagner Equi

/-- The indices below a tree of height `r`, from left to right: the walk of `listindices0` and
`listindices1` without their tests and exchanges. -/
def leaves (mem : Memory) : ℕ → Word → List ℕ
  | 0, t => [getindex t]
  | r + 1, t =>
    let tagi := hashwords (hashsize r)
    leaves mem r (mem.heap (r % 2) (bucketid t) (slotid0 t) tagi) ++
      leaves mem r (mem.heap (r % 2) (bucketid t) (slotid1 t) tagi)

/-- `candidate` returns before it counts the tree. -/
def Discards (t : Word) (e : Equi) : Prop := candidate t e = { e with calls := e.calls ++ [t] }

section Leaves
variable {mem : Memory} {H : Blake2b} {base : Blake2bState} {E : ℕ → Memory}

theorem length_leaves (mem : Memory) (r : ℕ) (t : Word) : (leaves mem r t).length = 2 ^ r := by
  induction r generalizing t with
  | zero => rfl
  | succ r ih =>
    rw [leaves, List.length_append, ih, ih, Nat.pow_succ]
    omega

/-- The forest orders the leaves that the heaps link. -/
theorem perm_leaves (hE : Solver.Rounds layout H base E) (hmem : mem.heap = (E 8).heap) :
    ∀ {r : ℕ}, r ≤ 8 → ∀ {t : Word} {p : ℕ × ℕ × ℕ}, decode t = p →
      (leaves mem (r + 1) t).Perm ((forestOf layout E).pairTree r p).order := by
  intro r
  induction r with
  | zero =>
    rintro - t p rfl
    have hleaf : ∀ s, leaves mem 0 (mem.heap 0 (bucketid t) s (hashwords (hashsize 0))) =
        ((forestOf layout E).tree 0 (bucketid t) s).order := fun s => by
      rw [leaves, hmem]
      exact congrArg (fun i => [i]) (hE.getindex_tag (bucketid t) s)
    rw [leaves, Nat.zero_mod, hleaf, hleaf]
    exact (mergeOrder_perm _ _).symm
  | succ r ih =>
    rintro hr t p rfl
    have hchild : ∀ s,
      (leaves mem (r + 1) (mem.heap ((r + 1) % 2) (bucketid t) s (hashwords (hashsize (r + 1))))).Perm
        ((forestOf layout E).tree (r + 1) (bucketid t) s).order := by
      intro s
      apply ih (by omega)
      rw [hmem]
      exact hE.decode_tag hr (bucketid t) s
    rw [leaves]
    exact ((hchild (slotid0 t)).append (hchild (slotid1 t))).trans (mergeOrder_perm _ _).symm

theorem nodup_leaves_iff (hE : Solver.Rounds layout H base E) (hmem : mem.heap = (E 8).heap)
    {p : ℕ × ℕ × ℕ} (hp : (forestOf layout E).IsPair (scheme H base) 8 p) :
    (leaves mem 9 (tree p.1 p.2.1 p.2.2)).Nodup ↔
      ((forestOf layout E).pairTree 8 p).order.Nodup := by
  have hcap : ∀ b, (forestOf layout E).count 8 b ≤ nslotsMax := fun b => Nat.min_le_right _ _
  have hdecode := decode_tree hp.bucket (Nat.lt_of_lt_of_le hp.stored_left (hcap _))
    (Nat.lt_of_lt_of_le hp.stored (hcap _))
  exact (perm_leaves hE hmem (Nat.le_refl 8) hdecode).nodup_iff

end Leaves

section Filter

theorem discards_iff_counted (t : Word) (e : Equi) : Discards t e ↔ counted e.mem t = false := by
  constructor
  · intro h
    have hsame := congrArg Equi.nsols h
    rw [candidate_nsols] at hsame
    by_contra hc
    rw [if_pos (Bool.eq_true_of_not_eq_false hc)] at hsame
    -- A counter never keeps its value when it is incremented
    have hne : (e.nsols + 1) % 2 ^ 32 ≠ e.nsols := by omega
    exact hne hsame
  · intro hc
    rw [counted] at hc
    rw [Discards, candidate]
    dsimp only
    split
    · rfl
    · next prf hlist =>
      rw [hlist] at hc
      rw [if_pos (by simpa using hc)]

/-- The filter is exact: `candidate` turns a tree down if and only if one of its 512 leaves occurs
twice, and its early exits leave trees with distinct leaves alone. -/
theorem discards_iff (H : Blake2b) (header nonce : List Byte) {e : Equi}
    (he : e.mem.heap = (after H header nonce 8).mem.heap) {t : Word} (ht : t ∈ (after H header nonce 9).calls) :
    (leaves e.mem 9 t).length = 512 ∧
      (Discards t e ↔ ∃ i, 2 ≤ (leaves e.mem 9 t).count i) ∧
        ((leaves e.mem 9 t).Nodup → (listindices1 e.mem 9 t).isSome = true) := by
  rw [calls_after] at ht
  obtain ⟨p, hp, rfl⟩ := List.mem_map.mp ht
  rw [← memAfter] at he hp
  have hE := rounds_memAfter H header nonce
  have hpair := mem_roundPairs_final.mp hp
  have hnodup := nodup_leaves_iff hE he hpair
  have hcounted := counted_iff hE he hpair
  have hlen := length_leaves e.mem 9 (tree p.1 p.2.1 p.2.2)
  refine ⟨hlen, ?_, fun hnd => ?_⟩
  · have htwice : ¬(leaves e.mem 9 (tree p.1 p.2.1 p.2.2)).Nodup ↔
        ∃ i, 2 ≤ (leaves e.mem 9 (tree p.1 p.2.1 p.2.2)).count i := by
      rw [List.nodup_iff_count_le_one, not_forall]
      exact exists_congr fun i => Nat.not_le
    rw [← htwice, hnodup, ← hcounted, Bool.not_eq_true]
    exact discards_iff_counted _ e
  · rw [(yields_candidate hE he hpair).eq_some (hnodup.mp hnd)]
    rfl

/-- Under `plantedHash` there is a tree to filter. -/
theorem discards_planted :
    ∃ t ∈ (after plantedHash (List.replicate 32 0) (List.replicate 32 0) 9).calls,
      (leaves (after plantedHash (List.replicate 32 0) (List.replicate 32 0) 8).mem 9 t).length = 512 ∧
        (Discards t (after plantedHash (List.replicate 32 0) (List.replicate 32 0) 8) ↔
          ∃ i, 2 ≤ (leaves (after plantedHash (List.replicate 32 0) (List.replicate 32 0) 8).mem 9 t).count i) ∧
          ((leaves (after plantedHash (List.replicate 32 0) (List.replicate 32 0) 8).mem 9 t).Nodup →
            (listindices1 (after plantedHash (List.replicate 32 0) (List.replicate 32 0) 8).mem 9
              t).isSome = true) := by
  have hpos := nsols_pos_of_planted (planted_plantedHash (setheader (List.replicate 32 0) (List.replicate 32 0)))
  have hle := nsols_le plantedHash (List.replicate 32 0) (List.replicate 32 0)
  obtain ⟨p, hp⟩ := List.exists_mem_of_length_pos (Nat.lt_of_lt_of_le hpos hle)
  rw [memAfter] at hp
  have ht : tree p.1 p.2.1 p.2.2 ∈ (after plantedHash (List.replicate 32 0) (List.replicate 32 0) 9).calls := by
    rw [calls_after]
    exact List.mem_map_of_mem hp
  exact ⟨_, ht, discards_iff plantedHash (List.replicate 32 0) (List.replicate 32 0) rfl ht⟩

end Filter
end Aion.Cpu
