import AionMiner.Cuda.Digits
import AionMiner.Solver.Vectors

/-! `digit_9`: the walk down the heaps lists the ordered leaves of a tree, and the
duplicate test turns down no vector of distinct indices. -/

namespace Aion.Cuda
open Bits Equihash Solver Store Wagner Equi

section Listing

theorem listindices_congr {mem mem' : Memory} (h : mem.heap = mem'.heap) :
    listindices mem = listindices mem' := by
  funext r
  induction r with
  | zero => rfl
  | succ r ih =>
    funext t
    rw [listindices, listindices, ih, h]

variable {H : Blake2b} {base : Blake2bState} {E : ℕ → Memory}

/-- Every tree node lists the leaves below it, repeated ones included. -/
theorem listindices_eq (hE : Solver.Rounds layout H base E) {mem : Memory}
    (hmem : mem.heap = (E 8).heap) : ∀ {r : ℕ}, r ≤ 8 → ∀ {t : Word} {p : ℕ × ℕ × ℕ}, decode t = p →
      listindices mem (r + 1) t = ((forestOf layout E).pairTree r p).order := by
  intro r
  induction r with
  | zero =>
    rintro - t p rfl
    have hleaf : ∀ s, listindices mem 0 (mem.heap 0 (bucketid t) s (layout.tag 0)) =
        ((forestOf layout E).tree 0 (bucketid t) s).order := fun s => by
      rw [listindices, hmem]
      exact congrArg (fun i => [i]) (hE.getindex_tag (bucketid t) s)
    rw [listindices]
    dsimp only
    rw [Nat.zero_mod, hleaf, hleaf]
    exact orderindices_append (Forest.length_order_tree ..) (Forest.length_order_tree ..) Nat.one_pos
  | succ r ih =>
    rintro hr t p rfl
    have hchild : ∀ s, listindices mem (r + 1) (mem.heap ((r + 1) % 2) (bucketid t) s (layout.tag (r + 1))) =
        ((forestOf layout E).tree (r + 1) (bucketid t) s).order := fun s => by
      refine ih (by omega) ?_
      rw [hmem]
      exact hE.decode_tag hr (bucketid t) s
    rw [listindices]
    dsimp only
    rw [hchild, hchild, Nat.shiftLeft_eq, Nat.one_mul,
      orderindices_append (Forest.length_order_tree ..) (Forest.length_order_tree ..) (Nat.two_pow_pos _)]
    rfl

end Listing

section Probdupe

theorem probdupeFrom_eq_false {prf : List ℕ} {susp : ℕ → ℕ} (hnd : prf.Nodup)
    (hlt : ∀ x ∈ prf, x < 2 ^ 22) (hsusp : ∀ x ∈ prf, x / 2 ^ 9 % 2 ^ 16 ≠ susp (x % proofsize)) :
    probdupeFrom prf susp = false := by
  induction prf generalizing susp with
  | nil => rfl
  | cons x prf ih =>
    obtain ⟨hx, hnd⟩ := List.nodup_cons.mp hnd
    rw [probdupeFrom, if_neg (hsusp x List.mem_cons_self)]
    refine ih hnd (fun y hy => hlt y (List.mem_cons_of_mem x hy)) fun y hy => ?_
    by_cases hbin : y % proofsize = x % proofsize
    · rw [hbin, Function.update_self]
      intro hmsb
      have hxlt := hlt x List.mem_cons_self
      have hylt := hlt y (List.mem_cons_of_mem x hy)
      rw [show proofsize = 2 ^ 9 from rfl] at hbin
      have heq : y = x := by omega
      exact hx (heq ▸ hy)
    · rw [Function.update_of_ne hbin]
      exact hsusp y (List.mem_cons_of_mem x hy)

/-- The test errs on one side only. -/
theorem probdupe_eq_false {prf : List ℕ} (hnd : prf.Nodup) (hlt : ∀ x ∈ prf, x < 2 ^ 22) :
    probdupe prf = false :=
  probdupeFrom_eq_false hnd hlt fun x hx => by
    have := hlt x hx
    omega

end Probdupe

section Kernel
variable {n : ℕ} {e e' : Equi}

theorem digit9_local :
    digit9.Local (fun e => (e.mem.heap, e.mem.nslots 1, e.bstate))
    (fun e => e.mem.nslots 0) fun k => k = 0 where
  splits s p c := by simp only [digit9, runSteps, List.foldl_cons, List.foldl_nil]
  buckets_with _ _ := rfl
  with_with _ _ _ := rfl
  view_with _ _ := rfl
  entry_with _ _ := rfl
  buckets_fetch b s := by
    change (collisions 9 b s).2.proofs = _
    rw [collisions_eq]
    rfl
  view_fetch b s := by
    change ((collisions 9 b s).2.mem.heap, (collisions 9 b s).2.mem.nslots 1, (collisions 9 b s).2.bstate) = _
    rw [collisions_eq]
    have hcounts : (s.mem.withCount 0 b 0).nslots 1 = s.mem.nslots 1 :=
      congrArg Buckets.count (Memory.buckets_withCount_of_ne s.mem Nat.one_ne_zero b 0)
    exact Prod.ext rfl (Prod.ext hcounts rfl)
  entry_fetch b s b' hb := by
    change (collisions 9 b s).2.mem.nslots 0 b' = _
    rw [collisions_eq, Memory.withCount]
    dsimp only
    rw [Function.update_self, Function.update_of_ne hb]
  done b s := by
    change (collisions 9 b s).2.mem.nslots 0 b = 0
    rw [collisions_eq, Memory.withCount]
    dsimp only
    rw [Function.update_self, Function.update_self]
  fetch_eq b s s' hview hentry := by
    change (collisions 9 b s).1 = (collisions 9 b s').1
    have hheap : s.mem.heap = s'.mem.heap := congrArg Prod.fst hview
    have hrest : s.mem.rest layout 9 b = s'.mem.rest layout 9 b :=
      funext fun k => Memory.rest_congr (congrFun hheap _) b k
    have hsize : s.mem.bsize 9 b = s'.mem.bsize 9 b := congrArg (min · nslotsMax) hentry
    rw [collisions_eq, collisions_eq, hrest, hsize]
  skips_eq s s' h := by
    have hheap : s.mem.heap = s'.mem.heap := congrArg Prod.fst h
    have hprev : s.mem.prevHash layout 9 = s'.mem.prevHash layout 9 :=
      prevHash_eq_of_view (congrFun hheap _)
    simp only [digit9, hprev, listindices_congr hheap]
  placement_eq s s' h := by
    simp only [digit9, listindices_congr (congrArg Prod.fst h)]
  steps_eq s s' h := by
    simp only [digit9, listindices_congr (congrArg Prod.fst h)]

/-- The pairs that take a number of `nsols`, in the order of the threads. -/
def proofOrder (n : ℕ) (M : Memory) : List (ℕ × ℕ × ℕ) :=
  (pairOrder n 9 M).filter fun p => !probdupe (listindices M 9 (tree p.1 p.2.1 p.2.2))

theorem requestOrder_digit9 (e : Equi) :
    (gridOrder n nbuckets).flatMap (digit9.requests e) = proofOrder n e.mem := by
  rw [proofOrder, pairOrder, List.filter_flatMap]
  refine List.flatMap_congr fun b _ => ?_
  change ((collisions 9 b e).1.filter fun p =>
    !(!equal210 (slotByte (e.mem.prevHash layout 9 p.1 p.2.1)) (slotByte (e.mem.prevHash layout 9 p.1 p.2.2)) ||
      probdupe (listindices e.mem 9 (tree p.1 p.2.1 p.2.2)))) = _
  rw [collisions_eq, Memory.bucketPairs, List.filter_map, List.filter_map, List.filter_filter]
  refine congrArg (List.map _) (List.filter_congr fun p _ => ?_)
  simp only [Function.comp_apply, keeps, if_true, Bool.not_or, Bool.not_not, Bool.and_comm]

theorem mem_proofOrder (hn : 0 < n) {M : Memory} {p : ℕ × ℕ × ℕ} :
    p ∈ proofOrder n M ↔
      p ∈ M.roundPairs layout 9 ∧ probdupe (listindices M 9 (tree p.1 p.2.1 p.2.2)) = false := by
  rw [proofOrder, List.mem_filter, (pairOrder_perm hn 9 M).mem_iff, Bool.not_eq_true']

theorem length_proofOrder_lt (hn : 0 < n) (M : Memory) : (proofOrder n M).length < 2 ^ 32 :=
  Nat.lt_of_le_of_lt (List.length_filter_le _ _)
    (by rw [(pairOrder_perm hn 9 M).length_eq]; exact length_roundPairs_lt)

/-- `sols` and `nsols` after the pairs `qs` took their numbers in this order. -/
structure Proved (M : Memory) (qs : List (ℕ × ℕ × ℕ)) (e : Equi) : Prop where
  nsols : e.nsols = qs.length
  sols : ∀ s < maxsols, ∀ p, qs[s]? = some p → e.sols s = listindices M 9 (tree p.1 p.2.1 p.2.2)

theorem write_digit9 (e : Equi) (p : ℕ × ℕ × ℕ) (c : List ℕ) :
    (digit9.placement e).write p c = listindices e.mem 9 (tree p.1 p.2.1 p.2.2) := by
  simp only [digit9]

theorem proved_of_putAll (hnsols : e.nsols = 0) {qs : List (ℕ × ℕ × ℕ)} (hlen : qs.length < 2 ^ 32)
    (hput : e'.proofs = e.proofs.putAll (digit9.placement e) qs) : Proved e.mem qs e' := by
  have hat : (digit9.placement e).at () qs = qs := List.filter_eq_self.mpr fun _ _ => rfl
  have hcount := Buckets.count_putAll (B := e.proofs) (P := digit9.placement e) (k := ()) hnsols hlen
  rw [← hput, hat] at hcount
  refine ⟨hcount, fun s hs p hp => ?_⟩
  have hslot := Buckets.slot_putAll (B := e.proofs) (P := digit9.placement e) (k := ()) hnsols hlen hs
  rw [← hput, hat, hp] at hslot
  dsimp only at hslot
  rw [write_digit9] at hslot
  exact hslot

theorem digit9_proved (hn : 0 < n) (hnsols : e.nsols = 0) (hrun : digit9.Runs n nbuckets e e') :
    ∃ qs : List (ℕ × ℕ × ℕ), qs.Perm (proofOrder n e.mem) ∧ Proved e.mem qs e' := by
  obtain ⟨⟨qs, hqs, hput⟩, -, -⟩ := hrun.serializes digit9_local hn (fun _ => hnsols)
    (by rw [requestOrder_digit9]; exact length_proofOrder_lt hn e.mem)
  rw [requestOrder_digit9] at hqs
  exact ⟨qs, hqs,
    proved_of_putAll hnsols (by rw [hqs.length_eq]; exact length_proofOrder_lt hn e.mem) hput⟩

end Kernel
end Aion.Cuda
