import AionMiner.Cpu.Digits
import AionMiner.Solver.Listing
import Mathlib.Data.List.Sort

/-! `candidate`: the walk down the heaps lists the ordered leaves of a tree, and
gives up only on trees with a repeated leaf. `digit9` is a run of such calls. -/

namespace Aion.Cpu
open Bits Equihash Solver Store Wagner Equi

/-- A listing is the given vector, or was given up because the vector repeats an index. -/
def Yields (result : Option (List ℕ)) (v : List ℕ) : Prop :=
  result = some v ∨ (result = none ∧ ¬v.Nodup)

section Join
variable {first second : Option (List ℕ)} {a b : List ℕ}

theorem Yields.eq_some {result : Option (List ℕ)} {v : List ℕ} (h : Yields result v)
    (hnd : v.Nodup) : result = some v := by
  rcases h with h | ⟨-, h⟩
  · exact h
  · exact absurd hnd h

theorem yields_joinIndices {r : ℕ} (ha : a.length = 2 ^ r) (hb : b.length = 2 ^ r)
    (h1 : Yields first a) (h2 : Yields second b) :
    Yields (joinIndices (1 <<< r) first second) (mergeOrder a b) := by
  have hpos := Nat.two_pow_pos r
  have hnodup : (mergeOrder a b).Nodup → a.Nodup ∧ b.Nodup := fun h => by
    have := List.nodup_append'.mp ((mergeOrder_perm a b).nodup_iff.mp h)
    exact ⟨this.1, this.2.1⟩
  rw [joinIndices, Nat.shiftLeft_eq, Nat.one_mul]
  rcases h1 with rfl | ⟨rfl, hna⟩
  · rcases h2 with rfl | ⟨rfl, hnb⟩
    · rw [Option.bind_some, Option.bind_some, orderindices_append ha hb hpos]
      dsimp only
      split
      · next heq =>
        exact Or.inr ⟨rfl, fun hnd => mergeOrder_heads_ne ha hb hpos hnd (beq_iff_eq.mp heq)⟩
      · exact Or.inl rfl
    · exact Or.inr ⟨rfl, fun hnd => hnb (hnodup hnd).2⟩
  · exact Or.inr ⟨rfl, fun hnd => hna (hnodup hnd).1⟩

theorem xor_eq_zero_of_shift {x y : Word} {n : ℕ} (h : ((x ^^^ y) >>> n).toNat = 0) :
    (x >>> n).toNat = (y >>> n).toNat := by
  rw [BitVec.ushiftRight_xor_distrib] at h
  have hz : (x >>> n) ^^^ (y >>> n) = 0#32 := BitVec.eq_of_toNat_eq h
  rw [BitVec.xor_eq_zero_iff.mp hz]

theorem xor_eq_zero_of_mask {x y m : Word} (h : ((x ^^^ y) &&& m).toNat = 0) :
    (x &&& m).toNat = (y &&& m).toNat := by
  have hdistrib : (x ^^^ y) &&& m = (x &&& m) ^^^ (y &&& m) := BitVec.eq_of_getLsbD_eq fun i _ => by
    simp only [BitVec.getLsbD_and, BitVec.getLsbD_xor, Bool.and_xor_distrib_right]
  rw [hdistrib] at h
  have hz : (x &&& m) ^^^ (y &&& m) = 0#32 := BitVec.eq_of_toNat_eq h
  rw [BitVec.xor_eq_zero_iff.mp hz]

/-- Trees the filter turns down lie in one bucket and share their first or their second slot. -/
theorem shared_of_probDisjoint {t0 t1 : Word} (h : probDisjoint t0 t1 = false) :
    bucketid t0 = bucketid t1 ∧ (slotid0 t0 = slotid0 t1 ∨ slotid1 t0 = slotid1 t1) := by
  simp only [probDisjoint, Bool.or_eq_false_iff, bne_eq_false_iff_eq, Bool.and_eq_false_iff] at h
  refine ⟨xor_eq_zero_of_shift h.1, h.2.imp (fun h0 => ?_) fun h1 => xor_eq_zero_of_mask h1⟩
  rw [slotid0, BitVec.ushiftRight_xor_distrib] at h0
  exact xor_eq_zero_of_mask h0

end Join

section Listing
variable {H : Blake2b} {base : Blake2bState} {E : ℕ → Memory}

theorem length_order_pair (F : Forest ℕ) (h : ℕ) (p : ℕ × ℕ × ℕ) :
    (F.tree h p.1 p.2.1).order.length = 2 ^ h ∧ (F.tree h p.1 p.2.2).order.length = 2 ^ h :=
  ⟨Forest.length_order_tree .., Forest.length_order_tree ..⟩

theorem not_nodup_of_shared {F : Forest ℕ} {h b s0 s1 : ℕ}
    (hb : (F.pairAt (h + 1) b s0).1 = (F.pairAt (h + 1) b s1).1)
    (hs : (F.pairAt (h + 1) b s0).2.1 = (F.pairAt (h + 1) b s1).2.1 ∨
      (F.pairAt (h + 1) b s0).2.2 = (F.pairAt (h + 1) b s1).2.2) :
    ¬(F.pairTree (h + 1) (b, s0, s1)).order.Nodup := by
  intro hnd
  have hdisj := (List.nodup_append'.mp ((mergeOrder_perm _ _).nodup_iff.mp hnd)).2.2
  have hmem : ∀ s, ∀ i ∈ (F.tree h (F.pairAt (h + 1) b s).1 (F.pairAt (h + 1) b s).2.1).order ++
      (F.tree h (F.pairAt (h + 1) b s).1 (F.pairAt (h + 1) b s).2.2).order,
      i ∈ (F.tree (h + 1) b s).order :=
    fun s i hi => (mergeOrder_perm _ _).mem_iff.mpr hi
  rcases hs with hs | hs
  · obtain ⟨i, hi⟩ := List.exists_mem_of_length_pos
      (l := (F.tree h (F.pairAt (h + 1) b s0).1 (F.pairAt (h + 1) b s0).2.1).order)
      (by rw [Forest.length_order_tree]; exact Nat.two_pow_pos h)
    refine hdisj (hmem s0 i (List.mem_append_left _ hi)) (hmem s1 i (List.mem_append_left _ ?_))
    rwa [hb, hs] at hi
  · obtain ⟨i, hi⟩ := List.exists_mem_of_length_pos
      (l := (F.tree h (F.pairAt (h + 1) b s0).1 (F.pairAt (h + 1) b s0).2.2).order)
      (by rw [Forest.length_order_tree]; exact Nat.two_pow_pos h)
    refine hdisj (hmem s0 i (List.mem_append_right _ hi)) (hmem s1 i (List.mem_append_right _ ?_))
    rwa [hb, hs] at hi

/-- Every tree node lists the leaves below it; even heights start in `listindices0`, odd ones in
`listindices1`. -/
theorem yields_listindices (hE : Solver.Rounds layout H base E) {mem : Memory} (hmem : mem.heap = (E 8).heap) :
    ∀ {r : ℕ}, r ≤ 8 → ∀ {t : Word} {p : ℕ × ℕ × ℕ}, decode t = p →
      (r % 2 = 1 → Yields (listindices0 mem (r + 1) t) ((forestOf layout E).pairTree r p).order) ∧
      (r % 2 = 0 → Yields (listindices1 mem (r + 1) t) ((forestOf layout E).pairTree r p).order) := by
  intro r
  induction r with
  | zero =>
    rintro - t p rfl
    refine ⟨fun h => absurd h (by decide), fun _ => ?_⟩
    have hleaf : ∀ s, Yields (listindices0 mem 0 (mem.heap 0 (bucketid t) s (hashwords (hashsize 0))))
        ((forestOf layout E).tree 0 (bucketid t) s).order := fun s => by
      refine Or.inl ?_
      rw [listindices0, hmem]
      exact congrArg (fun i => some [i]) (hE.getindex_tag (bucketid t) s)
    exact yields_joinIndices (length_order_pair _ 0 _).1 (length_order_pair _ 0 _).2 (hleaf _) (hleaf _)
  | succ r ih =>
    rintro hr t p rfl
    have hnode : ∀ s, decode (mem.heap ((r + 1) % 2) (bucketid t) s (hashwords (hashsize (r + 1)))) =
        (forestOf layout E).pairAt (r + 1) (bucketid t) s := fun s => by
      rw [hmem]
      exact hE.decode_tag hr (bucketid t) s
    refine ⟨fun hpar => ?_, fun hpar => ?_⟩
    · rw [hpar] at hnode
      have hchild : ∀ s, Yields (listindices1 mem (r + 1) (mem.heap 1 (bucketid t) s (hashwords (hashsize (r + 1)))))
          ((forestOf layout E).tree (r + 1) (bucketid t) s).order := fun s =>
        (ih (by omega) (hnode s)).2 (by omega)
      rw [listindices0]
      split
      · next hshared =>
        rw [Bool.not_eq_true'] at hshared
        obtain ⟨hb, hs⟩ := shared_of_probDisjoint hshared
        have h0 := hnode (slotid0 t)
        have h1 := hnode (slotid1 t)
        refine Or.inr ⟨rfl, not_nodup_of_shared (h := r) ?_ ?_⟩
        · rw [← h0, ← h1]
          exact hb
        · rw [← h0, ← h1]
          exact hs
      · exact yields_joinIndices (length_order_pair _ _ _).1 (length_order_pair _ _ _).2 (hchild _) (hchild _)
    · rw [hpar] at hnode
      have hchild : ∀ s, Yields (listindices0 mem (r + 1) (mem.heap 0 (bucketid t) s (hashwords (hashsize (r + 1)))))
          ((forestOf layout E).tree (r + 1) (bucketid t) s).order := fun s =>
        (ih (by omega) (hnode s)).1 (by omega)
      rw [listindices1]
      exact yields_joinIndices (length_order_pair _ _ _).1 (length_order_pair _ _ _).2 (hchild _) (hchild _)

end Listing

/-- `duped` finds a repeated index whenever there is one. -/
theorem duped_eq_false_iff {prf : List ℕ} (hlen : prf.length = 512) :
    duped prf = false ↔ prf.Nodup := by
  set s := prf.mergeSort fun a b => decide (a ≤ b) with hs
  have hperm : s.Perm prf := List.mergeSort_perm prf _
  have hslen : s.length = 512 := hperm.length_eq.trans hlen
  have hsorted : s.Pairwise (· ≤ ·) := by
    have htrans : ∀ a b c : ℕ, decide (a ≤ b) = true → decide (b ≤ c) = true → decide (a ≤ c) = true := by
      simpa using fun a b c => Nat.le_trans
    have htotal : ∀ a b : ℕ, (decide (a ≤ b) || decide (b ≤ a)) = true := by
      simpa using Nat.le_total
    have := List.pairwise_mergeSort htrans htotal prf
    simpa using this
  have hiff : duped prf = false ↔ ∀ i, i + 1 < 512 → s.getD i 0 < s.getD (i + 1) 0 := by
    rw [duped, ← hs, List.any_eq_false]
    simp only [List.mem_range, decide_eq_true_eq, Nat.not_le]
    exact ⟨fun h i hi => h i (show i < 511 by omega),
      fun h i hi => h i (show i + 1 < 512 from Nat.succ_lt_succ hi)⟩
  rw [hiff, ← hperm.nodup_iff]
  constructor
  · intro h
    have hchain : s.IsChain (· < ·) := List.isChain_iff_getElem.mpr fun i hi => by
      have := h i (by omega)
      rwa [List.getD_eq_getElem _ _ (by omega), List.getD_eq_getElem _ _ hi] at this
    exact hchain.pairwise.imp fun hlt => Nat.ne_of_lt hlt
  · intro hnd i hi
    rw [List.getD_eq_getElem _ _ (by omega), List.getD_eq_getElem _ _ (by omega)]
    have hle := List.pairwise_iff_getElem.mp hsorted i (i + 1) (by omega) (by omega) (Nat.lt_succ_self i)
    refine Nat.lt_of_le_of_ne hle fun heq => ?_
    exact absurd (hnd.getElem_inj_iff.mp heq) (by omega)

section Calls

/-- Whether `candidate` counts a tree as a solution. -/
def counted (mem : Memory) (t : Word) : Bool :=
  match listindices1 mem 9 t with
  | none => false
  | some prf => !duped prf

/-- The proof that `candidate` copies into `sols`, when it copies one. -/
def stored (t : Word) (e : Equi) : Option (List ℕ) :=
  if counted e.mem t && decide (e.nsols < maxsols) then listindices1 e.mem 9 t else none

theorem candidate_calls (t : Word) (e : Equi) : (candidate t e).calls = e.calls ++ [t] := by
  rw [candidate]
  dsimp only
  split
  · rfl
  · split <;> rfl

theorem candidate_nsols (t : Word) (e : Equi) :
    (candidate t e).nsols = if counted e.mem t then (e.nsols + 1) % 2 ^ 32 else e.nsols := by
  rw [candidate, counted]
  dsimp only
  cases listindices1 e.mem 9 t with
  | none => rfl
  | some prf =>
    cases hd : duped prf with
    | false => simp [hd]
    | true => simp [hd]

theorem candidate_sols (t : Word) (e : Equi) :
    (candidate t e).sols = match stored t e with
      | some prf => Function.update e.sols e.nsols prf
      | none => e.sols := by
  rw [candidate, stored, counted]
  dsimp only
  cases hlist : listindices1 e.mem 9 t with
  | none => rfl
  | some prf =>
    cases hd : duped prf with
    | true => simp [hd]
    | false =>
      by_cases hn : e.nsols < maxsols
      · simp [hd, hn]
      · simp [hd, hn]

def candidates (ts : List Word) (e : Equi) : Equi := ts.foldl (fun e t => candidate t e) e

theorem candidates_append (ts : List Word) (t : Word) (e : Equi) :
    candidates (ts ++ [t]) e = candidate t (candidates ts e) := by
  rw [candidates, List.foldl_append, candidates]
  rfl

theorem candidates_mem (ts : List Word) (e : Equi) : (candidates ts e).mem = e.mem := by
  induction ts using List.reverseRecOn with
  | nil => rfl
  | append_singleton ts t ih => rw [candidates_append, candidate_mem, ih]

theorem candidates_calls (ts : List Word) (e : Equi) : (candidates ts e).calls = e.calls ++ ts := by
  induction ts using List.reverseRecOn with
  | nil => exact (List.append_nil _).symm
  | append_singleton ts t ih => rw [candidates_append, candidate_calls, ih, List.append_assoc]

/-- States that `candidate` cannot tell apart. -/
structure Agree (e e' : Equi) : Prop where
  heap : e.mem.heap = e'.mem.heap
  sols : e.sols = e'.sols
  nsols : e.nsols = e'.nsols
  calls : e.calls = e'.calls

theorem listindices_congr {mem mem' : Memory} (h : mem.heap = mem'.heap) (r : ℕ) :
    listindices0 mem r = listindices0 mem' r ∧ listindices1 mem r = listindices1 mem' r := by
  induction r with
  | zero =>
    refine ⟨funext fun t => ?_, funext fun t => ?_⟩
    · rw [listindices0, listindices0]
    · rw [listindices1, listindices1]
  | succ r ih =>
    refine ⟨funext fun t => ?_, funext fun t => ?_⟩
    · rw [listindices0, listindices0, h, ih.2]
    · rw [listindices1, listindices1, h, ih.1]

theorem counted_congr {mem mem' : Memory} (h : mem.heap = mem'.heap) (t : Word) :
    counted mem t = counted mem' t := by
  rw [counted, counted, (listindices_congr h 9).2]

theorem stored_congr {e e' : Equi} (h : Agree e e') (t : Word) : stored t e = stored t e' := by
  rw [stored, stored, counted_congr h.heap, h.nsols, (listindices_congr h.heap 9).2]

theorem Agree.candidate {e e' : Equi} (h : Agree e e') (t : Word) :
    Agree (candidate t e) (candidate t e') where
  heap := by rw [candidate_mem, candidate_mem, h.heap]
  sols := by rw [candidate_sols, candidate_sols, stored_congr h, h.sols, h.nsols]
  nsols := by rw [candidate_nsols, candidate_nsols, counted_congr h.heap, h.nsols]
  calls := by rw [candidate_calls, candidate_calls, h.calls]

def pairTrees (ps : List (ℕ × ℕ × ℕ)) : List Word := ps.map fun p => tree p.1 p.2.1 p.2.2

/-- `digit9` calls `candidate` on the pairs it joins, and does nothing else to the solutions. -/
theorem digit9_agree (e : Equi) :
    Agree e.digit9 (candidates (pairTrees (e.mem.roundPairs layout 9)) e) := by
  set kept := fun p : ℕ × ℕ × ℕ =>
    keeps 9 (e.mem.prevHash layout 9 p.1 p.2.1) (e.mem.prevHash layout 9 p.1 p.2.2) with hkept
  have hrule := eachPair_rule (r := 9) digit9Pair (e := e)
    (I := fun qs e' => Agree e' (candidates (pairTrees (qs.filter kept)) e))
    (fun b s0 s1 e' => by rw [digit9Pair_mem]) (fun b s0 s1 e' => by rw [digit9Pair_mem])
    ⟨rfl, rfl, rfl, rfl⟩
    (fun qs e' b hI => ⟨hI.heap, hI.sols, hI.nsols, hI.calls⟩)
    (fun qs e' b s0 s1 _ hh hI => by
      rw [List.filter_append, digit9Pair, Memory.prevHash_congr hh, Memory.prevHash_congr hh]
      split
      · next hk =>
        have hkb : kept (b, s0, s1) = true := hk
        have hsingle : [(b, s0, s1)].filter kept = [(b, s0, s1)] := by simp [hkb]
        rw [hsingle, pairTrees, List.map_append, List.map_singleton, candidates_append]
        exact hI.candidate _
      · next hk =>
        have hkb : kept (b, s0, s1) = false := Bool.eq_false_of_not_eq_true hk
        have hsingle : [(b, s0, s1)].filter kept = [] := by simp [hkb]
        rw [hsingle, List.append_nil]
        exact hI)
  have hfinal := hrule.1
  rwa [filter_allPairs] at hfinal

end Calls
end Aion.Cpu
