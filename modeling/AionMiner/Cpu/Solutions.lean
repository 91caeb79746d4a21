import AionMiner.Cpu.Candidates
import AionMiner.Solver.Planted

/-! What a solve of the CPU miner records: only vectors the verifier accepts, and
every accepted vector that no round has reason to drop. -/

namespace Aion.Cpu
open Bits Equihash Solver Store Wagner Equi

section Record
variable {H : Blake2b} {base : Blake2bState} {E : ℕ → Memory}

/-- The state after `candidate` was called on the pairs `ps`, in this order. -/
structure Recorded (E : ℕ → Memory) (ps : List (ℕ × ℕ × ℕ)) (e : Equi) : Prop where
  heap : e.mem.heap = (E 8).heap
  calls : e.calls = ps.map fun p => tree p.1 p.2.1 p.2.2
  nsols : ps.length < 2 ^ 32 → e.nsols = (vectors (forestOf layout E) ps).length
  sols : ps.length < 2 ^ 32 → ∀ s < maxsols, ∀ v, (vectors (forestOf layout E) ps)[s]? = some v → e.sols s = v

/-- A pair of the last layer lists as its order, or repeats an index. -/
theorem yields_candidate (hE : Solver.Rounds layout H base E) {mem : Memory}
    (hmem : mem.heap = (E 8).heap) {p : ℕ × ℕ × ℕ}
    (hp : (forestOf layout E).IsPair (scheme H base) 8 p) :
    Yields (listindices1 mem 9 (tree p.1 p.2.1 p.2.2))
    ((forestOf layout E).pairTree 8 p).order := by
  have hcap : ∀ b, (forestOf layout E).count 8 b ≤ nslotsMax := fun b => Nat.min_le_right _ _
  exact (yields_listindices hE hmem (Nat.le_refl 8) (decode_tree hp.bucket
    (Nat.lt_of_lt_of_le hp.stored_left (hcap _)) (Nat.lt_of_lt_of_le hp.stored (hcap _)))).2 rfl

theorem counted_iff (hE : Solver.Rounds layout H base E) {mem : Memory}
    (hmem : mem.heap = (E 8).heap) {p : ℕ × ℕ × ℕ}
    (hp : (forestOf layout E).IsPair (scheme H base) 8 p) :
    counted mem (tree p.1 p.2.1 p.2.2) = true ↔ ((forestOf layout E).pairTree 8 p).order.Nodup := by
  have hdup := duped_eq_false_iff (length_order_pairTree (forestOf layout E) p)
  rw [counted]
  rcases yields_candidate hE hmem hp with h | ⟨h, hnd⟩
  · rw [h, ← hdup]
    dsimp only
    rw [Bool.not_eq_true']
  · rw [h]
    exact ⟨fun hf => absurd hf Bool.false_ne_true, fun hn => absurd hn hnd⟩

theorem Recorded.candidate (hE : Solver.Rounds layout H base E) {ps : List (ℕ × ℕ × ℕ)} {e : Equi}
    (hR : Recorded E ps e) {p : ℕ × ℕ × ℕ} (hp : (forestOf layout E).IsPair (scheme H base) 8 p) :
    Recorded E (ps ++ [p]) (candidate (tree p.1 p.2.1 p.2.2) e) := by
  have hcounted := counted_iff hE hR.heap hp
  have hyields := yields_candidate hE hR.heap hp
  set v := ((forestOf layout E).pairTree 8 p).order with hv
  have hlt : (ps ++ [p]).length < 2 ^ 32 → ps.length < 2 ^ 32 := by
    rw [List.length_append]; omega
  refine ⟨?_, ?_, fun hlen => ?_, fun hlen s hs w hw => ?_⟩
  · rw [candidate_mem]
    exact hR.heap
  · rw [candidate_calls, hR.calls, List.map_append, List.map_singleton]
  · rw [candidate_nsols, vectors_append]
    by_cases hnd : v.Nodup
    · have hle := length_vectors_le (forestOf layout E) ps
      rw [if_pos (hcounted.mpr hnd), if_pos hnd, List.length_append, List.length_singleton,
        hR.nsols (hlt hlen)]
      rw [List.length_append, List.length_singleton] at hlen
      exact Nat.mod_eq_of_lt (by omega)
    · rw [if_neg (mt hcounted.mp hnd), if_neg hnd]
      exact hR.nsols (hlt hlen)
  · rw [candidate_sols, stored]
    rw [vectors_append] at hw
    by_cases hnd : v.Nodup
    · rw [if_pos hnd] at hw
      rw [hcounted.mpr hnd, hyields.eq_some hnd, Bool.true_and, hR.nsols (hlt hlen)]
      rcases Nat.lt_trichotomy s (vectors (forestOf layout E) ps).length with hslt | hseq | hsgt
      · rw [List.getElem?_append_left hslt] at hw
        rw [← hR.sols (hlt hlen) s hs w hw]
        split
        · rw [Function.update_of_ne (Nat.ne_of_lt hslt)]
        · rfl
      · rw [hseq, List.getElem?_concat_length] at hw
        rw [hseq] at hs ⊢
        rw [decide_eq_true hs, if_pos rfl]
        dsimp only
        rw [Function.update_self]
        exact Option.some.inj hw
      · rw [List.getElem?_eq_none_iff.mpr (by rw [List.length_append, List.length_singleton]; omega)] at hw
        cases hw
    · rw [if_neg hnd] at hw
      rw [Bool.eq_false_of_not_eq_true (mt hcounted.mp hnd), Bool.false_and,
        if_neg Bool.false_ne_true]
      exact hR.sols (hlt hlen) s hs w hw

theorem Recorded.candidates (hE : Solver.Rounds layout H base E) {e : Equi} (hR : Recorded E [] e)
    {ps : List (ℕ × ℕ × ℕ)} (hps : ∀ p ∈ ps, (forestOf layout E).IsPair (scheme H base) 8 p) :
    Recorded E ps (candidates (pairTrees ps) e) := by
  induction ps using List.reverseRecOn with
  | nil => exact hR
  | append_singleton ps p ih =>
    rw [pairTrees, List.map_append, List.map_singleton, candidates_append]
    have hfirst := ih fun q hq => hps q (List.mem_append_left _ hq)
    exact hfirst.candidate hE (hps p (List.mem_append_right _ (List.mem_singleton_self p)))

/-- The candidates of `digit9` are the joined pairs of the last layer. -/
theorem Recorded.digit9 (hE : Solver.Rounds layout H base E) {e : Equi} (hmem : e.mem = E 8)
    (hnsols : e.nsols = 0) (hcalls : e.calls = []) :
    Recorded E ((E 8).roundPairs layout 9) e.digit9 := by
  have hagree := digit9_agree e
  have hstart : Recorded E [] e := ⟨congrArg Memory.heap hmem, hcalls, fun _ => hnsols, fun _ _ _ _ h => by cases h⟩
  have hpairs : ∀ p ∈ (E 8).roundPairs layout 9, (forestOf layout E).IsPair (scheme H base) 8 p :=
    fun p hp => (mem_roundPairs_iff (by decide) (hE.layer (Nat.le_refl 8))).mp hp
  have hR := hstart.candidates hE hpairs
  rw [hmem] at hagree
  refine ⟨?_, ?_, fun hlen => ?_, fun hlen => ?_⟩
  · rw [hagree.heap]
    exact hR.heap
  · rw [hagree.calls]
    exact hR.calls
  · rw [hagree.nsols]
    exact hR.nsols hlen
  · rw [hagree.sols]
    exact hR.sols hlen

end Record

section Run
variable {H : Blake2b} {header nonce : List Byte}

def memAfter (H : Blake2b) (header nonce : List Byte) (r : ℕ) : Memory := (after H header nonce r).mem

theorem rounds_memAfter (H : Blake2b) (header nonce : List Byte) :
    Solver.Rounds layout H (setheader header nonce) (memAfter H header nonce) :=
  rounds_after H header nonce

theorem recorded_after (H : Blake2b) (header nonce : List Byte) :
    Recorded (memAfter H header nonce) ((memAfter H header nonce 8).roundPairs layout 9)
    (after H header nonce 9) := by
  obtain ⟨hnsols, hcalls⟩ := log_after H header nonce (Nat.le_refl 8)
  have hE := rounds_memAfter H header nonce
  have hlast : after H header nonce 9 = (after H header nonce 8).digit9 := by rw [after, Equi.digit]
  rw [hlast]
  exact Recorded.digit9 hE (by rw [memAfter]) hnsols hcalls

theorem setheader_eq (header nonce : List Byte) :
    setheader header nonce = initialiseState.update (header ++ nonce) := by
  have htext : ([0x41, 0x49, 0x4f, 0x4e, 0x30, 0x50, 0x6f, 0x57, 0x30, 0x31, 0x32, 0x33, 0x30, 0x31,
    0x32, 0x33] : List Byte).take 8 = personalPrefix := rfl
  simp only [setheader, initialiseState, Blake2bState.update, List.nil_append, htext,
    List.append_assoc]

theorem nsols_after (H : Blake2b) (header nonce : List Byte) : (after H header nonce 9).nsols =
    (vectors (forestOf layout (memAfter H header nonce)) ((memAfter H header nonce 8).roundPairs layout 9)).length :=
  (recorded_after H header nonce).nsols length_roundPairs_lt

theorem nsols_le (H : Blake2b) (header nonce : List Byte) :
    (after H header nonce 9).nsols ≤ ((memAfter H header nonce 8).roundPairs layout 9).length := by
  rw [nsols_after]
  exact length_vectors_le _ _

theorem mem_roundPairs_final {p : ℕ × ℕ × ℕ} :
    p ∈ (memAfter H header nonce 8).roundPairs layout 9 ↔
      (forestOf layout (memAfter H header nonce)).IsPair (scheme H (setheader header nonce)) 8 p :=
  mem_roundPairs_iff (by decide) ((rounds_memAfter H header nonce).layer (Nat.le_refl 8))

/-- As long as `sols` has room, it holds the vectors of the last layer. -/
theorem mem_recorded_iff (hmax : (after H header nonce 9).nsols ≤ maxsols) {v : List ℕ} :
    v ∈ recordedVectors (after H header nonce 9).sols (after H header nonce 9).nsols ↔
      v ∈ vectors (forestOf layout (memAfter H header nonce))
      ((memAfter H header nonce 8).roundPairs layout 9) := by
  have hsols := (recorded_after H header nonce).sols length_roundPairs_lt
  have hlen := nsols_after H header nonce
  constructor
  · rintro ⟨-, s, hs, rfl⟩
    have hs' : s < (after H header nonce 9).nsols := Nat.lt_of_lt_of_le hs (Nat.min_le_left _ _)
    rw [hlen] at hs'
    rw [hsols s (Nat.lt_of_lt_of_le hs (Nat.min_le_right _ _)) _ (List.getElem?_eq_getElem hs')]
    exact List.getElem_mem hs'
  · intro hv
    obtain ⟨s, hs, rfl⟩ := List.mem_iff_getElem.mp hv
    rw [← hlen] at hs
    have hs' : s < maxsols := Nat.lt_of_lt_of_le hs hmax
    exact ⟨(mem_vectors.mp hv).1, s, Nat.lt_min.mpr ⟨hs, hs'⟩,
      hsols s hs' _ (List.getElem?_eq_getElem _)⟩

/-- Soundness of the CPU solver: every recorded proof packs to an accepted solution. -/
theorem sols_accepted (H : Blake2b) (header nonce : List Byte) (s : ℕ)
    (hs : s < min (after H header nonce 9).nsols maxsols) :
    ∃ soln, Miner.getMinimalFromIndices ((after H header nonce 9).sols s) 21 = some soln ∧
      isValidSolution H (initialiseState.update (header ++ nonce)) soln = true := by
  have hR := recorded_after H header nonce
  have hn : s < (vectors (forestOf layout (memAfter H header nonce))
      ((memAfter H header nonce 8).roundPairs layout 9)).length := by
    rw [← nsols_after]
    exact Nat.lt_of_lt_of_le hs (Nat.min_le_left _ _)
  have hsol := hR.sols length_roundPairs_lt s (Nat.lt_of_lt_of_le hs (Nat.min_le_right _ _)) _
    (List.getElem?_eq_getElem hn)
  obtain ⟨hlen, hlt, hbal⟩ := (rounds_memAfter H header nonce).balanced_of_mem (List.getElem_mem hn)
  rw [hsol]
  refine ⟨_, miner_getMinimalFromIndices_eq hlen, ?_⟩
  rw [← setheader_eq]
  exact (isValidSolution_pack_iff hlen hlt).mpr ((balanced_joins_iff hlen).mp hbal).1

theorem nsols_pos_of_planted (hH : Planted H (setheader header nonce)) :
    0 < (after H header nonce 9).nsols := by
  rw [nsols_after]
  exact List.length_pos_of_mem ((rounds_memAfter H header nonce).planted_mem hH)

theorem sols_accepted_planted :
    ∃ soln, Miner.getMinimalFromIndices
        ((after plantedHash (List.replicate 32 0) (List.replicate 32 0) 9).sols 0) 21 = some soln ∧
      isValidSolution plantedHash (initialiseState.update (List.replicate 32 0 ++ List.replicate 32 0))
        soln = true :=
  sols_accepted plantedHash (List.replicate 32 0) (List.replicate 32 0) 0
    (Nat.lt_min.mpr ⟨nsols_pos_of_planted (planted_plantedHash _), by decide⟩)

/-- Completeness of the CPU solver: without overflow an accepted vector whose subtrees keep a
nonzero last word reaches `candidate` in exactly one call, and that call counts it. -/
theorem accepted_found (H : Blake2b) (header nonce : List Byte) (hover : NoOverflow (memAfter H header nonce))
    (v : List ℕ) (hlen : v.length = 512) (hlt : ∀ i ∈ v, i < 2 ^ 22) (soln : List Byte)
    (hsoln : Miner.getMinimalFromIndices v 21 = some soln)
    (hvalid : isValidSolution H (initialiseState.update (header ++ nonce)) soln = true)
    (hlast : ∀ h, 1 ≤ h → h ≤ 8 → ∀ k < 2 ^ (9 - h),
      ¬LastZero (xorHash H (initialiseState.update (header ++ nonce)) (block v h k))) :
    (∃! n : ℕ, ∃ t, (after H header nonce 9).calls[n]? = some t ∧
      listindices1 (after H header nonce 9).mem 9 t = some v) ∧
    (∀ t, listindices1 (after H header nonce 9).mem 9 t = some v → counted (after H header nonce 9).mem t = true) ∧
    (after H header nonce 9).nsols =
      ((after H header nonce 9).calls.filter (counted (after H header nonce 9).mem)).length := by
  have hE := rounds_memAfter H header nonce
  have hR := recorded_after H header nonce
  set E := memAfter H header nonce with hEdef
  set mem := (after H header nonce 9).mem with hmemdef
  rw [miner_getMinimalFromIndices_eq hlen, Option.some_inj] at hsoln
  rw [← hsoln, ← setheader_eq, isValidSolution_pack_iff hlen hlt] at hvalid
  rw [← setheader_eq] at hlast
  have hbal := (balanced_joins_iff hlen).mpr ⟨hvalid, hlast⟩
  have hnodup : v.Nodup := (balanced_disjoint_iff.mp (hbal.imp fun _ _ _ _ _ _ _ _ hP => hP.disjoint)).2
  obtain ⟨p, ⟨hp, hpv⟩, huniq⟩ := Forest.existsUnique_pairTree hE.sound (hE.complete hover) hbal hlt
  have hlists : ∀ q ∈ (E 8).roundPairs layout 9,
      (listindices1 mem 9 (tree q.1 q.2.1 q.2.2) = some v ↔ q = p) := by
    intro q hq
    have hqpair := mem_roundPairs_final.mp hq
    constructor
    · intro hv
      refine huniq q ⟨hqpair, ?_⟩
      rcases yields_candidate hE hR.heap hqpair with h | ⟨h, -⟩
      · exact Option.some.inj (h.symm.trans hv)
      · rw [h] at hv
        cases hv
    · rintro rfl
      rw [← hpv]
      exact (yields_candidate hE hR.heap hqpair).eq_some (by rwa [hpv])
  have hpmem := mem_roundPairs_final.mpr hp
  obtain ⟨n, hn, hnp⟩ := List.mem_iff_getElem.mp hpmem
  refine ⟨⟨n, ⟨tree p.1 p.2.1 p.2.2, ?_, (hlists p hpmem).mpr rfl⟩, ?_⟩, fun t ht => ?_, ?_⟩
  · rw [hR.calls, List.getElem?_map, List.getElem?_eq_getElem hn, hnp, Option.map_some]
  · rintro m ⟨t, ht, htv⟩
    rw [hR.calls, List.getElem?_map] at ht
    obtain ⟨q, hq, rfl⟩ := Option.map_eq_some_iff.mp ht
    obtain ⟨hm, hmq⟩ := List.getElem?_eq_some_iff.mp hq
    have hqp := (hlists q (List.mem_of_getElem? hq)).mp htv
    exact nodup_roundPairs.getElem_inj_iff.mp (hmq.trans (hqp.trans hnp.symm))
  · rw [counted, ht]
    dsimp only
    rw [(duped_eq_false_iff hlen).mpr hnodup]
    rfl
  · rw [nsols_after, hR.calls, vectors, List.filter_map, List.filter_map, List.length_map,
      List.length_map]
    refine congrArg List.length (List.filter_congr fun q hq => ?_)
    rw [Function.comp_apply, Function.comp_apply, Bool.eq_iff_iff, decide_eq_true_iff,
      counted_iff hE hR.heap (mem_roundPairs_final.mp hq)]

theorem accepted_found_planted :
    (∃! n : ℕ, ∃ t, (after plantedHash (List.replicate 32 0) (List.replicate 32 0) 9).calls[n]? = some t ∧
      listindices1 (after plantedHash (List.replicate 32 0) (List.replicate 32 0) 9).mem 9 t = some (run 9 0)) ∧
    (∀ t, listindices1 (after plantedHash (List.replicate 32 0) (List.replicate 32 0) 9).mem 9 t = some (run 9 0) →
      counted (after plantedHash (List.replicate 32 0) (List.replicate 32 0) 9).mem t = true) ∧
    (after plantedHash (List.replicate 32 0) (List.replicate 32 0) 9).nsols =
      ((after plantedHash (List.replicate 32 0) (List.replicate 32 0) 9).calls.filter
        (counted (after plantedHash (List.replicate 32 0) (List.replicate 32 0) 9).mem)).length := by
  have hlen : (run 9 0).length = 512 := List.length_range' ..
  have hlt : ∀ i ∈ run 9 0, i < 2 ^ 22 := run_lt_nhashes (by decide) (by decide)
  have hH : Planted plantedHash (initialiseState.update (List.replicate 32 0 ++ List.replicate 32 0)) :=
    planted_plantedHash _
  exact accepted_found plantedHash (List.replicate 32 0) (List.replicate 32 0)
    ((rounds_memAfter plantedHash _ _).noOverflow_of_planted (planted_plantedHash _)) (run 9 0) hlen hlt _
    (miner_getMinimalFromIndices_eq hlen) ((isValidSolution_pack_iff hlen hlt).mpr (balanced_of_planted hH).1)
      (balanced_of_planted hH).2

end Run
end Aion.Cpu
