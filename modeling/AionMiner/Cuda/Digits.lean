import AionMiner.Cuda.Equi
import AionMiner.Solver.Layers

/-! The kernels of the CUDA solver as sequences of placements: what each of them
reads, and that whole runs of `digitH` and `digit_1 .. digit_8` are the rounds of
the scheme. -/

namespace Aion.Cuda
open Bits Equihash Solver Store Equi

section Writes

theorem slot_ext {s t : Slot} (h : ∀ k, slotByte s k = slotByte t k) : s = t := by
  funext w
  refine word_eq_iff.mpr fun i hi => ?_
  have := h (4 * w + i)
  rwa [slotByte, slotByte, show (4 * w + i) / 4 = w by omega, show (4 * w + i) % 4 = i by omega] at this

theorem runSteps_cons {γ : Type*} (f : γ → γ) (fs : List (γ → γ)) (c : γ) :
    runSteps (f :: fs) c = runSteps fs (f c) := rfl

theorem runSteps_append {γ : Type*} (fs gs : List (γ → γ)) (c : γ) :
    runSteps (fs ++ gs) c = runSteps gs (runSteps fs c) := by
  rw [runSteps, List.foldl_append, runSteps, runSteps]

theorem runSteps_memcpy (dst n : ℕ) (src : ℕ → Byte) (s : Slot) :
    runSteps ((List.range n).map fun k => memcpyBytes (dst + k) 1 fun _ => src k) s =
      memcpyBytes dst n src s := by
  induction n with
  | zero =>
    refine slot_ext fun k => ?_
    rw [slotByte_memcpyBytes, if_neg (by omega), List.range_zero, List.map_nil, runSteps,
      List.foldl_nil]
  | succ n ih =>
    rw [List.range_succ, List.map_append, runSteps_append, ih, List.map_singleton,
      runSteps_cons, runSteps, List.foldl_nil]
    refine slot_ext fun k => ?_
    rw [slotByte_memcpyBytes, slotByte_memcpyBytes, slotByte_memcpyBytes]
    by_cases hk : k = dst + n
    · rw [if_pos (by omega), if_pos (by omega), hk, Nat.add_sub_cancel_left]
    · by_cases hlt : dst ≤ k ∧ k < dst + n
      · rw [if_neg (by omega), if_pos hlt, if_pos (by omega)]
      · rw [if_neg (by omega), if_neg hlt, if_neg (by omega)]

theorem runSteps_updates (d n h : ℕ) (f : ℕ → Word) (s : Slot) (w : ℕ) :
    runSteps ((List.range' d n).map fun i (s : Slot) => Function.update s (h + (i - d)) (f i)) s w =
      if h ≤ w ∧ w < h + n then f (d + (w - h)) else s w := by
  induction n with
  | zero => rw [if_neg (by omega)]; rfl
  | succ n ih =>
    rw [List.range'_1_concat, List.map_append, runSteps_append, List.map_singleton,
      runSteps_cons, runSteps, List.foldl_nil, Nat.add_sub_cancel_left]
    by_cases hw : w = h + n
    · rw [hw, Function.update_self, if_pos (by omega), Nat.add_sub_cancel_left]
    · rw [Function.update_of_ne hw, ih]
      by_cases hlt : h ≤ w ∧ w < h + n
      · rw [if_pos hlt, if_pos (by omega)]
      · rw [if_neg hlt, if_neg (by omega)]

theorem runSteps_xorWrites {r : ℕ} (hr : 1 ≤ r) (hr8 : r ≤ 8) (e : Equi) (p : ℕ × ℕ × ℕ) :
    runSteps (xorWrites r e p) = entryWrite layout r (e.mem.prevHash layout r p.1 p.2.1)
      (e.mem.prevHash layout r p.1 p.2.2) (tree p.1 p.2.1 p.2.2) := by
  have hunits : prevhtunits r - dunits r = nexthtunits r := by
    obtain ⟨r, rfl⟩ := Nat.exists_eq_add_of_le' hr
    have := (sizes_succ r (by omega)).2
    rw [dunits, prevhtunits_succ]
    omega
  have htag := layout.tag_hash r (by omega)
  funext s w
  rw [xorWrites, runSteps_cons, runSteps_updates, hunits, entryWrite]
  by_cases hw : w = layout.tag r
  · rw [if_neg (by omega), if_pos hw, hw, Function.update_self]
  · rw [if_neg hw, Function.update_of_ne hw]

/-- The index of leaf `i` of a block. -/
def leafIndex (q : ℕ × ℕ) : ℕ := q.1 * 2 + q.2

theorem leafWrite_eq (ph : ℕ → Byte) (i : ℕ) (s : Slot) :
    memcpyBytes (4 * layout.hash 0 + nextbo 0) (hashsize 0) (fun k => ph (hashLen - hashsize 0 + k))
      (Function.update s (layout.tag 0) (BitVec.ofNat 32 i)) = leafWrite layout ph i s := by
  have htag : layout.tag 0 = 0 := rfl
  have hdst : 4 * layout.hash 0 + nextbo 0 = 6 := rfl
  refine slot_ext fun k => ?_
  rw [slotByte_memcpyBytes, hdst, htag]
  by_cases hk : k / 4 = 0
  · rw [if_neg (by omega), slotByte, slotByte, leafWrite, htag, hk, Function.update_self,
      if_pos rfl]
  · have hbyte := slotByte_memcpyBytes 6 (hashsize 0) (fun k => ph (hashLen - hashsize 0 + k)) s k
    have hleaf : slotByte (leafWrite layout ph i s) k =
        slotByte (memcpyBytes 6 (hashsize 0) (fun k => ph (hashLen - hashsize 0 + k)) s) k := by
      rw [slotByte, slotByte, leafWrite, htag, if_neg hk, hdst]
    rw [hleaf, hbyte]
    refine if_congr Iff.rfl rfl ?_
    rw [slotByte, slotByte, Function.update_of_ne hk]

theorem runSteps_leafWrites (H : Blake2b) (e : Equi) {q : ℕ × ℕ} (hq : q.2 < 2) :
    runSteps (leafWrites H e q) = leafWrite layout (leafHash H e.bstate (leafIndex q)) (leafIndex q) := by
  have hph : ∀ k < 26, ph H e q.1 q.2 (hashLen - hashsize 0 + k) =
      leafHash H e.bstate (leafIndex q) (hashLen - hashsize 0 + k) := fun k hk =>
    leafHash_block e.bstate q.1 hq (by change 27 - 26 + k < 27; omega)
  funext s
  rw [leafWrites, runSteps_cons, runSteps_memcpy]
  refine Eq.trans ?_ (leafWrite_eq (leafHash H e.bstate (leafIndex q)) (leafIndex q) s)
  refine slot_ext fun k => ?_
  rw [slotByte_memcpyBytes, slotByte_memcpyBytes]
  have hsz : hashsize 0 = 26 := rfl
  split
  · exact hph _ (by omega)
  · rfl

end Writes

section Collisions

theorem collisions_eq (r b : ℕ) (e : Equi) : collisions r b e =
    ((pairsBelow (e.mem.rest layout r b) (e.mem.bsize r b)).map fun p => (b, p),
      { e with mem := e.mem.withCount ((r - 1) % 2) b 0 }) := by
  have hloop := bucketLoop_eq (fun (_ : List (ℕ × ℕ × ℕ)) s => e.mem.rest layout r b s)
    (fun s0 s1 ps => ps ++ [(b, s0, s1)]) (n := e.mem.bsize r b) ⟨fun _ => 0, fun _ => 0, 0⟩ []
    (fun _ _ _ _ => rfl) (Nat.min_le_right _ _)
  have hmap : ∀ (ps : List (ℕ × ℕ)) acc,
      ps.foldl (fun (qs : List (ℕ × ℕ × ℕ)) p => qs ++ [(b, p.1, p.2)]) acc = acc ++ ps.map fun p => (b, p) := by
    intro ps
    induction ps with
    | nil => intro acc; rw [List.foldl_nil, List.map_nil, List.append_nil]
    | cons p ps ih => intro acc; rw [List.foldl_cons, ih, List.append_assoc, List.map_cons]; rfl
  rw [hmap, List.nil_append] at hloop
  exact Prod.ext hloop rfl

end Collisions

section Buckets

theorem buckets_withBuckets (i : ℕ) (e : Equi) (B : Buckets ℕ Slot) :
    (e.withBuckets i B).buckets i = B := by
  rw [Equi.buckets, Equi.withBuckets, Memory.buckets]
  dsimp only
  rw [Function.update_self, Function.update_self]

theorem withBuckets_withBuckets (i : ℕ) (e : Equi) (B B' : Buckets ℕ Slot) :
    (e.withBuckets i B).withBuckets i B' = e.withBuckets i B' := by
  rw [Equi.withBuckets, Equi.withBuckets, Equi.withBuckets, Function.update_idem,
    Function.update_idem]

theorem heap_withBuckets {i j : ℕ} (h : j ≠ i) (e : Equi) (B : Buckets ℕ Slot) :
    (e.withBuckets i B).mem.heap j = e.mem.heap j := Function.update_of_ne h _ _

theorem nslots_withBuckets {i j : ℕ} (h : j ≠ i) (e : Equi) (B : Buckets ℕ Slot) :
    (e.withBuckets i B).mem.nslots j = e.mem.nslots j := Function.update_of_ne h _ _

end Buckets

section Kernels
variable {H : Blake2b} {n : ℕ} {e e' : Equi}

theorem ph_congr {s s' : Equi} (h : s.bstate = s'.bstate) : ph H s = ph H s' := by
  funext block i k
  rw [ph, ph, h]

theorem prevHash_eq_of_view {r : ℕ} {s s' : Equi}
    (h : s.mem.heap ((r - 1) % 2) = s'.mem.heap ((r - 1) % 2)) :
    s.mem.prevHash layout r = s'.mem.prevHash layout r :=
  funext fun b => funext fun k => Memory.prevHash_congr h b k

theorem digitH_local (H : Blake2b) :
    (digitH H).Local (fun e => (e.bstate, e.mem.heap 1, e.mem.nslots 1, e.sols, e.nsols))
    (fun _ _ => ())
      fun _ => True where
  splits _ _ _ := rfl
  buckets_with := buckets_withBuckets 0
  with_with := withBuckets_withBuckets 0
  view_with s B := by
    change (s.bstate, (s.withBuckets 0 B).mem.heap 1, (s.withBuckets 0 B).mem.nslots 1, s.sols, s.nsols) = _
    rw [heap_withBuckets (by decide), nslots_withBuckets (by decide)]
  entry_with _ _ := rfl
  buckets_fetch _ _ := rfl
  view_fetch _ _ := rfl
  entry_fetch _ _ _ _ := rfl
  done _ _ := trivial
  fetch_eq _ _ _ _ _ := rfl
  skips_eq _ _ _ := rfl
  placement_eq s s' h := by
    have hph : ph H s = ph H s' := ph_congr (congrArg Prod.fst h)
    simp only [digitH, leafWrites, hph]
  steps_eq s s' h := by
    have hph : ph H s = ph H s' := ph_congr (congrArg Prod.fst h)
    change leafWrites H s = leafWrites H s'
    funext q
    rw [leafWrites, leafWrites, hph]

theorem digitXor_local {r : ℕ} (hr : 1 ≤ r) :
    (digitXor r).Local (fun e => (e.mem.heap ((r - 1) % 2), e.bstate, e.sols, e.nsols))
      (fun e => e.mem.nslots ((r - 1) % 2)) fun k => k = 0 where
  splits _ _ _ := rfl
  buckets_with := buckets_withBuckets (r % 2)
  with_with := withBuckets_withBuckets (r % 2)
  view_with s B := by
    change ((s.withBuckets (r % 2) B).mem.heap ((r - 1) % 2), s.bstate, s.sols, s.nsols) = _
    rw [heap_withBuckets (by omega)]
  entry_with s B := nslots_withBuckets (by omega) s B
  buckets_fetch b s := by
    change (collisions r b s).2.mem.buckets (r % 2) = _
    rw [collisions_eq]
    exact Memory.buckets_withCount_of_ne _ (by omega) _ _
  view_fetch b s := by
    change ((collisions r b s).2.mem.heap _, (collisions r b s).2.bstate, (collisions r b s).2.sols,
      (collisions r b s).2.nsols) = _
    rw [collisions_eq]
    rfl
  entry_fetch b s b' hb := by
    change (collisions r b s).2.mem.nslots _ b' = _
    rw [collisions_eq, Memory.withCount]
    dsimp only
    rw [Function.update_self, Function.update_of_ne hb]
  done b s := by
    change (collisions r b s).2.mem.nslots _ b = 0
    rw [collisions_eq, Memory.withCount]
    dsimp only
    rw [Function.update_self, Function.update_self]
  fetch_eq b s s' hview hentry := by
    change (collisions r b s).1 = (collisions r b s').1
    have hrest : s.mem.rest layout r b = s'.mem.rest layout r b :=
      funext fun k => Memory.rest_congr (congrArg Prod.fst hview) b k
    have hsize : s.mem.bsize r b = s'.mem.bsize r b := congrArg (min · nslotsMax) hentry
    rw [collisions_eq, collisions_eq, hrest, hsize]
  skips_eq s s' h := by
    have hprev : s.mem.prevHash layout r = s'.mem.prevHash layout r :=
      prevHash_eq_of_view (congrArg Prod.fst h)
    simp only [digitXor, hprev]
  placement_eq s s' h := by
    have hprev : s.mem.prevHash layout r = s'.mem.prevHash layout r :=
      prevHash_eq_of_view (congrArg Prod.fst h)
    simp only [digitXor, xorWrites, hprev]
  steps_eq s s' h := by
    have hprev : s.mem.prevHash layout r = s'.mem.prevHash layout r :=
      prevHash_eq_of_view (congrArg Prod.fst h)
    change xorWrites r s = xorWrites r s'
    funext p
    rw [xorWrites, xorWrites, hprev]

theorem requests_digitH (e : Equi) (block : ℕ) :
    (digitH H).requests e block = [(block, 0), (block, 1)] := rfl

theorem requests_digitXor {r : ℕ} (hr8 : r ≤ 8) (e : Equi) (b : ℕ) :
    (digitXor r).requests e b = e.mem.bucketPairs layout r b := by
  change ((collisions r b e).1.filter fun p => !equal r (e.mem.prevHash layout r p.1 p.2.1)
    (e.mem.prevHash layout r p.1 p.2.2)) = _
  rw [collisions_eq, List.filter_map, Memory.bucketPairs]
  refine congrArg (List.map _) (List.filter_congr fun p _ => ?_)
  rw [keeps, if_neg (by omega)]
  rfl

theorem placement_digitXor {r : ℕ} (hr : 1 ≤ r) (hr8 : r ≤ 8) (e : Equi) :
    (digitXor r).placement e = e.mem.roundPlacement layout r := by
  simp only [digitXor, Memory.roundPlacement, runSteps_xorWrites hr hr8]
  rfl

/-- The pairs of a round, bucket by bucket in the order of the threads. -/
def pairOrder (n r : ℕ) (M : Memory) : List (ℕ × ℕ × ℕ) := (gridOrder n nbuckets).flatMap (M.bucketPairs layout r)

theorem pairOrder_perm (hn : 0 < n) (r : ℕ) (M : Memory) :
    (pairOrder n r M).Perm (M.roundPairs layout r) :=
  (gridOrder_perm hn nbuckets).flatMap_right _

theorem requestOrder_digitXor {r : ℕ} (hr8 : r ≤ 8) (e : Equi) :
    (gridOrder n nbuckets).flatMap ((digitXor r).requests e) = pairOrder n r e.mem :=
  List.flatMap_congr fun b _ => requests_digitXor hr8 e b

/-- The leaves, block by block in the order of the threads. -/
def leafOrder (n : ℕ) : List ℕ := (gridOrder n nblocks).flatMap fun block => [block * 2, block * 2 + 1]

theorem leafOrder_perm (hn : 0 < n) : (leafOrder n).Perm (List.range nhashes) := by
  have hblocks : ∀ m, (List.range m).flatMap (fun block => [block * 2, block * 2 + 1]) = List.range (m * 2) := by
    intro m
    induction m with
    | zero => rfl
    | succ m ih =>
      rw [List.range_succ, List.flatMap_append, ih, List.flatMap_singleton, Nat.succ_mul,
        List.range_succ, List.range_succ, List.append_assoc]
      rfl
  have hperm := (gridOrder_perm hn nblocks).flatMap_right fun block => [block * 2, block * 2 + 1]
  rw [hblocks] at hperm
  exact hperm

theorem map_requestOrder_digitH (e : Equi) :
    ((gridOrder n nblocks).flatMap ((digitH H).requests e)).map leafIndex = leafOrder n := by
  rw [List.map_flatMap]
  exact List.flatMap_congr fun block _ => rfl

theorem putAll_digitH (e : Equi) (B : Buckets ℕ Slot) {qs : List (ℕ × ℕ)} (hqs : ∀ q ∈ qs, q.2 < 2) :
    B.putAll ((digitH H).placement e) qs = B.putAll (leafPlacement layout H e.bstate) (qs.map leafIndex) := by
  refine Buckets.putAll_map leafIndex rfl rfl (fun q hq => ⟨?_, runSteps_leafWrites H e (hqs q hq)⟩) B
  exact congrArg BitVec.toNat (bucketid0_congr (leafHash_block e.bstate q.1 (hqs q hq) (by decide))
    (leafHash_block e.bstate q.1 (hqs q hq) (by decide)))

theorem mem_requests_digitH {e : Equi} {bs : List ℕ} {q : ℕ × ℕ}
    (hq : q ∈ bs.flatMap ((digitH H).requests e)) : q.2 < 2 := by
  obtain ⟨b, -, hq⟩ := List.mem_flatMap.mp hq
  rw [requests_digitH, List.mem_cons, List.mem_singleton] at hq
  rcases hq with rfl | rfl
  · exact Nat.zero_lt_two
  · exact Nat.one_lt_two

/-- `digitH` places all leaves, in an order that depends on the interleaving. -/
theorem digitH_leavesOf (hn : 0 < n) (hzero : ∀ b < nbuckets, e.mem.nslots 0 b = 0)
    (hrun : (digitH H).Runs n nblocks e e') :
    LeavesOf layout H e.bstate e.mem e'.mem ∧ e'.sols = e.sols ∧ e'.nsols = e.nsols := by
  have hlen : ((gridOrder n nblocks).flatMap ((digitH H).requests e)).length < 2 ^ 32 := by
    rw [← List.length_map (f := leafIndex), map_requestOrder_digitH, (leafOrder_perm hn).length_eq,
      List.length_range]
    exact (by decide : nhashes < 2 ^ 32)
  obtain ⟨⟨qs, hqs, hput⟩, hview, -⟩ := hrun.serializes (digitH_local H) hn
    (fun q => hzero _ (lt_of_eq_of_lt (bucketid0_eq (ph H e q.1 q.2)) (bucketOf_lt 0 _))) hlen
  simp only [Prod.mk.injEq] at hview
  refine ⟨⟨⟨qs.map leafIndex, ?_, ?_⟩, hview.2.2.1⟩, hview.2.2.2⟩
  · exact (hqs.map leafIndex).trans (by rw [map_requestOrder_digitH]; exact leafOrder_perm hn)
  · rw [← putAll_digitH e _ fun q hq => mem_requests_digitH (hqs.mem_iff.mp hq)]
    exact hput

/-- `digit_1 .. digit_8` place all their pairs, in an order that depends on the interleaving. -/
theorem digitXor_roundOf {r : ℕ} (hr : 1 ≤ r) (hr8 : r ≤ 8) (hn : 0 < n)
    (hzero : ∀ b < nbuckets, e.mem.nslots (r % 2) b = 0)
    (hrun : (digitXor r).Runs n nbuckets e e') :
    RoundOf layout r e.mem e'.mem ∧ e'.sols = e.sols ∧ e'.nsols = e.nsols := by
  have hlen : ((gridOrder n nbuckets).flatMap ((digitXor r).requests e)).length < 2 ^ 32 := by
    rw [requestOrder_digitXor hr8, (pairOrder_perm hn r e.mem).length_eq]
    exact length_roundPairs_lt
  obtain ⟨⟨qs, hqs, hput⟩, hview, hdone⟩ := hrun.serializes (digitXor_local hr) hn
    (fun q => hzero _ (xorbucketid_lt hr hr8)) hlen
  rw [requestOrder_digitXor hr8] at hqs
  rw [placement_digitXor hr hr8] at hput
  simp only [Prod.mk.injEq] at hview
  exact ⟨⟨⟨qs, hqs.trans (pairOrder_perm hn r e.mem), hput⟩, hview.1, hdone⟩, hview.2.2⟩

theorem digit_eq {r : ℕ} (hr : 1 ≤ r) (hr8 : r ≤ 8) : digit r = digitXor r := by
  interval_cases r <;> rfl

end Kernels

section Solve
variable {H : Blake2b} {n : ℕ} {header nonce : List Byte} {start : Equi} {e : ℕ → Equi}

/-- The kernels of a solve are rounds of the scheme over the initial hash state. -/
theorem Solve.rounds (hs : Solve H n header nonce start e) (hn : 0 < n)
    (hzero : ∀ b < nbuckets, start.mem.nslots 1 b = 0) :
    Solver.Rounds layout H (setheader header nonce) (fun r => (e r).mem) ∧
    ∀ r ≤ 8, (e r).nsols = 0 := by
  obtain ⟨hleaves, -, hnsols⟩ := digitH_leavesOf hn (fun _ _ => rfl) hs.digitH
  have key : ∀ r ≤ 8, (∀ b < nbuckets, (e r).mem.nslots ((r + 1) % 2) b = 0) ∧ (e r).nsols = 0 ∧
      ∀ k < r, RoundOf layout (k + 1) (e k).mem (e (k + 1)).mem := by
    intro r
    induction r with
    | zero =>
      refine fun _ => ⟨fun b hb => ?_, hnsols, fun k hk => absurd hk (Nat.not_lt_zero k)⟩
      rw [hleaves.other]
      exact hzero b hb
    | succ r ih =>
      intro hr
      obtain ⟨h1, h2, h3⟩ := ih (by omega)
      have hrun := hs.digit (r + 1) (by omega) hr
      rw [digit_eq (by omega) hr, Nat.add_sub_cancel] at hrun
      obtain ⟨hround, -, hns⟩ := digitXor_roundOf (by omega) hr hn h1 hrun
      refine ⟨fun b hb => ?_, hns.trans h2, fun k hk => ?_⟩
      · have := hround.cleared b hb
        rwa [Nat.add_sub_cancel, show r % 2 = (r + 1 + 1) % 2 by omega] at this
      · rcases Nat.lt_succ_iff_lt_or_eq.mp hk with hk | rfl
        · exact h3 k hk
        · exact hround
  refine ⟨⟨⟨(start.setheadernonce header nonce).mem, fun _ _ => rfl, ?_, hleaves⟩, fun r hr => ?_⟩,
    fun r hr => (key r hr).2.1⟩
  · intro b hb
    exact hzero b hb
  · exact (key 8 (Nat.le_refl 8)).2.2 r hr

end Solve
end Aion.Cuda
