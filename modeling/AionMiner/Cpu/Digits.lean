import AionMiner.Cpu.Equi
import AionMiner.Solver.Layers

/-! The loops of the CPU solver as sequences of placements: one rule for a round
over any handler of pairs, and from it that `digit0 .. digit8` are the rounds of
the scheme. -/

namespace Aion.Cpu
open Bits Equihash Solver Store Equi

section Rule
variable {r : ℕ}

/-- The pairs of equal rest bits of a whole round, in the order in which it meets them. -/
def allPairs (r : ℕ) (M : Memory) : List (ℕ × ℕ × ℕ) :=
  (List.range nbuckets).flatMap fun b =>
    (pairsBelow (M.rest layout r b) (M.bsize r b)).map fun p => (b, p)

theorem filter_allPairs (M : Memory) :
    (allPairs r M).filter (fun p => keeps r (M.prevHash layout r p.1 p.2.1) (M.prevHash layout r p.1 p.2.2)) =
      M.roundPairs layout r := by
  rw [allPairs, List.filter_flatMap, Memory.roundPairs]
  refine List.flatMap_congr fun b _ => ?_
  rw [List.filter_map, Memory.bucketPairs]
  rfl

/-- What a handler of pairs keeps, the collisions of a bucket keep. -/
theorem foldl_pairs_rule (pair : ℕ → ℕ → ℕ → Equi → Equi) {I : List (ℕ × ℕ × ℕ) → Equi → Prop} {e : Equi}
    (hheap : ∀ b s0 s1 e', (pair b s0 s1 e').mem.heap ((r - 1) % 2) = e'.mem.heap ((r - 1) % 2))
    (hcount : ∀ b s0 s1 e', (pair b s0 s1 e').mem.nslots ((r - 1) % 2) = e'.mem.nslots ((r - 1) % 2))
    (hpair : ∀ qs e' b s0 s1, (b, s0, s1) ∈ allPairs r e.mem →
      e'.mem.heap ((r - 1) % 2) = e.mem.heap ((r - 1) % 2) → I qs e' → I (qs ++ [(b, s0, s1)]) (pair b s0 s1 e'))
    {b : ℕ} {ps : List (ℕ × ℕ)} (hmem : ∀ p ∈ ps, (b, p) ∈ allPairs r e.mem) (qs : List (ℕ × ℕ × ℕ)) (e' : Equi)
    (hh : e'.mem.heap ((r - 1) % 2) = e.mem.heap ((r - 1) % 2)) (hI : I qs e') :
    I (qs ++ ps.map fun p => (b, p)) (ps.foldl (fun e p => pair b p.1 p.2 e) e') ∧
      (ps.foldl (fun e p => pair b p.1 p.2 e) e').mem.heap ((r - 1) % 2) = e.mem.heap ((r - 1) % 2) ∧
      (ps.foldl (fun e p => pair b p.1 p.2 e) e').mem.nslots ((r - 1) % 2) = e'.mem.nslots ((r - 1) % 2) := by
  induction ps generalizing qs e' with
  | nil => exact ⟨by rw [List.map_nil, List.append_nil]; exact hI, hh, rfl⟩
  | cons p ps ih =>
    obtain ⟨h1, h2, h3⟩ := ih (fun p hp => hmem p (List.mem_cons_of_mem _ hp)) (qs ++ [(b, p)])
      (pair b p.1 p.2 e') ((hheap b p.1 p.2 e').trans hh) (hpair qs e' b p.1 p.2 (hmem p List.mem_cons_self) hh hI)
    rw [List.append_assoc, List.singleton_append] at h1
    exact ⟨h1, h2, h3.trans (hcount b p.1 p.2 e')⟩

/-- What a handler of pairs keeps, the round keeps: `I` relates the pairs met so far to the state. -/
theorem eachPair_rule (pair : ℕ → ℕ → ℕ → Equi → Equi) {I : List (ℕ × ℕ × ℕ) → Equi → Prop} {e : Equi}
    (hheap : ∀ b s0 s1 e', (pair b s0 s1 e').mem.heap ((r - 1) % 2) = e'.mem.heap ((r - 1) % 2))
    (hcount : ∀ b s0 s1 e', (pair b s0 s1 e').mem.nslots ((r - 1) % 2) = e'.mem.nslots ((r - 1) % 2))
    (hinit : I [] e) (hclear : ∀ qs e' b, I qs e' → I qs { e' with mem := e'.mem.withCount ((r - 1) % 2) b 0 })
    (hpair : ∀ qs e' b s0 s1, (b, s0, s1) ∈ allPairs r e.mem →
      e'.mem.heap ((r - 1) % 2) = e.mem.heap ((r - 1) % 2) → I qs e' → I (qs ++ [(b, s0, s1)]) (pair b s0 s1 e')) :
    I (allPairs r e.mem) (eachPair r pair e) ∧
      (eachPair r pair e).mem.heap ((r - 1) % 2) = e.mem.heap ((r - 1) % 2) ∧
      ∀ b < nbuckets, (eachPair r pair e).mem.nslots ((r - 1) % 2) b = 0 := by
  set i := (r - 1) % 2 with hi
  have key : ∀ n ≤ nbuckets, ∀ e', e' = (List.range n).foldl (fun e bucketid =>
      bucketLoop (fun e s => e.mem.rest layout r bucketid s) (pair bucketid)
        (e.mem.getnslots i bucketid).1 ⟨fun _ => 0, fun _ => 0, 0⟩
        { e with mem := (e.mem.getnslots i bucketid).2 }) e →
      I ((List.range n).flatMap fun b =>
        (pairsBelow (e.mem.rest layout r b) (e.mem.bsize r b)).map fun p => (b, p)) e' ∧
        e'.mem.heap i = e.mem.heap i ∧
        ∀ b, e'.mem.nslots i b = if b < n then 0 else e.mem.nslots i b := by
    intro n
    induction n with
    | zero =>
      rintro - e' rfl
      exact ⟨hinit, rfl, fun b => rfl⟩
    | succ n ih =>
      rintro hn e' rfl
      rw [List.range_succ, List.foldl_append, List.foldl_cons, List.foldl_nil]
      obtain ⟨hI, hh, hc⟩ := ih (by omega) _ rfl
      set e1 := (List.range n).foldl (fun e bucketid =>
        bucketLoop (fun e s => e.mem.rest layout r bucketid s) (pair bucketid)
          (e.mem.getnslots i bucketid).1 ⟨fun _ => 0, fun _ => 0, 0⟩
          { e with mem := (e.mem.getnslots i bucketid).2 }) e with he1
      have hsize : (e1.mem.getnslots i n).1 = e.mem.bsize r n := by
        rw [Memory.getnslots, Memory.bsize, hc n, if_neg (Nat.lt_irrefl n)]
      have hrest : (fun s => Memory.rest layout r (e1.mem.getnslots i n).2 n s) = e.mem.rest layout r n :=
        funext fun s => Memory.rest_congr hh n s
      have hloop := bucketLoop_eq (fun (e : Equi) s => e.mem.rest layout r n s) (pair n)
        (n := e.mem.bsize r n) ⟨fun _ => 0, fun _ => 0, 0⟩ { e1 with mem := (e1.mem.getnslots i n).2 }
        (fun e s0 s1 s => Memory.rest_congr (hheap n s0 s1 e) n s) (Nat.min_le_right _ _)
      rw [hsize, hloop]
      dsimp only
      rw [hrest]
      have hmem : ∀ p ∈ pairsBelow (e.mem.rest layout r n) (e.mem.bsize r n), (n, p) ∈ allPairs r e.mem :=
        fun p hp => List.mem_flatMap.mpr ⟨n, List.mem_range.mpr (by omega), List.mem_map.mpr ⟨p, hp, rfl⟩⟩
      obtain ⟨h1, h2, h3⟩ := foldl_pairs_rule pair hheap hcount hpair hmem _
        { e1 with mem := (e1.mem.getnslots i n).2 } hh (hclear _ e1 n hI)
      rw [List.flatMap_append, List.flatMap_singleton]
      refine ⟨h1, h2, fun b => ?_⟩
      rw [h3]
      dsimp only [Memory.getnslots, Memory.withCount]
      rw [Function.update_self]
      by_cases hb : b = n
      · rw [hb, Function.update_self, if_pos (Nat.lt_succ_self n)]
      · rw [Function.update_of_ne hb, hc b]
        by_cases hlt : b < n
        · rw [if_pos hlt, if_pos (by omega)]
        · rw [if_neg hlt, if_neg (by omega)]
  obtain ⟨h1, h2, h3⟩ := key nbuckets (Nat.le_refl _) (eachPair r pair e) rfl
  exact ⟨h1, h2, fun b hb => by rw [h3 b, if_pos hb]⟩

end Rule

section Entries

theorem storeXor_apply {r : ℕ} (hash0 hash1 slot : Slot) (w : ℕ) :
    storeXor r hash0 hash1 slot w =
      if w < prevhtunits r - dunits r then hash0 (dunits r + w) ^^^ hash1 (dunits r + w) else slot w := by
  rw [storeXor]
  induction prevhtunits r - dunits r with
  | zero => rfl
  | succ n ih =>
    rw [List.range_succ, List.foldl_append, List.foldl_cons, List.foldl_nil]
    by_cases hw : w = n
    · rw [hw, Function.update_self, if_pos (Nat.lt_succ_self n)]
    · rw [Function.update_of_ne hw, ih]
      by_cases hlt : w < n
      · rw [if_pos hlt, if_pos (by omega)]
      · rw [if_neg hlt, if_neg (by omega)]

theorem nexthtunits_eq {r : ℕ} (hr : 1 ≤ r) (hr8 : r ≤ 8) :
    prevhtunits r - dunits r = nexthtunits r := by
  obtain ⟨r, rfl⟩ := Nat.exists_eq_add_of_le' hr
  have := (sizes_succ r (by omega)).2
  rw [dunits, prevhtunits_succ]
  omega

theorem storeXor_eq_entryWrite {r : ℕ} (hr : 1 ≤ r) (hr8 : r ≤ 8) (hash0 hash1 : Slot) (t : Word)
    (slot : Slot) : Function.update (storeXor r hash0 hash1 slot) (prevhtunits r - dunits r) t =
      entryWrite layout r hash0 hash1 t slot := by
  funext w
  rw [entryWrite, nexthtunits_eq hr hr8]
  change _ = if w = nexthtunits r then t else if 0 ≤ w ∧ w < 0 + nexthtunits r then _ else _
  by_cases hw : w = nexthtunits r
  · rw [hw, Function.update_self, if_pos rfl]
  · rw [Function.update_of_ne hw, if_neg hw, storeXor_apply, nexthtunits_eq hr hr8, Nat.zero_add]
    simp only [Nat.zero_le, true_and]
    rfl

theorem leafWrite_eq (ph ph' : ℕ → Byte) (hph : ∀ k < hashLen, ph k = ph' k) (i : ℕ) (slot : Slot) :
    Function.update (memcpyBytes (4 * nexthtunits 0 - hashsize 0) (hashsize 0)
      (fun k => ph (hashLen - hashsize 0 + k)) slot) (nexthtunits 0) (BitVec.ofNat 32 i) =
      leafWrite layout ph' i slot := by
  funext w
  rw [leafWrite]
  change _ = if w = nexthtunits 0 then _ else _
  by_cases hw : w = nexthtunits 0
  · rw [hw, Function.update_self, if_pos rfl]
  · rw [Function.update_of_ne hw, if_neg hw]
    refine congrArg wordOfBytes (funext fun k => ?_)
    have hlen : hashLen - hashsize 0 = 1 := rfl
    have hsz : hashsize 0 = 26 := rfl
    have h27 : hashLen = 27 := rfl
    have hdst : 4 * layout.hash 0 + nextbo 0 = 4 * nexthtunits 0 - hashsize 0 := rfl
    rw [hdst]
    split
    · next h => exact hph _ (by omega)
    · rfl

end Entries

section Rounds
variable {H : Blake2b} {e : Equi}

theorem digit0Leaf_spec (block : ℕ) {j : ℕ} (hj : j < 2) (e : Equi) :
    (digit0Leaf H block j e).mem.buckets 0 =
        (e.mem.buckets 0).put (leafPlacement layout H e.bstate) (block * 2 + j) ∧
      (digit0Leaf H block j e).bstate = e.bstate ∧
        (digit0Leaf H block j e).mem.nslots 1 = e.mem.nslots 1 := by
  set P := leafPlacement layout H e.bstate with hP
  have hkey : (bucketid0 fun k => H (e.bstate.update (le32 block)) (j * hashLen + k)).toNat =
      P.key (block * 2 + j) :=
    congrArg BitVec.toNat (bucketid0_congr (leafHash_block e.bstate block hj (by decide))
      (leafHash_block e.bstate block hj (by decide)))
  refine ⟨?_, rfl, Memory.nslots_place_of_ne e.mem (by decide) _ _⟩
  rw [← Memory.buckets_place e.mem 0 P (block * 2 + j) rfl rfl, ← hkey]
  refine congrArg (fun w => (e.mem.place 0 _ w).buckets 0) (funext fun slot => ?_)
  exact leafWrite_eq _ _ (fun k hk => leafHash_block e.bstate block hj hk) _ slot

theorem digit0_leavesOf (H : Blake2b) (e : Equi) :
    LeavesOf layout H e.bstate e.mem (e.digit0 H).mem := by
  have hblock : ∀ block (e' : Equi), (List.range hashesPerBlake).foldl (fun e j => digit0Leaf H block j e) e' =
      digit0Leaf H block 1 (digit0Leaf H block 0 e') := fun _ _ => rfl
  have key : ∀ n, ∀ e', e' = (List.range n).foldl (fun e block =>
      (List.range hashesPerBlake).foldl (fun e j => digit0Leaf H block j e) e) e →
      e'.mem.buckets 0 = (e.mem.buckets 0).putAll (leafPlacement layout H e.bstate) (List.range (2 * n)) ∧
        e'.bstate = e.bstate ∧ e'.mem.nslots 1 = e.mem.nslots 1 := by
    intro n
    induction n with
    | zero =>
      rintro e' rfl
      exact ⟨rfl, rfl, rfl⟩
    | succ n ih =>
      rintro e' rfl
      rw [List.range_succ, List.foldl_append, List.foldl_cons, List.foldl_nil, hblock]
      obtain ⟨h1, h2, h3⟩ := ih _ rfl
      obtain ⟨a1, a2, a3⟩ := digit0Leaf_spec (H := H) n (j := 0) (by decide) ((List.range n).foldl
        (fun e block => (List.range hashesPerBlake).foldl (fun e j => digit0Leaf H block j e) e) e)
      obtain ⟨b1, b2, b3⟩ := digit0Leaf_spec (H := H) n (j := 1) (by decide) (digit0Leaf H n 0
        ((List.range n).foldl (fun e block => (List.range hashesPerBlake).foldl
          (fun e j => digit0Leaf H block j e) e) e))
      refine ⟨?_, b2.trans (a2.trans h2), b3.trans (a3.trans h3)⟩
      rw [b1, a1, a2, h1, h2, Nat.add_zero, Nat.mul_comm n 2, show 2 * (n + 1) = 2 * n + 1 + 1 by omega,
        List.range_succ, List.range_succ, Buckets.putAll_append_singleton,
        Buckets.putAll_append_singleton]
  obtain ⟨h1, -, h3⟩ := key nblocks (e.digit0 H) rfl
  rw [show 2 * nblocks = nhashes from rfl] at h1
  exact ⟨⟨List.range nhashes, List.Perm.refl _, h1⟩, h3⟩

theorem bstate_digit0 (H : Blake2b) (e : Equi) : (e.digit0 H).bstate = e.bstate ∧
    (e.digit0 H).sols = e.sols ∧ (e.digit0 H).nsols = e.nsols ∧ (e.digit0 H).calls = e.calls := by
  rw [digit0]
  induction nblocks with
  | zero => exact ⟨rfl, rfl, rfl, rfl⟩
  | succ n ih =>
    rw [List.range_succ, List.foldl_append]
    exact ih

theorem digitPair_heap {r i : ℕ} (hne : i ≠ r % 2) (b s0 s1 : ℕ) (e : Equi) :
    (digitPair r b s0 s1 e).mem.heap i = e.mem.heap i := by
  rw [digitPair]
  split
  · rfl
  · exact Memory.heap_place_of_ne _ hne _ _

theorem digitPair_nslots {r i : ℕ} (hne : i ≠ r % 2) (b s0 s1 : ℕ) (e : Equi) :
    (digitPair r b s0 s1 e).mem.nslots i = e.mem.nslots i := by
  rw [digitPair]
  split
  · rfl
  · exact Memory.nslots_place_of_ne _ hne _ _

/-- `digit1 .. digit8` place all their pairs, in the order in which the loops meet them. -/
theorem eachPair_digitPair {r : ℕ} (hr : 1 ≤ r) (hr8 : r ≤ 8) (e : Equi) :
    RoundOf layout r e.mem (eachPair r (digitPair r) e).mem ∧
      (eachPair r (digitPair r) e).nsols = e.nsols ∧
      (eachPair r (digitPair r) e).calls = e.calls := by
  have hne : (r - 1) % 2 ≠ r % 2 := by omega
  set P := e.mem.roundPlacement layout r with hP
  set kept := fun p : ℕ × ℕ × ℕ =>
    keeps r (e.mem.prevHash layout r p.1 p.2.1) (e.mem.prevHash layout r p.1 p.2.2) with hkept
  have hrule := eachPair_rule (r := r) (digitPair r) (e := e)
    (I := fun qs e' => e'.mem.buckets (r % 2) = (e.mem.buckets (r % 2)).putAll P (qs.filter kept) ∧
      e'.nsols = e.nsols ∧ e'.calls = e.calls)
    (digitPair_heap hne) (digitPair_nslots hne) ⟨rfl, rfl, rfl⟩
    (fun qs e' b hI => ⟨(Memory.buckets_withCount_of_ne _ hne.symm _ _).trans hI.1, hI.2⟩)
    (fun qs e' b s0 s1 _ hh hI => by
      have h0 := Memory.prevHash_congr (L := layout) hh b s0
      have h1 := Memory.prevHash_congr (L := layout) hh b s1
      have hkeep : kept (b, s0, s1) = !equal r (e'.mem.prevHash layout r b s0) (e'.mem.prevHash layout r b s1) := by
        rw [h0, h1, hkept]
        exact if_neg (by omega)
      rw [List.filter_append, digitPair]
      dsimp only
      split
      · next heq =>
        rw [heq] at hkeep
        rw [List.filter_singleton, hkeep]
        simpa using hI
      · next heq =>
        rw [Bool.not_eq_true] at heq
        rw [heq] at hkeep
        refine ⟨?_, hI.2⟩
        have hput := Memory.buckets_place e'.mem (r % 2) P (b, s0, s1) rfl rfl
        have hsingle : [(b, s0, s1)].filter kept = [(b, s0, s1)] := by simp [hkeep]
        rw [hsingle, Buckets.putAll_append_singleton, ← hI.1, ← hput, h0, h1]
        refine congrArg (fun w => (e'.mem.place (r % 2) _ w).buckets (r % 2)) (funext fun slot => ?_)
        exact storeXor_eq_entryWrite hr hr8 _ _ _ slot)
  obtain ⟨⟨hbuckets, hrest⟩, hheap, hzero⟩ := hrule
  refine ⟨⟨⟨e.mem.roundPairs layout r, List.Perm.refl _, ?_⟩, hheap, hzero⟩, hrest⟩
  rw [hbuckets, ← filter_allPairs]

theorem candidate_mem (t : Word) (e : Equi) : (candidate t e).mem = e.mem := by
  rw [candidate]
  dsimp only
  split
  · rfl
  · split <;> rfl

theorem digit9Pair_mem (b s0 s1 : ℕ) (e : Equi) : (digit9Pair b s0 s1 e).mem = e.mem := by
  rw [digit9Pair]
  split
  · exact candidate_mem _ _
  · rfl

theorem digit_roundOf {r : ℕ} (hr : 1 ≤ r) (hr8 : r ≤ 8) (e : Equi) :
    RoundOf layout r e.mem (e.digit r).mem ∧ (e.digit r).nsols = e.nsols ∧
    (e.digit r).calls = e.calls := by
  have h := eachPair_digitPair hr hr8 e
  interval_cases r <;> exact h

/-- The digits of a solve are rounds of the scheme over the initial hash state. -/
theorem rounds_after (H : Blake2b) (header nonce : List Byte) :
    Solver.Rounds layout H (setheader header nonce) fun r => (after H header nonce r).mem where
  start := ⟨(Equi.new.setnonce header nonce).mem, fun _ _ => rfl, fun _ _ => rfl,
    digit0_leavesOf H (Equi.new.setnonce header nonce)⟩
  round r hr := (digit_roundOf (by omega) (by omega) (after H header nonce r)).1

theorem log_after (H : Blake2b) (header nonce : List Byte) {r : ℕ} (hr : r ≤ 8) :
    (after H header nonce r).nsols = 0 ∧ (after H header nonce r).calls = [] := by
  induction r with
  | zero =>
    obtain ⟨-, -, h1, h2⟩ := bstate_digit0 H (Equi.new.setnonce header nonce)
    exact ⟨h1, h2⟩
  | succ r ih =>
    obtain ⟨-, h1, h2⟩ := digit_roundOf (r := r + 1) (by omega) hr (after H header nonce r)
    obtain ⟨i1, i2⟩ := ih (by omega)
    exact ⟨h1.trans i1, h2.trans i2⟩

end Rounds
end Aion.Cpu
