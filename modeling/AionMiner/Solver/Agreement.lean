import AionMiner.Solver.Layers

/-! Two solves that serve their requests in the same order: whatever was left in the
memories they start from, they agree on every entry they store. -/

namespace Aion.Solver
open Bits Equihash Wagner Store

/-- The rounds when the leaves come in the order `leaves` and the buckets are read in the order `order`. -/
structure InOrder (L : Layout) (H : Blake2b) (base : Blake2bState) (leaves order : List ℕ) (E : ℕ → Memory) :
    Prop where
  rounds : Rounds L H base E
  leaf_perm : leaves.Perm (List.range nhashes)
  order_perm : order.Perm (List.range nbuckets)
  leaf : ∃ M : Memory, (∀ b < nbuckets, M.nslots 0 b = 0) ∧
    (E 0).buckets 0 = (M.buckets 0).putAll (leafPlacement L H base) leaves
  pair : ∀ r < 8, (E (r + 1)).buckets ((r + 1) % 2) =
    ((E r).buckets ((r + 1) % 2)).putAll ((E r).roundPlacement L (r + 1))
      (order.flatMap ((E r).bucketPairs L (r + 1)))

def Agree (F F' : Forest ℕ) (r : ℕ) : Prop :=
  ∀ b < nbuckets, F.count r b = F'.count r b ∧ ∀ s < F.count r b, F.tree r b s = F'.tree r b s

section Agree
variable {L : Layout} {H : Blake2b} {base : Blake2bState} {leaves order : List ℕ} {E E' : ℕ → Memory}

theorem InOrder.leafServed (h : InOrder L H base leaves order E) :
    LeafServed L H base E leaves := by
  obtain ⟨M, hM, hput⟩ := h.leaf
  exact leafServed_of hM h.leaf_perm hput

theorem InOrder.served (h : InOrder L H base leaves order E) {r : ℕ} (hr : r < 8) :
    Served L H base E r (order.flatMap ((E r).bucketPairs L (r + 1))) :=
  (h.rounds.layer (by omega)).served hr (h.order_perm.flatMap_right _) (h.pair r hr)

theorem agree_zero (h : InOrder L H base leaves order E) (h' : InOrder L H base leaves order E') :
    Agree (forestOf L E) (forestOf L E') 0 := by
  intro b hb
  have hcount : (forestOf L E).count 0 b = (forestOf L E').count 0 b := by
    change min ((E 0).nslots 0 b) nslotsMax = min ((E' 0).nslots 0 b) nslotsMax
    rw [h.leafServed.count b hb, h'.leafServed.count b hb]
  refine ⟨hcount, fun s hs => ?_⟩
  have hentry := (h.leafServed.entry b hb s hs).1
  rw [(h'.leafServed.entry b hb s (hcount ▸ hs)).1] at hentry
  rw [Forest.tree, Forest.tree, Option.some.inj hentry]

/-- Agreeing entries have agreeing hashes, of which the memories hold the same part. -/
theorem Agree.holds (h : InOrder L H base leaves order E)
    (h' : InOrder L H base leaves order E') {r : ℕ} (hr : r ≤ 8)
    (ha : Agree (forestOf L E) (forestOf L E') r) {b s : ℕ} (hb : b < nbuckets)
    (hs : s < (forestOf L E).count r b) :
    ∃ g, Holds (r + 1) (slotByte ((E r).prevHash L (r + 1) b s)) g ∧
      Holds (r + 1) (slotByte ((E' r).prevHash L (r + 1) b s)) g := by
  obtain ⟨hcount, htree⟩ := ha b hb
  refine ⟨_, (h.rounds.layer hr).holds b hb s hs, ?_⟩
  have := (h'.rounds.layer hr).holds b hb s (hcount ▸ hs)
  rwa [Forest.hash, ← htree s hs] at this

/-- The next round meets the same pairs in the same order. -/
theorem Agree.bucketPairs (h : InOrder L H base leaves order E)
    (h' : InOrder L H base leaves order E') {r : ℕ} (hr : r ≤ 8)
    (ha : Agree (forestOf L E) (forestOf L E') r) {b : ℕ} (hb : b < nbuckets) :
    (E r).bucketPairs L (r + 1) b = (E' r).bucketPairs L (r + 1) b := by
  have hsize : (E r).bsize (r + 1) b = (E' r).bsize (r + 1) b := (ha b hb).1
  have hlt : ∀ s, s < (E r).bsize (r + 1) b → s < (forestOf L E).count r b := fun s hs => hs
  have hrest : ∀ s < (E r).bsize (r + 1) b, (E r).rest L (r + 1) b s =
      (E' r).rest L (r + 1) b s := by
    intro s hs
    obtain ⟨g, hg, hg'⟩ := ha.holds h h' hr hb (hlt s hs)
    rw [Memory.rest, Memory.rest, xhash_eq (by omega) (by omega) hg,
      xhash_eq (by omega) (by omega) hg']
  rw [Memory.bucketPairs, Memory.bucketPairs, ← hsize, ← pairsBelow_congr hrest]
  refine congrArg (List.map _) (List.filter_congr fun p hp => ?_)
  obtain ⟨h01, h1, -⟩ := mem_pairsBelow.mp hp
  obtain ⟨g0, hg0, hg0'⟩ := ha.holds h h' hr hb (hlt _ (Nat.lt_trans h01 h1))
  obtain ⟨g1, hg1, hg1'⟩ := ha.holds h h' hr hb (hlt _ h1)
  rw [Bool.eq_iff_iff, keeps_iff (by omega) hg0 hg1, keeps_iff (by omega) hg0' hg1']

theorem Agree.pairs (h : InOrder L H base leaves order E)
    (h' : InOrder L H base leaves order E') {r : ℕ} (hr : r ≤ 8)
    (ha : Agree (forestOf L E) (forestOf L E') r) :
    order.flatMap ((E r).bucketPairs L (r + 1)) = order.flatMap ((E' r).bucketPairs L (r + 1)) :=
  List.flatMap_congr fun _ hb => ha.bucketPairs h h' hr (List.mem_range.mp (h.order_perm.mem_iff.mp hb))

theorem Agree.pairTree {r : ℕ} (ha : Agree (forestOf L E) (forestOf L E') r) {p : ℕ × ℕ × ℕ}
    (hp : (forestOf L E).IsPair (scheme H base) r p) :
    (forestOf L E).pairTree r p = (forestOf L E').pairTree r p := by
  obtain ⟨-, htree⟩ := ha p.1 hp.bucket
  rw [Forest.pairTree, Forest.pairTree, htree _ hp.stored_left, htree _ hp.stored]

theorem Agree.succ (h : InOrder L H base leaves order E)
    (h' : InOrder L H base leaves order E') {r : ℕ} (hr : r < 8)
    (ha : Agree (forestOf L E) (forestOf L E') r) :
    Agree (forestOf L E) (forestOf L E') (r + 1) := by
  have hs := h.served hr
  have hs' := h'.served hr
  rw [← ha.pairs h h' (by omega)] at hs'
  set qs := order.flatMap ((E r).bucketPairs L (r + 1)) with hqs
  have hat : ∀ b, ((E r).roundPlacement L (r + 1)).at b qs =
      ((E' r).roundPlacement L (r + 1)).at b qs := by
    intro b
    refine List.filter_congr fun p hp => ?_
    rw [hs.key p hp, hs'.key p hp, ha.pairTree ((hs.mem p).mp hp)]
  intro b hb
  have hcount : (forestOf L E).count (r + 1) b = (forestOf L E').count (r + 1) b := by
    change min ((E (r + 1)).nslots ((r + 1) % 2) b) nslotsMax =
        min ((E' (r + 1)).nslots ((r + 1) % 2) b) nslotsMax
    rw [hs.count b hb, hs'.count b hb, hat]
  refine ⟨hcount, fun s hlt => ?_⟩
  have hentry := (hs.entry b hb s hlt).1
  have hpair := (hs.mem _).mp (Buckets.mem_of_at hentry).1
  rw [hat, (hs'.entry b hb s (hcount ▸ hlt)).1] at hentry
  rw [Forest.tree_succ, Forest.tree_succ, Option.some.inj hentry]
  exact ha.pairTree hpair

/-- The two solves agree in every layer. -/
theorem InOrder.agree (h : InOrder L H base leaves order E)
    (h' : InOrder L H base leaves order E') {r : ℕ} (hr : r ≤ 8) :
    Agree (forestOf L E) (forestOf L E') r := by
  induction r with
  | zero => exact agree_zero h h'
  | succ r ih => exact (ih (by omega)).succ h h' (by omega)

end Agree
end Aion.Solver
