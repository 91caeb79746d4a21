import AionMiner.Cpu.Digits
import AionMiner.Solver.Planted

/-! One round against its specification: which pairs of a source layer `digit1 .. digit8` combine,
where they put them, and what they leave alone. -/

namespace Aion.Cpu
open Bits Equihash Solver Store Wagner Equi

section Spec
variable (r : ℕ) (X : ℕ → ℕ → Hash)

/-- A layer as round `r` reads it: each stored slot carries the bytes left of a xor `X b s` whose
first `21 * (r - 1)` bits vanish and whose next 14 bits are its bucket. -/
structure SourceLayer (M : Memory) : Prop where
  holds : ∀ b < nbuckets, ∀ s < M.bsize r b, Holds r (slotByte (M.prevHash layout r b s)) (X b s)
  vanish : ∀ b < nbuckets, ∀ s < M.bsize r b, ∀ n < 21 * (r - 1), (X b s).bit n = false
  bucket : ∀ b < nbuckets, ∀ s < M.bsize r b, bucketOf (r - 1) (X b s) = b

structure Matches (M : Memory) (p : ℕ × ℕ × ℕ) : Prop where
  bucket : p.1 < nbuckets
  lt : p.2.1 < p.2.2
  stored : p.2.2 < M.bsize r p.1
  rest : restOf (r - 1) (X p.1 p.2.1) = restOf (r - 1) (X p.1 p.2.2)
  last : ¬LastEq (X p.1 p.2.1) (X p.1 p.2.2)

def pairXor (p : ℕ × ℕ × ℕ) : Hash := X p.1 p.2.1 + X p.1 p.2.2

/-- The bucket a pair goes to: the first 14 bits of digit `r` of its xor. -/
def target (p : ℕ × ℕ × ℕ) : ℕ := bucketOf r (pairXor X p)

/-- How many entries bucket `k` of the target holds, or was asked to hold, before pair number `n`. -/
def heldBefore (e : Equi) (ps : List (ℕ × ℕ × ℕ)) (n k : ℕ) : ℕ :=
  e.mem.nslots (r % 2) k + ((ps.take n).filter fun p => target r X p = k).length

structure Stores (e : Equi) (p : ℕ × ℕ × ℕ) (k s : ℕ) : Prop where
  hash : Holds (r + 1) (slotByte (e.mem.prevHash layout (r + 1) k s)) (pairXor X p)
  vanish : ∀ n < 21 * r, (pairXor X p).bit n = false
  tag : decode (e.mem.heap (r % 2) k s (hashwords (hashsize r))) = p

/-- The round stores the pairs `ps` in this order, as long as their buckets have room, and does
nothing else. -/
structure Combined (ps : List (ℕ × ℕ × ℕ)) (e e' : Equi) : Prop where
  stores : ∀ n p, ps[n]? = some p → heldBefore r X e ps n (target r X p) < nslotsMax →
    Stores r X e' p (target r X p) (heldBefore r X e ps n (target r X p))
  distinct : ∀ n n' p p', ps[n]? = some p → ps[n']? = some p' → target r X p = target r X p' →
    heldBefore r X e ps n (target r X p) = heldBefore r X e ps n' (target r X p) → n = n'
  frame : ∀ k < nbuckets, ∀ s, (∀ n p, ps[n]? = some p → target r X p = k → heldBefore r X e ps n k = s →
    nslotsMax ≤ s) → e'.mem.heap (r % 2) k s = e.mem.heap (r % 2) k s
  words : ∀ k s w, hashwords (hashsize r) < w → e'.mem.heap (r % 2) k s w = e.mem.heap (r % 2) k s w
  counted : ∀ k < nbuckets, e'.mem.nslots (r % 2) k = heldBefore r X e ps ps.length k
  source : e'.mem.heap ((r - 1) % 2) = e.mem.heap ((r - 1) % 2)
  cleared : ∀ b < nbuckets, e'.mem.nslots ((r - 1) % 2) b = 0
  others : e'.bstate = e.bstate ∧ e'.sols = e.sols ∧ e'.nsols = e.nsols ∧ e'.calls = e.calls

end Spec

section Digit
variable {r : ℕ} {X : ℕ → ℕ → Hash} {e : Equi}

theorem eachPair_frame (hr : 1 ≤ r) (e : Equi) :
    (eachPair r (digitPair r) e).bstate = e.bstate ∧
    (eachPair r (digitPair r) e).sols = e.sols := by
  have hne : (r - 1) % 2 ≠ r % 2 := by omega
  exact (eachPair_rule (r := r) (digitPair r) (e := e) (I := fun _ e' => e'.bstate = e.bstate ∧ e'.sols = e.sols)
    (digitPair_heap hne) (digitPair_nslots hne) ⟨rfl, rfl⟩ (fun _ _ _ hI => hI)
    (fun _ e' b s0 s1 _ _ hI => by
      rw [digitPair]
      split
      · exact hI
      · exact hI)).1

theorem digit_frame (hr : 1 ≤ r) (hr8 : r ≤ 8) (e : Equi) :
    (e.digit r).bstate = e.bstate ∧ (e.digit r).sols = e.sols := by
  have h := eachPair_frame hr e
  interval_cases r <;> exact h

theorem SourceLayer.mem_roundPairs_iff (hX : SourceLayer r X e.mem) (hr : 1 ≤ r) (hr8 : r ≤ 8)
    {p : ℕ × ℕ × ℕ} : p ∈ e.mem.roundPairs layout r ↔ Matches r X e.mem p := by
  obtain ⟨r, rfl⟩ := Nat.exists_eq_add_of_le' hr
  rw [mem_roundPairs]
  constructor
  · rintro ⟨hb, hlt, hs, hrest, hkeeps⟩
    have h0 := hX.holds p.1 hb p.2.1 (Nat.lt_trans hlt hs)
    have h1 := hX.holds p.1 hb p.2.2 hs
    rw [keeps_iff (by omega) h0 h1, if_neg (by omega)] at hkeeps
    rw [Memory.rest, Memory.rest, xhash_eq hr (by omega) h0, xhash_eq hr (by omega) h1] at hrest
    exact ⟨hb, hlt, hs, hrest, hkeeps⟩
  · intro hp
    have h0 := hX.holds p.1 hp.bucket p.2.1 (Nat.lt_trans hp.lt hp.stored)
    have h1 := hX.holds p.1 hp.bucket p.2.2 hp.stored
    refine ⟨hp.bucket, hp.lt, hp.stored, ?_, ?_⟩
    · rw [Memory.rest, Memory.rest, xhash_eq hr (by omega) h0, xhash_eq hr (by omega) h1]
      exact hp.rest
    · rw [keeps_iff (by omega) h0 h1, if_neg (by omega)]
      exact hp.last

theorem SourceLayer.pairKey (hX : SourceLayer r X e.mem) (hr : 1 ≤ r) (hr8 : r ≤ 8) {p : ℕ × ℕ × ℕ}
    (hp : Matches r X e.mem p) : (e.mem.roundPlacement layout r).key p = target r X p :=
  xorbucketid_eq hr hr8 (hX.holds p.1 hp.bucket p.2.1 (Nat.lt_trans hp.lt hp.stored))
    (hX.holds p.1 hp.bucket p.2.2 hp.stored)

theorem SourceLayer.pairXor_vanish (hX : SourceLayer r X e.mem) (hr : 1 ≤ r) {p : ℕ × ℕ × ℕ}
    (hp : Matches r X e.mem p) : ∀ n < 21 * r, (pairXor X p).bit n = false := by
  have hs0 := Nat.lt_trans hp.lt hp.stored
  intro n hn
  rw [pairXor, Hash.bit_add_eq_false]
  rcases Nat.lt_or_ge n (21 * (r - 1)) with hlt | hge
  · rw [hX.vanish p.1 hp.bucket p.2.1 hs0 n hlt, hX.vanish p.1 hp.bucket p.2.2 hp.stored n hlt]
  · obtain ⟨m, rfl⟩ := Nat.exists_eq_add_of_le hge
    have hbucket := (hX.bucket p.1 hp.bucket p.2.1 hs0).trans (hX.bucket p.1 hp.bucket p.2.2 hp.stored).symm
    exact digitEq_iff.mpr ⟨hbucket, hp.rest⟩ m (by omega)

theorem SourceLayer.stores (hX : SourceLayer r X e.mem) (hr : 1 ≤ r) (hr8 : r ≤ 8) {p : ℕ × ℕ × ℕ}
    (hp : Matches r X e.mem p) {e' : Equi} {k s : ℕ} {slot : Slot}
    (hslot : e'.mem.heap (r % 2) k s = (e.mem.roundPlacement layout r).write p slot) :
    Stores r X e' p k s := by
  have hs0 := Nat.lt_trans hp.lt hp.stored
  have hcap : e.mem.bsize r p.1 ≤ nslotsMax := Nat.min_le_right _ _
  refine ⟨?_, hX.pairXor_vanish hr hp, ?_⟩
  · obtain ⟨r, rfl⟩ := Nat.exists_eq_add_of_le' hr
    have hprev : e'.mem.prevHash layout (r + 1 + 1) k s =
        fun w => (e.mem.roundPlacement layout (r + 1)).write p slot (layout.hash (r + 1) + w) :=
      funext fun w => congrFun hslot _
    rw [hprev]
    exact holds_entryWrite (by omega) (hX.holds p.1 hp.bucket p.2.1 hs0) (hX.holds p.1 hp.bucket p.2.2 hp.stored)
  · have htag : e'.mem.heap (r % 2) k s (hashwords (hashsize r)) = tree p.1 p.2.1 p.2.2 := by
      rw [hslot]
      exact entryWrite_tag (L := layout)
    rw [htag]
    exact decode_tree hp.bucket (Nat.lt_of_lt_of_le hs0 hcap) (Nat.lt_of_lt_of_le hp.stored hcap)

theorem SourceLayer.heldBefore_eq (hX : SourceLayer r X e.mem) (hr : 1 ≤ r) (hr8 : r ≤ 8) {ps : List (ℕ × ℕ × ℕ)}
    (hps : ∀ p ∈ ps, Matches r X e.mem p) (n k : ℕ) : heldBefore r X e ps n k =
      (e.mem.buckets (r % 2)).count k + ((e.mem.roundPlacement layout r).at k (ps.take n)).length := by
  refine congrArg (fun l => e.mem.nslots (r % 2) k + List.length l) (List.filter_congr fun p hp => ?_)
  rw [hX.pairKey hr hr8 (hps p (List.mem_of_mem_take hp))]

/-- Pair number `n` is the next one of its bucket after those before it. -/
theorem SourceLayer.placed (hX : SourceLayer r X e.mem) (hr : 1 ≤ r) (hr8 : r ≤ 8)
    {ps : List (ℕ × ℕ × ℕ)} (hps : ∀ p ∈ ps, Matches r X e.mem p) {n : ℕ} {p : ℕ × ℕ × ℕ}
    (hn : ps[n]? = some p) : ((e.mem.roundPlacement layout r).at (target r X p) ps)[
      ((e.mem.roundPlacement layout r).at (target r X p) (ps.take n)).length]? = some p := by
  rw [← hX.pairKey hr hr8 (hps p (List.mem_of_getElem? hn))]
  exact Buckets.getElem?_at hn

theorem count_add_lt {M : Memory} {ps : List (ℕ × ℕ × ℕ)}
    (hps : ps.length = (M.roundPairs layout r).length) {k : ℕ}
    (htarget : M.nslots (r % 2) k ≤ 2 ^ 31) :
    (M.buckets (r % 2)).count k + ps.length < (M.roundPlacement layout r).modulus := by
  have h1 : ps.length ≤ nbuckets * 130816 := hps.trans_le length_roundPairs_le
  have h2 : nbuckets = 16384 := rfl
  have h3 : (M.roundPlacement layout r).modulus = 2 ^ 32 := rfl
  have h4 : (M.buckets (r % 2)).count k ≤ 2 ^ 31 := htarget
  omega

/-- A round combines exactly the right pairs. The counters of the target may start anywhere below
`2 ^ 31`; in a solve they start at zero. -/
theorem digit_combines (hr : 1 ≤ r) (hr8 : r ≤ 8) (e : Equi) (X : ℕ → ℕ → Hash) (hX : SourceLayer r X e.mem)
    (htarget : ∀ b < nbuckets, e.mem.nslots (r % 2) b ≤ 2 ^ 31) :
    ∃ ps : List (ℕ × ℕ × ℕ), ps.Nodup ∧ (∀ p, p ∈ ps ↔ Matches r X e.mem p) ∧ Combined r X ps e (e.digit r) := by
  obtain ⟨⟨⟨ps, hperm, hput⟩, hsource, hcleared⟩, hnsols, hcalls⟩ := digit_roundOf hr hr8 e
  set P := e.mem.roundPlacement layout r with hP
  have hmem : ∀ p, p ∈ ps ↔ Matches r X e.mem p := fun p => by
    rw [hperm.mem_iff, hX.mem_roundPairs_iff hr hr8]
  have hps : ∀ p ∈ ps, Matches r X e.mem p := fun p hp => (hmem p).mp hp
  have hnodup : ps.Nodup := hperm.nodup_iff.mpr nodup_roundPairs
  have hnowrap : ∀ k < nbuckets, (e.mem.buckets (r % 2)).count k + ps.length < P.modulus :=
    fun k hk => count_add_lt hperm.length_eq (htarget k hk)
  have hheld : ∀ n k, heldBefore r X e ps n k = (e.mem.buckets (r % 2)).count k + (P.at k (ps.take n)).length :=
    hX.heldBefore_eq hr hr8 hps
  have hslot : (e.digit r).mem.heap (r % 2) = ((e.mem.buckets (r % 2)).putAll P ps).slot :=
    congrArg Buckets.slot hput
  have hcount : (e.digit r).mem.nslots (r % 2) = ((e.mem.buckets (r % 2)).putAll P ps).count :=
    congrArg Buckets.count hput
  refine ⟨ps, hnodup, hmem, ?_⟩
  constructor
  · intro n p hn hroom
    have hk : target r X p < nbuckets := bucketOf_lt r _
    rw [hheld] at hroom ⊢
    have hwritten := congrFun (congrFun hslot (target r X p))
      ((e.mem.buckets (r % 2)).count (target r X p) + (P.at (target r X p) (ps.take n)).length)
    rw [Buckets.slot_putAll_add (hnowrap _ hk), if_pos ⟨Nat.le_add_right _ _, hroom⟩,
      Nat.add_sub_cancel_left, hX.placed hr hr8 hps hn] at hwritten
    exact hX.stores hr hr8 (hps p (List.mem_of_getElem? hn)) hwritten
  · intro n n' p p' hn hn' hsame heq
    have hat := hX.placed hr hr8 hps hn
    have hat' := hX.placed hr hr8 hps hn'
    rw [hheld, hheld, Nat.add_left_cancel_iff] at heq
    rw [← hsame, ← heq, hat] at hat'
    rw [← Option.some.inj hat', ← hn] at hn'
    exact (List.getElem?_inj (List.getElem?_eq_some_iff.mp hn).1 hnodup).mp hn'.symm
  · intro k hk s hfree
    rw [hslot, Buckets.slot_putAll_add (hnowrap k hk)]
    split_ifs with hs
    · cases hat : (P.at k ps)[s - (e.mem.buckets (r % 2)).count k]? with
      | none => rfl
      | some p =>
        obtain ⟨n, hn, hkey, hlen⟩ := Buckets.exists_of_getElem?_at hat
        have hkey' := hX.pairKey hr hr8 (hps p (List.mem_of_getElem? hn))
        have := hfree n p hn (hkey'.symm.trans hkey) (by rw [hheld, hlen]; omega)
        have hcap : P.capacity = nslotsMax := rfl
        omega
    · rfl
  · intro k s w hw
    rw [hslot]
    refine Buckets.putAll_preserves (fun slot : Slot => slot w) (fun p slot => ?_) _ ps k s
    have htag : layout.tag r = hashwords (hashsize r) := rfl
    have hhash : layout.hash r + nexthtunits r = hashwords (hashsize r) := Nat.zero_add _
    change entryWrite layout r _ _ _ slot w = slot w
    rw [entryWrite, if_neg (by omega), if_neg (by omega)]
  · intro k hk
    rw [hcount, Buckets.count_putAll_add (hnowrap k hk), hheld, List.take_length]
  · exact hsource
  · exact hcleared
  · obtain ⟨hbstate, hsols⟩ := digit_frame hr hr8 e
    exact ⟨hbstate, hsols, hnsols, hcalls⟩

end Digit

section Run
variable {H : Blake2b} {base : Blake2bState} {E : ℕ → Memory}

theorem hash_vanish (hE : Solver.Rounds layout H base E) {r : ℕ} (hr : r ≤ 8) : ∀ b < nbuckets,
    ∀ s < (forestOf layout E).count r b, ∀ n < 21 * r,
      ((forestOf layout E).hash (scheme H base) r b s).bit n = false := by
  induction r with
  | zero => exact fun _ _ _ _ n hn => absurd hn (Nat.not_lt_zero n)
  | succ r ih =>
    intro b hb s hs n hn
    have ih := ih (by omega)
    have hp := hE.sound.pair r (by omega) b s hb hs
    rw [Forest.hash, Forest.tree_succ, Forest.pairTree, Tree.sum, Hash.bit_add_eq_false]
    rcases Nat.lt_or_ge n (21 * r) with hlt | hge
    · exact (ih _ hp.bucket _ hp.stored_left n hlt).trans (ih _ hp.bucket _ hp.stored n hlt).symm
    · obtain ⟨m, rfl⟩ := Nat.exists_eq_add_of_le hge
      have h0 := hE.sound.bucket r (by omega) _ _ hp.bucket hp.stored_left
      have h1 := hE.sound.bucket r (by omega) _ _ hp.bucket hp.stored
      exact digitEq_iff.mpr ⟨h0.trans h1.symm, hp.meets.1⟩ m (by omega)

/-- The layers of a solve are such source layers. -/
theorem sourceLayer_of_rounds (hE : Solver.Rounds layout H base E) {r : ℕ} (hr : r ≤ 8) :
    SourceLayer (r + 1) (fun b s => (forestOf layout E).hash (scheme H base) r b s) (E r) :=
  ⟨(hE.layer hr).holds, hash_vanish hE hr, (hE.layer hr).bucket⟩

/-- `digit1` on the leaves of a solve. -/
theorem digit_combines_planted : ∃ X : ℕ → ℕ → Hash, ∃ ps : List (ℕ × ℕ × ℕ), ps.Nodup ∧
    (∀ p, p ∈ ps ↔ Matches 1 X (after plantedHash (List.replicate 32 0) (List.replicate 32 0) 0).mem p) ∧
      Combined 1 X ps (after plantedHash (List.replicate 32 0) (List.replicate 32 0) 0)
        ((after plantedHash (List.replicate 32 0) (List.replicate 32 0) 0).digit 1) := by
  have hE := rounds_after plantedHash (List.replicate 32 0) (List.replicate 32 0)
  have hlayer := sourceLayer_of_rounds hE (Nat.zero_le 8)
  have hempty := (hE.layer (Nat.zero_le 8)).empty
  generalize after plantedHash (List.replicate 32 0) (List.replicate 32 0) = e at *
  refine ⟨_, digit_combines (Nat.le_refl 1) (by decide) (e 0) _ hlayer fun b hb => ?_⟩
  rw [hempty b hb]
  exact Nat.zero_le _

end Run
end Aion.Cpu
